import Brainfuck.Compiler
import Brainfuck.Proofs.Refinement
import Brainfuck.Proofs.Rules.Loops
import Brainfuck.Proofs.Rules.Straight

/-! Rewriting. A rule may be applied wherever its pattern fits, in any order and any number of
times. Every such rewriting keeps what is wrong with the blocks, if anything is, and refines the
program; the passes of the optimiser are rewritings of this kind. -/

namespace Brainfuck

open Machine

/-- One application of a rule, at the end of `before`. -/
inductive Rule.Rewrites (r : Rule) : Program → Program → Prop
  | apply (before : Program) {rest : Program} {rewrite : Rewrite}
      (h : r.pattern.rewrite? rest = some rewrite) :
      Rewrites r (before ++ rest) (before ++ (rewrite.items ++ rest.drop rewrite.size))

/-- One application of some rule. -/
def Program.Rewrites (p q : Program) : Prop := ∃ r : Rule, r.Rewrites p q

/-- Any number of applications of rules, in any order. -/
abbrev Program.RewritesTo : Program → Program → Prop := Relation.ReflTransGen Rewrites

open LoopRules MoveRules in
theorem Rule.Exchanges.replaces {r : Rule} {window items : Program}
    (h : r.Exchanges window items) : Op.Replaces window.ops items.ops := by
  cases h with
  | straight h => exact h.alike.replaces
  | loopToOnce hopener hbody hzero hlast =>
    have hzero' : .assign 0 0 ∈ Program.ops _ := List.mem_map.mpr hzero
    simpa [Program.ops, hopener, hlast] using
      replaces_once (List.forall_mem_map.mpr hbody) hzero'
  | loopToTransfers hopener hbody hnet hlast =>
    simpa [Program.ops, hopener, hlast, Function.comp_def] using replaces_transfers hbody hnet
  | commuteSeekLoop ha hb hc hd =>
    simpa [Program.ops, Instr.shift, Op.shift, ha, hb, hc, hd] using replaces_seek ..

namespace Program

variable {p q : Program}

/-- An application of a rule exchanges some instructions in the middle. -/
theorem Rewrites.exists_exchanges (h : p.Rewrites q) :
    ∃ r before window items after, p = before ++ (window ++ after) ∧
      q = before ++ (items ++ after) ∧ Rule.Exchanges r window items := by
  obtain ⟨r, @⟨before, rest, rewrite, h⟩⟩ := h
  refine ⟨r, before, _, _, rest.drop rewrite.size, ?_, rfl, r.relates_exchanges h⟩
  rw [List.take_append_drop]

theorem Rewrites.exists_replaces (h : p.Rewrites q) :
    ∃ before xs ys after, p.ops = before ++ (xs ++ after) ∧ q.ops = before ++ (ys ++ after) ∧
      Op.Replaces xs ys := by
  obtain ⟨r, before, window, items, after, rfl, rfl, hexchange⟩ := h.exists_exchanges
  exact ⟨before.ops, window.ops, items.ops, after.ops, by simp [ops], by simp [ops],
    hexchange.replaces⟩

theorem RewritesTo.blockError?_eq (h : p.RewritesTo q) (depth : Nat) :
    Op.blockError? depth p.ops = Op.blockError? depth q.ops := by
  induction h with
  | refl => rfl
  | tail _ h ih =>
    obtain ⟨before, xs, ys, after, hp, hq, hxy⟩ := h.exists_replaces
    rw [ih, hp, hq]
    exact Op.blockError?_append_congr (fun depth => hxy.blockError?_eq depth after) before depth

theorem RewritesTo.refines {m : Int} (h : p.RewritesTo q) :
    Op.Refines (fun _ : Observed m => True) p.ops q.ops := by
  induction h with
  | refl => exact .refl _
  | tail _ h ih =>
    obtain ⟨before, xs, ys, after, hp, hq, hxy⟩ := h.exists_replaces
    refine ih.trans ?_
    rw [hp, hq]
    exact (hxy.refines after).append_left fun _ _ _ _ _ => trivial

/-- However rules are applied, the blocks of a program match as before, or are wrong in the same
way, and where a run halts, the rewritten program halts with the same view. With a modulus above
zero it halts nowhere else. -/
theorem halts_of_rewritesTo (h : p.RewritesTo q) :
    (∀ e, Jumps.ofProgram q = .error e ↔ Jumps.ofProgram p = .error e) ∧
      ∀ (m : Nat) (s : State m) (v : View m),
        (p.Halts s v → q.Halts s v) ∧ (0 < m → q.Halts s v → p.Halts s v) := by
  refine ⟨fun e => ?_, fun m s v => ⟨fun hp => h.refines.halts hp, fun hm hq => ?_⟩⟩
  · rw [Jumps.ofProgram_eq_error_iff, Jumps.ofProgram_eq_error_iff, h.blockError?_eq]
  · exact (h.refines.halts_iff (by exact_mod_cast hm)).mpr hq

/-- Twice the byte read is added to the next cell: the movements vanish, and then the loop. -/
theorem halts_of_doubling_rewritten :
    RewritesTo
        [⟨0, .read 0⟩, ⟨0, .loop 0⟩, ⟨1, .adjust .minus 1 0⟩, ⟨1, .move .right 1⟩,
          ⟨1, .adjust .plus 2 0⟩, ⟨1, .move .left 1⟩, ⟨0, .close⟩]
        [⟨0, .read 0⟩, ⟨0, .addScaled 0 2 1 0⟩, ⟨0, .assign 0 0⟩] ∧
      ∀ (s : State 256) (v : View 256),
        Halts [⟨0, .read 0⟩, ⟨0, .addScaled 0 2 1 0⟩, ⟨0, .assign 0 0⟩] s v →
          Halts [⟨0, .read 0⟩, ⟨0, .loop 0⟩, ⟨1, .adjust .minus 1 0⟩, ⟨1, .move .right 1⟩,
            ⟨1, .adjust .plus 2 0⟩, ⟨1, .move .left 1⟩, ⟨0, .close⟩] s v := by
  have hmove : Rewrites
      [⟨0, .read 0⟩, ⟨0, .loop 0⟩, ⟨1, .adjust .minus 1 0⟩, ⟨1, .move .right 1⟩,
        ⟨1, .adjust .plus 2 0⟩, ⟨1, .move .left 1⟩, ⟨0, .close⟩]
      [⟨0, .read 0⟩, ⟨0, .loop 0⟩, ⟨1, .adjust .minus 1 0⟩, ⟨1, .adjust .plus 2 1⟩, ⟨0, .close⟩] :=
    ⟨.bracketedMove, .apply [⟨0, .read 0⟩, ⟨0, .loop 0⟩, ⟨1, .adjust .minus 1 0⟩]
      (show Pattern.rewrite? _ _ = some ⟨3, [⟨1, .adjust .plus 2 1⟩]⟩ from rfl)⟩
  have hloop : Rewrites
      [⟨0, .read 0⟩, ⟨0, .loop 0⟩, ⟨1, .adjust .minus 1 0⟩, ⟨1, .adjust .plus 2 1⟩, ⟨0, .close⟩]
      [⟨0, .read 0⟩, ⟨0, .addScaled 0 2 1 0⟩, ⟨0, .assign 0 0⟩] :=
    ⟨.loopToTransfers, .apply [⟨0, .read 0⟩] (show Pattern.rewrite? _ _ =
      some ⟨4, [⟨0, .addScaled 0 2 1 0⟩, ⟨0, .assign 0 0⟩]⟩ from rfl)⟩
  have h := Relation.ReflTransGen.head hmove (.single hloop)
  exact ⟨h, fun s v => ((halts_of_rewritesTo h).2 256 s v).2 (by decide)⟩

end Program

/-! The passes of the optimiser apply rules one after the other. -/

theorem Rule.rewrites_of_applyAt? {r : Rule} {c c' : Cursor} (h : r.applyAt? c = some c') :
    r.Rewrites c.program c'.program := by
  rw [applyAt?_eq] at h
  obtain ⟨rewrite, hr, rfl⟩ := Option.map_eq_some_iff.mp h
  have happly := Rewrites.apply c.passed.reverse hr
  rw [← Cursor.program_replace] at happly
  show r.Rewrites _ (ite _ _ _ : Cursor).program
  split
  · rwa [Cursor.program_rewind]
  · exact happly

theorem Cursor.rewritesTo_rewrite (c : Cursor) : c.program.RewritesTo c.rewrite.program := by
  unfold rewrite
  cases h : Rule.all.findSome? (·.applyAt? c) with
  | none => exact .refl
  | some c' =>
    obtain ⟨r, _, hr⟩ := List.exists_of_findSome?_eq_some h
    exact .single ⟨r, Rule.rewrites_of_applyAt? hr⟩

theorem Cursor.rewritesTo_finish (c : Cursor) : c.program.RewritesTo c.finish.program := by
  fun_induction finish c with
  | case1 c h => exact .refl
  | case2 c next h ih =>
    rw [← program_of_advance? h]
    exact next.rewritesTo_rewrite.trans ih

theorem Program.rewritesTo_pass (program : Program) : program.RewritesTo program.pass.1 :=
  (Cursor.ofProgram program).rewritesTo_finish

theorem Program.rewritesTo_of_settleFrom {passes limit : Nat} {program : Program}
    {settled : Settled} (h : settleFrom passes limit program = some settled) :
    program.RewritesTo settled.program := by
  induction limit generalizing passes program with
  | zero => contradiction
  | succ limit ih =>
    have hpass := program.rewritesTo_pass
    rw [settleFrom] at h
    split at h
    · next next hnext =>
      cases h
      rwa [hnext] at hpass
    · next next hnext =>
      rw [hnext] at hpass
      exact hpass.trans (ih h)

theorem Options.rewritesTo_of_optimize {o : Options} {program : Program} {r : Optimized}
    (h : o.optimize program = .ok r) : program.RewritesTo r.program := by
  simp only [optimize] at h
  split at h
  · split at h
    · contradiction
    · next settled hs =>
      cases h
      exact Program.rewritesTo_of_settleFrom hs
  · cases h
    exact .refl

end Brainfuck
