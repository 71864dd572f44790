import Brainfuck.Proofs.Firing

/-! Dumps keep what is before them apart from what is after. No rule takes out a dump, so none looks
across one; and a pass that has come to a dump goes on as a pass over the rest would begin. So the
parts before and after a dump are optimised each on its own. -/

namespace Brainfuck

theorem Program.splitAtClose_append (rest after : Program) :
    splitAtClose (rest ++ after) =
      ((splitAtClose rest).map fun s => (s.1, s.2.1, s.2.2 ++ after)).or
        ((splitAtClose after).map fun s => (rest ++ s.1, s.2.1, s.2.2)) := by
  induction rest with
  | nil => simp [splitAtClose]
  | cons i rest ih =>
    rw [List.cons_append, splitAtClose, splitAtClose, ih]
    split
    · simp
    · cases splitAtClose rest <;> cases splitAtClose after <;> simp

namespace Pattern

variable {p : Pattern} {rest after : Program} {w : Rewrite}

theorem rewrite?_append (h : p.rewrite? rest = some w) (after : Program) :
    p.rewrite? (rest ++ after) = some w := by
  unfold rewrite? at h
  split at h
  case h_4 f a rest =>
    split at h
    · contradiction
    · next hs => simpa [rewrite?, Program.splitAtClose_append, hs] using h
  case h_5 => contradiction
  all_goals exact h

/-- The number of instructions that a pattern takes out at least. -/
def width : Pattern → Nat
  | pair _ => 2
  | triple _ => 3
  | quadruple _ => 4
  | block _ => 2

theorem width_le_size (h : p.rewrite? rest = some w) : p.width ≤ w.size := by
  unfold rewrite? at h
  split at h
  case h_4 =>
    split at h
    · contradiction
    · obtain ⟨_, _, rfl⟩ := Option.map_eq_some_iff.mp h
      simp [width]
  case h_5 => contradiction
  all_goals
    obtain ⟨_, _, rfl⟩ := Option.map_eq_some_iff.mp h
    simp [width]

/-- A rewrite is decided by the instructions that it takes out. -/
theorem rewrite?_of_append (h : p.rewrite? (rest ++ after) = some w)
    (hsize : w.size ≤ rest.length) : p.rewrite? rest = some w := by
  have hwidth := Nat.le_trans (width_le_size h) hsize
  cases p with
  | pair f =>
    rcases rest with _ | ⟨a, _ | ⟨b, rest⟩⟩
    · contradiction
    · simp [width] at hwidth
    · exact h
  | triple f =>
    rcases rest with _ | ⟨a, _ | ⟨b, _ | ⟨c, rest⟩⟩⟩
    · contradiction
    · simp [width] at hwidth
    · simp [width] at hwidth
    · exact h
  | quadruple f =>
    rcases rest with _ | ⟨a, _ | ⟨b, _ | ⟨c, _ | ⟨d, rest⟩⟩⟩⟩
    · contradiction
    · simp [width] at hwidth
    · simp [width] at hwidth
    · simp [width] at hwidth
    · exact h
  | block f =>
    cases rest with
    | nil => contradiction
    | cons a rest =>
      simp only [rewrite?, List.cons_append, Program.splitAtClose_append] at h ⊢
      cases hs : Program.splitAtClose rest with
      | some s => simpa [hs] using h
      | none =>
        -- The block ends after `rest`, so it is longer than that.
        rw [hs, Option.map_none, Option.none_or] at h
        split at h
        · contradiction
        · next body last _ hafter =>
          obtain ⟨⟨_, _⟩, _, heq⟩ := Option.map_eq_some_iff.mp hafter
          obtain ⟨_, _, rfl⟩ := Option.map_eq_some_iff.mp h
          cases heq
          simp only [List.length_append, List.length_cons] at hsize
          omega

end Pattern

theorem LoopRules.Adjusts.ne_dump {body : Program} {adjustments : List (Int × Int)}
    (h : Adjusts body adjustments) : ∀ i ∈ body, i.op ≠ .dump := by
  induction h with
  | nil => simp
  | @cons i a _ _ hi _ ih =>
    refine List.forall_mem_cons.mpr ⟨fun hdump => ?_, ih⟩
    rw [hdump] at hi
    contradiction

namespace Rule

variable {r : Rule} {window items : Program}

theorem Straightens.ne_dump (h : r.Straightens window items) : ∀ i ∈ window, i.op ≠ .dump := by
  have hne {α : Type} (f : Op → Option α) (hf : f .dump = none) {i : Instr} {x : α}
      (h : f i.op = some x) : i.op ≠ .dump := by
    intro hdump
    rw [hdump, hf] at h
    contradiction
  have hpasses (test : Op → Bool) (hdump : test .dump = false) {i : Instr}
      (h : test i.op = true) : i.op ≠ .dump := ne_of_apply_ne test (by rw [h, hdump]; decide)
  cases h with
  | bracketedMove ha hb hc => simpa [ha, hc] using hpasses Op.isCellAccess rfl hb
  | commuteAccess ha hb => simpa [ha] using hpasses Op.isCellAccess rfl hb
  | commuteTransfer ha hb => simpa [ha] using hpasses Op.isTransfer rfl hb
  | foldAddend ha hb _ | assignIncrease ha hb _ => simpa [ha] using hne Op.increase? rfl hb
  | assignAdjustment ha hb | combineAdjustments ha hb | combineMoves ha hb
  | reorderWrite ha hb _ => simp [ha, hb]
  | biasWrite ha hb hc => simp [ha, hb, hc]
  | sortStores ha hb _ _ _ => simp [hne Op.target? rfl ha, hne Op.target? rfl hb]
  | deadStore ha _ hb => simp [hne Op.target? rfl ha, hne StoreRules.overwritten? rfl hb]

/-- No rule takes out a dump. -/
theorem Exchanges.ne_dump (h : r.Exchanges window items) : ∀ i ∈ window, i.op ≠ .dump := by
  cases h with
  | straight h => exact h.ne_dump
  | loopToOnce hopener hbody _ hlast =>
    simp only [List.forall_mem_cons, List.forall_mem_append, hopener, hlast]
    refine ⟨nofun, fun i hi hdump => ?_, nofun, nofun⟩
    have hallows := hbody i hi
    rw [hdump] at hallows
    contradiction
  | loopToTransfers hopener hbody _ hlast =>
    simp only [List.forall_mem_cons, List.forall_mem_append, hopener, hlast]
    exact ⟨nofun, hbody.ne_dump, nofun, nofun⟩
  | commuteSeekLoop ha hb hc hd => simp [ha, hb, hc, hd]

/-- A rule takes a dump for the end of the program. -/
theorem rewrite?_append_dump (r : Rule) (rest after : Program) (depth : Int) :
    r.pattern.rewrite? (rest ++ ⟨depth, .dump⟩ :: after) = r.pattern.rewrite? rest := by
  ext w
  refine ⟨fun h => ?_, fun h => Pattern.rewrite?_append h _⟩
  have hwindow := (r.relates_exchanges h).ne_dump
  refine Pattern.rewrite?_of_append h (Nat.le_of_not_lt fun hlt => ?_)
  refine hwindow ⟨depth, .dump⟩ ?_ rfl
  rw [List.take_append]
  obtain ⟨n, hn⟩ := Nat.exists_eq_add_of_lt hlt
  simp [hn, show rest.length + n + 1 - rest.length = n + 1 by omega]

theorem firing?_append_dump (rest after : Program) (depth : Int) :
    firing? (rest ++ ⟨depth, .dump⟩ :: after) = firing? rest := by
  simp only [firing?, rewrite?_append_dump]

end Rule

namespace Cursor

/-- The cursor over a program that goes on with `after`. -/
def extend (c : Cursor) (after : Program) : Cursor := { c with ahead := c.ahead ++ after }

theorem remaining_extend (c : Cursor) (after : Program) :
    (c.extend after).remaining = c.remaining ++ after := (List.append_assoc ..).symm

theorem apply_extend {c : Cursor} {r : Rule} {w : Rewrite} (h : w.size ≤ c.remaining.length)
    (after : Program) : (c.extend after).apply r w = (c.apply r w).extend after := by
  have hreplace : (c.extend after).replace w.size w.items =
      (c.replace w.size w.items).extend after := by
    simp only [replace, remaining_extend, List.drop_append_of_le_length h]
    rfl
  unfold apply
  rw [hreplace]
  split
  · simp [rewind, extend]
  · rfl

theorem rewrite_extend (c : Cursor) (depth : Int) (after : Program) :
    (c.extend (⟨depth, .dump⟩ :: after)).rewrite = c.rewrite.extend (⟨depth, .dump⟩ :: after) := by
  have hfiring := Rule.firing?_append_dump c.remaining after depth
  rw [← remaining_extend] at hfiring
  cases h : Rule.firing? c.remaining with
  | none => rw [rewrite_of_none h, rewrite_of_none (hfiring.trans h)]
  | some f =>
    rw [rewrite_of_some h, rewrite_of_some (hfiring.trans h)]
    exact apply_extend (Pattern.size_bounds (Rule.rewrite?_of_firing? h)).2 _

theorem advance?_extend {c next : Cursor} (h : c.advance? = some next) (after : Program) :
    (c.extend after).advance? = some (next.extend after) := by
  unfold advance? at h
  split at h
  · contradiction
  · next i rest hahead =>
    cases h
    exact advance?_cons (by rw [extend, hahead, List.cons_append])

/-- Up to a dump, a pass goes as if the program ended there. -/
theorem finish_extend (c : Cursor) (depth : Int) (after : Program) :
    (c.extend (⟨depth, .dump⟩ :: after)).finish =
      (c.finish.extend (⟨depth, .dump⟩ :: after)).finish := by
  fun_induction finish c with
  | case1 c hend => rfl
  | case2 c next hnext ih =>
    rw [finish_of_some (advance?_extend hnext _), rewrite_extend, ih]

/-- The cursor with `before` behind it, the nearest first, in which something may have been
replaced. -/
def precede (c : Cursor) (before : Program) (flag : Bool) : Cursor :=
  { c with passed := c.passed ++ before, changed := flag || c.changed }

theorem rewrite_precede (c : Cursor) (before : Program) (flag : Bool) :
    (c.precede before flag).rewrite = c.rewrite.precede before flag := by
  have hremaining : (c.precede before flag).remaining = c.remaining := rfl
  cases h : Rule.firing? c.remaining with
  | none => rw [rewrite_of_none h, rewrite_of_none (hremaining ▸ h)]
  | some f =>
    rw [rewrite_of_some h, rewrite_of_some (hremaining ▸ h)]
    unfold apply
    split <;> simp [precede, replace, rewind, remaining]

theorem advance?_precede (c : Cursor) (before : Program) (flag : Bool) :
    (c.precede before flag).advance? = c.advance?.map (·.precede before flag) := by
  unfold advance?
  cases h : c.ahead <;> simp [precede, h]

/-- The rest of a pass is a pass over what is ahead, whatever is behind. -/
theorem finish_eq_pass (c : Cursor) :
    c.finish.program = c.passed.reverse ++ (c.current ++ (Program.pass c.ahead).1) ∧
      c.finish.changed = (c.changed || (Program.pass c.ahead).2) := by
  cases hahead : c.ahead with
  | nil =>
    rw [finish_of_none (by rw [advance?, hahead]), Program.pass_of_normal Program.normal_nil]
    simp [program, remaining, hahead]
  | cons i rest =>
    have hstart : (⟨c.current.reverse ++ c.passed, [i], rest, c.changed⟩ : Cursor) =
        precede ⟨[], [i], rest, false⟩ (c.current.reverse ++ c.passed) c.changed := by
      simp [precede]
    have hpass : (ofProgram (i :: rest)).finish = (Cursor.mk [] [i] rest false).rewrite.finish :=
      finish_of_some (advance?_cons rfl)
    have hprecede := finish_comm
      (fun d => d.advance?_precede (c.current.reverse ++ c.passed) c.changed)
      (fun d => d.rewrite_precede (c.current.reverse ++ c.passed) c.changed)
    rw [finish_of_some (advance?_cons hahead), hstart, rewrite_precede, hprecede, Program.pass,
      hpass]
    simp [precede, program, remaining]

end Cursor

namespace Program

variable {p q : Program}

theorem pass_dump_cons (depth : Int) (q : Program) :
    pass (⟨depth, .dump⟩ :: q) = (⟨depth, .dump⟩ :: q.pass.1, q.pass.2) := by
  have hdump : Rule.firing? (Cursor.mk [] [⟨depth, .dump⟩] q false).remaining = none :=
    (Rule.firing?_append_dump [] q depth).trans (Rule.firing?_eq_none_iff.mpr (normal_nil · 0))
  obtain ⟨hprogram, hchanged⟩ := (Cursor.mk [] [⟨depth, .dump⟩] q false).finish_eq_pass
  have hfirst : (Cursor.ofProgram (⟨depth, .dump⟩ :: q)).finish =
      (Cursor.mk [] [⟨depth, .dump⟩] q false).rewrite.finish :=
    Cursor.finish_of_some (Cursor.advance?_cons rfl)
  rw [pass, hfirst, Cursor.rewrite_of_none hdump, hprogram, hchanged]
  rfl

/-- A pass over a program with a dump in it is a pass over what is before the dump, and one over
what is after it. -/
theorem pass_append_dump (p q : Program) (depth : Int) :
    pass (p ++ ⟨depth, .dump⟩ :: q) =
      (p.pass.1 ++ ⟨depth, .dump⟩ :: q.pass.1, p.pass.2 || q.pass.2) := by
  have hstart : Cursor.ofProgram (p ++ ⟨depth, .dump⟩ :: q) =
      (Cursor.ofProgram p).extend (⟨depth, .dump⟩ :: q) := rfl
  have hend := Cursor.ahead_of_advance?_eq_none (Cursor.ofProgram p).steps_finish.2
  have hp : p.pass = ((Cursor.ofProgram p).finish.passed.reverse ++
      (Cursor.ofProgram p).finish.current, (Cursor.ofProgram p).finish.changed) := by
    simp [pass, Cursor.program, Cursor.remaining, hend]
  have hahead : ((Cursor.ofProgram p).finish.extend (⟨depth, .dump⟩ :: q)).ahead =
      ⟨depth, .dump⟩ :: q := by
    rw [Cursor.extend, hend, List.nil_append]
  obtain ⟨hprogram, hchanged⟩ :=
    ((Cursor.ofProgram p).finish.extend (⟨depth, .dump⟩ :: q)).finish_eq_pass
  rw [hahead, pass_dump_cons] at hprogram hchanged
  rw [pass, hstart, Cursor.finish_extend, hprogram, hchanged, hp]
  simp [Cursor.extend]

theorem lt_passes_of_settleFrom {done limit : Nat} {s : Settled}
    (h : settleFrom done limit p = some s) : done < s.passes := by
  induction limit generalizing done p with
  | zero => contradiction
  | succ limit ih =>
    rcases p.pass_cases with ⟨_, hnormal⟩ | ⟨hchanged, _, _⟩
    · rw [settleFrom_of_normal hnormal] at h
      cases h
      exact Nat.lt_succ_self done
    · rw [settleFrom_of_changed hchanged] at h
      exact Nat.lt_of_succ_lt (ih h)

theorem settleFrom_mono {done limit limit' : Nat} {s : Settled}
    (h : settleFrom done limit p = some s) (hle : limit ≤ limit') :
    settleFrom done limit' p = some s := by
  induction limit generalizing done limit' p with
  | zero => contradiction
  | succ limit ih =>
    obtain ⟨limit', rfl⟩ := Nat.exists_eq_add_of_le' (Nat.le_trans (Nat.le_add_left 1 limit) hle)
    rcases p.pass_cases with ⟨_, hnormal⟩ | ⟨hchanged, _, _⟩
    · rw [settleFrom_of_normal hnormal] at h ⊢
      exact h
    · rw [settleFrom_of_changed hchanged] at h ⊢
      exact ih h (by omega)

/-- One pass more than a part needs only counts as a pass. -/
theorem settleFrom_pass {done limit : Nat} {s : Settled}
    (h : settleFrom done (limit + 1) p = some s) (hlimit : 0 < limit) :
    settleFrom (done + 1) limit p.pass.1 = some ⟨s.program, max (done + 2) s.passes⟩ := by
  rcases p.pass_cases with ⟨hsame, hnormal⟩ | ⟨hchanged, _, _⟩
  · rw [settleFrom_of_normal hnormal] at h
    cases h
    obtain ⟨limit, rfl⟩ := Nat.exists_eq_add_of_le' hlimit
    rw [hsame, settleFrom_of_normal hnormal]
    simp
  · rw [settleFrom_of_changed hchanged] at h
    have hpasses := lt_passes_of_settleFrom h
    rw [h, Nat.max_eq_right hpasses]

/-- A part that the first pass changes needs a second one. -/
theorem lt_passes_of_changed {done limit : Nat} {s : Settled}
    (h : settleFrom done (limit + 1) p = some s) (hchanged : p.pass.2 = true) :
    0 < limit ∧ done + 1 < s.passes := by
  rw [settleFrom_of_changed hchanged] at h
  refine ⟨Nat.pos_of_ne_zero ?_, lt_passes_of_settleFrom h⟩
  rintro rfl
  contradiction

theorem settleFrom_of_unchanged (h : p.pass.2 = false) (done limit : Nat) :
    settleFrom done (limit + 1) p = some ⟨p.pass.1, done + 1⟩ := by
  rw [settleFrom, show p.pass = (p.pass.1, false) from Prod.ext rfl h]

/-- Both parts are settled when the one that takes more passes is. -/
theorem settleFrom_append_dump {done limit : Nat} {s t : Settled}
    (hp : settleFrom done limit p = some s) (hq : settleFrom done limit q = some t) (depth : Int) :
    settleFrom done limit (p ++ ⟨depth, .dump⟩ :: q) =
      some ⟨s.program ++ ⟨depth, .dump⟩ :: t.program, max s.passes t.passes⟩ := by
  induction limit generalizing done p q s t with
  | zero => contradiction
  | succ limit ih =>
    cases hchanged : p.pass.2 || q.pass.2 with
    | false =>
      have hboth := Bool.or_eq_false_iff.mp hchanged
      rw [settleFrom_of_unchanged hboth.1] at hp
      rw [settleFrom_of_unchanged hboth.2] at hq
      cases hp
      cases hq
      rw [settleFrom, pass_append_dump, hchanged]
      simp
    | true =>
      have hmore : 0 < limit ∧ done + 1 < max s.passes t.passes := by
        rcases Bool.or_eq_true_iff.mp hchanged with h | h
        · have := lt_passes_of_changed hp h
          omega
        · have := lt_passes_of_changed hq h
          omega
      rw [settleFrom, pass_append_dump, hchanged]
      dsimp only
      rw [ih (settleFrom_pass hp hmore.1) (settleFrom_pass hq hmore.1)]
      simp only [Option.some.injEq, Settled.mk.injEq, true_and]
      omega

end Program

namespace Options

/-- What a part settles to under its own limit, it settles to under that of a longer program. -/
theorem settle?_of_optimize {o : Options} {p q : Program} {r : Optimized} (hlevel : o.level = .full)
    (h : o.optimize p = .ok r) (hle : p.length ≤ q.length) :
    ∃ passes, r.passes = some passes ∧
      p.settle? (o.maxPasses.getD q.passLimit).toNat = some ⟨r.program, passes⟩ := by
  simp only [optimize, hlevel, Level.rewritesInstrs, if_true] at h
  split at h
  · contradiction
  · next s hs =>
    cases h
    refine ⟨s.passes, rfl, Program.settleFrom_mono hs ?_⟩
    cases o.maxPasses with
    | none =>
      simp only [Option.getD_none, Program.passLimit]
      omega
    | some n => exact Nat.le_refl _

/-- A dump keeps what is before it apart from what is after it, also where blocks do not match: the
parts are optimised as if each stood alone, whether in one pass or until they are settled. -/
theorem dump_separates_parts (p q : Program) (depth : Int) :
    Program.pass (p ++ ⟨depth, .dump⟩ :: q) =
        (p.pass.1 ++ ⟨depth, .dump⟩ :: q.pass.1, p.pass.2 || q.pass.2) ∧
      ∀ (o : Options) (r s : Optimized), o.level = .full → o.optimize p = .ok r →
        o.optimize q = .ok s →
          o.optimize (p ++ ⟨depth, .dump⟩ :: q) =
            .ok ⟨r.program ++ ⟨depth, .dump⟩ :: s.program, max r.passes s.passes⟩ := by
  refine ⟨Program.pass_append_dump p q depth, fun o r s hlevel hp hq => ?_⟩
  obtain ⟨a, hr, hp⟩ := settle?_of_optimize (q := p ++ ⟨depth, .dump⟩ :: q) hlevel hp (by simp)
  obtain ⟨b, hs, hq⟩ := settle?_of_optimize (q := p ++ ⟨depth, .dump⟩ :: q) hlevel hq (by
    simp only [List.length_append, List.length_cons]
    omega)
  rw [optimize_of_settle? hlevel (Program.settleFrom_append_dump hp hq depth), hr, hs]
  rfl

/-- Without the dump nothing would be left: the movements cancel each other, and then the additions
do. -/
theorem dump_separates_inverses :
    optimize ⟨.full, 256, true, false, false, none⟩
        [⟨0, .move .right 1⟩, ⟨0, .adjust .plus 1 0⟩, ⟨0, .move .right 1⟩] =
      .ok ⟨[⟨0, .adjust .plus 1 1⟩, ⟨0, .move .right 2⟩], some 2⟩ ∧
    optimize ⟨.full, 256, true, false, false, none⟩
        [⟨0, .move .left 1⟩, ⟨0, .adjust .minus 1 0⟩, ⟨0, .move .left 1⟩] =
      .ok ⟨[⟨0, .adjust .minus 1 (-1)⟩, ⟨0, .move .left 2⟩], some 2⟩ ∧
    optimize ⟨.full, 256, true, false, false, none⟩
        [⟨0, .move .right 1⟩, ⟨0, .adjust .plus 1 0⟩, ⟨0, .move .right 1⟩, ⟨0, .dump⟩,
          ⟨0, .move .left 1⟩, ⟨0, .adjust .minus 1 0⟩, ⟨0, .move .left 1⟩] =
      .ok ⟨[⟨0, .adjust .plus 1 1⟩, ⟨0, .move .right 2⟩, ⟨0, .dump⟩,
        ⟨0, .adjust .minus 1 (-1)⟩, ⟨0, .move .left 2⟩], some 2⟩ := by
  refine ⟨?before, ?after, (dump_separates_parts _ _ 0).2 _ _ _ rfl ?before ?after⟩
  · decide +kernel
  · decide +kernel

end Options

end Brainfuck
