import Brainfuck.Proofs.Passes

/-! What a pass does at one instruction. Which rule fires is decided by the instructions from the
cursor on alone, and so is what it puts there; a pass never looks back at what it has passed. -/

namespace Brainfuck

/-- The first rule that applies at the front of a list, with what it rewrites. -/
def Rule.firing? (rest : Program) : Option (Rule × Rewrite) :=
  all.findSome? fun r => (r.pattern.rewrite? rest).map (r, ·)

theorem Rule.rewrite?_of_firing? {r : Rule} {rest : Program} {w : Rewrite}
    (h : firing? rest = some (r, w)) : r.pattern.rewrite? rest = some w := by
  obtain ⟨r', _, hr⟩ := List.exists_of_findSome?_eq_some h
  obtain ⟨w', hw, heq⟩ := Option.map_eq_some_iff.mp hr
  cases heq
  exact hw

theorem Rule.firing?_eq_none_iff {rest : Program} :
    firing? rest = none ↔ ∀ r : Rule, r.pattern.rewrite? rest = none := by
  simp only [firing?, List.findSome?_eq_none_iff, Option.map_eq_none_iff]
  exact ⟨fun h r => h r r.mem_all, fun h r _ => h r⟩

namespace Cursor

variable {c next : Cursor}

/-- The cursor after the rule has put its rewrite in place. -/
def apply (c : Cursor) (r : Rule) (w : Rewrite) : Cursor :=
  if r.resumes && Rule.endsInMove w.items then (c.replace w.size w.items).rewind 1
  else c.replace w.size w.items

theorem rewrite_eq (c : Cursor) :
    c.rewrite = ((Rule.firing? c.remaining).map fun f => c.apply f.1 f.2).getD c := by
  have happly : (fun r : Rule => r.applyAt? c) = fun r : Rule =>
      ((r.pattern.rewrite? c.remaining).map (r, ·)).map fun f => c.apply f.1 f.2 := by
    funext r
    rw [Rule.applyAt?_eq, Option.map_map]
    rfl
  rw [rewrite, happly, Rule.firing?, List.map_findSome?]
  rfl

theorem rewrite_of_none (h : Rule.firing? c.remaining = none) : c.rewrite = c := by
  rw [rewrite_eq, h]
  rfl

theorem rewrite_of_some {r : Rule} {w : Rewrite} (h : Rule.firing? c.remaining = some (r, w)) :
    c.rewrite = c.apply r w := by
  rw [rewrite_eq, h]
  rfl

theorem finish_of_none (h : c.advance? = none) : c.finish = c := by
  rw [finish]
  split
  · rfl
  · next hnext => rw [h] at hnext; contradiction

theorem finish_of_some (h : c.advance? = some next) : c.finish = next.rewrite.finish := by
  rw [finish]
  split
  · next hnext => rw [h] at hnext; contradiction
  · next hnext =>
    rw [h] at hnext
    cases hnext
    rfl

/-- A change to cursors that advancing and rewriting keep is kept by the rest of a pass. -/
theorem finish_comm {change : Cursor → Cursor}
    (hadvance : ∀ c, (change c).advance? = c.advance?.map change)
    (hrewrite : ∀ c, (change c).rewrite = change c.rewrite) (c : Cursor) :
    (change c).finish = change c.finish := by
  fun_induction finish c with
  | case1 c hend => rw [finish_of_none (by rw [hadvance, hend]; rfl)]
  | case2 c next hnext ih =>
    rw [finish_of_some (by rw [hadvance, hnext]; rfl), hrewrite, ih]

theorem advance?_cons {i : Instr} {rest : Program} (h : c.ahead = i :: rest) :
    c.advance? = some ⟨c.current.reverse ++ c.passed, [i], rest, c.changed⟩ := by
  unfold advance?
  rw [h]

end Cursor

end Brainfuck
