import Brainfuck.Proofs.Shell.Rejection

/-! Statements over several lines. A statement goes on until it has no open loops or the lines end,
and each further line is asked for with the number of loops then open. The lines do what their
joined text does when it is typed as one. -/

namespace Brainfuck.Shell

open Source

/-- The lines of a statement as one text. -/
def joined (line : List Char) (lines : List (List Char)) : List Char :=
  List.intercalate ['\n'] (line :: lines)

@[simp] theorem joined_nil (line : List Char) : joined line [] = line := by
  simp [joined]

theorem joined_append (line next : List Char) (lines : List (List Char)) :
    joined (line ++ '\n' :: next) lines = joined line (next :: lines) := by
  cases lines <;> simp [joined, List.intercalate]

namespace Entry

/-- The entry is the statement that begins with `line` and goes on over the first `k` of the lines
`more`, no more of them than it needs. -/
structure Spans (line : List Char) (more : List (List Char)) (k : Nat) (e : Entry) : Prop where
  le : k ≤ more.length
  waits : ∀ j < k, 0 < balance (joined line (more.take j))
  /-- Only the end of the lines leaves loops open. -/
  stops : 0 < balance (joined line (more.take k)) → k = more.length
  text : e.text = joined line (more.take k)
  rest : e.rest = more.drop k
  asked : e.asked.map Int.ofNat =
    ((List.range (k + 1)).map fun j => balance (joined line (more.take j))).filter (0 < ·)

variable {line next : List Char} {more : List (List Char)} {k loops : Nat} {e : Entry}

theorem Spans.complete (h : balance line ≤ 0) (more : List (List Char)) :
    Spans line more 0 ⟨line, [], more⟩ where
  le := Nat.zero_le _
  waits := by simp
  stops hopen := by
    rw [List.take_zero, joined_nil] at hopen
    omega
  text := by simp
  rest := rfl
  asked := by simp [h]

theorem Spans.ended (h : balance line = loops + 1) : Spans line [] 0 ⟨line, [loops + 1], []⟩ where
  le := Nat.zero_le _
  waits := by simp
  stops := by simp
  text := by simp
  rest := rfl
  asked := by simp [h]

/-- A statement with open loops spans one line more than what follows from its first two lines. -/
theorem Spans.afterAsking (h : balance line = loops + 1)
    (hspans : Spans (line ++ '\n' :: next) more k e) :
    Spans line (next :: more) (k + 1) (e.afterAsking (loops + 1)) where
  le := Nat.succ_le_succ hspans.le
  waits j hj := by
    cases j with
    | zero => rw [List.take_zero, joined_nil]; omega
    | succ j =>
      rw [List.take_succ_cons, ← joined_append]
      exact hspans.waits j (by omega)
  stops := by
    intro hopen
    rw [List.take_succ_cons, ← joined_append] at hopen
    rw [hspans.stops hopen, List.length_cons]
  text := by rw [List.take_succ_cons, ← joined_append]; exact hspans.text
  rest := hspans.rest
  asked := by
    have hfirst : 0 < balance (joined line ((next :: more).take 0)) := by
      rw [List.take_zero, joined_nil]
      omega
    rw [List.range_succ_eq_map, List.map_cons, List.filter_cons_of_pos (by simpa using hfirst),
      List.map_map]
    show Int.ofNat (loops + 1) :: e.asked.map Int.ofNat = _
    rw [hspans.asked, List.take_zero, joined_nil, h]
    simp only [Function.comp_def, List.take_succ_cons, joined_append]
    rfl

theorem exists_spans_assemble (line : List Char) (more : List (List Char)) :
    ∃ k, Spans line more k (assemble line more) := by
  fun_induction assemble line more with
  | case1 more line hloops =>
    unfold openLoops at hloops
    exact ⟨0, .complete (by omega) more⟩
  | case2 line loops hloops =>
    unfold openLoops at hloops
    exact ⟨0, .ended (by omega)⟩
  | case3 line loops hloops next rest ih =>
    unfold openLoops at hloops
    obtain ⟨k, hspans⟩ := ih
    exact ⟨k + 1, hspans.afterAsking (by omega)⟩

end Entry

namespace Session

/-- Whatever the state of the session, a statement takes the fewest further lines that close its
loops, or all of them, and does what the joined text of its lines does. -/
theorem continued_statement_is_joined_statement (s : Session) (steps : Nat) (line : List Char)
    (more : List (List Char)) (h : LineKind.ofLine line = .statement) :
    ∃ k, (s.feedLines steps line more).1.Spans line more k ∧
      let code := joined line (more.take k)
      (s.feedLines steps line more).2 = s.feed steps code ∧
      LineKind.ofLine code = .statement ∧
      (s.feedLines steps line more).2 =
        if balance code < 0 then ⟨s, [.say "unmatched ]\n"], none⟩ else s.run steps code := by
  obtain ⟨k, hspans⟩ := Entry.exists_spans_assemble line more
  rw [feedLines_statement h]
  refine ⟨k, hspans, ?_⟩
  intro code
  have htext : (Entry.assemble line more).text = code := hspans.text
  -- The text is not classified again when lines are added; it would still be a statement.
  have hkind : LineKind.ofLine code = .statement := htext ▸ Entry.ofLine_assemble h more
  dsimp only
  rw [htext]
  exact ⟨(feed_statement hkind steps).symm, hkind, rfl⟩

/-- A loop whose second line would be a comment on its own, and whose third closes one loop too
many. -/
theorem continued_statement_is_joined_statement_overshoot :
    LineKind.ofLine ['['] = .statement ∧ ∀ (s : Session) (steps : Nat),
      let fed := s.feedLines steps ['['] [['/', '/', '['], ['h', ']', ']', ']'], ['+']]
      fed.1.rest = [['+']] ∧ fed.1.asked.map Int.ofNat = [1, 2] ∧
        fed.2 = ⟨s, [.say "unmatched ]\n"], none⟩ := by
  have hkind : LineKind.ofLine ['['] = .statement := by decide
  refine ⟨hkind, fun s steps => ?_⟩
  intro fed
  obtain ⟨k, hspans, _, _, hreply⟩ := continued_statement_is_joined_statement s steps ['[']
    [['/', '/', '['], ['h', ']', ']', ']'], ['+']] hkind
  have hk : k = 2 := by
    match k, hspans.le with
    | 0, _ => exact absurd (hspans.stops (by decide)) (by decide)
    | 1, _ => exact absurd (hspans.stops (by decide)) (by decide)
    | 2, _ => rfl
    | 3, _ => exact absurd (hspans.waits 2 (by decide)) (by decide)
  subst hk
  refine ⟨hspans.rest, ?_, ?_⟩
  · rw [hspans.asked]
    decide
  · rw [hreply, if_pos (by decide)]

end Session

end Brainfuck.Shell
