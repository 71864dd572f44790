import Brainfuck.Optimizer.Cursor

/-! Where a cursor stands in its program. A cursor can be told by the program and by two positions,
those where its current instructions begin and end. Whatever moves it makes, and however far beyond
the end their counts reach, the positions lie in the program and in order, the first one never goes
back, and what stands before it is never touched again. -/

namespace Brainfuck.Cursor

/-- What can be done to a cursor. -/
inductive Move where
  | advance
  | replace (count : Nat) (items : List Instr)
  | rewind (count : Nat)
  deriving DecidableEq, Repr

/-- The cursor after a move. At the end of the program there is nothing to advance to. -/
def make (c : Cursor) : Move → Cursor
  | .advance => c.advance?.getD c
  | .replace count items => c.replace count items
  | .rewind count => c.rewind count

def makeAll (c : Cursor) (moves : List Move) : Cursor := moves.foldl make c

/-- A program with the positions of a cursor in it. -/
structure Marks where
  program : Program
  start : Nat
  stop : Nat
  changed : Bool
  deriving DecidableEq, Repr

/-- The effect of a move on program and positions. -/
def Marks.make (m : Marks) : Move → Marks
  | .advance =>
    if m.stop < m.program.length then { m with start := m.stop, stop := m.stop + 1 } else m
  | .replace count items =>
    { program := m.program.take m.start ++ (items ++ m.program.drop (m.start + count))
      start := m.start
      stop := m.start + items.length
      changed := true }
  | .rewind count => { m with stop := max m.start (m.stop - count) }

def marks (c : Cursor) : Marks := ⟨c.program, c.start, c.stop, c.changed⟩

variable {c c' : Cursor}

theorem start_le_stop (c : Cursor) : c.start ≤ c.stop := by
  simp [start, stop]

theorem length_program (c : Cursor) : c.program.length = c.stop + c.ahead.length := by
  simp only [program, remaining, stop, List.length_append, List.length_reverse]
  omega

theorem take_start (c : Cursor) : c.program.take c.start = c.passed.reverse := by
  simp [program, start]

theorem drop_start (c : Cursor) (count : Nat) :
    c.program.drop (c.start + count) = c.remaining.drop count := by
  simp [program, start, List.drop_append]

theorem marks_make (c : Cursor) (move : Move) : (c.make move).marks = c.marks.make move := by
  cases move with
  | advance =>
    have hlength := c.length_program
    cases hahead : c.ahead with
    | nil => simp [make, advance?, marks, Marks.make, hlength, hahead]
    | cons i rest =>
      have hnext : c.advance? = some
          { c with passed := c.current.reverse ++ c.passed, current := [i], ahead := rest } := by
        simp [advance?, hahead]
      have hprogram := program_of_advance? hnext
      simp [make, hnext, marks, Marks.make, hprogram, hlength, hahead, start, stop, Nat.add_comm]
  | replace count items =>
    simp only [make, marks, Marks.make, program_replace, take_start, drop_start]
    rfl
  | rewind count =>
    have hstop : (c.rewind count).stop = max c.start (c.stop - count) := by
      simp only [rewind, stop, start, List.length_take]
      omega
    simp only [make, marks, Marks.make, program_rewind, hstop]
    rfl

theorem marks_makeAll (c : Cursor) (moves : List Move) :
    (c.makeAll moves).marks = moves.foldl Marks.make c.marks := by
  induction moves generalizing c with
  | nil => rfl
  | cons move moves ih =>
    rw [makeAll, List.foldl_cons, List.foldl_cons, ← marks_make]
    exact ih (c.make move)

theorem passed_make (c : Cursor) (move : Move) : c.passed <:+ (c.make move).passed := by
  cases move with
  | advance =>
    simp only [make, advance?]
    split
    · exact List.suffix_rfl
    · exact List.suffix_append _ _
  | replace | rewind => exact List.suffix_rfl

theorem passed_makeAll (c : Cursor) (moves : List Move) :
    c.passed <:+ (c.makeAll moves).passed := by
  induction moves generalizing c with
  | nil => exact List.suffix_rfl
  | cons move moves ih => exact (c.passed_make move).trans (ih (c.make move))

/-- What both cursors have passed is in the same place for both. -/
theorem take_start_of_passed (h : c.passed <:+ c'.passed) :
    c'.program.take c.start = c.program.take c.start := by
  obtain ⟨newly, hpassed⟩ := h
  rw [take_start, program, ← hpassed]
  simp [start]

/-- After any moves a cursor stands where the moves of its positions lead, which is within the
program; and what it has passed stays the same whatever moves it makes from there. What it replaces
lies between: the instructions behind it are kept in place, and those after the ones that are
replaced are kept in order. -/
theorem cursor_never_looks_back (p : Program) (moves later : List Move) :
    let c := (ofProgram p).makeAll moves
    let c' := c.makeAll later
    c.marks = moves.foldl Marks.make ⟨p, 0, 0, false⟩ ∧
      (c.start ≤ c.stop ∧ c.stop ≤ c.program.length) ∧
      c.start ≤ c'.start ∧
      c'.program.take c.start = c.program.take c.start ∧
      ∀ count items, (c.replace count items).program =
        c.program.take c.start ++
          (items ++ c.program.drop (min (c.start + count) c.program.length)) := by
  intro c c'
  have hpassed : c.passed <:+ c'.passed := c.passed_makeAll later
  refine ⟨(ofProgram p).marks_makeAll moves, ⟨c.start_le_stop, ?_⟩, hpassed.length_le,
    take_start_of_passed hpassed, fun count items => ?_⟩
  · have := c.length_program
    omega
  · have hdrop : c.program.drop (c.start + count) =
        c.program.drop (min (c.start + count) c.program.length) := by
      rw [List.drop_eq_drop_iff]
      omega
    rw [program_replace, take_start, ← drop_start, hdrop]

/-- A cursor that replaces more than there is, and goes back over more than it has made. -/
example :
    ((ofProgram [⟨0, .read 0⟩, ⟨0, .dump⟩]).replace 9 [⟨0, .read 1⟩, ⟨0, .read 2⟩]).rewind 7 =
      ⟨[], [], [⟨0, .read 1⟩, ⟨0, .read 2⟩], true⟩ := by
  decide

end Brainfuck.Cursor
