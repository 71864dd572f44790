import Brainfuck.Instr

/-! A cursor over a program that is being rewritten. The program lies in three parts: the
instructions that the cursor has passed, those under the cursor, and those ahead of it. What is
passed stays as it is: `replace` and `rewind` touch only the other two parts. -/

namespace Brainfuck

/-- The instructions before the first one that ends a block, that one, and the rest. -/
def Program.splitAtClose : List Instr → Option (List Instr × Instr × List Instr)
  | [] => none
  | i :: rest =>
    if i.op = .close then some ([], i, rest)
    else (splitAtClose rest).map fun (body, last, after) => (i :: body, last, after)

theorem Program.eq_of_splitAtClose {program body after : List Instr} {last : Instr}
    (h : splitAtClose program = some (body, last, after)) : program = body ++ last :: after := by
  induction program generalizing body with
  | nil => simp [splitAtClose] at h
  | cons i rest ih =>
    unfold splitAtClose at h
    split at h
    · simp_all
    · simp only [Option.map_eq_some_iff, Prod.exists] at h
      obtain ⟨body, last, after, hs, heq⟩ := h
      grind

/-- What comes after the instruction that ends the block plays no part. -/
theorem Program.splitAtClose_front {program body after : List Instr} {last : Instr}
    (h : splitAtClose program = some (body, last, after)) :
    splitAtClose (body ++ [last]) = some (body, last, []) := by
  induction program generalizing body with
  | nil => simp [splitAtClose] at h
  | cons i rest ih =>
    unfold splitAtClose at h
    split at h
    · next hclose =>
      cases h
      simp [splitAtClose, hclose]
    · next hclose =>
      obtain ⟨⟨body, last, after⟩, hs, heq⟩ := Option.map_eq_some_iff.mp h
      cases heq
      simp [splitAtClose, hclose, ih hs]

structure Cursor where
  /-- The instructions passed, the nearest first. -/
  passed : List Instr
  /-- The instructions under the cursor, which the next advance passes. -/
  current : List Instr
  ahead : List Instr
  /-- Whether anything has been replaced. -/
  changed : Bool
  deriving DecidableEq, Repr

namespace Cursor

/-- The cursor before the first instruction. -/
def ofProgram (program : Program) : Cursor := ⟨[], [], program, false⟩

/-- The instructions from the cursor on. -/
def remaining (c : Cursor) : List Instr := c.current ++ c.ahead

def program (c : Cursor) : Program := c.passed.reverse ++ c.remaining

/-- The position of the first instruction under the cursor. -/
def start (c : Cursor) : Nat := c.passed.length

/-- The position after the last instruction under the cursor. -/
def stop (c : Cursor) : Nat := c.passed.length + c.current.length

/-- Passes what is under the cursor and takes up the next instruction; none at the end. -/
def advance? (c : Cursor) : Option Cursor :=
  match c.ahead with
  | [] => none
  | i :: rest =>
    some { c with passed := c.current.reverse ++ c.passed, current := [i], ahead := rest }

/-- Puts `items` in the place of the next `count` instructions, or of all if there are fewer. The
cursor then stands on `items`. -/
def replace (count : Nat) (items : List Instr) (c : Cursor) : Cursor :=
  { c with current := items, ahead := c.remaining.drop count, changed := true }

/-- Moves the last `count` instructions under the cursor, or all if there are fewer, ahead of it. -/
def rewind (count : Nat) (c : Cursor) : Cursor :=
  let kept := c.current.length - count
  { c with current := c.current.take kept, ahead := c.current.drop kept ++ c.ahead }

/-- The next `size` instructions; none if there are fewer. -/
def window? (size : Nat) (c : Cursor) : Option (List Instr) :=
  if c.remaining.length < size then none else some (c.remaining.take size)

/-- The next instruction and those after it up to the first that ends a block. -/
def blockWindow? (c : Cursor) : Option (List Instr) :=
  match c.remaining with
  | [] => none
  | i :: rest => (Program.splitAtClose rest).map fun (body, last, _) => i :: body ++ [last]

@[simp] theorem program_ofProgram (program : Program) : (ofProgram program).program = program := rfl

theorem program_of_advance? {c c' : Cursor} (h : c.advance? = some c') :
    c'.program = c.program := by
  unfold advance? at h
  split at h
  · contradiction
  · next i rest ha =>
    rw [← Option.some.inj h]
    simp [program, remaining, ha]

@[simp] theorem program_rewind (count : Nat) (c : Cursor) :
    (c.rewind count).program = c.program := by
  simp only [program, remaining, rewind]
  rw [← List.append_assoc (c.current.take _), List.take_append_drop]

theorem program_replace (count : Nat) (items : List Instr) (c : Cursor) :
    (c.replace count items).program = c.passed.reverse ++ (items ++ c.remaining.drop count) := rfl

theorem length_ahead_of_advance? {c c' : Cursor} (h : c.advance? = some c') :
    c'.current.length = 1 ∧ c'.ahead.length + 1 = c.ahead.length := by
  unfold advance? at h
  split at h <;> simp_all
  simp [← h]

theorem length_ahead_rewind_le (count : Nat) (c : Cursor) :
    (c.rewind count).ahead.length ≤ c.ahead.length + count := by
  simp [rewind]; omega

end Cursor

end Brainfuck
