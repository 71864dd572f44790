import Brainfuck.Instr

/-! Rewrites of neighbours that store to cells: stores to the same cell are merged or dropped, and
stores to different cells are put into ascending order. Two operations trade places only if neither
uses the cell that the other stores to. -/

namespace Brainfuck

namespace Op

/-- The cell that an operation computes and stores a value to. Reading and writing bytes, which keep
their order, count as none. -/
def target? : Op → Option Int
  | adjust _ _ offset => some offset
  | assign _ offset => some offset
  | addScaled _ _ dest _ => some dest
  | addTo _ dest _ => some dest
  | copy _ dest _ _ => some dest
  | _ => none

/-- The cell that a value is carried from. -/
def source? : Op → Option Int
  | addScaled _ _ _ src => some src
  | addTo _ _ src => some src
  | copy _ _ src _ => some src
  | _ => none

/-- A sum that a cell is increased by: the constant, and the multiple of another cell. -/
structure Increase where
  addend : Int
  multiplier : Int
  dest : Int
  src : Int
  deriving DecidableEq, Repr

/-- What an operation that increases one cell by another adds. -/
def increase? : Op → Option Increase
  | addScaled addend multiplier dest src => some ⟨addend, multiplier, dest, src⟩
  | addTo sign dest src => some ⟨0, sign, dest, src⟩
  | _ => none

end Op

namespace StoreRules

/-- The adjustment by `change` at `depth`; nothing if that is zero. -/
def adjustBy (depth change offset : Int) : List Instr :=
  ((Op.ofChange change offset).map (Instr.mk depth)).toList

/-- An adjustment becomes part of an increase of the same cell. -/
def foldedAddend? (first second : Instr) : Option (List Instr) :=
  match first.op, second.op.increase? with
  | .adjust sign amount offset, some ⟨addend, multiplier, dest, src⟩ =>
    if offset = dest ∧ src ≠ dest then
      some [⟨second.depth, .ofTerms (addend + sign.change amount) multiplier dest src⟩]
    else none
  | _, _ => none

/-- An assignment and an increase of the same cell become a copy. -/
def assignedIncrease? (first second : Instr) : Option (List Instr) :=
  match first.op, second.op.increase? with
  | .assign value offset, some ⟨addend, multiplier, dest, src⟩ =>
    if offset = dest ∧ src ≠ dest then
      some [⟨second.depth, .copy (value + addend) dest src multiplier⟩]
    else none
  | _, _ => none

/-- An assignment and an adjustment of the same cell become an assignment. -/
def assignedAdjustment? (first second : Instr) : Option (List Instr) :=
  match first.op, second.op with
  | .assign value offset, .adjust sign amount offset' =>
    if offset = offset' then some [⟨second.depth, .assign (value + sign.change amount) offset⟩]
    else none
  | _, _ => none

/-- Stores that do not depend on each other are put into ascending order of their cells. -/
def sorted? (first second : Instr) : Option (List Instr) :=
  match first.op.target?, second.op.target? with
  | some x, some y =>
    if y < x ∧ first.op.source? ≠ some y ∧ second.op.source? ≠ some x then some [second, first]
    else none
  | _, _ => none

/-- The cell that an operation overwrites without regard to what it held. -/
def overwritten? : Op → Option Int
  | .assign _ offset => some offset
  | .read offset => some offset
  | .copy _ dest src _ => if src = dest then none else some dest
  | _ => none

/-- A change of a cell that is overwritten next is dropped. -/
def deadStore? (first second : Instr) : Option (List Instr) :=
  match first.op with
  | .adjust _ _ offset => if overwritten? second.op = some offset then some [second] else none
  | .assign _ offset => if overwritten? second.op = some offset then some [second] else none
  | _ => none

/-- Two adjustments of the same cell become one, or none if they cancel. -/
def combined? (first second : Instr) : Option (List Instr) :=
  match first.op, second.op with
  | .adjust sign amount offset, .adjust sign' amount' offset' =>
    if offset = offset' then
      some (adjustBy second.depth (sign.change amount + sign'.change amount') offset)
    else none
  | _, _ => none

/-- Of two adjustments around a byte written from the same cell, the first becomes the bias of the
byte and part of the second. -/
def biasedWrite? (first middle last : Instr) : Option (List Instr) :=
  match first.op, middle.op, last.op with
  | .adjust sign amount offset, .write offset' bias, .adjust sign' amount' offset'' =>
    if offset = offset' ∧ offset' = offset'' then
      some (⟨middle.depth, .write offset' (bias + sign.change amount)⟩ ::
        adjustBy last.depth (sign.change amount + sign'.change amount') offset'')
    else none
  | _, _, _ => none

/-- A byte written from another cell goes before an adjustment. -/
def reorderedWrite? (first second : Instr) : Option (List Instr) :=
  match first.op, second.op with
  | .adjust _ _ offset, .write offset' _ =>
    if offset ≠ offset' then some [second, first] else none
  | _, _ => none

end StoreRules

end Brainfuck
