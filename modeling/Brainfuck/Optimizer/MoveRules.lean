import Brainfuck.Instr

/-! Rewrites that push pointer movements towards the end of the program. An operation that a
movement passes has its offsets shifted by the displacement. Movements that meet become one. -/

namespace Brainfuck.MoveRules

/-- The movement by `distance` at `depth`; nothing if that is zero. -/
def moveBy (depth distance : Int) : List Instr :=
  ((Op.ofDisplacement distance).map (Instr.mk depth)).toList

/-- Two movements around an access to a cell become one after it. -/
def bracketed? (first middle last : Instr) : Option (List Instr) :=
  match first.op, last.op with
  | .move way amount, .move way' amount' =>
    if middle.op.isCellAccess then
      some (middle.shift (way.displacement amount) ::
        moveBy first.depth (way.displacement amount + way'.displacement amount'))
    else none
  | _, _ => none

/-- A movement passes an operation of the kind that `passes` tells. -/
def commuted? (passes : Op → Bool) (first second : Instr) : Option (List Instr) :=
  match first.op with
  | .move way amount =>
    if passes second.op then some [second.shift (way.displacement amount), first] else none
  | _ => none

/-- Two movements become one, or none if they cancel. -/
def combined? (first second : Instr) : Option (List Instr) :=
  match first.op, second.op with
  | .move way amount, .move way' amount' =>
    some (moveBy second.depth (way.displacement amount + way'.displacement amount'))
  | _, _ => none

/-- A movement passes a loop that only moves: the loop then tests a cell that is as far away as the
movement went. -/
def seekLoop? (first opener body last : Instr) : Option (List Instr) :=
  match first.op, opener.op, body.op, last.op with
  | .move way amount, .loop _, .move _ _, .close =>
    some [opener.shift (way.displacement amount), body, last, first]
  | _, _, _, _ => none

end Brainfuck.MoveRules
