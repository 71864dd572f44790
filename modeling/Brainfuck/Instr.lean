/-! Instructions, the form in which programs are optimised, printed and executed. An instruction is
an operation with its nesting depth. The depth is for the layout of printed code only; no operation
depends on it. Operations name cells by their offset from the pointer, and all their amounts are
integers: an amount of zero or below is an instruction like any other. -/

namespace Brainfuck

/-- The two ways to move the pointer. -/
inductive Direction where
  | left
  | right
  deriving DecidableEq, Repr

/-- The displacement of a movement by `amount`. -/
def Direction.displacement : Direction → Int → Int
  | .left, amount => -amount
  | .right, amount => amount

/-- The two ways to change a cell by an amount. -/
inductive Sign where
  | plus
  | minus
  deriving DecidableEq, Repr

/-- The change of a cell that `amount` is added to, or subtracted from. -/
def Sign.change : Sign → Int → Int
  | .plus, amount => amount
  | .minus, amount => -amount

inductive Op where
  /-- The pointer moves by `amount`. -/
  | move (way : Direction) (amount : Int)
  /-- The cell is increased or decreased by `amount`. -/
  | adjust (sign : Sign) (amount offset : Int)
  /-- The cell becomes `value`. -/
  | assign (value offset : Int)
  /-- The cell becomes the next byte of the input, or zero at its end. -/
  | read (offset : Int)
  /-- The value of the cell plus `bias` is written as one byte. -/
  | write (offset bias : Int)
  /-- Opens a block that is repeated while the cell is not zero. -/
  | loop (offset : Int)
  /-- Opens a block that runs once if the current cell is not zero. -/
  | once
  /-- Ends the innermost open block. -/
  | close
  /-- Cell `dest` is increased by `addend + multiplier * src`. -/
  | addScaled (addend multiplier dest src : Int)
  /-- Cell `dest` is increased by `sign * src`. -/
  | addTo (sign dest src : Int)
  /-- Cell `dest` becomes `value + multiplier * src`. -/
  | copy (value dest src multiplier : Int)
  /-- The cells around the pointer are written out. -/
  | dump
  deriving DecidableEq, Repr

structure Instr where
  depth : Int
  op : Op
  deriving DecidableEq, Repr

abbrev Program := List Instr

namespace Op

/-- The operation that does, before a pointer movement by `distance`, what `op` does after it. -/
def shift (distance : Int) : Op → Op
  | adjust sign amount offset => adjust sign amount (offset + distance)
  | assign value offset => assign value (offset + distance)
  | read offset => read (offset + distance)
  | write offset bias => write (offset + distance) bias
  | loop offset => loop (offset + distance)
  | addScaled addend multiplier dest src =>
    addScaled addend multiplier (dest + distance) (src + distance)
  | addTo sign dest src => addTo sign (dest + distance) (src + distance)
  | copy value dest src multiplier => copy value (dest + distance) (src + distance) multiplier
  | op => op

/-- The movement by `distance`; none if that is zero. -/
def ofDisplacement (distance : Int) : Option Op :=
  if distance > 0 then some (move .right distance)
  else if distance < 0 then some (move .left (-distance))
  else none

/-- The adjustment that changes the cell by `change`; none if that is zero. -/
def ofChange (change offset : Int) : Option Op :=
  if change > 0 then some (adjust .plus change offset)
  else if change < 0 then some (adjust .minus (-change) offset)
  else none

/-- The simpler of the two operations that increase `dest` by `addend + multiplier * src`. -/
def ofTerms (addend multiplier dest src : Int) : Op :=
  if addend = 0 ∧ (multiplier = 1 ∨ multiplier = -1) then addTo multiplier dest src
  else addScaled addend multiplier dest src

/-- An operation on one cell that reads, writes or changes it. -/
def isCellAccess : Op → Bool
  | adjust .. | assign .. | read _ | write .. => true
  | _ => false

/-- An operation that carries the value of one cell to another. -/
def isTransfer : Op → Bool
  | addScaled .. | addTo .. | copy .. => true
  | _ => false

/-- An operation that opens a block. -/
def isOpener : Op → Bool
  | loop _ | once => true
  | _ => false

end Op

namespace Instr

def shift (distance : Int) (i : Instr) : Instr := { i with op := i.op.shift distance }

end Instr

end Brainfuck
