import Brainfuck.Instr
import Brainfuck.Source

/-! Lowering of program text to instructions, in two steps. `Op.ofText` reads the operations: a run
of one of the commands `+`, `-`, `<`, `>` is a single operation, a clear mark directly before a run
of `+` or `-` is the value that the run starts from, and characters without meaning are passed over,
though they end a run. `Program.nest` then counts the open blocks around each operation and refuses
operations whose blocks do not match. -/

namespace Brainfuck

/-- The brackets of a text do not match. The count is the number of closing brackets that are
missing, or below zero the number of opening ones. -/
structure Unbalanced where
  count : Int
  deriving DecidableEq, Repr

def Unbalanced.message (e : Unbalanced) : String := Source.missing e.count

/-- How often `c` stands at the start of a text. -/
def Source.runLength (c : Char) (text : List Char) : Nat := (text.takeWhile (· == c)).length

/-- The text after the run of `c` at its start. -/
def Source.dropRun (c : Char) (text : List Char) : List Char := text.dropWhile (· == c)

theorem Source.length_dropRun_le (c : Char) (text : List Char) :
    (dropRun c text).length ≤ text.length :=
  (List.dropWhile_sublist (· == c)).length_le

namespace Op

open Source in
/-- The operations that a text stands for, in order. -/
def ofText : List Char → List Op
  | [] => []
  | '<' :: rest => move .left (runLength '<' rest + 1) :: ofText (dropRun '<' rest)
  | '>' :: rest => move .right (runLength '>' rest + 1) :: ofText (dropRun '>' rest)
  | '+' :: rest => adjust .plus (runLength '+' rest + 1) 0 :: ofText (dropRun '+' rest)
  | '-' :: rest => adjust .minus (runLength '-' rest + 1) 0 :: ofText (dropRun '-' rest)
  | '0' :: '+' :: rest => assign (runLength '+' rest + 1) 0 :: ofText (dropRun '+' rest)
  | '0' :: '-' :: rest => assign (-(runLength '-' rest + 1)) 0 :: ofText (dropRun '-' rest)
  | '0' :: rest => assign 0 0 :: ofText rest
  | '.' :: rest => write 0 0 :: ofText rest
  | ',' :: rest => read 0 :: ofText rest
  | '[' :: rest => loop 0 :: ofText rest
  | ']' :: rest => close :: ofText rest
  | '#' :: rest => dump :: ofText rest
  | _ :: rest => ofText rest
termination_by text => text.length
decreasing_by all_goals grind [length_dropRun_le]

end Op

namespace Program

/-- The operations with the number of blocks open around them, when `depth` blocks are open before
the first. An operation that closes a block has the depth of the one that opened it. -/
def nest (depth : Nat) : List Op → Except Unbalanced Program
  | [] => if depth = 0 then .ok [] else .error ⟨depth⟩
  | .close :: rest =>
    match depth with
    | 0 => .error ⟨-1⟩
    | outer + 1 => (nest outer rest).map (⟨outer, .close⟩ :: ·)
  | op :: rest =>
    (nest (if op.isOpener then depth + 1 else depth) rest).map (⟨depth, op⟩ :: ·)

/-- The instructions that a text stands for. -/
def lower (text : List Char) : Except Unbalanced Program := nest 0 (Op.ofText text)

end Program

end Brainfuck
