import Brainfuck.Instr
import Std.Data.ExtTreeMap

/-! The jump table of a program: it takes each instruction that opens a block to the one that ends
the block, and back. -/

namespace Brainfuck

/-- Why a program has no jump table. -/
inductive BlockError where
  /-- An instruction ends a block, but none is open. -/
  | unopened
  /-- A block is still open at the end of the program. -/
  | unclosed
  deriving DecidableEq, Repr

/-- The partner of each position that opens or ends a block. -/
abbrev Jumps := Std.ExtTreeMap Nat Nat

namespace Jumps

/-- Adds the jumps of the instructions from `position` on to the table. The positions of the blocks
open so far are in `opened`, the innermost first. -/
def extend (table : Jumps) (opened : List Nat) (position : Nat) :
    Program → Except BlockError Jumps
  | [] => if opened.isEmpty then .ok table else .error .unclosed
  | ⟨_, .close⟩ :: rest =>
    match opened with
    | [] => .error .unopened
    | start :: outer =>
      extend ((table.insert start position).insert position start) outer (position + 1) rest
  | i :: rest =>
    extend table (if i.op.isOpener then position :: opened else opened) (position + 1) rest

def ofProgram (program : Program) : Except BlockError Jumps := extend ∅ [] 0 program

end Jumps

end Brainfuck
