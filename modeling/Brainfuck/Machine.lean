import Brainfuck.Jumps
import Brainfuck.Tape

/-! The machine that executes programs. Its state is a tape, the input that is left, the output so
far, and on request the trail of the pointer. `Op.perform` is what an operation does to the state;
`Machine.Code.next` finds the instruction that comes after it, and tells when there can be none. -/

namespace Brainfuck

namespace Machine

structure State (m : Int) where
  tape : Tape m
  input : List UInt8
  /-- The bytes written; none if there is nothing to write to. -/
  output : Option (Array UInt8)
  /-- The positions that the pointer has been moved to, if they are recorded. -/
  trail : Option (Array Int)

namespace State

variable {m : Int}

/-- Records the position of the pointer. -/
def mark (s : State m) : State m := { s with trail := s.trail.map (·.push s.tape.ptr) }

/-- Stores `value` in the cell at `offset`. -/
def put (s : State m) (offset value : Int) : State m := { s with tape := s.tape.put offset value }

/-- Moves the pointer, and records where it is then. -/
def move (s : State m) (distance : Int) : State m := mark { s with tape := s.tape.move distance }

/-- Stores the next byte of the input, or zero at its end, in the cell at `offset`. -/
def read (s : State m) (offset : Int) : State m :=
  match s.input with
  | [] => s.put offset 0
  | byte :: rest => { s with input := rest }.put offset byte.toNat

/-- Writes the low byte of the remainder of `value`. -/
def write (s : State m) (value : Int) : State m :=
  { s with output := s.output.map (·.push (UInt8.ofInt (wrap m value))) }

/-- Writes the text of the tape. -/
def dump (s : State m) : State m :=
  { s with output := s.output.map (· ++ (s.tape.render ++ "\n").toUTF8.data) }

end State

end Machine

open Machine

variable {m : Int}

/-- The effect of an operation on the state. Operations that open or end blocks have none. -/
def Op.perform (s : State m) : Op → State m
  | move way amount => s.move (way.displacement amount)
  | adjust sign amount offset => s.put offset (s.tape.cell offset + sign.change amount)
  | assign value offset => s.put offset value
  | read offset => s.read offset
  | write offset bias => s.write (s.tape.cell offset + bias)
  | addScaled addend multiplier dest src =>
    s.put dest (s.tape.cell dest + addend + multiplier * s.tape.cell src)
  | addTo sign dest src => s.put dest (s.tape.cell dest + sign * s.tape.cell src)
  | copy value dest src multiplier => s.put dest (value + multiplier * s.tape.cell src)
  | dump => s.dump
  | loop _ | once | close => s

namespace Machine

/-- Why the machine cannot execute an instruction. -/
inductive Fault where
  /-- A byte is to be written, and there is nothing to write to. -/
  | noOutput
  /-- A jump is to be taken that is not in the table. -/
  | noJump
  deriving DecidableEq, Repr

/-- Instructions with their jump table. -/
structure Code where
  instrs : Array Instr
  jumps : Jumps

def Code.ofProgram (program : Program) : Except BlockError Code :=
  (Jumps.ofProgram program).map (⟨program.toArray, ·⟩)

/-- The other end of the block that the instruction at `pc` opens or ends. -/
def Code.partner (code : Code) (pc : Nat) : Except Fault Nat :=
  match code.jumps[pc]? with
  | none => .error .noJump
  | some position => .ok position

/-- Whether the instruction at `pc` opens a loop. -/
def Code.isLoop (code : Code) (pc : Nat) : Bool :=
  match code.instrs[pc]? with
  | some ⟨_, .loop _⟩ => true
  | _ => false

/-- The position of the instruction that follows the one at `pc` in the state `s`. An instruction
that opens a block is followed by what comes after the block if its cell is zero, and the end of a
loop by the instruction that opened it. -/
def Code.next (code : Code) (pc : Nat) (s : State m) : Op → Except Fault Nat
  | .write .. => if s.output.isNone then .error .noOutput else .ok (pc + 1)
  | .loop offset =>
    if s.tape.cell offset = 0 then (code.partner pc).map (· + 1) else .ok (pc + 1)
  | .once => if s.tape.cell 0 = 0 then (code.partner pc).map (· + 1) else .ok (pc + 1)
  | .close => (code.partner pc).map fun start => if code.isLoop start then start else pc + 1
  | _ => .ok (pc + 1)

/-- How a run ends. -/
inductive Outcome (m : Int) where
  /-- The program came to its end. -/
  | halted (s : State m)
  /-- An instruction could not be executed in the state `s`. -/
  | faulted (fault : Fault) (s : State m)
  /-- The steps allowed were not enough; `s` is the state after them. -/
  | unfinished (s : State m)

/-- Executes at most `steps` instructions, beginning with the one at `pc`. -/
def Code.run (code : Code) (steps : Nat) (pc : Nat) (s : State m) : Outcome m :=
  match code.instrs[pc]? with
  | none => .halted s
  | some i =>
    match steps with
    | 0 => .unfinished s
    | steps + 1 =>
      match code.next pc s i.op with
      | .error fault => .faulted fault s
      | .ok pc => code.run steps pc (i.op.perform s)

end Machine

/-- Executes the program from its first instruction, for at most `steps` instructions. -/
def Program.run (program : Program) (steps : Nat) (s : State m) :
    Except BlockError (Outcome m) :=
  (Code.ofProgram program).map (·.run steps 0 s.mark)

end Brainfuck
