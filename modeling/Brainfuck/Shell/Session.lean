import Brainfuck.Compiler
import Brainfuck.Machine
import Brainfuck.Shell.Command
import Brainfuck.Shell.Line
import Brainfuck.Text.Latin1

/-! A session of the shell: a tape that is kept from statement to statement, and the settings that
commands change. -/

namespace Brainfuck.Shell

structure Session where
  options : Options
  tape : Tape options.modulus
  /-- What is left of the standard input. -/
  stdin : List UInt8
  /-- Whether the Lua code of statements is printed. -/
  printing : Bool
  /-- The trail of the pointer, if it is recorded. -/
  trail : Option (Array Int)
  /-- The text that programs read in the place of the standard input. -/
  typed : Option (List Char)

/-- What a session writes: text to the console, bytes that a program outputs, entries of the log. -/
inductive Event where
  | say (text : String)
  | output (bytes : Array UInt8)
  | log (entry : LogEntry)
  deriving DecidableEq, Repr

/-- Why a line is not carried out. -/
inductive Failure where
  | badNumber (e : BadNumber)
  /-- The text that programs are to read has characters that are not bytes. -/
  | notBytes
  | noFunction (e : Lua.NoFunction)
  | block (e : BlockError)
  | fault (e : Machine.Fault)
  /-- The steps allowed were not enough. -/
  | unfinished
  deriving DecidableEq, Repr

/-- The session after a line, what it wrote in order, and why it stopped if it did. -/
structure Reply where
  session : Session
  events : List Event
  failure : Option Failure

/-- The reply with events before its own. -/
def Reply.after (events : List Event) (r : Reply) : Reply :=
  { r with events := events ++ r.events }

namespace Session

/-- A session with an empty tape. Its code is printed without a header. -/
def start (o : Options) (stdin : List UInt8) : Session :=
  { options := { o with header := false }
    tape := .empty o.modulus
    stdin
    printing := false
    trail := none
    typed := none }

/-- The bytes that a program reads; none if they are to come from a text that has other
characters. -/
def input? (s : Session) : Option (List UInt8) :=
  match s.typed with
  | none => some s.stdin
  | some text => Text.toBytes? text

/-- The session after a run that ended in `final`. -/
def resume (s : Session) (final : Machine.State s.options.modulus) : Session :=
  match s.typed with
  | none => { s with tape := final.tape, trail := final.trail, stdin := final.input }
  | some _ =>
    { s with tape := final.tape, trail := final.trail, typed := some (Text.ofBytes final.input) }

/-- The reply to a run that ended in `final`. -/
def finish (s : Session) (final : Machine.State s.options.modulus) (failure : Option Failure) :
    Reply :=
  ⟨s.resume final, [.output (final.output.getD #[])], failure⟩

/-- Executes a program on the tape of the session, for at most `steps` instructions. -/
def execute (s : Session) (steps : Nat) (program : Program) : Reply :=
  match s.input? with
  | none => ⟨s, [], some .notBytes⟩
  | some input =>
    match program.run steps ⟨s.tape, input, some #[], s.trail⟩ with
    | .error e => ⟨s, [], some (.block e)⟩
    | .ok (.halted final) => s.finish final none
    | .ok (.faulted fault final) => s.finish final (some (.fault fault))
    | .ok (.unfinished final) => s.finish final (some .unfinished)

/-- The Lua code of a program, if it is to be printed. -/
def listing (s : Session) (program : Program) : Except Lua.NoFunction (List Event) :=
  if s.printing then (Lua.code s.options program).map ([.say ·]) else .ok []

/-- Compiles and executes a statement. -/
def run (s : Session) (steps : Nat) (text : List Char) : Reply :=
  match s.options.build text with
  | ⟨log, .error e⟩ => ⟨s, log.map .log ++ [.say ("Error: " ++ e.message ++ "\n")], none⟩
  | ⟨log, .ok program⟩ =>
    match s.listing program with
    | .error e => ⟨s, log.map .log, some (.noFunction e)⟩
    | .ok events => (s.execute steps program).after (log.map .log ++ events)

/-- Stores a value in the current cell. -/
def put (s : Session) (value : Int) : Session := { s with tape := s.tape.put 0 value }

/-- The current cell, and after a tab the ASCII character that it stands for, if any. -/
def renderCell (s : Session) : String :=
  let value := s.tape.cell 0
  Decimal.signed value ++ "\t" ++
    (if 32 ≤ value ∧ value ≤ 126 then String.singleton (Char.ofNat value.toNat) else "")

/-- The session after a command, and the text that it writes. -/
def perform (s : Session) : Command → Session × String
  | .showPointer => (s, Decimal.signed s.tape.ptr ++ "\n")
  | .setPointer position => ({ s with tape := { s.tape with ptr := position } }, "")
  | .reset => ({ s with tape := .empty s.options.modulus, trail := none }, "")
  | .get => (s, s.renderCell ++ "\n")
  | .set value => (s.put value, "")
  | .increase amount => (s.put (s.tape.cell 0 + amount), "")
  | .decrease amount => (s.put (s.tape.cell 0 - amount), "")
  | .data => (s, s.tape.render ++ "\n")
  | .printing on => ({ s with printing := on }, "")
  | .startTrail => ({ s with trail := some #[] }, "")
  | .showTrail =>
    match s.trail with
    | none => (s, "no trace started\n")
    | some positions =>
      ({ s with trail := none }, String.join (positions.toList.map (Decimal.signed · ++ "\n")))
  | .echo text => (s, String.ofList text ++ "\n")
  | .input text => ({ s with typed := text }, "")
  | .help => (s, helpText)
  | .unknown => (s, "unknown or wrong command\n")

/-- Carries out the command on a line. -/
def obey (s : Session) (line : List Char) : Reply :=
  match Command.ofLine line with
  | .error e => ⟨s, [], some (.badNumber e)⟩
  | .ok command =>
    let (s, said) := s.perform command
    ⟨s, [.say said], none⟩

/-- Carries out a statement of which all lines are there. -/
def conclude (s : Session) (steps : Nat) (text : List Char) : Reply :=
  if Source.balance text < 0 then ⟨s, [.say "unmatched ]\n"], none⟩ else s.run steps text

/-- Carries out a comment, a command or a whole statement. -/
def feed (s : Session) (steps : Nat) (text : List Char) : Reply :=
  match LineKind.ofLine text with
  | .comment => ⟨s, [], none⟩
  | .command => s.obey text
  | .statement => s.conclude steps text

/-- Carries out a line together with as many of the further lines as it needs. Only the line itself
tells a statement from a comment or a command. -/
def feedLines (s : Session) (steps : Nat) (line : List Char) (more : List (List Char)) :
    Entry × Reply :=
  match LineKind.ofLine line with
  | .comment => (⟨line, [], more⟩, ⟨s, [], none⟩)
  | .command => (⟨line, [], more⟩, s.obey line)
  | .statement =>
    let entry := Entry.assemble line more
    (entry, s.conclude steps entry.text)

theorem length_rest_feedLines_le (s : Session) (steps : Nat) (line : List Char)
    (more : List (List Char)) : (s.feedLines steps line more).1.rest.length ≤ more.length := by
  unfold feedLines
  split
  · exact Nat.le_refl _
  · exact Nat.le_refl _
  · exact Entry.length_rest_assemble_le line more

end Session

end Brainfuck.Shell
