import Brainfuck.Text.Blank
import Brainfuck.Text.Decimal
import Brainfuck.Text.Digit
import Brainfuck.Text.Escape
import Brainfuck.Text.Quoted

/-! The commands of the shell. A command is a name and, after a space, an argument. -/

namespace Brainfuck.Shell

inductive Command where
  | showPointer
  | setPointer (position : Nat)
  /-- Clears the tape and drops the trail. -/
  | reset
  /-- Shows the current cell. -/
  | get
  | set (value : Nat)
  | increase (amount : Nat)
  | decrease (amount : Nat)
  /-- Shows the cells around the pointer. -/
  | data
  /-- Turns the printing of Lua code on or off. -/
  | printing (on : Bool)
  /-- Begins a trail of the pointer. -/
  | startTrail
  /-- Shows the trail and drops it. -/
  | showTrail
  | echo (text : List Char)
  /-- Chooses what programs read; none is the standard input. -/
  | input (text : Option (List Char))
  | help
  | unknown
  deriving DecidableEq, Repr

/-- An argument made of digits that are not all decimal digits. -/
structure BadNumber where
  text : List Char
  deriving DecidableEq, Repr

/-- The message quotes the argument, up to 200 characters of it. -/
def BadNumber.message (e : BadNumber) : String :=
  "invalid literal for int() with base 10: " ++ String.ofList ((Text.quoted e.text).take 200)

/-- The value of a text of decimal digits. -/
def decimalValue? (text : List Char) : Option Nat :=
  (text.mapM Text.digitValue?).map (·.foldl (fun value d => 10 * value + d) 0)

/-- A command whose argument is a number. -/
def Command.withNumber (make : Nat → Command) (argument : List Char) : Except BadNumber Command :=
  if argument.isEmpty || !argument.all Text.isDigit then .ok .unknown
  else
    match decimalValue? argument with
    | none => .error ⟨argument⟩
    | some n => .ok (make n)

/-- The name and the argument of a command, which the first space separates. -/
def splitCommand (line : List Char) : String × List Char :=
  let line := Text.trim line
  (String.ofList (line.takeWhile (· != ' ')), Text.trim ((line.dropWhile (· != ' ')).drop 1))

/-- The command on a line. -/
def Command.ofLine (line : List Char) : Except BadNumber Command :=
  let (name, argument) := splitCommand line
  match name, String.ofList argument with
  | "ptr", "" => .ok .showPointer
  | "ptr", _ => withNumber .setPointer argument
  | "reset", "" => .ok .reset
  | "get", "" => .ok .get
  | "set", _ => withNumber .set argument
  | "inc", _ => withNumber .increase argument
  | "dec", _ => withNumber .decrease argument
  | "data", "" => .ok .data
  | "printlua", "on" => .ok (.printing true)
  | "printlua", "off" => .ok (.printing false)
  | "trace", "on" => .ok .startTrail
  | "trace", "off" => .ok .showTrail
  | "echo", _ => .ok (.echo (Text.unescape argument))
  | "input", "" => .ok (.input none)
  | "input", _ => .ok (.input (some (Text.unescape argument)))
  | "help", "" => .ok .help
  | _, _ => .ok .unknown

/-- The list of commands. -/
def helpText : String :=
  "Enter brainfuck code or a command, available commands:\n" ++
  "\n" ++
  "ptr [VALUE]\n" ++
  "reset\n" ++
  "get\n" ++
  "set VALUE\n" ++
  "inc VALUE\n" ++
  "dec VALUE\n" ++
  "data\n" ++
  "help\n" ++
  "printlua on|off\n" ++
  "trace on|off\n" ++
  "echo [TEXT]\n" ++
  "input [TEXT]\n"

end Brainfuck.Shell
