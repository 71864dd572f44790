import Brainfuck.CommandLine.Settings
import Brainfuck.Shell.Session

/-! The shell on the command line. It prompts for lines, hands them to a session, and shows what the
session writes. -/

namespace Brainfuck.CommandLine

open Shell

def shellUsage (name : String) : String :=
  "bfsh - brainfuck shell\n" ++
  "\n" ++
  "Usage: " ++ name ++ " [options]\n" ++
  "\n" ++
  "Options:\n" ++
  "-h, --help\n" ++
  "    Shows this message.\n" ++
  "-O LEVEL, --optimize LEVEL\n" ++
  "    Sets the optimization level: 0 (default), 1 or 2.\n" ++
  "-m MODULUS, --modulus MODULUS\n" ++
  "    Sets the cell wraparound, defaults to 256. 0 disables the wraparound.\n" ++
  "-f, --functions\n" ++
  "    Wraps every loop body into a function in the printed Lua code.\n" ++
  "-g, --debug\n" ++
  "    Enables the debugging command #.\n" ++
  "-v, --verbose\n" ++
  "    Logs the compilation stages.\n"

def shellTool : Tool where
  keys := [.help, .optimize, .modulus, .functions, .debug, .verbose]
  settings := ⟨{ Options.standard with level := .plain }, none, false⟩
  usage := shellUsage

def banner : String := "bfsh - brainfuck shell\nEnter `help` for a list of commands\n"

/-- The prompt for a line when `loops` loops are open. -/
def prompt (loops : Nat) : String := (if loops = 0 then "" else Decimal.natural loops) ++ "> "

/-- The lines of a text. A line ends at a carriage return, a line feed, or the two in that order;
the last line need not. `line` is what has been read of the current line, last character first. -/
def linesFrom (line : List Char) : List Char → List (List Char)
  | [] => if line.isEmpty then [] else [line.reverse]
  | '\r' :: '\n' :: rest => line.reverse :: linesFrom [] rest
  | '\r' :: rest => line.reverse :: linesFrom [] rest
  | '\n' :: rest => line.reverse :: linesFrom [] rest
  | c :: rest => linesFrom (c :: line) rest

def splitLines (text : List Char) : List (List Char) := linesFrom [] text

/-- What is written in a conversation, and why it broke off if it did. -/
structure Transcript where
  events : List Event
  failure : Option Failure
  deriving DecidableEq, Repr

/-- Takes lines until they end. A program gets no input from them. -/
def converse (steps : Nat) (s : Session) : List (List Char) → Transcript
  | [] => ⟨[.say (prompt 0), .say "\n"], none⟩
  | line :: rest =>
    let fed := s.feedLines steps line rest
    let events := (0 :: fed.1.asked).map (fun loops => .say (prompt loops)) ++ fed.2.events
    match fed.2.failure with
    | some failure => ⟨events, some failure⟩
    | none =>
      let after := converse steps fed.2.session fed.1.rest
      { after with events := events ++ after.events }
termination_by lines => lines.length
decreasing_by exact Nat.lt_succ_of_le (s.length_rest_feedLines_le steps line rest)

/-- The bytes that an event sends to the standard output. -/
def stdoutOf : Event → List UInt8
  | .say text => text.toUTF8.data.toList
  | .output bytes => bytes.toList
  | .log _ => []

/-- The text that an event sends to the error output. -/
def stderrOf : Event → String
  | .log entry => entry.render ++ "\n"
  | _ => ""

/-- What the shell has done. -/
structure ShellReport where
  /-- The exit status, or why the shell broke off. -/
  exit : Except Failure Nat
  stdout : List UInt8
  stderr : String

/-- Runs the shell, called by `name`, with the words that follow the name, on the text of the
standard input. -/
def runShell (steps : Nat) (name : String) (words : List String) (input : List Char) :
    ShellReport :=
  match shellTool.configure name words with
  | .error ⟨exit, stderr⟩ => ⟨.ok exit, [], stderr⟩
  | .ok (settings, _) =>
    let transcript := converse steps (Session.start settings.options []) (splitLines input)
    let events := .say banner :: transcript.events
    { exit := match transcript.failure with
        | none => .ok 0
        | some failure => .error failure
      stdout := events.flatMap stdoutOf
      stderr := if settings.verbose then String.join (events.map stderrOf) else "" }

end Brainfuck.CommandLine
