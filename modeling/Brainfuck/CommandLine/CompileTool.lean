import Brainfuck.CommandLine.Settings
import Brainfuck.Compiler
import Brainfuck.Files
import Brainfuck.Text.Latin1

/-! The compiler on the command line. It compiles one file, or the standard input, and prints the
code, writes it to a file, or gives it to the Lua interpreter. -/

namespace Brainfuck.CommandLine

def compileUsage (name : String) : String :=
  "bf2lua - convert Brainfuck to Lua\n" ++
  "\n" ++
  "Usage: " ++ name ++ " [options] filename  (from file)\n" ++
  "       " ++ name ++ " [options] -         (from stdin)\n" ++
  "\n" ++
  "Without --output the generated code is run with the lua interpreter.\n" ++
  "\n" ++
  "Options:\n" ++
  "-h, --help\n" ++
  "    Shows this message.\n" ++
  "-o FILE, --output FILE\n" ++
  "    Writes the generated code to FILE, - for stdout.\n" ++
  "-O LEVEL, --optimize LEVEL\n" ++
  "    Sets the optimization level: 0, 1 or 2 (default).\n" ++
  "-m MODULUS, --modulus MODULUS\n" ++
  "    Sets the cell wraparound, defaults to 256. 0 disables the wraparound.\n" ++
  "-f, --functions\n" ++
  "    Wraps every loop body into a function, for Lua implementations with\n" ++
  "    small limits per block.\n" ++
  "-g, --debug\n" ++
  "    Enables the debugging command #.\n" ++
  "-v, --verbose\n" ++
  "    Logs the compilation stages.\n"

def compileTool : Tool where
  keys := [.help, .output, .optimize, .modulus, .functions, .debug, .verbose]
  settings := ⟨.standard, none, false⟩
  usage := compileUsage

/-- What is to be done once the flags and the program have been read. Each case has the text that
goes to the error output first. -/
inductive Action where
  | stop (exit : Nat) (stderr : String)
  | print (stderr code : String)
  | write (stderr path code : String)
  /-- Gives the code to the Lua interpreter. -/
  | interpret (stderr code : String)
  deriving DecidableEq, Repr

/-- The message for a file that cannot be opened. -/
def couldNotOpen (path : String) (e : OpenError) : String :=
  "Error: Couldn't open " ++ path ++ ": " ++ e.message ++ "\n"

/-- The message for an interpreter that cannot be run. -/
def couldNotInterpret (reason : String) : String :=
  "Error: Couldn't run lua: " ++ reason ++ "\n"

namespace Settings

/-- The log, if it is to be shown. -/
def shownLog (s : Settings) (log : List LogEntry) : String :=
  if s.verbose then String.join (log.map (·.render ++ "\n")) else ""

/-- What to do with a program. -/
def action (s : Settings) (bytes : List UInt8) : Action :=
  match s.options.compile (Text.ofBytes bytes) with
  | ⟨log, .error e⟩ => .stop 1 (s.shownLog log ++ "Error: " ++ e.message ++ "\n")
  | ⟨log, .ok code⟩ =>
    match s.output with
    | none => .interpret (s.shownLog log) code
    | some "-" => .print (s.shownLog log) code
    | some path => .write (s.shownLog log) path code

end Settings

/-- The settings and the word that names the program, if the command line has both. -/
def compileRequest (name : String) (words : List String) : Except Stop (Settings × String) :=
  match compileTool.configure name words with
  | .error stop => .error stop
  | .ok (_, []) => .error ⟨1, hint name⟩
  | .ok (settings, word :: _) => .ok (settings, word)

/-- What comes of running the Lua interpreter. -/
inductive Interpreter where
  /-- It cannot be run, for a reason that the system gives. -/
  | unavailable (reason : String)
  /-- It exits with a status, which is negative if a signal ends it. -/
  | exits (status : Int)
  deriving DecidableEq, Repr

/-- An interpreter by its exit status; none is one that is not there. -/
instance : Coe (Option Nat) Interpreter where
  coe
    | none => .unavailable OpenError.missing.message
    | some status => .exits status

/-- What the tool works with. -/
structure Host where
  files : Files
  stdin : List UInt8
  interpreter : Interpreter
  deriving DecidableEq, Repr

/-- What comes of running code. -/
structure Execution where
  /-- The exit status of the interpreter, or why it could not be run. -/
  status : Except String Int
  /-- The code that the interpreter found in the file that it was given. -/
  interpreted : Option String
  files : Files
  deriving Repr

/-- What the tool has done, apart from what the interpreter does. -/
structure Report where
  /-- The exit status; none if the tool broke off at a path that cannot be one. -/
  exit : Option Nat
  stdout : String
  stderr : String
  /-- The code that the interpreter was given. -/
  interpreted : Option String
  files : Files
  deriving DecidableEq, Repr

namespace Host

/-- The tool stops with a message, and has done nothing else. -/
def stop (host : Host) (exit : Option Nat) (stderr : String) : Report :=
  ⟨exit, "", stderr, none, host.files⟩

/-- The tool stops because a file could not be opened. -/
def stopAt (host : Host) (stderr path : String) : OpenError → Report
  | .nullCharacter => host.stop none stderr
  | e => host.stop (some 1) (stderr ++ couldNotOpen path e)

/-- The code is stored in a temporary file for the interpreter. The file is removed whether or not
the interpreter could be run. -/
def runLua (host : Host) (code : String) : Execution :=
  match host.files.makeTemporary with
  | .error e => ⟨.error e.message, none, host.files⟩
  | .ok (place, files) =>
    let files := files.put place code.toUTF8.data.toList
    match host.interpreter with
    | .unavailable reason => ⟨.error reason, none, files.remove place⟩
    | .exits status => ⟨.ok status, files.text? place, files.remove place⟩

/-- The bytes of the program that a word names. -/
def source (host : Host) (word : String) : Except OpenError (List UInt8) :=
  if word = "-" then .ok host.stdin else host.files.read word

def act (host : Host) : Action → Report
  | .stop exit stderr => host.stop (some exit) stderr
  | .print stderr code => ⟨some 0, code, stderr, none, host.files⟩
  | .write stderr path code =>
    match host.files.write path code.toUTF8.data.toList with
    | .error e => host.stopAt stderr path e
    | .ok files => ⟨some 0, "", stderr, none, files⟩
  | .interpret stderr code =>
    let ⟨status, interpreted, files⟩ := host.runLua code
    match status with
    | .error reason => ⟨some 1, "", stderr ++ couldNotInterpret reason, interpreted, files⟩
    | .ok 0 => ⟨some 0, "", stderr, interpreted, files⟩
    | .ok status =>
      ⟨some 1, "", stderr ++ "Error: lua exited with status " ++ Decimal.signed status ++ "\n",
        interpreted, files⟩

/-- Runs the tool, called by `name`, with the words that follow the name. -/
def run (host : Host) (name : String) (words : List String) : Report :=
  match compileRequest name words with
  | .error ⟨exit, stderr⟩ => host.stop (some exit) stderr
  | .ok (settings, word) =>
    match host.source word with
    | .error e => host.stopAt "" word e
    | .ok bytes => host.act (settings.action bytes)

end Host

end Brainfuck.CommandLine
