import Brainfuck.CommandLine.Flag
import Brainfuck.Options
import Brainfuck.Text.Integer
import Brainfuck.Text.Quoted

/-! The settings that the two tools share, and what their flags mean. -/

namespace Brainfuck.CommandLine

/-- What a flag sets. -/
inductive Key where
  | help
  | output
  | optimize
  | modulus
  | functions
  | debug
  | verbose
  deriving DecidableEq, Repr

def Key.flag : Key → Flag Key
  | help => ⟨help, 'h', "help", false⟩
  | output => ⟨output, 'o', "output", true⟩
  | optimize => ⟨optimize, 'O', "optimize", true⟩
  | modulus => ⟨modulus, 'm', "modulus", true⟩
  | functions => ⟨functions, 'f', "functions", false⟩
  | debug => ⟨debug, 'g', "debug", false⟩
  | verbose => ⟨verbose, 'v', "verbose", false⟩

structure Settings where
  options : Options
  /-- Where the code goes; none runs it. -/
  output : Option String
  /-- Whether the stages of the compiler are logged. -/
  verbose : Bool
  deriving DecidableEq, Repr

/-- Why the flags settle that nothing is done. -/
inductive Refusal where
  /-- Help is asked for. -/
  | help
  | badLevel (argument : String)
  | badModulus (argument : String)
  deriving DecidableEq, Repr

namespace Settings

/-- The level that an argument names. -/
def level? (argument : String) : Option Level :=
  (Text.integer? argument.toList).bind Level.ofInt?

/-- The modulus that an argument names. -/
def modulus? (argument : String) : Option Nat :=
  (Text.integer? argument.toList).bind Int.toNat?

/-- The settings after one more flag. -/
def set (s : Settings) (setting : Setting Key) : Except Refusal Settings :=
  match setting.key with
  | .help => .error .help
  | .output => .ok { s with output := some setting.argument }
  | .optimize =>
    match level? setting.argument with
    | none => .error (.badLevel setting.argument)
    | some level => .ok { s with options := { s.options with level } }
  | .modulus =>
    match modulus? setting.argument with
    | none => .error (.badModulus setting.argument)
    | some modulus => .ok { s with options := { s.options with modulus } }
  | .functions => .ok { s with options := { s.options with functions := true } }
  | .debug => .ok { s with options := { s.options with debugging := true } }
  | .verbose => .ok { s with verbose := true }

/-- The settings after several flags, in their order, up to one that is refused. -/
def setAll (s : Settings) (settings : List (Setting Key)) : Except Refusal Settings :=
  settings.foldlM set s

end Settings

/-- What a tool prints before it stops: its exit status and the text of the error output. -/
structure Stop where
  exit : Nat
  stderr : String
  deriving DecidableEq, Repr

/-- Where to look for help. -/
def hint (name : String) : String := "Type \"" ++ name ++ " --help\" for usage.\n"

def quotedArgument (argument : String) : String := String.ofList (Text.quoted argument.toList)

def Refusal.stop (usage : String) : Refusal → Stop
  | help => ⟨0, usage ++ "\n"⟩
  | badLevel argument =>
    ⟨1, "Error: Invalid optimization level " ++ quotedArgument argument ++ ".\n"⟩
  | badModulus argument => ⟨1, "Error: Invalid modulus " ++ quotedArgument argument ++ ".\n"⟩

/-- A tool: the flags that it has, its settings before any flag, and its usage, which shows the
name that it is called by. -/
structure Tool where
  keys : List Key
  settings : Settings
  usage : String → String

/-- The settings that the words of a command line choose, and the words after the flags. -/
def Tool.configure (tool : Tool) (name : String) (words : List String) :
    Except Stop (Settings × List String) :=
  match Arguments.read (tool.keys.map Key.flag) words with
  | .error e => .error ⟨1, "Error: " ++ e.message ++ "\n" ++ hint name⟩
  | .ok found =>
    match tool.settings.setAll found.settings with
    | .error refusal => .error (refusal.stop (tool.usage name))
    | .ok settings => .ok (settings, found.words)

end Brainfuck.CommandLine
