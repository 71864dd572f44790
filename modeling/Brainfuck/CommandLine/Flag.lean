/-! Flags on a command line. A flag has a short form of one letter and a long form, which may be cut
down to a beginning that no other flag has. Short forms can share a word, and an argument follows in
the same word or in the next. The flags end before the first word that is not one, or at `--`. -/

namespace Brainfuck.CommandLine

/-- A flag that means `key`. -/
structure Flag (κ : Type) where
  key : κ
  short : Char
  long : String
  takesArgument : Bool

/-- Why words are not flags. -/
inductive FlagError where
  | unknownShort (letter : Char)
  | unknownLong (typed : String)
  | ambiguous (typed : String)
  /-- The flag, as the message shows it, lacks its argument. -/
  | missingArgument (flag : String)
  | unwantedArgument (long : String)
  deriving DecidableEq, Repr

def FlagError.message : FlagError → String
  | unknownShort letter => "option -" ++ String.singleton letter ++ " not recognized"
  | unknownLong typed => "option --" ++ typed ++ " not recognized"
  | ambiguous typed => "option --" ++ typed ++ " not a unique prefix"
  | missingArgument flag => "option " ++ flag ++ " requires argument"
  | unwantedArgument long => "option --" ++ long ++ " must not have an argument"

/-- A flag with its argument, which is empty if it takes none. -/
structure Setting (κ : Type) where
  key : κ
  argument : String
  deriving DecidableEq, Repr

/-- A flag whose argument is the next word, and how a message shows the flag. -/
structure Awaiting (κ : Type) where
  key : κ
  shown : String

/-- The flags in one word, of which the last may still lack its argument. -/
structure Word (κ : Type) where
  settings : List (Setting κ)
  awaiting : Option (Awaiting κ)

variable {κ : Type} (flags : List (Flag κ))

/-- The short flags in a word. -/
def shortFlags : List Char → Except FlagError (Word κ)
  | [] => .ok ⟨[], none⟩
  | c :: rest =>
    match flags.find? (·.short == c) with
    | none => .error (.unknownShort c)
    | some flag =>
      if flag.takesArgument then
        if rest.isEmpty then .ok ⟨[], some ⟨flag.key, "-" ++ String.singleton c⟩⟩
        else .ok ⟨[⟨flag.key, String.ofList rest⟩], none⟩
      else
        (shortFlags rest).map fun word =>
          { word with settings := ⟨flag.key, ""⟩ :: word.settings }

/-- The flag with the given long form, or the only one whose long form begins with it. -/
def findLong (typed : List Char) : Except FlagError (Flag κ) :=
  match flags.filter fun flag => typed.isPrefixOf flag.long.toList with
  | [] => .error (.unknownLong (String.ofList typed))
  | [flag] => .ok flag
  | candidates =>
    match candidates.find? fun flag => typed == flag.long.toList with
    | some flag => .ok flag
    | none => .error (.ambiguous (String.ofList typed))

/-- The long flag in a word, with its argument after an equals sign. -/
def longFlag (word : List Char) : Except FlagError (Word κ) :=
  match findLong flags (word.takeWhile (· != '=')) with
  | .error e => .error e
  | .ok flag =>
    match word.dropWhile (· != '='), flag.takesArgument with
    | [], false => .ok ⟨[⟨flag.key, ""⟩], none⟩
    | [], true => .ok ⟨[], some ⟨flag.key, "--" ++ flag.long⟩⟩
    | _ :: argument, true => .ok ⟨[⟨flag.key, String.ofList argument⟩], none⟩
    | _ :: _, false => .error (.unwantedArgument flag.long)

/-- The settings on a command line and the words after them. -/
structure Arguments (κ : Type) where
  settings : List (Setting κ)
  words : List String

/-- Reads words, of which the first is the argument of the flag that awaits one, if any does. -/
def Arguments.readFrom (awaiting : Option (Awaiting κ)) :
    List String → Except FlagError (Arguments κ)
  | [] =>
    match awaiting with
    | none => .ok ⟨[], []⟩
    | some flag => .error (.missingArgument flag.shown)
  | word :: rest =>
    match awaiting with
    | some flag =>
      (readFrom none rest).map fun found =>
        { found with settings := ⟨flag.key, word⟩ :: found.settings }
    | none =>
      match word.toList with
      | ['-', '-'] => .ok ⟨[], rest⟩
      | '-' :: '-' :: long =>
        match longFlag flags long with
        | .error e => .error e
        | .ok read =>
          (readFrom read.awaiting rest).map fun found =>
            { found with settings := read.settings ++ found.settings }
      | '-' :: c :: cluster =>
        match shortFlags flags (c :: cluster) with
        | .error e => .error e
        | .ok read =>
          (readFrom read.awaiting rest).map fun found =>
            { found with settings := read.settings ++ found.settings }
      | _ => .ok ⟨[], word :: rest⟩

/-- Reads the words of a command line. -/
def Arguments.read (words : List String) : Except FlagError (Arguments κ) :=
  readFrom flags none words

end Brainfuck.CommandLine
