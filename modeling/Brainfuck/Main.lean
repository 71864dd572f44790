import Brainfuck.CommandLine.CompileTool
import Brainfuck.CommandLine.ShellTool

/-! The program. Its first argument is the name of a tool, the compiler or the shell, and the others
are the arguments of the tool. -/

namespace Brainfuck.CommandLine

/-- A number of steps that no run reaches. -/
def unlimited : Nat := 4611686018427387904

/-- Shows a message on the error output and gives the exit status. -/
def fail (status : Nat) (message : String) : IO UInt32 := do
  (← IO.getStderr).putStr message
  return status.toUInt32

/-- The error that kept a file from being opened. -/
def openErrorOf : IO.Error → OpenError
  | .inappropriateType _ _ details =>
    if details.toLower = "is a directory" then .isFolder else .notFolder
  | .invalidArgument .. => .nameTooLong
  | .permissionDenied .. => .denied
  | _ => .missing

/-- All bytes of a stream. -/
partial def readBytes (stream : IO.FS.Stream) (before : ByteArray) : IO ByteArray := do
  let more ← stream.read 65536
  if more.isEmpty then return before else readBytes stream (before ++ more)

def readProgram (word : String) : IO (Except OpenError (List UInt8)) := do
  try
    let bytes ← if word = "-" then readBytes (← IO.getStdin) .empty else IO.FS.readBinFile word
    return .ok bytes.data.toList
  catch e => return .error (openErrorOf e)

def perform : Action → IO UInt32
  | .stop exit stderr => fail exit stderr
  | .print stderr code => do
    (← IO.getStdout).putStr code
    fail 0 stderr
  | .write stderr path code => do
    try
      IO.FS.writeFile path code
      fail 0 stderr
    catch e => fail 1 (stderr ++ couldNotOpen path (openErrorOf e))
  | .interpret stderr _ => fail 1 (stderr ++ couldNotInterpret OpenError.missing.message)

def mainCompile (name : String) (words : List String) : IO UInt32 := do
  match compileRequest name words with
  | .error ⟨exit, stderr⟩ => fail exit stderr
  | .ok (settings, word) =>
    match ← readProgram word with
    | .error e => fail 1 (couldNotOpen word e)
    | .ok bytes => perform (settings.action bytes)

/-- Shows a prompt and reads a line; none at the end of the input. -/
def ask (loops : Nat) : IO (Option (List Char)) := do
  let out ← IO.getStdout
  out.putStr (prompt loops)
  out.flush
  let line ← (← IO.getStdin).getLine
  return if line.isEmpty then none else some ((splitLines line.toList).headD [])

/-- Reads on until a statement has no open loops. -/
partial def readStatement (text : List Char) : IO (List Char) := do
  match Shell.openLoops text with
  | 0 => return text
  | loops =>
    match ← ask loops with
    | none => return text
    | some line => readStatement (text ++ '\n' :: line)

def present (verbose : Bool) (event : Shell.Event) : IO Unit := do
  let out ← IO.getStdout
  out.write ⟨(stdoutOf event).toArray⟩
  out.flush
  if verbose then (← IO.getStderr).putStr (stderrOf event)

partial def talk (verbose : Bool) (s : Shell.Session) : IO UInt32 := do
  match ← ask 0 with
  | none =>
    (← IO.getStdout).putStr "\n"
    return 0
  | some line =>
    let reply ← match Shell.LineKind.ofLine line with
      | .statement => pure (s.conclude unlimited (← readStatement line))
      | _ => pure (s.feed unlimited line)
    reply.events.forM (present verbose)
    match reply.failure with
    | none => talk verbose reply.session
    | some (.badNumber e) => fail 1 (e.message ++ "\n")
    | some _ => fail 1 ""

def mainShell (name : String) (words : List String) : IO UInt32 := do
  match shellTool.configure name words with
  | .error ⟨exit, stderr⟩ => fail exit stderr
  | .ok (settings, _) =>
    (← IO.getStdout).putStr banner
    talk settings.verbose (.start settings.options [])

end Brainfuck.CommandLine

open Brainfuck.CommandLine in
def main (args : List String) : IO UInt32 :=
  match args with
  | "bf2lua" :: words => mainCompile "bf2lua" words
  | "bfsh" :: words => mainShell "bfsh" words
  | _ => fail 1 "Usage: bf2lua [options] filename | bfsh [options]\n"
