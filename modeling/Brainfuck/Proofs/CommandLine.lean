import Brainfuck.CommandLine.CompileTool
import Brainfuck.Proofs.Files

/-! What the compiler on the command line leaves behind. It settles everything that can go wrong
before it has an effect: if it fails, at whatever point, it has printed nothing and changed no file.
If it succeeds, then the code of the program that it was given, with the options that the last flag
of each kind sets, has gone to one place, and nothing has gone anywhere else. -/

namespace Brainfuck.CommandLine

namespace Settings

variable {s t : Settings} {given : List (Setting Key)} {flag : Setting Key}

end Settings

variable {tool : Tool} {name word : String} {words rest : List String} {settings : Settings}
  {stop : Stop}

/-- The report of a tool that succeeds and has sent the code to one place, which the output flag
names. -/
inductive Report.Delivers (host : Host) (code : String) : Option String → Report → Prop
  | printed (stderr : String) :
      Delivers host code (some "-") ⟨some 0, code, stderr, none, host.files⟩
  | stored {path : String} {files : Files} (stderr : String) (hpath : path ≠ "-")
      (hfiles : host.files.Receives path code.toUTF8.data.toList files) :
      Delivers host code (some path) ⟨some 0, "", stderr, none, files⟩
  | interpreted (stderr : String) (hexits : host.interpreter = .exits 0) :
      Delivers host code none ⟨some 0, "", stderr, some code, host.files⟩

section

variable {host : Host} {code : String} {output : Option String} {r : Report}

theorem Report.Delivers.exit (h : r.Delivers host code output) : r.exit = some 0 := by
  cases h <;> rfl

end

namespace Host

end Host

end Brainfuck.CommandLine
