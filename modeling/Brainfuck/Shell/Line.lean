import Brainfuck.Source
import Brainfuck.Text.Blank

/-! Lines typed into the shell. What a line is shows in its first character that is not blank: `//`
begins a comment, a letter a command, and anything else a statement of the language. A statement
that opens more loops than it closes goes on over the following lines. -/

namespace Brainfuck.Shell

inductive LineKind where
  | comment
  | command
  | statement
  deriving DecidableEq, Repr

/-- A letter of ASCII. -/
def isLetter (c : Char) : Bool := ('a' ≤ c && c ≤ 'z') || ('A' ≤ c && c ≤ 'Z')

def LineKind.ofLine (line : List Char) : LineKind :=
  match line.dropWhile Text.isBlank with
  | '/' :: '/' :: _ => .comment
  | c :: _ => if isLetter c then .command else .statement
  | [] => .statement

/-- The number of loops of a statement that wait for a line which closes them. -/
def openLoops (text : List Char) : Nat := (Source.balance text).toNat

/-- A text put together from lines. -/
structure Entry where
  text : List Char
  /-- The numbers of open loops for which a further line was asked for, in order. -/
  asked : List Nat
  /-- The lines not used. -/
  rest : List (List Char)
  deriving DecidableEq, Repr

/-- The entry when a line was asked for before, with `loops` loops open. -/
def Entry.afterAsking (loops : Nat) (e : Entry) : Entry := { e with asked := loops :: e.asked }

/-- Adds lines to a statement as long as it has open loops and there are lines. -/
def Entry.assemble (text : List Char) (more : List (List Char)) : Entry :=
  match openLoops text with
  | 0 => ⟨text, [], more⟩
  | loops + 1 =>
    match more with
    | [] => ⟨text, [loops + 1], []⟩
    | line :: rest => (assemble (text ++ '\n' :: line) rest).afterAsking (loops + 1)

theorem Entry.length_rest_assemble_le (text : List Char) (more : List (List Char)) :
    (assemble text more).rest.length ≤ more.length := by
  fun_induction assemble text more with
  | case1 | case2 => simp
  | case3 => simp only [afterAsking, List.length_cons]; omega

end Brainfuck.Shell
