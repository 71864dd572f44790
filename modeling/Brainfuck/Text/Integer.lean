import Brainfuck.Text.Blank
import Brainfuck.Text.Digit

/-! Integers as they are typed: decimal digits of any script, in groups that single underscores may
separate, after an optional sign, and with blanks around. -/

namespace Brainfuck.Text

/-- Blanks that may stand around an integer: the information separators of ASCII may not. -/
def isMargin (c : Char) : Bool := isBlank c && !(0x1c ≤ c.toNat && c.toNat ≤ 0x1f)

/-- Reads digits after others whose value is `value`. -/
def naturalFrom? (value : Nat) : List Char → Option Nat
  | [] => some value
  | '_' :: c :: rest =>
    match digitValue? c with
    | none => none
    | some d => naturalFrom? (10 * value + d) rest
  | c :: rest =>
    match digitValue? c with
    | none => none
    | some d => naturalFrom? (10 * value + d) rest

/-- A natural number, which begins with a digit. -/
def natural? : List Char → Option Nat
  | [] => none
  | c :: rest => (digitValue? c).bind (naturalFrom? · rest)

/-- An integer with blanks around it. -/
def integer? (text : List Char) : Option Int :=
  match trimBy isMargin text with
  | '-' :: rest => (natural? rest).map fun n => -(n : Int)
  | '+' :: rest => (natural? rest).map (↑·)
  | rest => (natural? rest).map (↑·)

end Brainfuck.Text
