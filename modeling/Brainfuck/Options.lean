import Brainfuck.Text.Decimal

/-! The options of the compiler. -/

namespace Brainfuck

/-- How far programs are optimised. -/
inductive Level where
  /-- Not at all. -/
  | plain
  /-- The text is simplified. -/
  | text
  /-- The text is simplified and the instructions are rewritten. -/
  | full
  deriving DecidableEq, Repr

namespace Level

/-- The level with the given number. -/
def ofInt? : Int → Option Level
  | 0 => some .plain
  | 1 => some .text
  | 2 => some .full
  | _ => none

/-- The level with the given number, or the nearest to it. -/
def nearest (n : Int) : Level :=
  if n ≤ 0 then .plain else if n = 1 then .text else .full

def simplifiesText : Level → Bool
  | .plain => false
  | .text | .full => true

def rewritesInstrs : Level → Bool
  | .plain | .text => false
  | .full => true

end Level

structure Options where
  level : Level
  /-- The cells hold remainders modulo this; zero lets them hold any integer. -/
  modulus : Nat
  /-- Whether `#` is a command. -/
  debugging : Bool
  /-- Whether the body of every block is made a function in printed code. -/
  functions : Bool
  /-- Whether printed code begins with the definitions that it relies on. -/
  header : Bool
  /-- The limit on the number of passes of the optimiser, if one is chosen. -/
  maxPasses : Option Int
  deriving DecidableEq, Repr

/-- A number that is not a level, or not a modulus. -/
inductive OptionError where
  | level (n : Int)
  | modulus (n : Int)
  deriving DecidableEq, Repr

def OptionError.message : OptionError → String
  | level n => "invalid optimization level " ++ Decimal.signed n
  | modulus n => "invalid modulus " ++ Decimal.signed n

namespace Options

/-- The highest level, cells of a byte, and a header. -/
def standard : Options := ⟨.full, 256, false, false, true, none⟩

/-- The options with level and modulus given by numbers. The level is checked first. -/
def withNumbers (o : Options) (level modulus : Int) : Except OptionError Options :=
  match Level.ofInt? level with
  | none => .error (.level level)
  | some l =>
    if modulus < 0 then .error (.modulus modulus)
    else .ok { o with level := l, modulus := modulus.toNat }

end Options

end Brainfuck
