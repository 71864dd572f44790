import Brainfuck.Instr
import Brainfuck.Text.Decimal

/-! The fragment of Lua that programs are printed in. A tape is kept in the table `data`, its
pointer in `ptr` and the modulus in `max`. Parentheses are part of an expression, and statements
that open and end blocks are lines of their own, so that the text of an expression or a line is the
text of its parts one after the other. -/

namespace Brainfuck.Lua

inductive Expr where
  | int (n : Int)
  /-- The cell `offset` away from the pointer. -/
  | cell (offset : Int)
  /-- The modulus. -/
  | max
  /-- The next byte of the input, or zero at its end. -/
  | readByte
  | neg (e : Expr)
  | add (a b : Expr)
  | sub (a b : Expr)
  | mul (a b : Expr)
  | mod (a b : Expr)
  | paren (e : Expr)
  deriving DecidableEq, Repr

namespace Expr

/-- The sum of `e` and `n`, as a difference if `n` is negative. -/
def plus (e : Expr) (n : Int) : Expr := if n < 0 then sub e (int (-n)) else add e (int n)

/-- The multiple of `e` by the absolute value of `n`; a factor of one is left out. -/
def multiple (n : Int) (e : Expr) : Expr := if n.natAbs = 1 then e else mul (int n.natAbs) e

/-- The sum of `e` and `n` times `x`, as a difference if `n` is negative. -/
def plusMultiple (e : Expr) (n : Int) (x : Expr) : Expr :=
  if n < 0 then sub e (multiple n x) else add e (multiple n x)

/-- The reference to the cell `offset` away from the pointer. -/
def renderCell (offset : Int) : String :=
  if offset > 0 then "data[ptr + " ++ Decimal.signed offset ++ "]"
  else if offset < 0 then "data[ptr - " ++ Decimal.signed (-offset) ++ "]"
  else "data[ptr]"

def render : Expr → String
  | int n => Decimal.signed n
  | cell offset => renderCell offset
  | max => "max"
  | readByte => "string.byte(io.read(1) or \"\\0\")"
  | neg e => "-" ++ e.render
  | add a b => a.render ++ " + " ++ b.render
  | sub a b => a.render ++ " - " ++ b.render
  | mul a b => a.render ++ " * " ++ b.render
  | mod a b => a.render ++ " % " ++ b.render
  | paren e => "(" ++ e.render ++ ")"

end Expr

inductive Stmt where
  | setCell (offset : Int) (value : Expr)
  | movePtr (way : Direction) (amount : Int)
  | writeByte (value : Expr)
  /-- Opens a loop that runs while the cell is not zero. -/
  | whileCell (offset : Int)
  /-- Opens a block that runs if the current cell is not zero. -/
  | ifCell
  /-- Opens the function with the given number. -/
  | function (number : Nat)
  | call (number : Nat)
  /-- Ends the innermost open loop, block or function. -/
  | close
  | dump
  deriving DecidableEq, Repr

namespace Stmt

/-- The call of the function with the given number. -/
def renderCall (number : Nat) : String := "loop" ++ Decimal.natural number ++ "()"

def render : Stmt → String
  | setCell offset value => Expr.renderCell offset ++ " = " ++ value.render
  | movePtr .left amount => "ptr = ptr - " ++ Decimal.signed amount
  | movePtr .right amount => "ptr = ptr + " ++ Decimal.signed amount
  | writeByte value => "io.write(string.char(" ++ value.render ++ "))"
  | whileCell offset => "while " ++ Expr.renderCell offset ++ " ~= 0 do"
  | ifCell => "if " ++ Expr.renderCell 0 ++ " ~= 0 then"
  | function number => "local function " ++ renderCall number
  | call number => renderCall number
  | close => "end"
  | dump => "bf_debug()"

end Stmt

/-- A statement on a line of its own. -/
structure Line where
  /-- The number of tabs before the statement. -/
  indent : Nat
  stmt : Stmt
  deriving DecidableEq, Repr

def Line.render (l : Line) : String :=
  String.ofList (List.replicate l.indent '\t') ++ l.stmt.render ++ "\n"

end Brainfuck.Lua
