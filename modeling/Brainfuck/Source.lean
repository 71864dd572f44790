import Brainfuck.Text.Decimal

/-! Program text: the characters that are commands, and the balance of its brackets. -/

namespace Brainfuck.Source

/-- The eight commands of the language. -/
def commands : List Char := ['+', '-', '<', '>', '[', ']', '.', ',']

/-- The command that dumps the cells around the pointer; it counts as one only when debugging. -/
def dumpCommand : Char := '#'

def isCommand (debugging : Bool) (c : Char) : Bool :=
  commands.contains c || (debugging && c == dumpCommand)

/-- The text without the characters that are not commands. -/
def strip (debugging : Bool) (text : List Char) : List Char := text.filter (isCommand debugging)

/-- How many more opening than closing brackets the text has. -/
def balance (text : List Char) : Int := (text.count '[' : Int) - (text.count ']' : Int)

/-- The brackets missing from a text of the given balance; empty if none are. -/
def missing (balance : Int) : String :=
  if balance > 0 then "missing " ++ Decimal.signed balance ++ " ]"
  else if balance < 0 then "missing " ++ Decimal.signed (-balance) ++ " ["
  else ""

end Brainfuck.Source
