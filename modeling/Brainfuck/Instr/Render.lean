import Brainfuck.Instr
import Brainfuck.Text.Decimal

/-! The compact text of instructions, which leaves out their depth. -/

namespace Brainfuck

namespace Op

/-- A cell, by its offset in braces. -/
def renderCell (offset : Int) : String := "\x7b" ++ Decimal.signed offset ++ "\x7d"

/-- The sum of a constant and a multiple of a cell. -/
def renderTerms (constant multiplier src : Int) : String :=
  Decimal.signed constant ++ Decimal.explicit multiplier ++ "*" ++ renderCell src

def render : Op → String
  | move .left amount => "MoveLeft[" ++ Decimal.signed amount ++ "]"
  | move .right amount => "MoveRight[" ++ Decimal.signed amount ++ "]"
  | adjust .plus amount offset => renderCell offset ++ "+=" ++ Decimal.signed amount
  | adjust .minus amount offset => renderCell offset ++ "-=" ++ Decimal.signed amount
  | assign value offset => renderCell offset ++ "=" ++ Decimal.signed value
  | read offset => renderCell offset ++ "=Read[]"
  | write offset bias =>
    "Write[" ++ renderCell offset ++ (if bias = 0 then "" else Decimal.explicit bias) ++ "]"
  | loop offset => "Loop[" ++ renderCell offset ++ "]"
  | once => "If[" ++ renderCell 0 ++ "]"
  | close => "End[]"
  | addScaled addend multiplier dest src =>
    "AddToScaled[" ++ renderCell dest ++ "+=" ++ renderTerms addend multiplier src ++ "]"
  | addTo sign dest src =>
    "AddTo[" ++ renderCell dest ++ (if sign < 0 then "-=" else "+=") ++ renderCell src ++ "]"
  | copy value dest src multiplier =>
    "MoveTo[" ++ renderCell dest ++ "=" ++
      (if value = 0 ∧ multiplier = 1 then renderCell src else renderTerms value multiplier src) ++
      "]"
  | dump => "Debug[]"

end Op

/-- The instructions in order, separated by commas. -/
def Program.render (program : Program) : String :=
  "Program[" ++ ", ".intercalate (program.map (·.op.render)) ++ "]"

end Brainfuck
