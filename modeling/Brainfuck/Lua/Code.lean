import Brainfuck.Lua.Syntax
import Brainfuck.Modulus
import Brainfuck.Options

/-! Programs as Lua code. Every instruction becomes one or more lines, indented by its depth. On
request the body of every block is made a function, which is called where the block ends; the
functions are numbered in the order in which they are opened. -/

namespace Brainfuck.Lua

/-- The functions that are open, and the number of the next one. -/
structure Functions where
  next : Nat
  /-- The depths of the blocks whose functions are open, with the numbers of the functions. -/
  opened : List (Int × Nat)
  deriving DecidableEq, Repr

namespace Functions

def start : Functions := ⟨1, []⟩

/-- Opens a function for the block at `depth`, in the place of any that is open there. -/
def enter (f : Functions) (depth : Int) : Functions :=
  ⟨f.next + 1, (depth, f.next) :: f.opened.filter (·.1 != depth)⟩

/-- The number of the function open at `depth`, and the functions without it. -/
def leave? (f : Functions) (depth : Int) : Option (Nat × Functions) :=
  (f.opened.lookup depth).map fun number =>
    (number, { f with opened := f.opened.filter (·.1 != depth) })

end Functions

/-- A block ends at a depth at which no function is open. -/
structure NoFunction where
  depth : Int
  deriving DecidableEq, Repr

variable (o : Options)

/-- The remainder of `e` modulo the modulus, if there is one. -/
def reduced (e : Expr) : Expr := if o.modulus = 0 then e else .mod (.paren e) .max

/-- The byte to write for the value of a cell plus `bias`. With a modulus of 256 the value is a byte
already. -/
def byteOf (offset bias : Int) : Expr :=
  if bias = 0 then
    if o.modulus = 256 then .cell offset else .mod (.cell offset) (.int 256)
  else
    let value := reduced o (Expr.plus (.cell offset) bias)
    if o.modulus = 256 then value else .mod (.paren value) (.int 256)

/-- A byte read, which exceeds the cell only if the modulus is below 256. -/
def byteRead : Expr :=
  if 0 < o.modulus ∧ o.modulus < 256 then reduced o .readByte else .readByte

/-- The value of `dest` increased by `addend + multiplier * src`; terms of zero are left out. -/
def increased (addend multiplier dest src : Int) : Expr :=
  let base := if addend = 0 then .cell dest else Expr.plus (.cell dest) addend
  reduced o (if multiplier = 0 then base else base.plusMultiple multiplier (.cell src))

/-- The value `value + multiplier * src`. A cell alone is below the modulus already. -/
def copied (value src multiplier : Int) : Expr :=
  if value = 0 ∧ multiplier = 1 then .cell src
  else
    let base :=
      if multiplier = 1 then .cell src
      else if multiplier = -1 then .neg (.cell src)
      else .mul (.int multiplier) (.cell src)
    reduced o (if value = 0 then base else base.plus value)

/-- Opens the function of a block, if bodies are made functions. -/
def openBlock (f : Functions) (depth : Int) (opener : Stmt) : List Stmt × Functions :=
  if o.functions then ([opener, .function f.next], f.enter depth) else ([opener], f)

/-- Ends a block; if bodies are made functions, ends the function and calls it before. -/
def closeBlock (f : Functions) (depth : Int) : Except NoFunction (List Stmt × Functions) :=
  if o.functions then
    match f.leave? depth with
    | none => .error ⟨depth⟩
    | some (number, f) => .ok ([.close, .call number, .close], f)
  else .ok ([.close], f)

/-- The statements of an instruction. -/
def stmts (f : Functions) (i : Instr) : Except NoFunction (List Stmt × Functions) :=
  match i.op with
  | .move way amount => .ok ([.movePtr way amount], f)
  | .adjust .plus amount offset =>
    .ok ([.setCell offset (reduced o (.add (.cell offset) (.int amount)))], f)
  | .adjust .minus amount offset =>
    .ok ([.setCell offset (reduced o (.sub (.cell offset) (.int amount)))], f)
  | .assign value offset => .ok ([.setCell offset (.int (wrap o.modulus value))], f)
  | .read offset => .ok ([.setCell offset (byteRead o)], f)
  | .write offset bias => .ok ([.writeByte (byteOf o offset bias)], f)
  | .loop offset => .ok (openBlock o f i.depth (.whileCell offset))
  | .once => .ok (openBlock o f i.depth .ifCell)
  | .close => closeBlock o f i.depth
  | .addScaled addend multiplier dest src =>
    .ok ([.setCell dest (increased o addend multiplier dest src)], f)
  | .addTo sign dest src => .ok ([.setCell dest (increased o 0 sign dest src)], f)
  | .copy value dest src multiplier => .ok ([.setCell dest (copied o value src multiplier)], f)
  | .dump => .ok (if o.debugging then [.dump] else [], f)

/-- The lines of a program, when the functions in `f` are open before it. -/
def lines (f : Functions) : Program → Except NoFunction (List Line)
  | [] => .ok []
  | i :: rest =>
    match stmts o f i with
    | .error e => .error e
    | .ok (body, f) => (lines f rest).map (body.map (⟨i.depth.toNat, ·⟩) ++ ·)

/-- The table in which absent cells are zero, the pointer, the modulus if there is one, and when
debugging the function that dumps the cells around the pointer. -/
def header : String :=
  "-- generated by bfl\n" ++
  "data = setmetatable(\x7b\x7d, \x7b__index = function() return 0 end\x7d)\n" ++
  "ptr = 1\n" ++
  (if o.modulus = 0 then "" else "max = " ++ Decimal.natural o.modulus ++ "\n") ++
  (if o.debugging then
    "function bf_debug()\n" ++
    "\tio.write(ptr .. \": \")\n" ++
    "\tfor i = -8, 8 do\n" ++
    "\t\tif i == 0 then\n" ++
    "\t\t\tio.write(string.format(\"[%03d] \", data[ptr + i]))\n" ++
    "\t\telse\n" ++
    "\t\t\tio.write(string.format(\"%03d \", data[ptr + i]))\n" ++
    "\t\tend\n" ++
    "\tend\n" ++
    "\tio.write(\"\\n\")\n" ++
    "end\n"
  else "") ++
  "\n"

/-- The code of a program. -/
def code (program : Program) : Except NoFunction String :=
  (lines o .start program).map fun ls =>
    (if o.header then header o else "") ++ String.join (ls.map (·.render))

end Brainfuck.Lua
