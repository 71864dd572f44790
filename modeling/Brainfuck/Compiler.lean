import Brainfuck.Instr.Lower
import Brainfuck.Lua.Code
import Brainfuck.Optimizer.Pass
import Brainfuck.Source.Simplify

/-! The compiler: text is stripped to its commands and simplified, lowered to instructions,
optimised, and printed as Lua code. -/

namespace Brainfuck

/-- Why a program cannot be compiled. -/
inductive CompileError where
  | unbalanced (e : Unbalanced)
  /-- The passes of the optimiser still changed the program when their limit was reached. -/
  | unsettled (limit : Int)
  /-- A block ends where no function is open. -/
  | noFunction (e : Lua.NoFunction)
  deriving DecidableEq, Repr

def CompileError.message : CompileError → String
  | unbalanced e => e.message
  | unsettled limit => "no fixed point after " ++ Decimal.signed limit ++ " passes"
  | noFunction e => "no function at depth " ++ Decimal.signed e.depth

/-- A stage of the compiler that has been completed. -/
inductive LogEntry where
  | lowered (commands instrs : Nat)
  | settled (passes instrs : Nat)
  | optimized (instrs : Nat)
  deriving DecidableEq, Repr

/-- The line of the log: the part of the compiler that writes it, and what has been done. -/
def LogEntry.render : LogEntry → String
  | lowered commands instrs =>
    "bfl.compiler: lowered " ++ Decimal.natural commands ++ " commands into " ++
      Decimal.natural instrs ++ " nodes"
  | settled passes instrs =>
    "bfl.opt: fixed point reached after " ++ Decimal.natural passes ++ " passes, " ++
      Decimal.natural instrs ++ " nodes"
  | optimized instrs => "bfl.compiler: optimized into " ++ Decimal.natural instrs ++ " nodes"

/-- What the compiler made of a text, with the log of the stages completed. -/
structure Logged (α : Type) where
  log : List LogEntry
  result : Except CompileError α

/-- The text as simple as the level makes it. -/
def Level.simplify (level : Level) (text : List Char) : List Char :=
  if level.simplifiesText then Source.simplify text else text

namespace Options

/-- The commands of a text, simplified; they must have as many opening as closing brackets. -/
def prepare (o : Options) (text : List Char) : Except Unbalanced (List Char) :=
  let commands := o.level.simplify (Source.strip o.debugging text)
  if Source.balance commands = 0 then .ok commands else .error ⟨Source.balance commands⟩

/-- The commands of a text and the instructions that they stand for. -/
structure Lowered where
  commands : List Char
  program : Program
  deriving DecidableEq, Repr

def lower (o : Options) (text : List Char) : Except Unbalanced Lowered :=
  match o.prepare text with
  | .error e => .error e
  | .ok commands => (Program.lower commands).map (⟨commands, ·⟩)

/-- A program after optimisation, and the number of passes if there were any. -/
structure Optimized where
  program : Program
  passes : Option Nat
  deriving DecidableEq, Repr

/-- Rewrites the program until no rule applies, if the level asks for it. -/
def optimize (o : Options) (program : Program) : Except CompileError Optimized :=
  if o.level.rewritesInstrs then
    let limit := o.maxPasses.getD program.passLimit
    match program.settle? limit.toNat with
    | none => .error (.unsettled limit)
    | some settled => .ok ⟨settled.program, some settled.passes⟩
  else .ok ⟨program, none⟩

def Lowered.log (l : Lowered) : List LogEntry := [.lowered l.commands.length l.program.length]

def Optimized.log (r : Optimized) : List LogEntry :=
  r.passes.toList.map (.settled · r.program.length)

/-- The optimised program of a text. -/
def build (o : Options) (text : List Char) : Logged Program :=
  match o.lower text with
  | .error e => ⟨[], .error (.unbalanced e)⟩
  | .ok lowered =>
    match o.optimize lowered.program with
    | .error e => ⟨lowered.log, .error e⟩
    | .ok optimized => ⟨lowered.log ++ optimized.log, .ok optimized.program⟩

/-- The Lua code of a program. -/
def print (o : Options) (program : Program) : Except CompileError String :=
  (Lua.code o program).mapError .noFunction

/-- The Lua code of a text. -/
def compile (o : Options) (text : List Char) : Logged String :=
  match o.build text with
  | ⟨log, .error e⟩ => ⟨log, .error e⟩
  | ⟨log, .ok program⟩ => ⟨log ++ [.optimized program.length], o.print program⟩

end Options

end Brainfuck
