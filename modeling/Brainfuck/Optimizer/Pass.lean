import Brainfuck.Optimizer.Rule

/-! Passes of the optimiser. A pass takes a cursor through the program once and applies, at each
instruction it takes up, the first rule that applies there. Passes are repeated until one changes
nothing, or until a limit on their number is reached. -/

namespace Brainfuck

/-- Applies the first of the rules that applies at the cursor; unchanged if none does. -/
def Cursor.rewrite (c : Cursor) : Cursor := (Rule.all.findSome? (·.applyAt? c)).getD c

theorem Cursor.length_ahead_rewrite_le (c : Cursor) (hc : c.current.length = 1) :
    c.rewrite.ahead.length ≤ c.ahead.length := by
  unfold rewrite
  cases h : Rule.all.findSome? (·.applyAt? c) with
  | none => simp
  | some c' =>
    obtain ⟨r, _, hr⟩ := List.exists_of_findSome?_eq_some h
    exact Rule.length_ahead_of_applyAt? hr hc

/-- Takes the cursor to the end of the program, rewriting at each instruction. -/
def Cursor.finish (c : Cursor) : Cursor :=
  match _h : c.advance? with
  | none => c
  | some next => next.rewrite.finish
termination_by c.ahead.length
decreasing_by
  have ha := length_ahead_of_advance? _h
  have hr := length_ahead_rewrite_le next ha.1
  omega

namespace Program

/-- The program after one pass, and whether the pass replaced anything. -/
def pass (program : Program) : Program × Bool :=
  let c := (Cursor.ofProgram program).finish
  (c.program, c.changed)

/-- The program before the first pass and after each that changed something, for at most `limit`
passes. -/
def history : Nat → Program → List Program
  | 0, program => [program]
  | limit + 1, program =>
    match program.pass with
    | (_, false) => [program]
    | (next, true) => program :: history limit next

/-- A program that passes no longer change, and how many it took to see that. -/
structure Settled where
  program : Program
  passes : Nat
  deriving DecidableEq, Repr

/-- Repeats the pass until it changes nothing, at most `limit` times; `done` passes came before. -/
def settleFrom (done : Nat) : Nat → Program → Option Settled
  | 0, _ => none
  | limit + 1, program =>
    match program.pass with
    | (next, false) => some ⟨next, done + 1⟩
    | (next, true) => settleFrom (done + 1) limit next

/-- Repeats the pass until it changes nothing; none if that takes more than `limit` passes. -/
def settle? (limit : Nat) (program : Program) : Option Settled := settleFrom 0 limit program

/-- The limit on the number of passes over a program if none is chosen. A long stretch of stores
may need a pass for each of its instructions to be put in order. -/
def passLimit (program : Program) : Nat := 10000 + program.length

end Program

end Brainfuck
