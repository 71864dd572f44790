import Brainfuck.Optimizer.Cursor
import Brainfuck.Optimizer.LoopRules
import Brainfuck.Optimizer.MoveRules
import Brainfuck.Optimizer.StoreRules

/-! The rewrite rules, and their application at a cursor. Every rule looks at two or more
instructions from the cursor on. -/

namespace Brainfuck

/-- The rewrite rules, in the order in which they are tried. -/
inductive Rule where
  | loopToOnce
  | loopToTransfers
  | bracketedMove
  | commuteAccess
  | commuteTransfer
  | foldAddend
  | assignIncrease
  | assignAdjustment
  | sortStores
  | deadStore
  | combineAdjustments
  | combineMoves
  | biasWrite
  | reorderWrite
  | commuteSeekLoop
  deriving DecidableEq, Repr

/-- What a rule looks at, and what it puts in its place; none if it does not apply. -/
inductive Pattern where
  | pair (rewrite? : Instr → Instr → Option (List Instr))
  | triple (rewrite? : Instr → Instr → Instr → Option (List Instr))
  | quadruple (rewrite? : Instr → Instr → Instr → Instr → Option (List Instr))
  /-- An instruction, those after it that end no block, and one that does. -/
  | block (rewrite? : Instr → List Instr → Instr → Option (List Instr))

/-- The number of instructions replaced, and their replacement. -/
structure Rewrite where
  size : Nat
  items : List Instr
  deriving DecidableEq, Repr

/-- The rewrite of the instructions at the front of a list. -/
def Pattern.rewrite? : Pattern → List Instr → Option Rewrite
  | pair f, a :: b :: _ => (f a b).map (⟨2, ·⟩)
  | triple f, a :: b :: c :: _ => (f a b c).map (⟨3, ·⟩)
  | quadruple f, a :: b :: c :: d :: _ => (f a b c d).map (⟨4, ·⟩)
  | block f, a :: rest =>
    match Program.splitAtClose rest with
    | none => none
    | some (body, last, _) => (f a body last).map (⟨body.length + 2, ·⟩)
  | _, _ => none

/-- The instructions at the cursor that a pattern looks at; none if there are not enough. -/
def Pattern.window? : Pattern → Cursor → Option (List Instr)
  | pair _, c => c.window? 2
  | triple _, c => c.window? 3
  | quadruple _, c => c.window? 4
  | block _, c => c.blockWindow?

/-- A pattern makes the same of its window as of all instructions from the cursor on. -/
theorem Pattern.bind_window? (p : Pattern) (c : Cursor) :
    (p.window? c).bind p.rewrite? = p.rewrite? c.remaining := by
  cases p with
  | pair f =>
    simp only [window?, Cursor.window?]
    rcases c.remaining with _ | ⟨i, _ | ⟨j, rest⟩⟩ <;> simp +arith [rewrite?]
  | triple f =>
    simp only [window?, Cursor.window?]
    rcases c.remaining with _ | ⟨i, _ | ⟨j, _ | ⟨k, rest⟩⟩⟩ <;> simp +arith [rewrite?]
  | quadruple f =>
    simp only [window?, Cursor.window?]
    rcases c.remaining with _ | ⟨i, _ | ⟨j, _ | ⟨k, _ | ⟨l, rest⟩⟩⟩⟩ <;> simp +arith [rewrite?]
  | block f =>
    simp only [window?, Cursor.blockWindow?]
    cases c.remaining with
    | nil => rfl
    | cons i rest =>
      cases hs : Program.splitAtClose rest with
      | none => simp [rewrite?, hs]
      | some found =>
        obtain ⟨body, last, after⟩ := found
        simp [rewrite?, hs, Program.splitAtClose_front hs]

theorem Pattern.size_bounds {p : Pattern} {program : List Instr} {r : Rewrite}
    (h : p.rewrite? program = some r) : 2 ≤ r.size ∧ r.size ≤ program.length := by
  unfold rewrite? at h
  split at h
  case h_4 =>
    split at h
    · contradiction
    · next hs =>
      obtain ⟨_, _, rfl⟩ := Option.map_eq_some_iff.mp h
      simp [Program.eq_of_splitAtClose hs]
  case h_5 => contradiction
  all_goals
    obtain ⟨_, _, rfl⟩ := Option.map_eq_some_iff.mp h
    simp

namespace Rule

/-- All rules, in the order in which they are tried. -/
def all : List Rule :=
  [loopToOnce, loopToTransfers, bracketedMove, commuteAccess, commuteTransfer, foldAddend,
    assignIncrease, assignAdjustment, sortStores, deadStore, combineAdjustments, combineMoves,
    biasWrite, reorderWrite, commuteSeekLoop]

def pattern : Rule → Pattern
  | loopToOnce => .block LoopRules.toOnce?
  | loopToTransfers => .block LoopRules.toTransfers?
  | bracketedMove => .triple MoveRules.bracketed?
  | commuteAccess => .pair (MoveRules.commuted? Op.isCellAccess)
  | commuteTransfer => .pair (MoveRules.commuted? Op.isTransfer)
  | foldAddend => .pair StoreRules.foldedAddend?
  | assignIncrease => .pair StoreRules.assignedIncrease?
  | assignAdjustment => .pair StoreRules.assignedAdjustment?
  | sortStores => .pair StoreRules.sorted?
  | deadStore => .pair StoreRules.deadStore?
  | combineAdjustments => .pair StoreRules.combined?
  | combineMoves => .pair MoveRules.combined?
  | biasWrite => .triple StoreRules.biasedWrite?
  | reorderWrite => .pair StoreRules.reorderedWrite?
  | commuteSeekLoop => .quadruple MoveRules.seekLoop?

/-- Whether the rule is about pointer movements. A movement that such a rule leaves last is looked
at again, so that it travels as far as it can in one pass. -/
def resumes : Rule → Bool
  | bracketedMove | commuteAccess | commuteTransfer | combineMoves | commuteSeekLoop => true
  | _ => false

/-- Whether the last instruction is a movement. -/
def endsInMove (items : List Instr) : Bool :=
  match items.getLast? with
  | some ⟨_, .move _ _⟩ => true
  | _ => false

/-- Applies the rule at the cursor; none if it does not apply. -/
def applyAt? (r : Rule) (c : Cursor) : Option Cursor :=
  ((r.pattern.window? c).bind r.pattern.rewrite?).map fun rewrite =>
    let c := c.replace rewrite.size rewrite.items
    if r.resumes && endsInMove rewrite.items then c.rewind 1 else c

theorem applyAt?_eq (r : Rule) (c : Cursor) :
    r.applyAt? c = (r.pattern.rewrite? c.remaining).map fun rewrite =>
      if r.resumes && endsInMove rewrite.items then (c.replace rewrite.size rewrite.items).rewind 1
      else c.replace rewrite.size rewrite.items := by
  rw [applyAt?, Pattern.bind_window?]

theorem length_ahead_of_applyAt? {r : Rule} {c c' : Cursor} (h : r.applyAt? c = some c')
    (hc : c.current.length = 1) : c'.ahead.length ≤ c.ahead.length := by
  rw [applyAt?_eq, Option.map_eq_some_iff] at h
  obtain ⟨rewrite, hr, rfl⟩ := h
  have hs := Pattern.size_bounds hr
  have hl : (c.replace rewrite.size rewrite.items).ahead.length + 1 ≤ c.ahead.length := by
    simp only [Cursor.remaining, List.length_append] at hs
    simp only [Cursor.replace, Cursor.remaining, List.length_drop, List.length_append]
    omega
  have hw := Cursor.length_ahead_rewind_le 1 (c.replace rewrite.size rewrite.items)
  split <;> omega

end Rule

end Brainfuck
