import Brainfuck.Proofs.Rewriting
import Mathlib.Data.Prod.Lex
import Mathlib.Order.WellFounded

/-! Rewriting ends. The rank of a program falls with every application of a rule: programs become
shorter, or loops become fewer, or movements come nearer to the end, or stores and bytes written
come into order. The order of these four parts matters, since a movement that passes stores changes
their cells, and so their order. -/

namespace Brainfuck

/-- The number of pairs of members, one before the other, that are in the wrong order: `wrong a b`
tells that `a` should not stand before `b`. -/
def inversions {α : Type} (wrong : α → α → Bool) : List α → Nat
  | [] => 0
  | a :: rest => rest.countP (wrong a) + inversions wrong rest

section Inversions

variable {α : Type} {wrong : α → α → Bool} {xs ys : List α}

/-- A change of order has the same effect whatever comes after. -/
theorem inversions_append_perm (h : ys.Perm xs) (after : List α) :
    inversions wrong (ys ++ after) + inversions wrong xs =
      inversions wrong (xs ++ after) + inversions wrong ys := by
  induction h with
  | nil => rfl
  | cons a h ih =>
    simp only [List.cons_append, inversions, List.countP_append, h.countP_eq]
    omega
  | swap a b rest =>
    simp only [List.cons_append, inversions, List.countP_cons, List.countP_append]
    omega
  | trans _ _ ih ih' => omega

/-- A change of order has the same effect wherever it is made. -/
theorem inversions_perm (h : ys.Perm xs) (before after : List α) :
    inversions wrong (before ++ (ys ++ after)) + inversions wrong xs =
      inversions wrong (before ++ (xs ++ after)) + inversions wrong ys := by
  induction before with
  | nil => exact inversions_append_perm h after
  | cons a before ih =>
    have hcount := (((h.append_right after).append_left before).countP_eq (wrong a))
    simp only [List.cons_append, inversions, hcount]
    omega

end Inversions

namespace Op

def isMove : Op → Bool
  | move .. => true
  | _ => false

def isLoop : Op → Bool
  | loop _ => true
  | _ => false

/-- A store should not stand before a store to a lower cell, nor an adjustment before a byte that is
written. -/
def misplaced : Op → Op → Bool
  | adjust .., write .. => true
  | a, b =>
    match a.target?, b.target? with
    | some x, some y => decide (y < x)
    | _, _ => false

theorem misplaced_of_lt {a b : Op} {x y : Int} (ha : a.target? = some x) (hb : b.target? = some y)
    (hlt : y < x) : misplaced a b = true ∧ misplaced b a = false := by
  have hab : ∀ {a b : Op} {x y : Int}, a.target? = some x → b.target? = some y →
      misplaced a b = decide (y < x) := by
    intro a b x y ha hb
    unfold misplaced
    split
    · contradiction
    · rw [ha, hb]
  rw [hab ha hb, hab hb ha]
  simp [hlt, hlt.le]

@[simp] theorem isMove_shift (distance : Int) (op : Op) :
    (op.shift distance).isMove = op.isMove := by
  cases op <;> rfl

@[simp] theorem isLoop_shift (distance : Int) (op : Op) :
    (op.shift distance).isLoop = op.isLoop := by
  cases op <;> rfl

/-- An operation that passes a test which no movement passes. -/
theorem isMove_of_test (test : Op → Bool) (hmove : ∀ way amount, test (move way amount) = false)
    {op : Op} (h : test op = true) : op.isMove = false := by
  cases op with
  | move way amount =>
    rw [hmove] at h
    contradiction
  | _ => rfl

theorem isMove_of_target? {op : Op} {k : Int} (h : op.target? = some k) : op.isMove = false :=
  isMove_of_test (·.target?.isSome) (fun _ _ => rfl) (by simp [h])

end Op

namespace Program

def loops (p : Program) : Nat := p.ops.countP Op.isLoop

/-- How far movements stand before the end, counted for all of them together. -/
def delay (p : Program) : Nat := inversions (fun isMove _ => isMove) (p.ops.map Op.isMove)

/-- The number of pairs of operations that stand in the wrong order. -/
def disorder (p : Program) : Nat := inversions Op.misplaced p.ops

/-- What every application of a rule lowers. -/
def rank (p : Program) : Nat ×ₗ Nat ×ₗ Nat ×ₗ Nat :=
  toLex (p.length, toLex (p.loops, toLex (p.delay, p.disorder)))

/-- How `items` in the place of `window` lower the rank. -/
inductive Lowers (window items : Program) : Prop
  | shorter (h : items.length < window.length)
  | unlooped (hlength : items.length = window.length) (h : items.loops < window.loops)
  | delayed (hmoves : (items.ops.map Op.isMove).Perm (window.ops.map Op.isMove))
      (hloops : items.loops = window.loops) (h : items.delay < window.delay)
  | ordered (hops : items.ops.Perm window.ops) (hdelay : items.delay = window.delay)
      (h : items.disorder < window.disorder)

theorem ops_append (p q : Program) : ops (p ++ q) = p.ops ++ q.ops := List.map_append

variable {window items : Program}

theorem rank_lt_iff {p q : Program} :
    q.rank < p.rank ↔ q.length < p.length ∨ q.length = p.length ∧
      (q.loops < p.loops ∨ q.loops = p.loops ∧
        (q.delay < p.delay ∨ q.delay = p.delay ∧ q.disorder < p.disorder)) := by
  simp only [rank, Prod.Lex.toLex_lt_toLex]

theorem loops_append (p q : Program) : loops (p ++ q) = p.loops + q.loops := by
  rw [loops, ops_append, List.countP_append]
  rfl

/-- Where movements trade places with other instructions, the delay changes alike everywhere. -/
theorem delay_add_delay (h : (items.ops.map Op.isMove).Perm (window.ops.map Op.isMove))
    (before after : Program) :
    delay (before ++ (items ++ after)) + window.delay =
      delay (before ++ (window ++ after)) + items.delay := by
  simp only [delay, ops_append, List.map_append]
  exact inversions_perm h _ _

theorem disorder_add_disorder (h : items.ops.Perm window.ops) (before after : Program) :
    disorder (before ++ (items ++ after)) + window.disorder =
      disorder (before ++ (window ++ after)) + items.disorder := by
  simp only [disorder, ops_append]
  exact inversions_perm h _ _

theorem Lowers.rank_lt (h : Lowers window items) (before after : Program) :
    rank (before ++ (items ++ after)) < rank (before ++ (window ++ after)) := by
  simp only [rank_lt_iff, loops_append, List.length_append]
  cases h with
  | shorter h => omega
  | unlooped hlength h => omega
  | delayed hmoves hloops h =>
    have hlength : items.length = window.length := by simpa [ops] using hmoves.length_eq
    have hdelay := delay_add_delay hmoves before after
    omega
  | ordered hops hdelay h =>
    have hlength : items.length = window.length := by simpa [ops] using hops.length_eq
    have hloops : items.loops = window.loops := hops.countP_eq _
    have hdelays := delay_add_delay (hops.map Op.isMove) before after
    have hdisorder := disorder_add_disorder hops before after
    omega

theorem Lowers.length_le (h : Lowers window items) : items.length ≤ window.length := by
  cases h with
  | shorter h => exact h.le
  | unlooped hlength _ => exact hlength.le
  | delayed hmoves _ _ => simpa [ops] using hmoves.length_eq.le
  | ordered hops _ _ => simpa [ops] using hops.length_eq.le

/-- Two instructions trade places, the first of which should not stand before the second. -/
theorem Lowers.swap {a b : Instr} (ha : a.op.isMove = false) (hb : b.op.isMove = false)
    (hab : a.op.misplaced b.op = true) (hba : b.op.misplaced a.op = false) :
    Lowers [a, b] [b, a] := by
  refine .ordered (.swap _ _ _) ?_ ?_
  · simp [delay, ops, inversions, ha, hb]
  · simp [disorder, ops, inversions, hab, hba]

/-- A movement trades places with an instruction that is none. -/
theorem Lowers.commute {a b : Instr} (ha : a.op.isMove = true) (hb : b.op.isMove = false)
    (distance : Int) : Lowers [a, b] [b.shift distance, a] := by
  refine .delayed ?_ ?_ ?_
  · simp only [ops, List.map_cons, List.map_nil, Instr.op_shift, Op.isMove_shift]
    exact .swap _ _ _
  · simp only [loops, ops, List.map_cons, List.map_nil, Instr.op_shift, List.countP_cons,
      List.countP_nil, Op.isLoop_shift]
    omega
  · simp [delay, ops, inversions, ha, hb]

end Program

theorem MoveRules.length_moveBy_le (depth distance : Int) :
    (moveBy depth distance).length ≤ 1 := by
  unfold moveBy
  cases Op.ofDisplacement distance <;> simp

theorem StoreRules.length_adjustBy_le (depth change offset : Int) :
    (adjustBy depth change offset).length ≤ 1 := by
  unfold adjustBy
  cases Op.ofChange change offset <;> simp

namespace LoopRules

theorem length_insertOffset_le (offset : Int) (ks : List Int) :
    (insertOffset offset ks).length ≤ ks.length + 1 := by
  induction ks with
  | nil => simp [insertOffset]
  | cons k ks ih =>
    rw [insertOffset]
    split
    · simp
    · split
      · simp
      · simpa using ih

theorem length_offsets_le (adjustments : List (Int × Int)) :
    (offsets adjustments).length ≤ adjustments.length := by
  induction adjustments with
  | nil => exact Nat.le_refl 0
  | cons a adjustments ih =>
    have hinsert := length_insertOffset_le a.1 (offsets adjustments)
    simp only [offsets, List.foldr_cons, List.length_cons] at hinsert ih ⊢
    omega

/-- The cell that the loop counts down is adjusted too, but nothing is added to it. -/
theorem length_transfers_le {adjustments : List (Int × Int)} (h : netChange 0 adjustments = -1) :
    (transfers adjustments).length ≤ adjustments.length := by
  have hzero : 0 ∈ offsets adjustments := by
    by_contra hmem
    rw [netChange_eq_zero hmem] at h
    contradiction
  have hothers : ((offsets adjustments).filter
      fun k => k != 0 && netChange k adjustments != 0).length < (offsets adjustments).length :=
    List.length_filter_lt_length_iff_exists.mpr ⟨0, hzero, by simp⟩
  have hoffsets := length_offsets_le adjustments
  simp only [transfers, List.length_append, List.length_map, List.length_singleton]
  omega

end LoopRules

namespace Rule

open Program LoopRules MoveRules StoreRules

variable {r : Rule} {window items : Program}

theorem Straightens.lowers (h : r.Straightens window items) : Lowers window items := by
  cases h with
  | @bracketedMove a b c way way' amount amount' _ _ _ =>
    have hmove := length_moveBy_le a.depth (way.displacement amount + way'.displacement amount')
    exact .shorter (by simp only [List.length_cons, List.length_nil]; omega)
  | commuteAccess ha hb =>
    exact .commute (by rw [ha]; rfl) (Op.isMove_of_test Op.isCellAccess (fun _ _ => rfl) hb) _
  | commuteTransfer ha hb =>
    exact .commute (by rw [ha]; rfl) (Op.isMove_of_test Op.isTransfer (fun _ _ => rfl) hb) _
  | foldAddend | assignIncrease | assignAdjustment | deadStore => exact .shorter (by simp)
  | sortStores ha hb hlt _ _ =>
    have hmisplaced := Op.misplaced_of_lt ha hb hlt
    exact .swap (Op.isMove_of_target? ha) (Op.isMove_of_target? hb) hmisplaced.1 hmisplaced.2
  | @combineAdjustments a b sign sign' amount amount' offset _ _ =>
    have hadjust :=
      length_adjustBy_le b.depth (sign.change amount + sign'.change amount') offset
    exact .shorter (by simp only [List.length_cons, List.length_nil]; omega)
  | @combineMoves a b way way' amount amount' _ _ =>
    have hmove := length_moveBy_le b.depth (way.displacement amount + way'.displacement amount')
    exact .shorter (by simp only [List.length_cons, List.length_nil]; omega)
  | @biasWrite a b c sign sign' amount amount' offset bias _ _ _ =>
    have hadjust :=
      length_adjustBy_le c.depth (sign.change amount + sign'.change amount') offset
    exact .shorter (by simp only [List.length_cons, List.length_nil]; omega)
  | reorderWrite ha hb _ =>
    refine .swap ?_ ?_ ?_ ?_ <;> simp [ha, hb, Op.isMove, Op.misplaced, Op.target?]

theorem Exchanges.lowers (h : r.Exchanges window items) : Lowers window items := by
  cases h with
  | straight h => exact h.lowers
  | loopToOnce hopener _ _ _ =>
    refine .unlooped (by simp) ?_
    simp only [loops, ops, List.map_cons, List.countP_cons, hopener]
    simp [Op.isLoop]
  | loopToTransfers _ hbody hnet _ =>
    have hlength := hbody.length_eq
    have htransfers := length_transfers_le hnet
    exact .shorter (by simp only [List.length_map, List.length_cons, List.length_append]; omega)
  | @commuteSeekLoop a b c d way way' amount amount' offset ha hb hc hd =>
    have hwindow : ops [a, b, c, d] =
        [.move way amount, .loop offset, .move way' amount', .close] := by
      simp [ops, ha, hb, hc, hd]
    have hitems : ops [b.shift (way.displacement amount), c, d, a] =
        [.loop (offset + way.displacement amount), .move way' amount', .close,
          .move way amount] := by
      simp [ops, Op.shift, ha, hb, hc, hd]
    refine .delayed ?_ ?_ ?_
    · rw [hwindow, hitems]
      show [false, true, false, true].Perm [true, false, true, false]
      decide
    · rw [loops, loops, hwindow, hitems]
      rfl
    · rw [delay, delay, hwindow, hitems]
      show 2 < 4
      decide

end Rule

namespace Program

variable {p q : Program}

theorem Rewrites.rank_lt (h : p.Rewrites q) : q.rank < p.rank := by
  obtain ⟨r, before, window, items, after, rfl, rfl, hexchange⟩ := h.exists_exchanges
  exact hexchange.lowers.rank_lt before after

theorem Rewrites.length_le (h : p.Rewrites q) : q.length ≤ p.length := by
  obtain ⟨r, before, window, items, after, rfl, rfl, hexchange⟩ := h.exists_exchanges
  have hlength := hexchange.lowers.length_le
  simp only [List.length_append]
  omega

theorem rank_lt_of_transGen (h : Relation.TransGen Rewrites p q) : q.rank < p.rank := by
  induction h with
  | single h => exact h.rank_lt
  | tail _ h ih => exact h.rank_lt.trans ih

end Program

end Brainfuck
