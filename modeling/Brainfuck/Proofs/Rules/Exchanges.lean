import Brainfuck.Optimizer.Rule
import Mathlib.Data.List.Forall2

/-! What the rules exchange. `Rule.Exchanges` gives, for each rule, the instructions that it takes
out of a program, the condition on them, and the instructions that it puts in their place. Twelve of
the rules are about straight instructions only; the other three take out a whole loop. Whatever is
to be known of a rewritten program follows from these cases. -/

namespace Brainfuck

@[simp] theorem Instr.op_shift (distance : Int) (i : Instr) :
    (i.shift distance).op = i.op.shift distance := rfl

@[simp] theorem Instr.depth_shift (distance : Int) (i : Instr) :
    (i.shift distance).depth = i.depth := rfl

theorem Program.op_last_of_splitAtClose {program body after : List Instr} {last : Instr}
    (h : splitAtClose program = some (body, last, after)) : last.op = .close := by
  induction program generalizing body with
  | nil => simp [splitAtClose] at h
  | cons i rest ih =>
    unfold splitAtClose at h
    split at h
    · grind
    · obtain ⟨⟨body, last, after⟩, hs, heq⟩ := Option.map_eq_some_iff.mp h
      cases heq
      exact ih hs

namespace Pattern

variable {R : Program → Program → Prop}

/-- The instructions at the front and what is put in their place are related. -/
def Relates (p : Pattern) (R : Program → Program → Prop) : Prop :=
  ∀ ⦃rest : Program⦄ ⦃rewrite : Rewrite⦄, p.rewrite? rest = some rewrite →
    R (rest.take rewrite.size) rewrite.items

theorem relates_pair {f : Instr → Instr → Option (List Instr)}
    (hf : ∀ {a b items}, f a b = some items → R [a, b] items) : (pair f).Relates R := by
  intro rest rewrite h
  rcases rest with _ | ⟨a, _ | ⟨b, rest⟩⟩
  · contradiction
  · contradiction
  · obtain ⟨items, hitems, rfl⟩ := Option.map_eq_some_iff.mp h
    exact hf hitems

theorem relates_triple {f : Instr → Instr → Instr → Option (List Instr)}
    (hf : ∀ {a b c items}, f a b c = some items → R [a, b, c] items) : (triple f).Relates R := by
  intro rest rewrite h
  rcases rest with _ | ⟨a, _ | ⟨b, _ | ⟨c, rest⟩⟩⟩
  · contradiction
  · contradiction
  · contradiction
  · obtain ⟨items, hitems, rfl⟩ := Option.map_eq_some_iff.mp h
    exact hf hitems

theorem relates_quadruple {f : Instr → Instr → Instr → Instr → Option (List Instr)}
    (hf : ∀ {a b c d items}, f a b c d = some items → R [a, b, c, d] items) :
    (quadruple f).Relates R := by
  intro rest rewrite h
  rcases rest with _ | ⟨a, _ | ⟨b, _ | ⟨c, _ | ⟨d, rest⟩⟩⟩⟩
  · contradiction
  · contradiction
  · contradiction
  · contradiction
  · obtain ⟨items, hitems, rfl⟩ := Option.map_eq_some_iff.mp h
    exact hf hitems

theorem relates_block {f : Instr → List Instr → Instr → Option (List Instr)}
    (hf : ∀ {opener body last items}, f opener body last = some items → last.op = .close →
      R (opener :: (body ++ [last])) items) : (block f).Relates R := by
  intro rest rewrite h
  rcases rest with _ | ⟨opener, rest⟩
  · contradiction
  · simp only [rewrite?] at h
    split at h
    · contradiction
    · next body last after hs =>
      obtain ⟨items, hitems, rfl⟩ := Option.map_eq_some_iff.mp h
      rw [Program.eq_of_splitAtClose hs]
      simpa [List.take_length_add_append] using hf hitems (Program.op_last_of_splitAtClose hs)

end Pattern

namespace LoopRules

/-- The body consists of these adjustments. -/
def Adjusts (body : List Instr) (adjustments : List (Int × Int)) : Prop :=
  List.Forall₂ (fun i a => i.op.adjustment? = some a) body adjustments

theorem adjusts_of_mapM {body : List Instr} {adjustments : List (Int × Int)}
    (h : body.mapM (·.op.adjustment?) = some adjustments) : Adjusts body adjustments := by
  induction body generalizing adjustments with
  | nil =>
    cases h
    exact .nil
  | cons i body ih =>
    simp only [List.mapM_cons, Option.bind_eq_bind, Option.pure_def, Option.bind_eq_some_iff,
      Option.some.injEq] at h
    obtain ⟨a, ha, adjustments, hbody, rfl⟩ := h
    exact .cons ha (ih hbody)

/-- The operations that take the place of a loop of adjustments. -/
def transfers (adjustments : List (Int × Int)) : List Op :=
  ((offsets adjustments).filter fun k => k != 0 && netChange k adjustments != 0).map
    (fun k => .ofTerms 0 (netChange k adjustments) k 0) ++ [.assign 0 0]

end LoopRules

namespace Rule

open LoopRules MoveRules StoreRules

/-- The rule puts straight instructions in the place of others. -/
inductive Straightens : Rule → Program → Program → Prop
  | bracketedMove {a b c : Instr} {way way' : Direction} {amount amount' : Int}
      (ha : a.op = .move way amount) (hb : b.op.isCellAccess = true)
      (hc : c.op = .move way' amount') :
      Straightens .bracketedMove [a, b, c] (b.shift (way.displacement amount) ::
        moveBy a.depth (way.displacement amount + way'.displacement amount'))
  | commuteAccess {a b : Instr} {way : Direction} {amount : Int} (ha : a.op = .move way amount)
      (hb : b.op.isCellAccess = true) :
      Straightens .commuteAccess [a, b] [b.shift (way.displacement amount), a]
  | commuteTransfer {a b : Instr} {way : Direction} {amount : Int} (ha : a.op = .move way amount)
      (hb : b.op.isTransfer = true) :
      Straightens .commuteTransfer [a, b] [b.shift (way.displacement amount), a]
  | foldAddend {a b : Instr} {sign : Sign} {amount addend multiplier dest src : Int}
      (ha : a.op = .adjust sign amount dest)
      (hb : b.op.increase? = some ⟨addend, multiplier, dest, src⟩) (hsrc : src ≠ dest) :
      Straightens .foldAddend [a, b]
        [⟨b.depth, .ofTerms (addend + sign.change amount) multiplier dest src⟩]
  | assignIncrease {a b : Instr} {value addend multiplier dest src : Int}
      (ha : a.op = .assign value dest)
      (hb : b.op.increase? = some ⟨addend, multiplier, dest, src⟩) (hsrc : src ≠ dest) :
      Straightens .assignIncrease [a, b] [⟨b.depth, .copy (value + addend) dest src multiplier⟩]
  | assignAdjustment {a b : Instr} {sign : Sign} {value amount offset : Int}
      (ha : a.op = .assign value offset) (hb : b.op = .adjust sign amount offset) :
      Straightens .assignAdjustment [a, b]
        [⟨b.depth, .assign (value + sign.change amount) offset⟩]
  | sortStores {a b : Instr} {x y : Int} (ha : a.op.target? = some x) (hb : b.op.target? = some y)
      (hlt : y < x) (hsa : a.op.source? ≠ some y) (hsb : b.op.source? ≠ some x) :
      Straightens .sortStores [a, b] [b, a]
  | deadStore {a b : Instr} {k : Int} (ha : a.op.target? = some k)
      (hsa : a.op.isTransfer = false) (hb : overwritten? b.op = some k) :
      Straightens .deadStore [a, b] [b]
  | combineAdjustments {a b : Instr} {sign sign' : Sign} {amount amount' offset : Int}
      (ha : a.op = .adjust sign amount offset) (hb : b.op = .adjust sign' amount' offset) :
      Straightens .combineAdjustments [a, b]
        (adjustBy b.depth (sign.change amount + sign'.change amount') offset)
  | combineMoves {a b : Instr} {way way' : Direction} {amount amount' : Int}
      (ha : a.op = .move way amount) (hb : b.op = .move way' amount') :
      Straightens .combineMoves [a, b]
        (moveBy b.depth (way.displacement amount + way'.displacement amount'))
  | biasWrite {a b c : Instr} {sign sign' : Sign} {amount amount' offset bias : Int}
      (ha : a.op = .adjust sign amount offset) (hb : b.op = .write offset bias)
      (hc : c.op = .adjust sign' amount' offset) :
      Straightens .biasWrite [a, b, c] (⟨b.depth, .write offset (bias + sign.change amount)⟩ ::
        adjustBy c.depth (sign.change amount + sign'.change amount') offset)
  | reorderWrite {a b : Instr} {sign : Sign} {amount offset offset' bias : Int}
      (ha : a.op = .adjust sign amount offset) (hb : b.op = .write offset' bias)
      (hne : offset ≠ offset') :
      Straightens .reorderWrite [a, b] [b, a]

/-- The rule puts `items` in the place of `window`. -/
inductive Exchanges : Rule → Program → Program → Prop
  | straight {r : Rule} {window items : Program} (h : r.Straightens window items) :
      Exchanges r window items
  | loopToOnce {opener last : Instr} {body : Program} (hopener : opener.op = .loop 0)
      (hbody : ∀ i ∈ body, i.op.allowsOnce = true) (hzero : ∃ i ∈ body, i.op = .assign 0 0)
      (hlast : last.op = .close) :
      Exchanges .loopToOnce (opener :: (body ++ [last]))
        (⟨opener.depth, .once⟩ :: (body ++ [last]))
  | loopToTransfers {opener last : Instr} {body : Program} {adjustments : List (Int × Int)}
      (hopener : opener.op = .loop 0) (hbody : Adjusts body adjustments)
      (hnet : netChange 0 adjustments = -1) (hlast : last.op = .close) :
      Exchanges .loopToTransfers (opener :: (body ++ [last]))
        ((transfers adjustments).map (Instr.mk opener.depth))
  | commuteSeekLoop {a b c d : Instr} {way way' : Direction} {amount amount' offset : Int}
      (ha : a.op = .move way amount) (hb : b.op = .loop offset) (hc : c.op = .move way' amount')
      (hd : d.op = .close) :
      Exchanges .commuteSeekLoop [a, b, c, d] [b.shift (way.displacement amount), c, d, a]

variable {a b c d opener last : Instr} {body items : Program}

theorem exchanges_of_toOnce? (h : toOnce? opener body last = some items)
    (hlast : last.op = .close) : Exchanges .loopToOnce (opener :: (body ++ [last])) items := by
  unfold toOnce? at h
  split at h
  · next hcond =>
    obtain ⟨hopener, hbody, hzero⟩ := hcond
    cases h
    exact .loopToOnce hopener (by simpa using hbody) (by simpa using hzero) hlast
  · contradiction

theorem exchanges_of_toTransfers? (h : toTransfers? opener body last = some items)
    (hlast : last.op = .close) :
    Exchanges .loopToTransfers (opener :: (body ++ [last])) items := by
  unfold toTransfers? at h
  split at h
  · contradiction
  · next adjustments hbody =>
    split at h
    · next hcond =>
      have hitems : items = (transfers adjustments).map (Instr.mk opener.depth) := by
        cases h
        simp [transfers]
      rw [hitems]
      exact .loopToTransfers hcond.1 (adjusts_of_mapM hbody) hcond.2 hlast
    · contradiction

theorem exchanges_of_seekLoop? (h : seekLoop? a b c d = some items) :
    Exchanges .commuteSeekLoop [a, b, c, d] items := by
  unfold seekLoop? at h
  split at h
  · next ha hb hc hd =>
    cases h
    exact .commuteSeekLoop ha hb hc hd
  · contradiction

theorem straightens_of_bracketed? (h : bracketed? a b c = some items) :
    Straightens .bracketedMove [a, b, c] items := by
  unfold bracketed? at h
  split at h
  · next ha hc =>
    split at h
    · next hb =>
      cases h
      exact .bracketedMove ha hb hc
    · contradiction
  · contradiction

/-- A movement passes an operation. -/
theorem of_commuted? {passes : Op → Bool} (h : commuted? passes a b = some items) :
    ∃ way amount, a.op = .move way amount ∧ passes b.op = true ∧
      items = [b.shift (way.displacement amount), a] := by
  unfold commuted? at h
  split at h
  · next way amount ha =>
    split at h
    · next hb =>
      cases h
      exact ⟨way, amount, ha, hb, rfl⟩
    · contradiction
  · contradiction

theorem straightens_of_foldedAddend? (h : foldedAddend? a b = some items) :
    Straightens .foldAddend [a, b] items := by
  unfold foldedAddend? at h
  split at h
  · next ha hb =>
    split at h
    · next hcells =>
      obtain ⟨rfl, hsrc⟩ := hcells
      cases h
      exact .foldAddend ha hb hsrc
    · contradiction
  · contradiction

theorem straightens_of_assignedIncrease? (h : assignedIncrease? a b = some items) :
    Straightens .assignIncrease [a, b] items := by
  unfold assignedIncrease? at h
  split at h
  · next ha hb =>
    split at h
    · next hcells =>
      obtain ⟨rfl, hsrc⟩ := hcells
      cases h
      exact .assignIncrease ha hb hsrc
    · contradiction
  · contradiction

theorem straightens_of_assignedAdjustment? (h : assignedAdjustment? a b = some items) :
    Straightens .assignAdjustment [a, b] items := by
  unfold assignedAdjustment? at h
  split at h
  · next ha hb =>
    split at h
    · next hcells =>
      cases hcells
      cases h
      exact .assignAdjustment ha hb
    · contradiction
  · contradiction

theorem straightens_of_sorted? (h : sorted? a b = some items) :
    Straightens .sortStores [a, b] items := by
  unfold sorted? at h
  split at h
  · next ha hb =>
    split at h
    · next hcells =>
      cases h
      exact .sortStores ha hb hcells.1 hcells.2.1 hcells.2.2
    · contradiction
  · contradiction

theorem straightens_of_deadStore? (h : deadStore? a b = some items) :
    Straightens .deadStore [a, b] items := by
  unfold deadStore? at h
  split at h
  · next ha =>
    split at h
    · next hb =>
      cases h
      exact .deadStore (by rw [ha]; rfl) (by rw [ha]; rfl) hb
    · contradiction
  · next ha =>
    split at h
    · next hb =>
      cases h
      exact .deadStore (by rw [ha]; rfl) (by rw [ha]; rfl) hb
    · contradiction
  · contradiction

theorem straightens_of_combinedAdjustments? (h : StoreRules.combined? a b = some items) :
    Straightens .combineAdjustments [a, b] items := by
  unfold StoreRules.combined? at h
  split at h
  · next ha hb =>
    split at h
    · next hcells =>
      cases hcells
      cases h
      exact .combineAdjustments ha hb
    · contradiction
  · contradiction

theorem straightens_of_combinedMoves? (h : MoveRules.combined? a b = some items) :
    Straightens .combineMoves [a, b] items := by
  unfold MoveRules.combined? at h
  split at h
  · next ha hb =>
    cases h
    exact .combineMoves ha hb
  · contradiction

theorem straightens_of_biasedWrite? (h : biasedWrite? a b c = some items) :
    Straightens .biasWrite [a, b, c] items := by
  unfold biasedWrite? at h
  split at h
  · next ha hb hc =>
    split at h
    · next hcells =>
      obtain ⟨rfl, rfl⟩ := hcells
      cases h
      exact .biasWrite ha hb hc
    · contradiction
  · contradiction

theorem straightens_of_reorderedWrite? (h : reorderedWrite? a b = some items) :
    Straightens .reorderWrite [a, b] items := by
  unfold reorderedWrite? at h
  split at h
  · next ha hb =>
    split at h
    · next hne =>
      cases h
      exact .reorderWrite ha hb hne
    · contradiction
  · contradiction

theorem relates_exchanges (r : Rule) : r.pattern.Relates r.Exchanges := by
  cases r with
  | loopToOnce => exact Pattern.relates_block exchanges_of_toOnce?
  | loopToTransfers => exact Pattern.relates_block exchanges_of_toTransfers?
  | bracketedMove =>
    exact Pattern.relates_triple fun h => .straight (straightens_of_bracketed? h)
  | commuteAccess =>
    refine Pattern.relates_pair fun h => ?_
    obtain ⟨way, amount, ha, hb, rfl⟩ := of_commuted? h
    exact .straight (.commuteAccess ha hb)
  | commuteTransfer =>
    refine Pattern.relates_pair fun h => ?_
    obtain ⟨way, amount, ha, hb, rfl⟩ := of_commuted? h
    exact .straight (.commuteTransfer ha hb)
  | foldAddend => exact Pattern.relates_pair fun h => .straight (straightens_of_foldedAddend? h)
  | assignIncrease =>
    exact Pattern.relates_pair fun h => .straight (straightens_of_assignedIncrease? h)
  | assignAdjustment =>
    exact Pattern.relates_pair fun h => .straight (straightens_of_assignedAdjustment? h)
  | sortStores => exact Pattern.relates_pair fun h => .straight (straightens_of_sorted? h)
  | deadStore => exact Pattern.relates_pair fun h => .straight (straightens_of_deadStore? h)
  | combineAdjustments =>
    exact Pattern.relates_pair fun h => .straight (straightens_of_combinedAdjustments? h)
  | combineMoves =>
    exact Pattern.relates_pair fun h => .straight (straightens_of_combinedMoves? h)
  | biasWrite => exact Pattern.relates_triple fun h => .straight (straightens_of_biasedWrite? h)
  | reorderWrite =>
    exact Pattern.relates_pair fun h => .straight (straightens_of_reorderedWrite? h)
  | commuteSeekLoop => exact Pattern.relates_quadruple exchanges_of_seekLoop?

end Rule

end Brainfuck
