import Brainfuck.Proofs.Rules.Exchanges
import Brainfuck.Proofs.Simulation

/-! The rules for straight operations. Each puts operations in the place of others that do the same
to every observation, with every modulus. For the rules about movements this is the law of shifted
offsets, for the rules about stores the laws of the cells. -/

namespace Brainfuck

open Machine

variable {m : Int}

namespace Op

@[simp] theorem isPlain_shift (op : Op) (distance : Int) :
    (op.shift distance).isPlain = op.isPlain := by
  cases op <;> rfl

theorem isPlain_of_isCellAccess {op : Op} (h : op.isCellAccess = true) : op.isPlain = true := by
  cases op with
  | loop _ | once | close => contradiction
  | _ => rfl

theorem isPlain_of_isTransfer {op : Op} (h : op.isTransfer = true) : op.isPlain = true := by
  cases op with
  | loop _ | once | close => contradiction
  | _ => rfl

end Op

namespace MoveRules

theorem isPlain_moveBy (depth distance : Int) :
    ∀ op ∈ Program.ops (moveBy depth distance), op.isPlain = true := by
  unfold moveBy Op.ofDisplacement
  split
  · simp [Program.ops]
  · split <;> simp [Program.ops]

theorem actAll_moveBy (depth distance : Int) (w : Observed m) :
    Op.actAll (Program.ops (moveBy depth distance)) w = w.move distance := by
  unfold moveBy Op.ofDisplacement
  split
  · simp [Program.ops, Direction.displacement]
  · split
    · simp [Program.ops, Direction.displacement]
    · obtain rfl : distance = 0 := by omega
      simp [Program.ops, Observed.move, Tape.move_zero]

theorem alike_commuted {op : Op} (h : op.isCellAccess = true ∨ op.isTransfer = true)
    (way : Direction) (amount : Int) :
    Op.Alike [.move way amount, op] [op.shift (way.displacement amount), .move way amount] := by
  have hplain : op.isPlain = true := h.elim Op.isPlain_of_isCellAccess Op.isPlain_of_isTransfer
  exact ⟨by simp [hplain], by simp [hplain], fun w => by simp [Op.act_shift h]⟩

theorem alike_bracketed {op : Op} (h : op.isCellAccess = true) (way way' : Direction)
    (amount amount' depth : Int) :
    Op.Alike [.move way amount, op, .move way' amount'] (op.shift (way.displacement amount) ::
      Program.ops (moveBy depth (way.displacement amount + way'.displacement amount'))) := by
  have hplain := Op.isPlain_of_isCellAccess h
  refine ⟨by simp [hplain], ?_, fun w => ?_⟩
  · exact List.forall_mem_cons.mpr ⟨by simpa using hplain, isPlain_moveBy _ _⟩
  · rw [Op.actAll_cons (op.shift _), actAll_moveBy]
    simp only [Op.actAll_cons, Op.actAll_nil, Op.act_move, ← Op.act_shift (.inl h)]
    simp [Observed.move, Tape.move_move]

theorem alike_combined (way way' : Direction) (amount amount' depth : Int) :
    Op.Alike [.move way amount, .move way' amount']
      (Program.ops (moveBy depth (way.displacement amount + way'.displacement amount'))) := by
  refine ⟨by simp, isPlain_moveBy _ _, fun w => ?_⟩
  simp [actAll_moveBy, Observed.move, Tape.move_move]

end MoveRules

namespace StoreRules

theorem isPlain_adjustBy (depth change offset : Int) :
    ∀ op ∈ Program.ops (adjustBy depth change offset), op.isPlain = true := by
  unfold adjustBy Op.ofChange
  split
  · simp [Program.ops]
  · split <;> simp [Program.ops]

theorem actAll_adjustBy (depth change offset : Int) (w : Observed m) :
    Op.actAll (Program.ops (adjustBy depth change offset)) w =
      { w with tape := w.tape.put offset (w.tape.cell offset + change) } := by
  unfold adjustBy Op.ofChange
  split
  · simp [Program.ops, Sign.change]
  · split
    · simp [Program.ops, Sign.change]
    · obtain rfl : change = 0 := by omega
      simp [Program.ops, Tape.put_eq_self]

theorem isPlain_of_increase? {op : Op} {t : Op.Increase} (h : op.increase? = some t) :
    op.isPlain = true := by
  cases op with
  | loop _ | once | close => contradiction
  | _ => rfl

theorem act_of_increase? {op : Op} {addend multiplier dest src : Int}
    (h : op.increase? = some ⟨addend, multiplier, dest, src⟩) (w : Observed m) :
    op.act w = { w with
      tape := w.tape.put dest (w.tape.cell dest + addend + multiplier * w.tape.cell src) } := by
  cases op with
  | addScaled _ _ _ _ => cases h; simp
  | addTo _ _ _ => cases h; simp
  | _ => contradiction

theorem alike_foldedAddend {op : Op} {addend multiplier dest src : Int}
    (h : op.increase? = some ⟨addend, multiplier, dest, src⟩) (hsrc : src ≠ dest) (sign : Sign)
    (amount : Int) :
    Op.Alike [.adjust sign amount dest, op]
      [.ofTerms (addend + sign.change amount) multiplier dest src] := by
  refine ⟨by simp [isPlain_of_increase? h], by simp, fun w => ?_⟩
  simp only [Op.actAll_cons, Op.actAll_nil, act_of_increase? h, Op.act_adjust, Op.act_ofTerms,
    Tape.cell_put_ne _ _ hsrc.symm]
  rw [Int.add_assoc, Tape.put_cell_add]
  congr 3
  ring

theorem alike_assignedIncrease {op : Op} {addend multiplier dest src : Int}
    (h : op.increase? = some ⟨addend, multiplier, dest, src⟩) (hsrc : src ≠ dest) (value : Int) :
    Op.Alike [.assign value dest, op] [.copy (value + addend) dest src multiplier] := by
  refine ⟨by simp [isPlain_of_increase? h], by simp, fun w => ?_⟩
  simp only [Op.actAll_cons, Op.actAll_nil, act_of_increase? h, Op.act_assign, Op.act_copy,
    Tape.cell_put_ne _ _ hsrc.symm]
  rw [Int.add_assoc, Tape.put_cell_add, Int.add_assoc]

theorem alike_assignedAdjustment (value offset : Int) (sign : Sign) (amount : Int) :
    Op.Alike [.assign value offset, .adjust sign amount offset]
      [.assign (value + sign.change amount) offset] := by
  refine ⟨by simp, by simp, fun w => ?_⟩
  simp only [Op.actAll_cons, Op.actAll_nil, Op.act_assign, Op.act_adjust, Tape.put_cell_add]

theorem alike_combined (sign sign' : Sign) (amount amount' offset depth : Int) :
    Op.Alike [.adjust sign amount offset, .adjust sign' amount' offset]
      (Program.ops (adjustBy depth (sign.change amount + sign'.change amount') offset)) := by
  refine ⟨by simp, isPlain_adjustBy _ _ _, fun w => ?_⟩
  simp only [actAll_adjustBy, Op.actAll_cons, Op.actAll_nil, Op.act_adjust, Tape.put_cell_add,
    Int.add_assoc]

/-- An operation with a target computes the new value of that cell from the cell itself and the
source, and does nothing else. -/
theorem act_of_target? {op : Op} {dest : Int} (h : op.target? = some dest) :
    ∃ value : Int → Int → Int, ∀ {m : Int} (w : Observed m), op.act w = { w with
      tape := w.tape.put dest (value (w.tape.cell dest) (op.source?.elim 0 w.tape.cell)) } := by
  cases op with
  | adjust sign amount offset =>
    cases h
    exact ⟨fun x _ => x + sign.change amount, fun w => by simp⟩
  | assign value offset =>
    cases h
    exact ⟨fun _ _ => value, fun w => by simp⟩
  | addScaled addend multiplier dest src =>
    cases h
    exact ⟨fun x y => x + addend + multiplier * y, fun w => by simp [Op.source?]⟩
  | addTo sign dest src =>
    cases h
    exact ⟨fun x y => x + sign * y, fun w => by simp [Op.source?]⟩
  | copy value dest src multiplier =>
    cases h
    exact ⟨fun _ y => value + multiplier * y, fun w => by simp [Op.source?]⟩
  | _ => contradiction

theorem isPlain_of_target? {op : Op} {dest : Int} (h : op.target? = some dest) :
    op.isPlain = true := by
  cases op with
  | loop _ | once | close => contradiction
  | _ => rfl

/-- A store does not change the source of an operation that does not use its cell. -/
theorem elim_source?_put {op : Op} {k : Int} (h : op.source? ≠ some k) (t : Tape m) (v : Int) :
    op.source?.elim 0 (t.put k v).cell = op.source?.elim 0 t.cell := by
  cases hs : op.source? with
  | none => rfl
  | some src => exact Tape.cell_put_ne t v fun hk => h (by rw [hs, hk])

theorem alike_sorted {a b : Op} {x y : Int} (ha : a.target? = some x) (hb : b.target? = some y)
    (hlt : y < x) (hsa : a.source? ≠ some y) (hsb : b.source? ≠ some x) :
    Op.Alike [a, b] [b, a] := by
  have hplain := And.intro (isPlain_of_target? ha) (isPlain_of_target? hb)
  refine ⟨by simp [hplain], by simp [hplain], fun w => ?_⟩
  obtain ⟨f, hf⟩ := act_of_target? ha
  obtain ⟨g, hg⟩ := act_of_target? hb
  simp only [Op.actAll_cons, Op.actAll_nil, hf, hg, elim_source?_put hsa, elim_source?_put hsb,
    Tape.cell_put_ne _ _ hlt.ne, Tape.cell_put_ne _ _ hlt.ne']
  rw [Tape.put_comm _ _ _ hlt.ne']

/-- What was in a cell that is overwritten does not matter. -/
theorem act_put_of_overwritten? {op : Op} {k : Int} (h : overwritten? op = some k) (v : Int)
    (w : Observed m) : op.act { w with tape := w.tape.put k v } = op.act w := by
  cases op with
  | assign value offset => cases h; simp [Tape.put_put]
  | read offset => cases h; simp [Tape.put_put]
  | copy value dest src multiplier =>
    simp only [overwritten?] at h
    split at h
    · contradiction
    · next hsrc =>
      cases h
      simp [Tape.put_put, Tape.cell_put_ne _ _ (Ne.symm hsrc)]
  | _ => contradiction

theorem isPlain_of_overwritten? {op : Op} {k : Int} (h : overwritten? op = some k) :
    op.isPlain = true := by
  cases op with
  | loop _ | once | close => contradiction
  | _ => rfl

theorem alike_deadStore {a b : Op} {k : Int} (ha : a.target? = some k)
    (hb : overwritten? b = some k) : Op.Alike [a, b] [b] := by
  have hplain := And.intro (isPlain_of_target? ha) (isPlain_of_overwritten? hb)
  refine ⟨by simp [hplain], by simp [hplain], fun w => ?_⟩
  obtain ⟨f, hf⟩ := act_of_target? ha
  simp only [Op.actAll_cons, Op.actAll_nil, hf, act_put_of_overwritten? hb]

theorem alike_biasedWrite (sign sign' : Sign) (amount amount' offset bias depth : Int) :
    Op.Alike [.adjust sign amount offset, .write offset bias, .adjust sign' amount' offset]
      (.write offset (bias + sign.change amount) ::
        Program.ops (adjustBy depth (sign.change amount + sign'.change amount') offset)) := by
  refine ⟨by simp, ?_, fun w => ?_⟩
  · exact List.forall_mem_cons.mpr ⟨rfl, isPlain_adjustBy _ _ _⟩
  · simp only [actAll_adjustBy, Op.actAll_cons, Op.actAll_nil, Op.act_adjust, Op.act_write,
      Tape.put_cell_add]
    simp only [Tape.cell_put_same, wrap_wrap_add, Int.add_assoc, Int.add_comm bias]

theorem alike_reorderedWrite (sign : Sign) (amount bias : Int) {offset offset' : Int}
    (hne : offset ≠ offset') :
    Op.Alike [.adjust sign amount offset, .write offset' bias]
      [.write offset' bias, .adjust sign amount offset] :=
  ⟨by simp, by simp, fun w => by simp [Tape.cell_put_ne _ _ hne]⟩

end StoreRules

open MoveRules StoreRules in
theorem Rule.Straightens.alike {r : Rule} {window items : Program}
    (h : r.Straightens window items) : Op.Alike window.ops items.ops := by
  cases h with
  | bracketedMove ha hb hc => simpa [Program.ops, ha, hc] using alike_bracketed hb ..
  | commuteAccess ha hb => simpa [Program.ops, ha] using alike_commuted (.inl hb) ..
  | commuteTransfer ha hb => simpa [Program.ops, ha] using alike_commuted (.inr hb) ..
  | foldAddend ha hb hsrc => simpa [Program.ops, ha] using alike_foldedAddend hb hsrc ..
  | assignIncrease ha hb hsrc => simpa [Program.ops, ha] using alike_assignedIncrease hb hsrc ..
  | assignAdjustment ha hb => simpa [Program.ops, ha, hb] using alike_assignedAdjustment ..
  | sortStores ha hb hlt hsa hsb => exact alike_sorted ha hb hlt hsa hsb
  | deadStore ha _ hb => exact alike_deadStore ha hb
  | combineAdjustments ha hb =>
    simpa [Program.ops, ha, hb] using StoreRules.alike_combined ..
  | combineMoves ha hb => simpa [Program.ops, ha, hb] using MoveRules.alike_combined ..
  | biasWrite ha hb hc => simpa [Program.ops, ha, hb, hc] using alike_biasedWrite ..
  | reorderWrite ha hb hne => simpa [Program.ops, ha, hb] using alike_reorderedWrite _ _ _ hne

end Brainfuck
