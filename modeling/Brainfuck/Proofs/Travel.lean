import Brainfuck.Proofs.Firing
import Brainfuck.Proofs.Settled
import Mathlib.Data.List.Chain

/-! How far movements travel in one pass. A rule that leaves a movement last has the pass take that
movement up again, so a movement goes on until it meets something that it cannot pass. What stands
behind the cursor then stays as it is: only a loop that becomes transfers would put something in its
place that a movement before it could pass. -/

namespace Brainfuck

/-- An operation that a movement passes, or is joined with. -/
def Op.isPassable (op : Op) : Bool := op.isCellAccess || op.isTransfer || op.isMove

/-- The first instruction is no movement, or it cannot pass the second. -/
def Instr.StopsAt (a b : Instr) : Prop := a.op.isMove = true → b.op.isPassable = false

namespace Op

theorem isMove_iff {op : Op} : op.isMove = true ↔ op.kind = .move := by
  cases op <;> simp [isMove, kind]

theorem isPassable_of_kind {op : Op} (h : op.kind = .block ∨ op.kind = .dump) :
    op.isPassable = false := by
  cases op <;> simp_all [kind, isPassable, isCellAccess, isTransfer, isMove]

theorem isPassable_of_target? {op : Op} {k : Int} (h : op.target? = some k) :
    op.isPassable = true := by
  cases op with
  | adjust _ _ _ | assign _ _ | addScaled _ _ _ _ | addTo _ _ _ | copy _ _ _ _ => rfl
  | _ => contradiction

@[simp] theorem isMove_ofTerms (addend multiplier dest src : Int) :
    (ofTerms addend multiplier dest src).isMove = false := by
  unfold ofTerms
  split <;> rfl

end Op

theorem Instr.stopsAt_of_isMove_eq_false {a : Instr} (h : a.op.isMove = false) (b : Instr) :
    a.StopsAt b := by
  intro hmove
  rw [h] at hmove
  contradiction

namespace Rule

open Instr MoveRules StoreRules

variable {r : Rule} {window items : Program}

theorem endsInMove_iff : endsInMove items = true ↔ ∃ i ∈ items.getLast?, i.op.isMove = true := by
  unfold endsInMove
  split
  · next depth way amount h => simp [h, Op.isMove]
  · next h =>
    simp only [Bool.false_eq_true, Option.mem_def, false_iff, not_exists, not_and]
    intro i hi hmove
    obtain ⟨way, amount, hop⟩ := Op.exists_eq_move (Op.isMove_iff.mp hmove)
    exact h i.depth way amount (by rw [hi, ← hop])

/-- A rule that is not about movements makes none. -/
theorem Straightens.isMove_of_mem (h : r.Straightens window items) (hr : r.resumes = false) :
    ∀ i ∈ items, i.op.isMove = false := by
  have hadjusts : ∀ {depth change offset : Int}, ∀ i ∈ adjustBy depth change offset,
      i.op.isMove = false := by
    intro depth change offset i hi
    obtain ⟨sign, amount, _, rfl⟩ := of_mem_adjustBy hi
    rfl
  cases h with
  | bracketedMove | commuteAccess | commuteTransfer | combineMoves => contradiction
  | foldAddend => simp
  | assignIncrease | assignAdjustment => simp [Op.isMove]
  | sortStores ha hb _ _ _ => simp [Op.isMove_of_target? ha, Op.isMove_of_target? hb]
  | @deadStore a b k _ _ hb =>
    have hmove : b.op.isMove = false :=
      Op.isMove_of_test (fun op => (overwritten? op).isSome) (fun _ _ => rfl) (by simp [hb])
    simpa using hmove
  | combineAdjustments => exact hadjusts
  | biasWrite => exact List.forall_mem_cons.mpr ⟨rfl, hadjusts⟩
  | reorderWrite ha hb _ => simp [ha, hb, Op.isMove]

/-- A movement can only be the last of what a rule for straight instructions makes. -/
theorem Straightens.isMove_of_mem_dropLast (h : r.Straightens window items) :
    ∀ i ∈ items.dropLast, i.op.isMove = false := by
  intro i hi
  by_cases hr : r.resumes = true
  · cases h with
    | @bracketedMove a b c way way' amount amount' _ hb _ =>
      have haccess := Op.isMove_of_test Op.isCellAccess (fun _ _ => rfl) hb
      have hlength := length_moveBy_le a.depth (way.displacement amount + way'.displacement amount')
      rcases hmove : moveBy a.depth (way.displacement amount + way'.displacement amount') with
        _ | ⟨move, _ | ⟨_, _⟩⟩
      · simp [hmove] at hi
      · simp only [hmove, List.dropLast_cons_cons, List.dropLast_singleton,
          List.mem_singleton] at hi
        simpa [hi] using haccess
      · simp [hmove] at hlength
    | commuteAccess _ hb =>
      have haccess := Op.isMove_of_test Op.isCellAccess (fun _ _ => rfl) hb
      obtain rfl : i = _ := by simpa using hi
      simpa using haccess
    | commuteTransfer _ hb =>
      have htransfer := Op.isMove_of_test Op.isTransfer (fun _ _ => rfl) hb
      obtain rfl : i = _ := by simpa using hi
      simpa using htransfer
    | @combineMoves a b way way' amount amount' _ _ =>
      have hlength := length_moveBy_le b.depth (way.displacement amount + way'.displacement amount')
      have hnil : (moveBy b.depth
          (way.displacement amount + way'.displacement amount')).dropLast = [] := by
        apply List.eq_nil_of_length_eq_zero
        simp only [List.length_dropLast]
        omega
      simp [hnil] at hi
    | _ => contradiction
  · exact h.isMove_of_mem (by simpa using hr) i (List.dropLast_subset items hi)

theorem Straightens.isPassable_head (h : r.Straightens window items) :
    ∃ a rest, window = a :: rest ∧ a.op.isPassable = true := by
  cases h with
  | bracketedMove ha _ _ | commuteAccess ha _ | commuteTransfer ha _ | combineMoves ha _
  | foldAddend ha _ _ | assignIncrease ha _ _ | assignAdjustment ha _ | combineAdjustments ha _
  | biasWrite ha _ _ | reorderWrite ha _ _ => exact ⟨_, _, rfl, by rw [ha]; rfl⟩
  | sortStores ha _ _ _ _ | deadStore ha _ _ => exact ⟨_, _, rfl, Op.isPassable_of_target? ha⟩

theorem isChain_of_dropLast (h : ∀ i ∈ items.dropLast, i.op.isMove = false) :
    items.IsChain StopsAt := by
  rw [List.isChain_iff_forall_rel_of_append_cons_cons]
  rintro a b before after rfl
  apply stopsAt_of_isMove_eq_false
  exact h a (by simp)

/-- Within what a rule makes, no movement stands before something that it can pass. -/
theorem Exchanges.isChain (h : r.Exchanges window items) (hr : r ≠ .loopToTransfers) :
    items.IsChain StopsAt := by
  cases h with
  | straight h => exact isChain_of_dropLast h.isMove_of_mem_dropLast
  | loopToOnce _ hbody _ _ =>
    apply isChain_of_dropLast
    rw [← List.cons_append, List.dropLast_concat, List.forall_mem_cons]
    exact ⟨rfl, fun i hi => Op.isMove_of_test Op.allowsOnce (fun _ _ => rfl) (hbody i hi)⟩
  | loopToTransfers => contradiction
  | commuteSeekLoop _ hb hc hd =>
    simp [StopsAt, Op.isMove, Op.isPassable, Op.isCellAccess, Op.isTransfer, Op.shift, hb, hc, hd]

/-- A movement that is left last is taken up again. -/
theorem Exchanges.resumes_of_endsInMove (h : r.Exchanges window items) (hr : r ≠ .loopToTransfers)
    (hends : endsInMove items = true) : r.resumes = true := by
  obtain ⟨i, hi, hmove⟩ := endsInMove_iff.mp hends
  cases h with
  | straight h =>
    by_contra hresumes
    have hnot := h.isMove_of_mem (by simpa using hresumes) i (List.mem_of_getLast? hi)
    rw [hnot] at hmove
    contradiction
  | @loopToOnce opener last body _ _ _ hlast =>
    rw [← List.cons_append, List.getLast?_concat] at hi
    cases hi
    simp [hlast, Op.isMove] at hmove
  | loopToTransfers => contradiction
  | commuteSeekLoop => rfl

/-- A rule takes up something that a movement passes, or else leaves something at the front that
none does. -/
theorem Exchanges.isPassable_head (h : r.Exchanges window items) (hr : r ≠ .loopToTransfers) :
    (∃ a rest, window = a :: rest ∧ a.op.isPassable = true) ∨
      ∃ i rest, items = i :: rest ∧ i.op.isPassable = false := by
  cases h with
  | straight h => exact .inl h.isPassable_head
  | loopToOnce => exact .inr ⟨_, _, rfl, rfl⟩
  | loopToTransfers => contradiction
  | commuteSeekLoop ha _ _ _ => exact .inl ⟨_, _, rfl, by rw [ha]; rfl⟩

/-- Nor does a movement before the rule's instructions stand before something that it can pass. -/
theorem Exchanges.isChain_append {i : Instr} (h : r.Exchanges (i :: window) items)
    (hr : r ≠ .loopToTransfers) {before after : Program}
    (hbefore : (before ++ [i]).IsChain StopsAt) (hitems : (items ++ after).IsChain StopsAt) :
    (before ++ (items ++ after)).IsChain StopsAt := by
  obtain ⟨hchain, _, hlast⟩ := List.isChain_append.mp hbefore
  refine List.isChain_append.mpr ⟨hchain, hitems, fun x hx y hy => ?_⟩
  have hstops := hlast x hx i (by simp)
  rcases h.isPassable_head hr with ⟨a, rest, heq, hpass⟩ | ⟨j, rest, rfl, hpass⟩
  · cases heq
    intro hmove
    rw [hstops hmove] at hpass
    contradiction
  · obtain rfl : j = y := by simpa using hy
    exact fun _ => hpass

end Rule

theorem Instr.stopsAt_of_firing?_eq_none {a b : Instr} {rest : Program}
    (h : Rule.firing? (a :: b :: rest) = none) : a.StopsAt b := by
  intro hmove
  apply Op.isPassable_of_kind
  exact Program.kind_after_move (Rule.firing?_eq_none_iff.mp h) (Op.isMove_iff.mp hmove)

namespace Cursor

open Instr

variable {c next : Cursor}

/-- No movement behind the cursor can pass the instruction after it, whether that is behind the
cursor too or the next one ahead. -/
def Crossed (c : Cursor) : Prop :=
  (c.passed.reverse ++ (c.current ++ c.ahead.take 1)).IsChain StopsAt

theorem isChain_take_one (rest : Program) : (rest.take 1).IsChain StopsAt := by
  cases rest with
  | nil => exact .nil
  | cons i rest => exact .singleton i

theorem crossed_apply {i : Instr} {rest : Program} {r : Rule} {w : Rewrite}
    (h : r.pattern.rewrite? (i :: rest) = some w) (hr : r ≠ .loopToTransfers)
    (hc : (c.passed.reverse ++ [i]).IsChain StopsAt) :
    (c.apply r w).Crossed := by
  have hexchange := r.relates_exchanges h
  obtain ⟨size, hsize⟩ := Nat.exists_eq_add_of_le' (Pattern.size_bounds h).1
  rw [hsize, List.take_succ_cons] at hexchange
  have hitems := hexchange.isChain hr
  unfold apply
  split
  · next hresumes =>
    -- The movement comes ahead of the cursor again, so nothing after it matters.
    have hends : Rule.endsInMove w.items = true := (Bool.and_eq_true_iff.mp hresumes).2
    obtain ⟨move, hmove, _⟩ := Rule.endsInMove_iff.mp hends
    obtain ⟨others, hothers⟩ := List.getLast?_eq_some_iff.mp hmove
    rw [← List.append_nil w.items] at hitems
    simpa [Crossed, replace, rewind, hothers] using hexchange.isChain_append hr hc hitems
  · next hresumes =>
    refine hexchange.isChain_append hr hc (hitems.append (isChain_take_one _) ?_)
    -- What is left last would have been taken up again, were it a movement.
    intro x hx y _ hmove
    have hends := Rule.endsInMove_iff.mpr ⟨x, hx, hmove⟩
    rw [hends, hexchange.resumes_of_endsInMove hr hends] at hresumes
    contradiction

theorem crossed_rewrite {i : Instr} (hcurrent : c.current = [i])
    (hc : (c.passed.reverse ++ [i]).IsChain StopsAt)
    (hfiring : ∀ w, Rule.firing? c.remaining ≠ some (.loopToTransfers, w)) :
    c.rewrite.Crossed := by
  have hremaining : c.remaining = i :: c.ahead := by simp [remaining, hcurrent]
  cases h : Rule.firing? c.remaining with
  | none =>
    rw [rewrite_of_none h, Crossed, hcurrent, ← List.append_assoc]
    refine hc.append_overlap ?_ (by simp)
    rw [hremaining] at h
    cases hahead : c.ahead with
    | nil => exact .singleton i
    | cons b rest =>
      rw [hahead] at h
      simpa using stopsAt_of_firing?_eq_none h
  | some f =>
    obtain ⟨r, w⟩ := f
    rw [rewrite_of_some h]
    refine crossed_apply (hremaining ▸ Rule.rewrite?_of_firing? h) ?_ hc
    rintro rfl
    exact hfiring w h

/-- The rules that fire from the cursor on, in their order. -/
def firings (c : Cursor) : List Rule :=
  match _h : c.advance? with
  | none => []
  | some next => ((Rule.firing? next.remaining).map (·.1)).toList ++ next.rewrite.firings
termination_by c.ahead.length
decreasing_by
  have ha := length_ahead_of_advance? _h
  have hr := length_ahead_rewrite_le next ha.1
  omega

theorem firings_of_some (h : c.advance? = some next) :
    c.firings = ((Rule.firing? next.remaining).map (·.1)).toList ++ next.rewrite.firings := by
  rw [firings]
  split
  · next hnext => rw [h] at hnext; contradiction
  · next hnext =>
    rw [h] at hnext
    cases hnext
    rfl

theorem crossed_finish (hc : c.Crossed) (h : .loopToTransfers ∉ c.firings) : c.finish.Crossed := by
  fun_induction finish c with
  | case1 c hend => exact hc
  | case2 c next hnext ih =>
    rw [firings_of_some hnext, List.mem_append, not_or] at h
    refine ih ?_ h.2
    unfold advance? at hnext
    split at hnext
    · contradiction
    · next i rest hahead =>
      cases hnext
      refine crossed_rewrite (i := i) rfl ?_ fun w hw => h.1 (by simp [hw])
      simpa [Crossed, hahead] using hc

end Cursor

namespace Program

/-- The rules that fire in a pass, in their order. -/
def firings (p : Program) : List Rule := (Cursor.ofProgram p).firings

/-- In a pass that makes transfers of no loop, a movement goes past all that it can pass: none is
left before an access to a cell, a transfer or another movement. -/
theorem movements_travel_in_one_pass (p : Program) (h : .loopToTransfers ∉ p.firings)
    {before after : Program} {a b : Instr} (hpass : p.pass.1 = before ++ a :: b :: after)
    (ha : a.op.isMove = true) :
    b.op.isCellAccess = false ∧ b.op.isTransfer = false ∧ b.op.isMove = false := by
  have hcrossed := Cursor.crossed_finish (c := .ofProgram p) (Cursor.isChain_take_one p) h
  have hend := Cursor.ahead_of_advance?_eq_none (Cursor.ofProgram p).steps_finish.2
  have hchain : p.pass.1.IsChain Instr.StopsAt := by
    simpa [pass, Cursor.program, Cursor.remaining, Cursor.Crossed, hend] using hcrossed
  have hstops := List.isChain_iff_forall_rel_of_append_cons_cons.mp hchain hpass ha
  simpa [Op.isPassable, and_assoc] using hstops

/-- One movement joins another, and together they pass a transfer, a loop that seeks and a byte that
is read, up to the dump. -/
theorem movements_travel_up_to_dump :
    .loopToTransfers ∉ firings
        [⟨0, .move .right 1⟩, ⟨0, .adjust .plus 1 0⟩, ⟨0, .move .left 3⟩, ⟨0, .addTo 1 1 0⟩,
          ⟨0, .loop 0⟩, ⟨1, .move .left 1⟩, ⟨0, .close⟩, ⟨0, .read 0⟩, ⟨0, .dump⟩, ⟨0, .loop 0⟩,
          ⟨1, .assign 0 0⟩, ⟨0, .close⟩] ∧
      (pass
        [⟨0, .move .right 1⟩, ⟨0, .adjust .plus 1 0⟩, ⟨0, .move .left 3⟩, ⟨0, .addTo 1 1 0⟩,
          ⟨0, .loop 0⟩, ⟨1, .move .left 1⟩, ⟨0, .close⟩, ⟨0, .read 0⟩, ⟨0, .dump⟩, ⟨0, .loop 0⟩,
          ⟨1, .assign 0 0⟩, ⟨0, .close⟩]).1 =
        [⟨0, .adjust .plus 1 1⟩, ⟨0, .addTo 1 (-1) (-2)⟩, ⟨0, .loop (-2)⟩, ⟨1, .move .left 1⟩,
          ⟨0, .close⟩, ⟨0, .read (-2)⟩] ++ ⟨0, .move .left 2⟩ :: ⟨0, .dump⟩ ::
            [⟨0, .once⟩, ⟨1, .assign 0 0⟩, ⟨0, .close⟩] ∧
      (Op.isCellAccess .dump = false ∧ Op.isTransfer .dump = false ∧ Op.isMove .dump = false) := by
  refine ⟨?firings, ?pass, movements_travel_in_one_pass _ ?firings ?pass rfl⟩
  · decide +kernel
  · decide +kernel

/-- A pass that makes transfers of a loop leaves a movement before them. -/
example : pass [⟨0, .move .right 1⟩, ⟨0, .loop 0⟩, ⟨1, .adjust .minus 1 0⟩, ⟨0, .close⟩] =
    ([⟨0, .move .right 1⟩, ⟨0, .assign 0 0⟩], true) := by
  decide +kernel

end Program

end Brainfuck
