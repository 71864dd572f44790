import Brainfuck.Proofs.Levels
import Brainfuck.Proofs.Passes
import Brainfuck.Proofs.WellFormed

/-! Settled programs. Rules put in the place of operations only such as are of the same kinds, so a
program without blocks keeps to the kinds that it began with. Where no rule applies any more, a
movement has nothing left to pass, and of two neighbours that adjust or assign cells the first goes
to the lower cell. -/

namespace Brainfuck

namespace Op

@[simp] theorem kind_shift (distance : Int) (op : Op) : (op.shift distance).kind = op.kind := by
  cases op <;> rfl

@[simp] theorem kind_ofTerms (addend multiplier dest src : Int) :
    (ofTerms addend multiplier dest src).kind = .transfer := by
  unfold ofTerms
  split <;> rfl

theorem kind_of_increase? {op : Op} {t : Increase} (h : op.increase? = some t) :
    op.kind = .transfer := by
  cases op with
  | addScaled _ _ _ _ | addTo _ _ _ => rfl
  | _ => contradiction

theorem kind_eq_block_iff {op : Op} : op.kind = .block ↔ op.isPlain = false := by
  cases op <;> simp [kind, isPlain]

theorem exists_eq_move {op : Op} (h : op.kind = .move) : ∃ way amount, op = move way amount := by
  cases op with
  | move way amount => exact ⟨way, amount, rfl⟩
  | _ => contradiction

theorem exists_eq_adjust {op : Op} (h : op.kind = .adjust) :
    ∃ sign amount offset, op = adjust sign amount offset := by
  cases op with
  | adjust sign amount offset => exact ⟨sign, amount, offset, rfl⟩
  | _ => contradiction

theorem exists_eq_assign {op : Op} (h : op.kind = .assign) :
    ∃ value offset, op = assign value offset := by
  cases op with
  | assign value offset => exact ⟨value, offset, rfl⟩
  | _ => contradiction

end Op

namespace Rule

open MoveRules StoreRules

variable {r : Rule} {window items : Program}

theorem Straightens.exists_kind_eq (h : r.Straightens window items) :
    ∀ i ∈ items, ∃ j ∈ window, i.op.kind = j.op.kind := by
  cases h with
  | @bracketedMove a b c way way' amount amount' ha _ _ =>
    refine List.forall_mem_cons.mpr ⟨⟨b, by simp, by simp⟩, fun i hi => ⟨a, by simp, ?_⟩⟩
    obtain ⟨way, amount, _, rfl⟩ := of_mem_moveBy hi
    rw [ha]
    rfl
  | @combineMoves a b way way' amount amount' ha _ =>
    refine fun i hi => ⟨a, by simp, ?_⟩
    obtain ⟨way, amount, _, rfl⟩ := of_mem_moveBy hi
    rw [ha]
    rfl
  | @combineAdjustments a b sign sign' amount amount' offset ha _ =>
    refine fun i hi => ⟨a, by simp, ?_⟩
    obtain ⟨sign, amount, _, rfl⟩ := of_mem_adjustBy hi
    rw [ha]
    rfl
  | @biasWrite a b c sign sign' amount amount' offset bias _ hb hc =>
    refine List.forall_mem_cons.mpr ⟨⟨b, by simp, by rw [hb]; rfl⟩, fun i hi => ⟨c, by simp, ?_⟩⟩
    obtain ⟨sign, amount, _, rfl⟩ := of_mem_adjustBy hi
    rw [hc]
    rfl
  | @foldAddend a b _ _ _ _ _ _ _ hb _ =>
    exact List.forall_mem_singleton.mpr ⟨b, by simp, by simp [Op.kind_of_increase? hb]⟩
  | @assignIncrease a b _ _ _ _ _ _ hb _ =>
    exact List.forall_mem_singleton.mpr ⟨b, by simp, (Op.kind_of_increase? hb).symm⟩
  | @assignAdjustment a b _ _ _ _ ha _ =>
    exact List.forall_mem_singleton.mpr ⟨a, by simp, by rw [ha]; rfl⟩
  | commuteAccess | commuteTransfer | sortStores | deadStore | reorderWrite => simp

theorem Straightens.condenses (h : r.Straightens window items) :
    Op.Condenses window.ops items.ops := by
  refine ⟨h.alike, fun k hk => ?_⟩
  rw [Program.ops, List.map_map] at hk ⊢
  obtain ⟨i, hi, rfl⟩ := List.mem_map.mp hk
  obtain ⟨j, hj, heq⟩ := h.exists_kind_eq i hi
  exact List.mem_map.mpr ⟨j, hj, heq.symm⟩

/-- Without blocks, a rule makes no operations of other kinds. -/
theorem Exchanges.kinds {K : Op.Kind → Prop} (hblock : ¬ K .block)
    (h : r.Exchanges window items) (hw : ∀ i ∈ window, K i.op.kind) :
    ∀ i ∈ items, K i.op.kind := by
  cases h with
  | straight h =>
    intro i hi
    obtain ⟨j, hj, heq⟩ := h.exists_kind_eq i hi
    rw [heq]
    exact hw j hj
  | loopToOnce hopener _ _ _ | loopToTransfers hopener _ _ _ =>
    have hloop := hw _ List.mem_cons_self
    rw [hopener] at hloop
    exact absurd hloop hblock
  | commuteSeekLoop _ hb _ _ =>
    have hloop := hw _ (List.mem_cons_of_mem _ List.mem_cons_self)
    rw [hb] at hloop
    exact absurd hloop hblock

end Rule

namespace Program

variable {p q : Program}

theorem RewritesTo.kinds {K : Op.Kind → Prop} (hblock : ¬ K .block)
    (h : p.RewritesTo q) (hp : ∀ i ∈ p, K i.op.kind) : ∀ i ∈ q, K i.op.kind := by
  induction h with
  | refl => exact hp
  | tail _ h ih =>
    obtain ⟨r, before, window, items, after, rfl, rfl, hexchange⟩ := h.exists_exchanges
    simp only [List.forall_mem_append] at ih ⊢
    exact ⟨ih.1, hexchange.kinds hblock ih.2.1, ih.2.2⟩

/-! ### Neighbours in a settled program -/

variable {a b : Instr} {rest : Program}

theorem Normal.of_append {before after : Program} (h : Normal (before ++ after)) :
    after.Normal := by
  induction before with
  | nil => exact h
  | cons i before ih => exact ih (normal_cons_iff.mp h).2

/-- A rule for two instructions does not apply to the first two. -/
theorem pair_eq_none {r : Rule} {f : Instr → Instr → Option (List Instr)}
    (hr : r.pattern = .pair f) (h : r.pattern.rewrite? (a :: b :: rest) = none) : f a b = none := by
  rw [hr] at h
  exact Option.map_eq_none_iff.mp h

theorem Normal.pair (h : Normal (a :: b :: rest)) {r : Rule}
    {f : Instr → Instr → Option (List Instr)} (hr : r.pattern = .pair f) : f a b = none :=
  pair_eq_none hr (h r 0)

/-- A movement that no rule applies to has passed whatever it can pass. -/
theorem kind_after_move (h : ∀ r : Rule, r.pattern.rewrite? (a :: b :: rest) = none)
    (ha : a.op.kind = .move) : b.op.kind = .block ∨ b.op.kind = .dump := by
  obtain ⟨way, amount, ha⟩ := Op.exists_eq_move ha
  have haccess := pair_eq_none (r := .commuteAccess) rfl (h _)
  have htransfer := pair_eq_none (r := .commuteTransfer) rfl (h _)
  have hmove := pair_eq_none (r := .combineMoves) rfl (h _)
  simp only [MoveRules.commuted?, MoveRules.combined?, ha] at haccess htransfer hmove
  cases hb : b.op <;> simp_all [Op.isCellAccess, Op.isTransfer, Op.kind]

theorem Normal.kind_after_move (h : Normal (a :: b :: rest)) (ha : a.op.kind = .move) :
    b.op.kind = .block ∨ b.op.kind = .dump :=
  Program.kind_after_move (fun r => h r 0) ha

/-- With nothing else to stop it, a movement is the last instruction. -/
theorem Normal.eq_nil_of_move {before after : Program} (h : Normal (before ++ a :: (after ++ rest)))
    (ha : a.op.kind = .move)
    (hafter : ∀ i ∈ after, i.op.kind ≠ .block ∧ i.op.kind ≠ .dump) : after = [] := by
  cases after with
  | nil => rfl
  | cons b after =>
    obtain ⟨hblock, hdump⟩ := hafter b (by simp)
    rcases h.of_append.kind_after_move ha with hb | hb
    · exact absurd hb hblock
    · exact absurd hb hdump

end Program

/-- What holds of every settled program that the commands of a text can be rewritten to holds of
what the optimiser returns, and with a limit that is high enough it returns. -/
theorem Options.exists_settled {o : Options} (hlevel : o.level = .full) {text : List Char}
    (h : Source.WellNested text) {P : Program → Prop}
    (hgood : ∀ {p q : Program}, p.Regular →
      p.ops = Op.ofText (Source.simplify (Source.strip o.debugging text)) → p.RewritesTo q →
      q.Normal → P q) :
    ∃ l, o.lower text = .ok l ∧ (∀ r, o.optimize l.program = .ok r → P r.program) ∧
      ∃ limit : Nat, ∀ n : Int, limit ≤ n →
        ∃ r, { o with maxPasses := some n }.optimize l.program = .ok r ∧ P r.program := by
  obtain ⟨l, hl, hops⟩ := o.exists_lower h
  replace hops : l.program.ops = Op.ofText (Source.simplify (Source.strip o.debugging text)) := by
    rw [hops, hlevel]
    rfl
  have hreturned : ∀ {o' : Options} {r : Optimized}, o'.optimize l.program = .ok r →
      o'.level = .full → P r.program := fun hr hlevel' =>
    hgood (regular_of_lower hl) hops (rewritesTo_of_optimize hr) (normal_of_optimize hlevel' hr)
  refine ⟨l, hl, fun r hr => hreturned hr hlevel, ?_⟩
  obtain ⟨limit, q, hlimit⟩ := exists_optimize l.program .full
  refine ⟨limit, fun n hn => ?_⟩
  obtain ⟨passes, hr⟩ := hlimit { o with maxPasses := some n } n hlevel rfl hn
  exact ⟨_, hr, hreturned hr hlevel⟩

end Brainfuck
