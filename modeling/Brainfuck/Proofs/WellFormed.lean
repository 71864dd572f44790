import Brainfuck.Proofs.Lowering
import Brainfuck.Proofs.Matching
import Brainfuck.Proofs.Rewriting

/-! Well-formed programs. What lowering makes of a text has matching blocks and the depths that go
with them, positive amounts, and loops that test the current cell. Rewriting keeps the first three
and changes the last in one way only: a loop that tests another cell does nothing but move. -/

namespace Brainfuck

namespace Op

/-- The amounts and cells of the operation are as they should be. An amount is above zero, no cell
is carried to itself, and no multiple is zero. -/
def Proper : Op → Prop
  | move _ amount => 0 < amount
  | adjust _ amount _ => 0 < amount
  | addScaled _ multiplier dest src => src ≠ dest ∧ multiplier ≠ 0
  | addTo sign dest src => src ≠ dest ∧ (sign = 1 ∨ sign = -1)
  | copy _ dest src multiplier => src ≠ dest ∧ multiplier ≠ 0
  | _ => True

theorem proper_shift_iff {op : Op} (distance : Int) : (op.shift distance).Proper ↔ op.Proper := by
  cases op <;> simp [shift, Proper]

theorem proper_ofTerms {addend multiplier dest src : Int} (hsrc : src ≠ dest)
    (hmultiplier : multiplier ≠ 0) : (ofTerms addend multiplier dest src).Proper := by
  unfold ofTerms
  split
  · next h => exact ⟨hsrc, h.2⟩
  · exact ⟨hsrc, hmultiplier⟩

theorem Proper.multiplier_ne_zero {op : Op} (h : op.Proper) {addend multiplier dest src : Int}
    (hop : op.increase? = some ⟨addend, multiplier, dest, src⟩) : multiplier ≠ 0 := by
  cases op with
  | addScaled _ _ _ _ =>
    cases hop
    exact h.2
  | addTo _ _ _ =>
    cases hop
    have hsign := h.2
    omega
  | _ => contradiction

/-- The operations are a movement and the end of a block, and what comes after them. -/
def Seeks (ops : List Op) : Prop := ∃ way amount rest, ops = move way amount :: close :: rest

/-- Every loop that tests another cell than the current one only moves. -/
def SeekLoops : List Op → Prop
  | [] => True
  | op :: rest => (∀ offset, op = loop offset → offset ≠ 0 → Seeks rest) ∧ SeekLoops rest

theorem seekLoops_plains {ops : List Op} (h : ∀ op ∈ ops, op.isPlain = true) (rest : List Op) :
    SeekLoops (ops ++ rest) ↔ SeekLoops rest := by
  induction ops with
  | nil => rfl
  | cons op ops ih =>
    obtain ⟨hop, hops⟩ := List.forall_mem_cons.mp h
    rw [List.cons_append, SeekLoops, ih hops, and_iff_right]
    rintro offset rfl
    contradiction

/-- Where a movement and the end of a block come first, this does not depend on the rest. -/
theorem Seeks.append_congr {before xs : List Op} (h : Seeks (before ++ xs)) (hxs : ¬ Seeks xs)
    (hhead : xs.head? ≠ some close) (ys : List Op) : Seeks (before ++ ys) := by
  obtain ⟨way, amount, rest, heq⟩ := h
  rcases before with _ | ⟨a, _ | ⟨b, before⟩⟩
  · exact absurd ⟨way, amount, rest, heq⟩ hxs
  · obtain ⟨rfl, rfl⟩ := List.cons.inj heq
    exact absurd rfl hhead
  · simp only [List.cons_append, List.cons.injEq] at heq
    obtain ⟨rfl, rfl, _⟩ := heq
    exact ⟨way, amount, before ++ ys, rfl⟩

theorem SeekLoops.append_congr {xs ys : List Op} (hxs : ¬ Seeks xs)
    (hhead : xs.head? ≠ some close) (hxy : SeekLoops xs → SeekLoops ys) {before : List Op}
    (h : SeekLoops (before ++ xs)) : SeekLoops (before ++ ys) := by
  induction before with
  | nil => exact hxy h
  | cons op before ih =>
    refine ⟨fun offset hop hoffset => ?_, ih h.2⟩
    exact (h.1 offset hop hoffset).append_congr hxs hhead ys

theorem SeekLoops.seeks {before rest : List Op} {offset : Int}
    (h : SeekLoops (before ++ loop offset :: rest)) (hoffset : offset ≠ 0) : Seeks rest := by
  induction before with
  | nil => exact h.1 offset rfl hoffset
  | cons op before ih => exact ih h.2

end Op

namespace Program

/-- How many blocks the instructions open without ending them. -/
def openBlocks (p : Program) : Int :=
  (p.countP (·.op.isOpener) : Int) - (p.countP (·.op == .close) : Int)

theorem openBlocks_cons (i : Instr) (p : Program) :
    openBlocks (i :: p) =
      openBlocks p + (if i.op.isOpener then 1 else 0) - (if i.op == .close then 1 else 0) := by
  simp only [openBlocks, List.countP_cons]
  split <;> split <;> omega

/-- What comes after a part of the program is nested in the blocks that the part leaves open. -/
theorem Nested.exists_inner {before after : Program} {depth : Nat}
    (h : Nested depth (before ++ after)) :
    ∃ inner : Nat, inner = depth + openBlocks before ∧ Nested inner after := by
  induction before generalizing depth with
  | nil => exact ⟨depth, by simp [openBlocks], h⟩
  | cons i before ih =>
    rw [openBlocks_cons]
    by_cases hop : i.op = .close
    · obtain ⟨outer, rfl, _, hrest⟩ := (nested_close_iff hop).mp h
      obtain ⟨inner, hinner, hafter⟩ := ih hrest
      refine ⟨inner, ?_, hafter⟩
      simp only [hop, Op.isOpener, Bool.false_eq_true, if_false, BEq.rfl, if_true]
      omega
    · obtain ⟨_, hrest⟩ := (nested_cons_iff hop).mp h
      obtain ⟨inner, hinner, hafter⟩ := ih hrest
      refine ⟨inner, ?_, hafter⟩
      have hclose : (i.op == .close) = false := beq_eq_false_iff_ne.mpr hop
      rw [hclose, hinner]
      by_cases hopener : i.op.isOpener = true
      · simp only [hopener, if_true, Bool.false_eq_true, if_false]
        omega
      · simp only [hopener, Bool.false_eq_true, if_false]
        omega

theorem Nested.depth_eq {before after : Program} {i : Instr} {depth : Nat}
    (h : Nested depth (before ++ i :: after)) (hi : i.op ≠ .close) :
    i.depth = depth + openBlocks before := by
  obtain ⟨inner, hinner, hafter⟩ := h.exists_inner
  obtain ⟨hdepth, _⟩ := (nested_cons_iff hi).mp hafter
  exact hdepth.trans hinner

theorem Nested.openBlocks_eq_zero {p : Program} (h : Nested 0 p) : openBlocks p = 0 := by
  rw [← List.append_nil p] at h
  obtain ⟨inner, hinner, hend⟩ := h.exists_inner
  cases inner with
  | zero => omega
  | succ inner =>
    simp [Nested, ops, nest] at hend

theorem Nested.openBlocks_nonneg {before p : Program} (h : Nested 0 p) (hbefore : before <+: p) :
    0 ≤ openBlocks before := by
  obtain ⟨after, rfl⟩ := hbefore
  obtain ⟨inner, hinner, _⟩ := h.exists_inner
  omega

end Program

theorem MoveRules.of_mem_moveBy {i : Instr} {depth distance : Int}
    (h : i ∈ moveBy depth distance) :
    ∃ way amount, 0 < amount ∧ i = ⟨depth, .move way amount⟩ := by
  unfold moveBy Op.ofDisplacement at h
  split at h
  · next hpos => exact ⟨.right, distance, hpos, by simpa using h⟩
  · split at h
    · next hneg => exact ⟨.left, -distance, by omega, by simpa using h⟩
    · simp at h

theorem StoreRules.of_mem_adjustBy {i : Instr} {depth change offset : Int}
    (h : i ∈ adjustBy depth change offset) :
    ∃ sign amount, 0 < amount ∧ i = ⟨depth, .adjust sign amount offset⟩ := by
  unfold adjustBy Op.ofChange at h
  split at h
  · next hpos => exact ⟨.plus, change, hpos, by simpa using h⟩
  · split at h
    · next hneg => exact ⟨.minus, -change, by omega, by simpa using h⟩
    · simp at h

theorem LoopRules.of_mem_transfers {op : Op} {adjustments : List (Int × Int)}
    (h : op ∈ transfers adjustments) : op.Proper := by
  rcases List.mem_append.mp h with h | h
  · obtain ⟨k, hk, rfl⟩ := List.mem_map.mp h
    have hne : k ≠ 0 ∧ netChange k adjustments ≠ 0 := by
      simpa using (List.mem_filter.mp hk).2
    exact Op.proper_ofTerms (Ne.symm hne.1) hne.2
  · rw [List.mem_singleton.mp h]
    trivial

namespace Rule

open LoopRules MoveRules StoreRules Program

variable {r : Rule} {window items : Program}

theorem Straightens.exists_depth_eq (h : r.Straightens window items) :
    ∀ i ∈ items, ∃ j ∈ window, i.depth = j.depth := by
  cases h with
  | @bracketedMove a b c way way' amount amount' _ _ _ =>
    refine List.forall_mem_cons.mpr ⟨⟨b, by simp, rfl⟩, fun i hi => ⟨a, by simp, ?_⟩⟩
    obtain ⟨way, amount, _, rfl⟩ := of_mem_moveBy hi
    rfl
  | @combineAdjustments a b sign sign' amount amount' offset _ _ =>
    refine fun i hi => ⟨b, by simp, ?_⟩
    obtain ⟨sign, amount, _, rfl⟩ := of_mem_adjustBy hi
    rfl
  | @combineMoves a b way way' amount amount' _ _ =>
    refine fun i hi => ⟨b, by simp, ?_⟩
    obtain ⟨way, amount, _, rfl⟩ := of_mem_moveBy hi
    rfl
  | @biasWrite a b c sign sign' amount amount' offset bias _ _ _ =>
    refine List.forall_mem_cons.mpr ⟨⟨b, by simp, rfl⟩, fun i hi => ⟨c, by simp, ?_⟩⟩
    obtain ⟨sign, amount, _, rfl⟩ := of_mem_adjustBy hi
    rfl
  | _ => simp

theorem Straightens.proper (h : r.Straightens window items) (hw : ∀ i ∈ window, i.op.Proper) :
    ∀ i ∈ items, i.op.Proper := by
  cases h with
  | bracketedMove ha hb hc =>
    refine List.forall_mem_cons.mpr ⟨?_, fun i hi => ?_⟩
    · exact (Op.proper_shift_iff _).mpr (hw _ (by simp))
    · obtain ⟨way, amount, hpos, rfl⟩ := of_mem_moveBy hi
      exact hpos
  | commuteAccess | commuteTransfer =>
    simp only [List.forall_mem_cons, Instr.op_shift, Op.proper_shift_iff] at hw ⊢
    exact ⟨hw.2.1, hw.1, hw.2.2⟩
  | foldAddend ha hb hsrc =>
    have hmultiplier := (hw _ (by simp)).multiplier_ne_zero hb
    exact List.forall_mem_singleton.mpr (Op.proper_ofTerms hsrc hmultiplier)
  | assignIncrease ha hb hsrc =>
    have hmultiplier := (hw _ (by simp)).multiplier_ne_zero hb
    exact List.forall_mem_singleton.mpr ⟨hsrc, hmultiplier⟩
  | assignAdjustment => simp [Op.Proper]
  | sortStores | reorderWrite =>
    simp only [List.forall_mem_cons] at hw ⊢
    exact ⟨hw.2.1, hw.1, hw.2.2⟩
  | deadStore => exact fun i hi => hw i (List.mem_cons_of_mem _ hi)
  | combineAdjustments =>
    intro i hi
    obtain ⟨sign, amount, hpos, rfl⟩ := of_mem_adjustBy hi
    exact hpos
  | combineMoves =>
    intro i hi
    obtain ⟨way, amount, hpos, rfl⟩ := of_mem_moveBy hi
    exact hpos
  | biasWrite =>
    refine List.forall_mem_cons.mpr ⟨trivial, fun i hi => ?_⟩
    obtain ⟨sign, amount, hpos, rfl⟩ := of_mem_adjustBy hi
    exact hpos

theorem Straightens.isPlain (h : r.Straightens window items) :
    (∀ i ∈ window, i.op.isPlain = true) ∧ ∀ i ∈ items, i.op.isPlain = true :=
  ⟨List.forall_mem_map.mp h.alike.plain_left, List.forall_mem_map.mp h.alike.plain_right⟩

theorem Exchanges.proper (h : r.Exchanges window items) (hw : ∀ i ∈ window, i.op.Proper) :
    ∀ i ∈ items, i.op.Proper := by
  cases h with
  | straight h => exact h.proper hw
  | loopToOnce => exact List.forall_mem_cons.mpr ⟨trivial, (List.forall_mem_cons.mp hw).2⟩
  | loopToTransfers => exact List.forall_mem_map.mpr fun op hop => of_mem_transfers hop
  | commuteSeekLoop =>
    simp only [List.forall_mem_cons, Instr.op_shift, Op.proper_shift_iff] at hw ⊢
    exact ⟨hw.2.1, hw.2.2.1, hw.2.2.2.1, hw.1, hw.2.2.2.2⟩

theorem Exchanges.nested (h : r.Exchanges window items) (rest : Program) {depth : Nat}
    (hn : Nested depth (window ++ rest)) : Nested depth (items ++ rest) := by
  cases h with
  | straight h =>
    obtain ⟨hwindow, hrest⟩ := (nested_plains_iff h.isPlain.1).mp hn
    refine (nested_plains_iff h.isPlain.2).mpr ⟨fun i hi => ?_, hrest⟩
    obtain ⟨j, hj, hij⟩ := h.exists_depth_eq i hi
    exact hij.trans (hwindow j hj)
  | loopToOnce hopener _ _ _ =>
    have hn' := (nested_opener_iff (by rw [hopener]; rfl)).mp hn
    exact (nested_opener_iff rfl).mpr hn'
  | @loopToTransfers opener last body adjustments hopener hbody _ hlast =>
    rw [List.cons_append, List.append_assoc, nested_opener_iff (by rw [hopener]; rfl),
      nested_plains_iff (List.forall_mem_map.mp hbody.isPlain), List.singleton_append,
      nested_close_iff hlast] at hn
    obtain ⟨hdepth, _, _, ⟨⟩, _, hrest⟩ := hn
    refine (nested_plains_iff ?_).mpr ⟨List.forall_mem_map.mpr fun _ _ => hdepth, hrest⟩
    exact List.forall_mem_map.mpr (isPlain_transfers adjustments)
  | @commuteSeekLoop a b c d way way' amount amount' offset ha hb hc hd =>
    have hpa : a.op.isPlain = true := by rw [ha]; rfl
    have hpc : c.op.isPlain = true := by rw [hc]; rfl
    have hob : b.op.isOpener = true := by rw [hb]; rfl
    have hob' : (b.shift (way.displacement amount)).op.isOpener = true := by
      rw [Instr.op_shift, hb]
      rfl
    simp only [List.cons_append, List.nil_append] at hn ⊢
    rw [nested_plain_iff hpa, nested_opener_iff hob, nested_plain_iff hpc,
      nested_close_iff hd] at hn
    obtain ⟨hda, hdb, hdc, outer, houter, hdd, hrest⟩ := hn
    rw [nested_opener_iff hob', nested_plain_iff hpc, nested_close_iff hd]
    refine ⟨hdb, hdc, outer, houter, hdd, (nested_plain_iff hpa).mpr ⟨?_, hrest⟩⟩
    omega

/-- No rule takes out the end of a block that it does not open, nor a movement before one. -/
theorem Exchanges.not_seeks (h : r.Exchanges window items) (rest : List Op) :
    ¬ Op.Seeks (window.ops ++ rest) ∧ (window.ops ++ rest).head? ≠ some .close := by
  cases h with
  | straight h =>
    have hlength : 2 ≤ window.length := by
      cases h <;> simp
    have hplain := h.isPlain.1
    rcases window with _ | ⟨a, _ | ⟨b, window⟩⟩
    · contradiction
    · contradiction
    · have ha := Op.ne_close_of_isPlain (hplain a (by simp))
      have hb := Op.ne_close_of_isPlain (hplain b (by simp))
      refine ⟨?_, by simpa [ops] using ha⟩
      rintro ⟨way, amount, after, heq⟩
      simp only [ops, List.map_cons, List.cons_append, List.cons.injEq] at heq
      exact hb heq.2.1
  | loopToOnce hopener _ _ _ => simp [Op.Seeks, ops, hopener]
  | loopToTransfers hopener _ _ _ => simp [Op.Seeks, ops, hopener]
  | commuteSeekLoop ha hb _ _ => simp [Op.Seeks, ops, ha, hb]

theorem Exchanges.seekLoops (h : r.Exchanges window items) (rest : List Op)
    (hs : Op.SeekLoops (window.ops ++ rest)) : Op.SeekLoops (items.ops ++ rest) := by
  cases h with
  | straight h =>
    rw [Op.seekLoops_plains h.alike.plain_left] at hs
    rwa [Op.seekLoops_plains h.alike.plain_right]
  | loopToOnce => exact ⟨by simp, hs.2⟩
  | @loopToTransfers opener last body adjustments _ hbody _ _ =>
    have hitems : ops ((transfers adjustments).map (Instr.mk opener.depth)) =
        transfers adjustments := by
      simp [ops, Function.comp_def]
    have hbody' : Op.SeekLoops (body.ops ++ (last.op :: rest)) := by
      simpa [ops] using hs.2
    rw [hitems, Op.seekLoops_plains (isPlain_transfers adjustments)]
    exact ((Op.seekLoops_plains hbody.isPlain _).mp hbody').2
  | @commuteSeekLoop a b c d way way' amount amount' offset ha hb hc hd =>
    have hitems : ops [b.shift (way.displacement amount), c, d, a] =
        [.loop (offset + way.displacement amount), .move way' amount', .close,
          .move way amount] := by
      simp [ops, Op.shift, ha, hb, hc, hd]
    rw [hitems]
    exact ⟨fun _ _ _ => ⟨way', amount', _, rfl⟩, by simp, by simp, by simp, hs.2.2.2.2⟩

end Rule

namespace Op

theorem of_mem_ofText {op : Op} {text : List Char} (h : op ∈ ofText text) :
    op.Proper ∧ ∀ offset, op = loop offset → offset = 0 := by
  fun_induction ofText text with
  | case1 => contradiction
  | case2 rest ih | case3 rest ih | case4 rest ih | case5 rest ih | case6 rest ih | case7 rest ih
  | case8 rest _ _ ih | case9 rest ih | case10 rest ih | case11 rest ih | case12 rest ih
  | case13 rest ih =>
    rcases List.mem_cons.mp h with rfl | h
    · simp [Proper]
    · exact ih h
  | case14 c rest _ _ _ _ _ _ _ _ _ _ _ _ ih => exact ih h

theorem seekLoops_of_forall {ops : List Op}
    (h : ∀ op ∈ ops, ∀ offset, op = loop offset → offset = 0) : SeekLoops ops := by
  induction ops with
  | nil => trivial
  | cons op ops ih =>
    obtain ⟨hop, hops⟩ := List.forall_mem_cons.mp h
    exact ⟨fun offset heq hne => absurd (hop offset heq) hne, ih hops⟩

end Op

namespace Program

variable {p q : Program}

/-- What every program that comes from a text is like, however it is rewritten. -/
structure WellFormed (p : Program) : Prop where
  /-- Blocks match: none ends before it is opened, and none is left open. -/
  blocks : openBlocks p = 0 ∧ ∀ before, before <+: p → 0 ≤ openBlocks before
  /-- The depth of an instruction is the number of blocks open around it. -/
  depths : ∀ {before after : Program} {i : Instr}, p = before ++ i :: after → i.op ≠ .close →
    i.depth = openBlocks before
  /-- The end of a block has the depth of the instruction that opens it. -/
  ends : ∃ table, Jumps.ofProgram p = .ok table ∧ ∀ (stop : Nat) (last : Instr),
    p[stop]? = some last → last.op = .close →
      ∃ (start : Nat) (opener : Instr), table[stop]? = some start ∧ p[start]? = some opener ∧
        opener.op.isOpener = true ∧ opener.depth = last.depth
  proper : ∀ i ∈ p, i.op.Proper
  /-- A loop that tests another cell than the current one has a movement as its body. -/
  seeks : ∀ {before after : Program} {i : Instr} {offset : Int}, p = before ++ i :: after →
    i.op = .loop offset → offset ≠ 0 →
      ∃ (body last : Instr) (rest : Program) (way : Direction) (amount : Int),
        after = body :: last :: rest ∧ body.op = .move way amount ∧ last.op = .close

/-- What lowering establishes and rewriting keeps. -/
structure Regular (p : Program) : Prop where
  nested : p.Nested 0
  proper : ∀ i ∈ p, i.op.Proper
  seekLoops : Op.SeekLoops p.ops

theorem regular_of_lower {text : List Char} (h : lower text = .ok p) : p.Regular := by
  have hops : p.ops = Op.ofText text := ops_of_nest h
  refine ⟨?_, fun i hi => ?_, ?_⟩
  · rw [Nested, hops]
    exact h
  · have hmem : i.op ∈ Op.ofText text := by
      rw [← hops]
      exact List.mem_map_of_mem hi
    exact (Op.of_mem_ofText hmem).1
  · rw [hops]
    exact Op.seekLoops_of_forall fun op hop => (Op.of_mem_ofText hop).2

theorem Rewrites.regular (h : p.Rewrites q) (hp : p.Regular) : q.Regular := by
  obtain ⟨r, before, window, items, after, rfl, rfl, hexchange⟩ := h.exists_exchanges
  obtain ⟨hnested, hproper, hseek⟩ := hp
  refine ⟨hnested.append_congr fun depth => hexchange.nested after, ?_, ?_⟩
  · simp only [List.forall_mem_append] at hproper ⊢
    exact ⟨hproper.1, hexchange.proper hproper.2.1, hproper.2.2⟩
  · have hnot := hexchange.not_seeks after.ops
    simp only [ops, List.map_append] at hseek hnot ⊢
    exact hseek.append_congr hnot.1 hnot.2 (hexchange.seekLoops after.ops)

theorem RewritesTo.regular (h : p.RewritesTo q) (hp : p.Regular) : q.Regular := by
  induction h with
  | refl => exact hp
  | tail _ h ih => exact h.regular ih

theorem Regular.wellFormed (h : p.Regular) : p.WellFormed where
  blocks := ⟨h.nested.openBlocks_eq_zero, fun _ => h.nested.openBlocks_nonneg⟩
  depths := by
    rintro before after i rfl hi
    simpa using h.nested.depth_eq hi
  ends := by
    obtain ⟨table, htable⟩ := Jumps.exists_ofProgram_iff.mpr (exists_nest_iff.mp ⟨p, h.nested⟩)
    refine ⟨table, htable, fun stop last hlast hclose => ?_⟩
    obtain ⟨start, hjoins⟩ :=
      (Jumps.walk_ofProgram htable h.nested).exists_start (Nat.zero_le stop) hlast hclose
    obtain ⟨opener, hopener, hop⟩ := hjoins.opens
    refine ⟨start, opener, hjoins.back, hopener, hop, ?_⟩
    simpa [hopener, hlast] using hjoins.depth_eq
  proper := h.proper
  seeks := by
    rintro before after i offset rfl hi hoffset
    have hseek : Op.SeekLoops (before.ops ++ .loop offset :: after.ops) := by
      simpa [ops, hi] using h.seekLoops
    obtain ⟨way, amount, rest, heq⟩ := hseek.seeks hoffset
    rcases after with _ | ⟨body, _ | ⟨last, after⟩⟩
    · contradiction
    · simp [ops] at heq
    · simp only [ops, List.map_cons, List.cons.injEq] at heq
      exact ⟨body, last, after, way, amount, rfl, heq.1, heq.2.1⟩

/-- However the rules are applied to what a text is lowered to, the program is well formed. -/
theorem wellFormed_of_rewritesTo {text : List Char} (h : lower text = .ok p)
    (hq : p.RewritesTo q) : q.WellFormed :=
  (hq.regular (regular_of_lower h)).wellFormed

/-- A movement goes after a loop that seeks the next zero to the left, which then tests the cell to
the right of the current one. -/
theorem wellFormed_of_seeking_rewritten :
    lower ['>', '[', '<', ']'] =
        .ok [⟨0, .move .right 1⟩, ⟨0, .loop 0⟩, ⟨1, .move .left 1⟩, ⟨0, .close⟩] ∧
      RewritesTo [⟨0, .move .right 1⟩, ⟨0, .loop 0⟩, ⟨1, .move .left 1⟩, ⟨0, .close⟩]
        [⟨0, .loop 1⟩, ⟨1, .move .left 1⟩, ⟨0, .close⟩, ⟨0, .move .right 1⟩] ∧
      WellFormed [⟨0, .loop 1⟩, ⟨1, .move .left 1⟩, ⟨0, .close⟩, ⟨0, .move .right 1⟩] := by
  have hlower : lower ['>', '[', '<', ']'] =
      .ok [⟨0, .move .right 1⟩, ⟨0, .loop 0⟩, ⟨1, .move .left 1⟩, ⟨0, .close⟩] := by
    decide +kernel
  have hseek : RewritesTo [⟨0, .move .right 1⟩, ⟨0, .loop 0⟩, ⟨1, .move .left 1⟩, ⟨0, .close⟩]
      [⟨0, .loop 1⟩, ⟨1, .move .left 1⟩, ⟨0, .close⟩, ⟨0, .move .right 1⟩] :=
    .single ⟨.commuteSeekLoop, .apply [] (show Pattern.rewrite? _ _ = some ⟨4,
      [⟨0, .loop 1⟩, ⟨1, .move .left 1⟩, ⟨0, .close⟩, ⟨0, .move .right 1⟩]⟩ from rfl)⟩
  exact ⟨hlower, hseek, wellFormed_of_rewritesTo hlower hseek⟩

end Program

namespace Options

variable {o : Options} {text : List Char}

theorem regular_of_lower {l : Lowered} (h : o.lower text = .ok l) : l.program.Regular := by
  unfold lower at h
  split at h
  · contradiction
  · obtain ⟨program, hprogram, rfl⟩ := exists_of_map_eq_ok h
    exact Program.regular_of_lower hprogram

theorem regular_of_build {p : Program} (h : (o.build text).result = .ok p) : p.Regular := by
  unfold build at h
  split at h
  · contradiction
  · next lowered hlowered =>
    split at h
    · contradiction
    · next optimized hoptimized =>
      cases h
      exact (rewritesTo_of_optimize hoptimized).regular (regular_of_lower hlowered)

end Options

end Brainfuck
