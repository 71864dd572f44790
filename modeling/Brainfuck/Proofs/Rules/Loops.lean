import Brainfuck.Proofs.Rules.Exchanges
import Brainfuck.Proofs.Simulation

/-! Loops with straight bodies. A loop whose body leaves zero in the tested cell is a block that
runs at most once. A silent loop, one that causes no events, may be replaced by straight operations
that a round does not change the result of: without a modulus only the runs that leave the loop are
kept, and with one every run leaves it. -/

namespace Brainfuck

open Machine

variable {m : Int} {Z : Observed m → Prop}

/-- The operations cause no events. -/
def Op.Silent (m : Int) (ops : List Op) : Prop :=
  ∀ w : Observed m, (actAll ops w).events = w.events

namespace Pieces

variable {body : List Op}

/-- A loop with a straight body. -/
theorem ofOps?_loop (hbody : ∀ op ∈ body, op.isPlain = true) (offset : Int) (rest : List Op) :
    ofOps? (.loop offset :: (body ++ .close :: rest)) =
      (ofOps? rest).map fun p => ⟨.loop offset (.prepend body .done) p.first, p.others⟩ := by
  rw [ofOps?, ofOps?_prepend hbody, ofOps?]
  cases ofOps? rest <;> rfl

theorem ofOps?_once (hbody : ∀ op ∈ body, op.isPlain = true) (rest : List Op) :
    ofOps? (.once :: (body ++ .close :: rest)) =
      (ofOps? rest).map fun p => ⟨.once (.prepend body .done) p.first, p.others⟩ := by
  rw [ofOps?, ofOps?_prepend hbody, ofOps?]
  cases ofOps? rest <;> rfl

end Pieces

namespace Body

variable {offset : Int} {body next : Body} {ops : List Op} {w u v : Observed m} {r : Progress m}

theorem run_straight_iff : Run (prepend ops done) w (.over u) ↔ u = Op.actAll ops w := by
  simp [run_prepend_iff, run_done_iff]

theorem round_straight_iff :
    Round offset (prepend ops done) w u ↔ w.tape.cell offset ≠ 0 ∧ u = Op.actAll ops w := by
  rw [Round, run_straight_iff]

/-- A body that leaves zero in the tested cell is not repeated. -/
theorem run_loop_iff_once (hzero : ∀ w u : Observed m, Round 0 body w u → u.tape.cell 0 = 0) :
    Run (loop 0 body next) w r ↔ Run (once body next) w r := by
  have hrounds : ∀ {w v : Observed m}, Rounds 0 body w v → v = w ∨ Round 0 body w v := by
    intro w v h
    cases h using Relation.ReflTransGen.head_induction_on with
    | refl => exact .inl rfl
    | head hwu huv =>
      cases huv using Relation.ReflTransGen.head_induction_on with
      | refl => exact .inr hwu
      | head hu _ => exact absurd (hzero _ _ hwu) hu.1
  rw [run_loop_iff, run_once_iff]
  constructor
  · rintro ⟨v, hv, h⟩
    rcases hrounds hv with rfl | hv
    · rcases h with h | ⟨hc, h⟩
      · exact .inl h
      · exact .inr ⟨hc, .inl h⟩
    · rcases h with ⟨_, h⟩ | ⟨hc, _⟩
      · exact .inr ⟨hv.1, .inr ⟨v, hv.2, h⟩⟩
      · exact absurd (hzero _ _ hv) hc
  · rintro (⟨hc, h⟩ | ⟨hc, h | ⟨u, hu, h⟩⟩)
    · exact ⟨w, .refl, .inl ⟨hc, h⟩⟩
    · exact ⟨w, .refl, .inr ⟨hc, h⟩⟩
    · exact ⟨u, .single ⟨hc, hu⟩, .inl ⟨hzero _ _ ⟨hc, hu⟩, h⟩⟩

theorem run_prepend_silent_iff (hops : Op.Silent m ops) :
    Run (prepend ops next) w r ↔ r = .sofar w.events ∨ Run next (Op.actAll ops w) r := by
  rw [run_prepend_iff, hops w]
  refine or_congr_left ⟨?_, ?_⟩
  · rintro ⟨events, rfl, h, h'⟩
    rw [h.eq_of_length_le h'.length_le]
  · rintro rfl
    exact ⟨_, rfl, List.prefix_refl _, List.prefix_refl _⟩

theorem events_of_rounds (hops : Op.Silent m ops) (h : Rounds offset (prepend ops done) w v) :
    v.events = w.events := by
  induction h with
  | refl => rfl
  | tail _ hu ih =>
    obtain ⟨_, rfl⟩ := round_straight_iff.mp hu
    rw [hops, ih]

/-- Of a silent loop only the exit can be seen. -/
theorem run_silent_loop_iff (hops : Op.Silent m ops) :
    Run (loop offset (prepend ops done) next) w r ↔
      r = .sofar w.events ∨
        ∃ v, Rounds offset (prepend ops done) w v ∧ v.tape.cell offset = 0 ∧ Run next v r := by
  rw [run_loop_iff]
  constructor
  · rintro ⟨v, hv, ⟨hc, h⟩ | ⟨_, events, rfl, h⟩⟩
    · exact .inr ⟨v, hv, hc, h⟩
    · simp only [run_prepend_silent_iff hops, run_done_iff, hops v] at h
      exact .inl (by simpa [events_of_rounds hops hv] using h)
  · rintro (rfl | ⟨v, hv, hc, h⟩)
    · exact run_loop_iff.mp (.pause _ w)
    · exact ⟨v, hv, .inl ⟨hc, h⟩⟩

/-- A loop ends if something decreases with each round. -/
theorem exists_rounds (size : Observed m → Nat)
    (hsize : ∀ w : Observed m, w.tape.cell offset ≠ 0 → size (Op.actAll ops w) < size w)
    (w : Observed m) :
    ∃ v, Rounds offset (prepend ops done) w v ∧ v.tape.cell offset = 0 := by
  induction hn : size w using Nat.strong_induction_on generalizing w with
  | _ n ih =>
    by_cases hc : w.tape.cell offset = 0
    · exact ⟨w, .refl, hc⟩
    · obtain ⟨v, hv, hvc⟩ := ih _ (hn ▸ hsize w hc) _ rfl
      exact ⟨v, .head (round_straight_iff.mpr ⟨hc, rfl⟩) hv, hvc⟩

end Body

/-- A silent loop may be replaced by straight operations that do nothing where the loop does
nothing, and do the same before and after a round. Without a modulus, a loop that does not end is
lost. -/
theorem Op.Refines.of_silent_loop {offset : Int} {body result : List Op}
    (hbody : ∀ op ∈ body, op.isPlain = true) (hresult : ∀ op ∈ result, op.isPlain = true)
    (hsilent : Silent m body) (hsilent' : Silent m result)
    (hzero : ∀ w : Observed m, w.tape.cell offset = 0 → actAll result w = w)
    (hround : ∀ w : Observed m, actAll result (actAll body w) = actAll result w)
    (hends : 0 < m → ∃ size : Observed m → Nat,
      ∀ w, w.tape.cell offset ≠ 0 → size (actAll body w) < size w) (rest : List Op) :
    Refines Z (.loop offset :: (body ++ .close :: rest)) (result ++ rest) := by
  have hx := Pieces.ofOps?_loop hbody offset rest
  have hy := Pieces.ofOps?_prepend hresult rest
  have hrounds : ∀ {w v : Observed m}, Body.Rounds offset (.prepend body .done) w v →
      actAll result v = actAll result w := by
    intro w v hv
    induction hv with
    | refl => rfl
    | tail _ hu ih =>
      obtain ⟨_, rfl⟩ := Body.round_straight_iff.mp hu
      rw [hround, ih]
  -- So the loop can only be left where the straight operations lead.
  have hexit : ∀ {w v : Observed m}, Body.Rounds offset (.prepend body .done) w v →
      v.tape.cell offset = 0 → v = actAll result w := by
    intro w v hv hc
    rw [← hrounds hv, hzero v hc]
  refine ⟨.of_first hx hy fun n w r _ _ h => ?_, fun hm => .of_first hy hx fun n w r _ _ h => ?_⟩
  · rw [Body.run_prepend_silent_iff hsilent']
    rcases (Body.run_silent_loop_iff hsilent).mp h with h | ⟨v, hv, hc, h⟩
    · exact .inl h
    · exact .inr (hexit hv hc ▸ h)
  · rw [Body.run_silent_loop_iff hsilent]
    rcases (Body.run_prepend_silent_iff hsilent').mp h with h | h
    · exact .inl h
    · obtain ⟨size, hsize⟩ := hends hm
      obtain ⟨v, hv, hc⟩ := Body.exists_rounds size hsize w
      exact .inr ⟨v, hv, hc, (hexit hv hc).symm ▸ h⟩

/-- `u` is `w` with `gain k` added to the cell at each offset `k`. -/
structure Machine.Observed.Gains (w u : Observed m) (gain : Int → Int) : Prop where
  ptr_eq : u.tape.ptr = w.tape.ptr
  cell_modEq : ∀ k, u.tape.cell k ≡ w.tape.cell k + gain k [ZMOD m]
  input_eq : u.input = w.input
  output_eq : u.output = w.output
  events_eq : u.events = w.events

namespace Machine.Observed.Gains

variable {w u v : Observed m} {f g : Int → Int}

theorem refl (w : Observed m) : Gains w w fun _ => 0 :=
  ⟨rfl, fun k => by simp, rfl, rfl, rfl⟩

theorem trans (h : Gains w u f) (h' : Gains u v g) : Gains w v fun k => f k + g k := by
  refine ⟨h'.ptr_eq.trans h.ptr_eq, fun k => ?_, h'.input_eq.trans h.input_eq,
    h'.output_eq.trans h.output_eq, h'.events_eq.trans h.events_eq⟩
  rw [← Int.add_assoc]
  exact (h'.cell_modEq k).trans ((h.cell_modEq k).add_right _)

theorem congr (h : Gains w u f) (hfg : ∀ k, f k ≡ g k [ZMOD m]) : Gains w u g :=
  { h with cell_modEq := fun k => (h.cell_modEq k).trans ((hfg k).add_left _) }

/-- Cells are reduced, so what they gain determines them. -/
theorem unique (h : Gains w u f) (h' : Gains w v f) : u = v := by
  have htape : u.tape = v.tape := by
    refine Tape.ext_cell (h.ptr_eq.trans h'.ptr_eq.symm) fun k => ?_
    rw [← Tape.wrap_cell u.tape, ← Tape.wrap_cell v.tape]
    exact wrap_eq_of_modEq ((h.cell_modEq k).trans (h'.cell_modEq k).symm)
  exact Observed.ext htape (h.input_eq.trans h'.input_eq.symm)
    (h.output_eq.trans h'.output_eq.symm) (h.events_eq.trans h'.events_eq.symm)

/-- One cell gains. -/
theorem put (w : Observed m) (k change : Int) :
    Gains w { w with tape := w.tape.put k (w.tape.cell k + change) }
      fun j => if j = k then change else 0 := by
  refine ⟨w.tape.ptr_put .., fun j => ?_, rfl, rfl, rfl⟩
  by_cases hj : j = k
  · rw [if_pos hj, hj, Tape.cell_put_same]
    exact wrap_modEq m _
  · rw [if_neg hj, Tape.cell_put_ne _ _ (Ne.symm hj), Int.add_zero]

/-- A cell that is set to zero loses what it held. -/
theorem clear (w : Observed m) (k : Int) :
    Gains w ((Op.assign 0 k).act w) fun j => if j = k then -w.tape.cell k else 0 := by
  have h := put w k (-w.tape.cell k)
  rwa [Int.add_right_neg, ← Op.act_assign] at h

end Machine.Observed.Gains

open Machine.Observed (Gains)

/-- The value left to count decreases by one. -/
theorem wrap_sub_one_lt {a : Int} (hm : 0 < m) (ha : wrap m a ≠ 0) :
    (wrap m (a - 1)).toNat < (wrap m a).toNat := by
  have h0 := wrap_nonneg hm a
  have h1 := wrap_lt hm a
  have hsub : wrap m (a - 1) = wrap m a - 1 := by
    rw [← wrap_eq_self (m := m) (a := wrap m a - 1) (by omega) (by omega)]
    exact wrap_eq_of_modEq ((wrap_modEq m a).symm.sub_right 1)
  omega

/-- A loop that counts the current cell down, or up if `e` is `-1`, and adds `net k` to the cell
at each offset `k`, in each round. -/
theorem Op.Replaces.of_counting_loop {body result : List Op} {net : Int → Int} {e : Int}
    (he : e * e = 1) (hnet : net 0 = -e)
    (hbody : ∀ op ∈ body, op.isPlain = true) (hresult : ∀ op ∈ result, op.isPlain = true)
    (hb : ∀ {m : Int} (w : Observed m), Gains w (actAll body w) net)
    (hr : ∀ {m : Int} (w : Observed m),
      Gains w (actAll result w) fun k => net k * (e * w.tape.cell 0)) :
    Replaces (.loop 0 :: (body ++ [.close])) result := by
  refine ⟨fun depth rest => ?_, fun {m} rest => ?_⟩
  · rw [List.cons_append, List.append_assoc, blockError?_plains hresult]
    exact blockError?_block rfl hbody depth rest
  rw [List.cons_append, List.append_assoc]
  -- A round takes one from what is left to count.
  have hcount : ∀ w : Observed m,
      e * (actAll body w).tape.cell 0 ≡ e * w.tape.cell 0 - 1 [ZMOD m] := by
    intro w
    have h := ((hb w).cell_modEq 0).mul_left e
    rwa [hnet, show e * (w.tape.cell 0 + -e) = e * w.tape.cell 0 - e * e by ring, he] at h
  refine .of_silent_loop hbody hresult (fun w => (hb w).events_eq) (fun w => (hr w).events_eq)
    (fun w hw => ?_) (fun w => ?_) (fun hm => ?_) rest
  · exact (hr w).unique ((Gains.refl w).congr fun k => by simp [hw])
  · refine Gains.unique (((hb w).trans (hr _)).congr fun k => ?_) (hr w)
    have h := ((hcount w).mul_left (net k)).add_left (net k)
    rwa [show net k + net k * (e * w.tape.cell 0 - 1) = net k * (e * w.tape.cell 0) by ring] at h
  · refine ⟨fun w => (wrap m (e * w.tape.cell 0)).toNat, fun w hw => ?_⟩
    simp only [wrap_eq_of_modEq (hcount w)]
    refine wrap_sub_one_lt hm fun h0 => hw ?_
    have h := ((wrap_modEq m (e * w.tape.cell 0)).mul_left e)
    rw [h0, ← Int.mul_assoc, he, Int.mul_zero, Int.one_mul] at h
    rw [← Tape.wrap_cell, ← wrap_eq_of_modEq h]
    exact Int.zero_fmod m

namespace LoopRules

theorem isPlain_of_adjustment? {op : Op} {a : Int × Int} (h : op.adjustment? = some a) :
    op.isPlain = true := by
  cases op with
  | adjust _ _ _ => rfl
  | _ => contradiction

theorem gains_of_adjustment? {op : Op} {a : Int × Int} (h : op.adjustment? = some a)
    (w : Observed m) : Gains w (op.act w) fun k => if k = a.1 then a.2 else 0 := by
  cases op with
  | adjust sign amount offset =>
    cases h
    rw [Op.act_adjust]
    exact .put w offset _
  | _ => contradiction

theorem Adjusts.isPlain {body : List Instr} {adjustments : List (Int × Int)}
    (h : Adjusts body adjustments) : ∀ op ∈ Program.ops body, op.isPlain = true := by
  induction h with
  | nil => simp [Program.ops]
  | cons hi _ ih => exact List.forall_mem_cons.mpr ⟨isPlain_of_adjustment? hi, ih⟩

theorem Adjusts.gains {body : List Instr} {adjustments : List (Int × Int)}
    (h : Adjusts body adjustments) (w : Observed m) :
    Gains w (Op.actAll (Program.ops body) w) fun k => netChange k adjustments := by
  induction h generalizing w with
  | nil => exact .refl w
  | @cons i a body adjustments hi _ ih =>
    refine ((gains_of_adjustment? hi w).trans (ih _)).congr fun k => ?_
    obtain ⟨offset, change⟩ := a
    rw [netChange]
    by_cases hk : offset = k
    · rw [if_pos hk, if_pos hk.symm]
    · rw [if_neg hk, if_neg (Ne.symm hk), Int.zero_add]

theorem mem_insertOffset {k offset : Int} {ks : List Int} :
    k ∈ insertOffset offset ks ↔ k = offset ∨ k ∈ ks := by
  induction ks with
  | nil => simp [insertOffset]
  | cons k' ks ih =>
    rw [insertOffset]
    split
    · simp
    · split
      · next h => simp [h]
      · rw [List.mem_cons, ih, List.mem_cons]
        tauto

theorem pairwise_insertOffset {offset : Int} {ks : List Int} (h : ks.Pairwise (· < ·)) :
    (insertOffset offset ks).Pairwise (· < ·) := by
  induction h with
  | nil => simp [insertOffset]
  | @cons k ks hk hks ih =>
    rw [insertOffset]
    split
    · next hlt =>
      refine .cons (fun j hj => ?_) (.cons hk hks)
      rcases List.mem_cons.mp hj with rfl | hj
      · exact hlt
      · exact hlt.trans (hk j hj)
    · split
      · exact .cons hk hks
      · refine .cons (fun j hj => ?_) ih
        rcases mem_insertOffset.mp hj with rfl | hj
        · omega
        · exact hk j hj

theorem pairwise_offsets (adjustments : List (Int × Int)) :
    (offsets adjustments).Pairwise (· < ·) := by
  induction adjustments with
  | nil => exact .nil
  | cons a adjustments ih => exact pairwise_insertOffset ih

/-- Other offsets are not changed. -/
theorem netChange_eq_zero {k : Int} {adjustments : List (Int × Int)}
    (h : k ∉ offsets adjustments) : netChange k adjustments = 0 := by
  induction adjustments with
  | nil => rfl
  | cons a adjustments ih =>
    have ha := not_or.mp fun hk => h (mem_insertOffset.mpr hk)
    obtain ⟨offset, change⟩ := a
    rw [netChange, if_neg (Ne.symm ha.1), ih ha.2]

/-- Multiples of the current cell, added to different other cells. -/
theorem gains_transfers (multiplier : Int → Int) {ks : List Int} (hks : ks.Nodup)
    (hzero : ∀ k ∈ ks, k ≠ 0) (w : Observed m) :
    Gains w (Op.actAll (ks.map fun k => .ofTerms 0 (multiplier k) k 0) w)
      fun k => if k ∈ ks then multiplier k * w.tape.cell 0 else 0 := by
  induction ks generalizing w with
  | nil => simpa using Gains.refl w
  | cons k ks ih =>
    obtain ⟨hk, hks⟩ := List.nodup_cons.mp hks
    obtain ⟨hk0, hzero⟩ := List.forall_mem_cons.mp hzero
    have hfirst : Gains w ((Op.ofTerms 0 (multiplier k) k 0).act w)
        fun j => if j = k then multiplier k * w.tape.cell 0 else 0 := by
      rw [Op.act_ofTerms, Int.add_zero]
      exact .put w k _
    refine (hfirst.trans (ih hks hzero _)).congr fun j => ?_
    rw [Op.act_ofTerms, Tape.cell_put_ne _ _ hk0]
    by_cases hj : j = k
    · simp [hj, hk]
    · simp [hj]

theorem isPlain_transfers (adjustments : List (Int × Int)) :
    ∀ op ∈ transfers adjustments, op.isPlain = true := by
  intro op hop
  rcases List.mem_append.mp hop with hop | hop
  · obtain ⟨k, _, rfl⟩ := List.mem_map.mp hop
    exact Op.isPlain_ofTerms ..
  · rw [List.mem_singleton.mp hop]
    rfl

/-- The current cell is multiplied, too: by one less than nothing. -/
theorem gains_of_transfers {adjustments : List (Int × Int)} (h : netChange 0 adjustments = -1)
    (w : Observed m) :
    Gains w (Op.actAll (transfers adjustments) w)
      fun k => netChange k adjustments * w.tape.cell 0 := by
  have hks := (pairwise_offsets adjustments).filter
    fun k => k != 0 && netChange k adjustments != 0
  rw [transfers, Op.actAll_append]
  generalize hks' : (offsets adjustments).filter _ = ks at hks ⊢
  have hmem : ∀ k, k ∈ ks ↔ k ∈ offsets adjustments ∧ k ≠ 0 ∧ netChange k adjustments ≠ 0 := by
    simp [← hks']
  have hothers := gains_transfers (fun k => netChange k adjustments)
    (hks.imp fun h => h.ne) (fun k hk => ((hmem k).mp hk).2.1) w
  generalize Op.actAll _ w = u at hothers ⊢
  have hcell : u.tape.cell 0 ≡ w.tape.cell 0 [ZMOD m] := by
    simpa [hmem 0] using hothers.cell_modEq 0
  refine (hothers.trans (.clear u 0)).congr fun k => ?_
  by_cases hk : k = 0
  · subst hk
    simpa [hmem 0, h] using hcell.neg
  · by_cases hoff : k ∈ offsets adjustments
    · by_cases hnet : netChange k adjustments = 0
      · simp [hk, hmem, hnet]
      · simp [hk, hmem, hoff, hnet]
    · simp [hk, hmem, hoff, netChange_eq_zero hoff]

theorem replaces_transfers {body : Program} {adjustments : List (Int × Int)}
    (hbody : Adjusts body adjustments) (hnet : netChange 0 adjustments = -1) :
    Op.Replaces (.loop 0 :: (body.ops ++ [.close])) (transfers adjustments) := by
  refine .of_counting_loop (e := 1) rfl hnet hbody.isPlain (isPlain_transfers _) hbody.gains
    fun w => ?_
  simpa using gains_of_transfers hnet w

theorem isPlain_of_allowsOnce {op : Op} (h : op.allowsOnce = true) : op.isPlain = true := by
  cases op with
  | loop _ | once | close => contradiction
  | _ => rfl

/-- Zero in the current cell stays. -/
theorem cell_act_of_allowsOnce {op : Op} (h : op.allowsOnce = true) {w : Observed m}
    (hw : w.tape.cell 0 = 0) : (op.act w).tape.cell 0 = 0 := by
  cases op with
  | adjust _ _ _ | addScaled _ _ _ _ | addTo _ _ _ | copy _ _ _ _ =>
    simp only [Op.allowsOnce, bne_iff_ne] at h
    simp [Tape.cell_put_ne _ _ h, hw]
  | assign value offset =>
    simp only [Op.act_assign, Tape.cell_put]
    split
    · next hoffset =>
      obtain rfl : value = 0 := by simpa [Op.allowsOnce, hoffset] using h
      exact Int.zero_fmod m
    · exact hw
  | write _ _ => simpa using hw
  | _ => contradiction

/-- A body that sets the current cell to zero, and stores nothing else there, leaves zero. -/
theorem cell_actAll_of_allowsOnce {body : List Op} (hbody : ∀ op ∈ body, op.allowsOnce = true)
    {w : Observed m} (h : w.tape.cell 0 = 0 ∨ .assign 0 0 ∈ body) :
    (Op.actAll body w).tape.cell 0 = 0 := by
  induction body generalizing w with
  | nil => simpa using h
  | cons op body ih =>
    obtain ⟨hop, hbody⟩ := List.forall_mem_cons.mp hbody
    refine ih hbody ?_
    rcases h with h | h
    · exact .inl (cell_act_of_allowsOnce hop h)
    · rcases List.mem_cons.mp h with rfl | h
      · exact .inl (by simp [Int.zero_fmod, wrap])
      · exact .inr h

theorem replaces_once {body : List Op} (hbody : ∀ op ∈ body, op.allowsOnce = true)
    (hzero : .assign 0 0 ∈ body) :
    Op.Replaces (.loop 0 :: (body ++ [.close])) (.once :: (body ++ [.close])) := by
  have hplain := fun op hop => isPlain_of_allowsOnce (hbody op hop)
  refine ⟨fun depth rest => ?_, fun rest => ?_⟩
  · simp only [List.cons_append, List.append_assoc, List.nil_append]
    rw [Op.blockError?_block rfl hplain, Op.blockError?_block rfl hplain]
  · simp only [List.cons_append, List.append_assoc, List.nil_append]
    refine .of_run_iff _ _ rest (Pieces.ofOps?_loop hplain 0 rest)
      (Pieces.ofOps?_once hplain rest) fun n w r => Body.run_loop_iff_once fun w u hu => ?_
    obtain ⟨_, rfl⟩ := Body.round_straight_iff.mp hu
    exact cell_actAll_of_allowsOnce hbody (.inr hzero)

end LoopRules

namespace MoveRules

variable {way : Direction} {amount offset : Int} {w v : Observed m}

theorem silent_move : Op.Silent m [.move way amount] := by
  intro w
  simp [Observed.move]

/-- A loop that only moves takes the same way from a place that is `distance` away. -/
theorem rounds_move (distance : Int)
    (h : Body.Rounds (offset + distance) (.prepend [.move way amount] .done) w v) :
    Body.Rounds offset (.prepend [.move way amount] .done) (w.move distance)
      (v.move distance) := by
  refine Relation.ReflTransGen.lift (Observed.move · distance) (fun w u hu => ?_) _ _ h
  obtain ⟨hc, rfl⟩ := Body.round_straight_iff.mp hu
  refine Body.round_straight_iff.mpr ⟨?_, ?_⟩
  · simpa [Observed.move, Tape.cell_move] using hc
  · simp [Observed.move, Tape.move_move, Int.add_comm]

theorem exists_rounds_of_move (distance : Int)
    (h : Body.Rounds offset (.prepend [.move way amount] .done) (w.move distance) v) :
    ∃ u, u.move distance = v ∧
      Body.Rounds (offset + distance) (.prepend [.move way amount] .done) w u := by
  refine ⟨v.move (-distance), ?_, ?_⟩
  · simp [Observed.move, Tape.move_move, Tape.move_zero]
  · rw [← Int.add_neg_cancel_right offset distance] at h
    simpa [Observed.move, Tape.move_move, Tape.move_zero] using rounds_move (-distance) h

/-- A movement may go after a loop that only moves, if the loop tests a cell farther away. -/
theorem replaces_seek (way way' : Direction) (amount amount' offset : Int) :
    Op.Replaces [.move way amount, .loop offset, .move way' amount', .close]
      [.loop (offset + way.displacement amount), .move way' amount', .close,
        .move way amount] := by
  refine ⟨fun depth rest => rfl, fun rest => .of_run_iff
    (fun n => .prepend [.move way amount] (.loop offset (.prepend [.move way' amount'] .done) n))
    (fun n => .loop (offset + way.displacement amount) (.prepend [.move way' amount'] .done)
      (.prepend [.move way amount] n)) rest ?_ ?_ fun n w r => ?_⟩
  · simp only [List.cons_append, List.nil_append, Pieces.ofOps?]
    cases Pieces.ofOps? rest <;> rfl
  · simp only [List.cons_append, List.nil_append, Pieces.ofOps?]
    cases Pieces.ofOps? rest <;> rfl
  · rw [Body.run_prepend_silent_iff silent_move, Body.run_silent_loop_iff silent_move,
      Body.run_silent_loop_iff silent_move]
    simp only [Body.run_prepend_silent_iff silent_move, Op.actAll_cons, Op.actAll_nil, Op.act_move]
    constructor
    · rintro (h | h | ⟨v, hv, hc, h⟩)
      · exact .inl h
      · exact .inl h
      · obtain ⟨u, rfl, hu⟩ := exists_rounds_of_move _ hv
        exact .inr ⟨u, hu, by simpa [Observed.move, Tape.cell_move] using hc, .inr h⟩
    · rintro (h | ⟨v, hv, hc, h | h⟩)
      · exact .inl h
      · exact .inl (h.trans (by rw [Body.events_of_rounds silent_move hv]))
      · refine .inr (.inr ⟨_, rounds_move _ hv, ?_, h⟩)
        simpa [Observed.move, Tape.cell_move] using hc

end MoveRules

end Brainfuck
