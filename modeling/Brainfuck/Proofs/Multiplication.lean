import Brainfuck.Proofs.Arithmetic

/-! Loops that multiply. The body of such a loop moves and adjusts only, comes back to the cell that
the loop tests and decreases it by one. Rewriting keeps the loops of a program so for as long as
they are there. In a settled program there are none: the movements of a body have met and cancelled,
and to the adjustments that remain the rule for such loops applies. -/

namespace Brainfuck

open Machine Arithmetic

/-- How far a round of a loop has come. -/
structure Round where
  /-- How far the pointer is from the cell that the loop tests. -/
  away : Int
  /-- By how much that cell has been changed. -/
  change : Int
  deriving DecidableEq, Repr

def Op.Kind.IsStep (k : Kind) : Prop := k = .move ∨ k = .adjust

namespace Round

def step (r : Round) (op : Op) : Round :=
  ⟨r.away + op.displacement, r.change + (op.effectAt (-r.away)).net⟩

def after (r : Round) (ops : List Op) : Round :=
  ⟨r.away + displacement ops, r.change + (effectAt (-r.away) ops).net⟩

end Round

/-- Outside of loops anything may happen but dumps. A loop tests the current cell; its body moves
and adjusts, and ends where it began with that cell decreased by one. If the operations begin inside
a loop, the first argument tells how far the round has come. -/
inductive CountsDown : Option Round → List Op → Prop
  | done : CountsDown none []
  | outside {op : Op} {ops : List Op} (hop : op.kind ≠ .block ∧ op.kind ≠ .dump)
      (rest : CountsDown none ops) : CountsDown none (op :: ops)
  | enter {ops : List Op} (rest : CountsDown (some ⟨0, 0⟩) ops) : CountsDown none (.loop 0 :: ops)
  | inside {r : Round} {op : Op} {ops : List Op} (hop : op.kind.IsStep)
      (rest : CountsDown (some (r.step op)) ops) : CountsDown (some r) (op :: ops)
  | leave {ops : List Op} (rest : CountsDown none ops) : CountsDown (some ⟨0, -1⟩) (.close :: ops)

theorem Op.IsArithmetic.of_isStep {op : Op} (h : op.kind.IsStep) : op.IsArithmetic := by
  rcases h with h | h
  · exact .inl h
  · exact .inr (.inl h)

namespace Round

variable {ops : List Op}

theorem cleared_effectAt (h : ∀ op ∈ ops, op.kind.IsStep) (k : Int) :
    (effectAt k ops).cleared = false := by
  induction ops generalizing k with
  | nil => rfl
  | cons op ops ih =>
    obtain ⟨hop, hops⟩ := List.forall_mem_cons.mp h
    have hfirst : (op.effectAt k).cleared = false := by
      rcases hop with hop | hop
      · obtain ⟨way, amount, rfl⟩ := Op.exists_eq_move hop
        rfl
      · obtain ⟨sign, amount, offset, rfl⟩ := Op.exists_eq_adjust hop
        rw [Op.effectAt]
        split <;> rfl
    rw [effectAt, CellEffect.andThen, ih hops]
    exact hfirst

theorem after_cons {op : Op} (h : ∀ op ∈ ops, op.kind.IsStep) (r : Round) :
    r.after (op :: ops) = (r.step op).after ops := by
  have hoffset : -r.away - op.displacement = -(r.away + op.displacement) := by omega
  simp only [after, step, displacement, effectAt, hoffset, CellEffect.andThen,
    cleared_effectAt h, Bool.false_eq_true, if_false, mk.injEq]
  omega

/-- What counts is the action. -/
theorem after_eq_of_alike {xs ys : List Op} (h : Op.Alike xs ys)
    (hx : ∀ op ∈ xs, op.kind.IsStep) (hy : ∀ op ∈ ys, op.kind.IsStep) (r : Round) :
    r.after xs = r.after ys := by
  have hx' : ∀ op ∈ xs, op.IsArithmetic := fun op hop => .of_isStep (hx op hop)
  have hy' : ∀ op ∈ ys, op.IsArithmetic := fun op hop => .of_isStep (hy op hop)
  rw [after, after, displacement_eq_of_actAll_eq hx' hy' h.act_eq,
    effectAt_eq_of_actAll_eq hx' hy' h.act_eq]

end Round

namespace CountsDown

variable {s : Option Round} {r : Round} {op : Op} {ops rest : List Op}

theorem none_cons_iff :
    CountsDown none (op :: ops) ↔ (op.kind ≠ .block ∧ op.kind ≠ .dump) ∧ CountsDown none ops ∨
      op = .loop 0 ∧ CountsDown (some ⟨0, 0⟩) ops := by
  constructor
  · intro h
    cases h with
    | outside hop rest => exact .inl ⟨hop, rest⟩
    | enter rest => exact .inr ⟨rfl, rest⟩
  · rintro (⟨hop, rest⟩ | ⟨rfl, rest⟩)
    · exact .outside hop rest
    · exact .enter rest

theorem some_cons_iff :
    CountsDown (some r) (op :: ops) ↔ op.kind.IsStep ∧ CountsDown (some (r.step op)) ops ∨
      op = .close ∧ r = ⟨0, -1⟩ ∧ CountsDown none ops := by
  constructor
  · intro h
    cases h with
    | inside hop rest => exact .inl ⟨hop, rest⟩
    | leave rest => exact .inr ⟨rfl, rfl, rest⟩
  · rintro (⟨hop, rest⟩ | ⟨rfl, rfl, rest⟩)
    · exact .inside hop rest
    · exact .leave rest

theorem append_congr {xs ys : List Op} (hxy : ∀ {s}, CountsDown s xs → CountsDown s ys)
    (before : List Op) (h : CountsDown s (before ++ xs)) : CountsDown s (before ++ ys) := by
  induction before generalizing s with
  | nil => exact hxy h
  | cons op before ih =>
    cases h with
    | outside hop rest => exact .outside hop (ih rest)
    | enter rest => exact .enter (ih rest)
    | inside hop rest => exact .inside hop (ih rest)
    | leave rest => exact .leave (ih rest)

theorem none_append_iff (hops : ∀ op ∈ ops, op.isPlain = true) :
    CountsDown none (ops ++ rest) ↔ (∀ op ∈ ops, op.kind ≠ .dump) ∧ CountsDown none rest := by
  induction ops with
  | nil => simp
  | cons op ops ih =>
    obtain ⟨hop, hops⟩ := List.forall_mem_cons.mp hops
    have hblock : op.kind ≠ .block := by
      intro hkind
      rw [Op.kind_eq_block_iff, hop] at hkind
      contradiction
    have hloop : op ≠ .loop 0 := by
      rintro rfl
      contradiction
    rw [List.cons_append, none_cons_iff, ih hops, List.forall_mem_cons]
    simp [hblock, hloop, and_assoc]

theorem some_append_iff (hops : ∀ op ∈ ops, op.isPlain = true) :
    CountsDown (some r) (ops ++ rest) ↔
      (∀ op ∈ ops, op.kind.IsStep) ∧ CountsDown (some (r.after ops)) rest := by
  induction ops generalizing r with
  | nil => simp [Round.after, displacement, effectAt, CellEffect.none]
  | cons op ops ih =>
    obtain ⟨hop, hops⟩ := List.forall_mem_cons.mp hops
    have hclose : op ≠ .close := Op.ne_close_of_isPlain hop
    rw [List.cons_append, some_cons_iff, ih hops, List.forall_mem_cons]
    simp only [hclose, false_and, or_false, and_assoc]
    refine and_congr_right fun _ => and_congr_right fun hsteps => ?_
    rw [Round.after_cons hsteps]

/-- A loop as a whole. -/
theorem loop_iff (body : List Op) (hbody : ∀ op ∈ body, op.isPlain = true) :
    CountsDown s (.loop 0 :: (body ++ .close :: rest)) ↔
      s = none ∧ (∀ op ∈ body, op.kind.IsStep) ∧ Round.after ⟨0, 0⟩ body = ⟨0, -1⟩ ∧
        CountsDown none rest := by
  cases s with
  | none =>
    have hkind : ¬ (Op.loop 0).kind ≠ .block := by simp [Op.kind]
    have hclose : ¬ Op.close.kind.IsStep := by simp [Op.kind, Op.Kind.IsStep]
    rw [none_cons_iff, some_append_iff hbody, some_cons_iff]
    simp [hkind, hclose]
  | some r =>
    have hloop : ¬ (Op.loop 0).kind.IsStep := by simp [Op.kind, Op.Kind.IsStep]
    simp [some_cons_iff, hloop]

/-- A loop that only moves does not count. -/
theorem not_seek {offset amount : Int} {way : Direction} :
    ¬ CountsDown s (.loop offset :: .move way amount :: .close :: rest) := by
  intro h
  cases h with
  | outside hop _ => exact hop.1 rfl
  | inside hop _ => simp [Op.kind, Op.Kind.IsStep] at hop
  | enter hrest =>
    rw [some_cons_iff, some_cons_iff] at hrest
    simp [Op.kind, Op.Kind.IsStep, Round.step, Op.effectAt, CellEffect.none] at hrest

end CountsDown

/-! ### What rewriting keeps -/

theorem Op.Condenses.countsDown {s : Option Round} {xs ys rest : List Op} (h : Op.Condenses xs ys)
    (hc : CountsDown s (xs ++ rest)) : CountsDown s (ys ++ rest) := by
  cases s with
  | none =>
    rw [CountsDown.none_append_iff h.plain_left] at hc
    rw [CountsDown.none_append_iff h.plain_right]
    refine ⟨fun op hop => ?_, hc.2⟩
    obtain ⟨op', hop', hkind⟩ := h.exists_kind_eq hop
    rw [← hkind]
    exact hc.1 op' hop'
  | some r =>
    rw [CountsDown.some_append_iff h.plain_left] at hc
    rw [CountsDown.some_append_iff h.plain_right]
    have hsteps : ∀ op ∈ ys, op.kind.IsStep := by
      intro op hop
      obtain ⟨op', hop', hkind⟩ := h.exists_kind_eq hop
      rw [← hkind]
      exact hc.1 op' hop'
    rw [← Round.after_eq_of_alike h.toAlike hc.1 hsteps]
    exact ⟨hsteps, hc.2⟩

theorem Op.CondensesTo.countsDown {s : Option Round} {xs ys : List Op} (h : Op.CondensesTo xs ys)
    (hc : CountsDown s xs) : CountsDown s ys := by
  induction h generalizing s with
  | nil => exact hc
  | keep op _ ih => exact CountsDown.append_congr ih [op] hc
  | condense h _ ih => exact CountsDown.append_congr ih _ (h.countsDown hc)

namespace Source

theorem Shortens.countsDown {s : Option Round} {xs ys : List Char} {rest : List Op}
    (h : Shortens xs ys) (hc : CountsDown s (Op.ofChars xs ++ rest)) :
    CountsDown s (Op.ofChars ys ++ rest) := by
  cases h with
  | leftRight | rightLeft =>
    exact Op.Condenses.countsDown ⟨Op.alike_moves_undone rfl, List.nil_subset _⟩ hc
  | upDown | downUp =>
    exact Op.Condenses.countsDown ⟨Op.alike_adjusts_undone rfl, List.nil_subset _⟩ hc
  | clearTwice => exact Op.Condenses.countsDown ⟨Op.alike_clearTwice, List.subset_cons_self _ _⟩ hc
  | countDown =>
    obtain ⟨rfl, _, _, hrest⟩ := (CountsDown.loop_iff [.adjust .minus 1 0] (by simp)).mp hc
    exact .outside (by simp [Op.kind]) hrest
  | countUp =>
    obtain ⟨_, _, hround, _⟩ := (CountsDown.loop_iff [.adjust .plus 1 0] (by simp)).mp hc
    exact absurd hround (by decide)
  | clearAfterLoop =>
    change CountsDown s (.close :: .assign 0 0 :: rest) at hc
    cases hc with
    | outside hop _ => exact absurd rfl hop.1
    | inside hop _ => simp [Op.kind, Op.Kind.IsStep] at hop
    | leave hrest =>
      rcases CountsDown.none_cons_iff.mp hrest with ⟨_, hrest⟩ | ⟨hop, _⟩
      · exact .leave hrest
      · contradiction

theorem SimplifiesTo.countsDown {s : Option Round} {text text' : List Char}
    (h : SimplifiesTo text text') (hc : CountsDown s (Op.ofChars text)) :
    CountsDown s (Op.ofChars text') := by
  induction h with
  | refl => exact hc
  | tail _ h ih =>
    obtain ⟨before, h, after⟩ := h
    simp only [Op.ofChars_append] at ih ⊢
    exact CountsDown.append_congr h.countsDown _ ih

end Source

theorem LoopRules.kind_of_mem_transfers {op : Op} {adjustments : List (Int × Int)}
    (h : op ∈ transfers adjustments) : op.kind = .transfer ∨ op.kind = .assign := by
  rcases List.mem_append.mp h with h | h
  · obtain ⟨k, _, rfl⟩ := List.mem_map.mp h
    exact .inl (Op.kind_ofTerms ..)
  · rw [List.mem_singleton.mp h]
    exact .inr rfl

open LoopRules in
theorem Rule.Exchanges.countsDown {r : Rule} {window items : Program} {s : Option Round}
    {rest : List Op} (h : r.Exchanges window items) (hc : CountsDown s (window.ops ++ rest)) :
    CountsDown s (items.ops ++ rest) := by
  cases h with
  | straight h => exact h.condenses.countsDown hc
  | @loopToOnce opener last body hopener hbody hzero hlast =>
    have hplain : ∀ op ∈ Program.ops body, op.isPlain = true :=
      List.forall_mem_map.mpr fun i hi => LoopRules.isPlain_of_allowsOnce (hbody i hi)
    have hloop : CountsDown s (.loop 0 :: (Program.ops body ++ .close :: rest)) := by
      simpa [Program.ops, hopener, hlast] using hc
    obtain ⟨_, hsteps, _, _⟩ := (CountsDown.loop_iff _ hplain).mp hloop
    -- The body of such a loop assigns nothing.
    obtain ⟨i, hi, hassign⟩ := hzero
    have hstep := hsteps i.op (List.mem_map_of_mem hi)
    simp [hassign, Op.kind, Op.Kind.IsStep] at hstep
  | @loopToTransfers opener last body adjustments hopener hbody hnet hlast =>
    have hloop : CountsDown s (.loop 0 :: (Program.ops body ++ .close :: rest)) := by
      simpa [Program.ops, hopener, hlast] using hc
    obtain ⟨rfl, _, _, hrest⟩ := (CountsDown.loop_iff _ hbody.isPlain).mp hloop
    rw [Program.ops, List.map_map, Function.comp_def, List.map_id',
      CountsDown.none_append_iff (isPlain_transfers _)]
    refine ⟨fun op hop => ?_, hrest⟩
    rcases kind_of_mem_transfers hop with hkind | hkind <;> simp [hkind]
  | @commuteSeekLoop a b c d way way' amount amount' offset ha hb hmove hd =>
    have hwindow : CountsDown s (.move way amount :: .loop offset :: .move way' amount' :: .close ::
        rest) := by
      simpa [Program.ops, ha, hb, hmove, hd] using hc
    cases hwindow with
    | outside _ hseek | inside _ hseek => exact absurd hseek CountsDown.not_seek

theorem Program.RewritesTo.countsDown {p q : Program} (h : p.RewritesTo q) {s : Option Round}
    (hc : CountsDown s p.ops) : CountsDown s q.ops := by
  induction h with
  | refl => exact hc
  | tail _ h ih =>
    obtain ⟨r, before, window, items, after, rfl, rfl, hexchange⟩ := h.exists_exchanges
    simp only [ops, List.map_append] at ih ⊢
    exact CountsDown.append_congr hexchange.countsDown _ ih

/-! ### Settled programs -/

theorem CountsDown.exists_split {p : Program} {r : Round} (h : CountsDown (some r) p.ops) :
    ∃ body last after, Program.splitAtClose p = some (body, last, after) ∧
      (∀ i ∈ body, i.op.kind.IsStep) ∧ r.after (Program.ops body) = ⟨0, -1⟩ := by
  induction p generalizing r with
  | nil => cases h
  | cons i p ih =>
    rcases some_cons_iff.mp h with ⟨hstep, hrest⟩ | ⟨hclose, rfl, hrest⟩
    · have hopen : i.op ≠ .close := by
        intro hclose
        simp [hclose, Op.kind, Op.Kind.IsStep] at hstep
      obtain ⟨body, last, after, hsplit, hbody, hround⟩ := ih hrest
      refine ⟨i :: body, last, after, ?_, List.forall_mem_cons.mpr ⟨hstep, hbody⟩, ?_⟩
      · simp [Program.splitAtClose, hopen, hsplit]
      · rw [Program.ops, List.map_cons, Round.after_cons (List.forall_mem_map.mpr hbody)]
        exact hround
    · exact ⟨[], i, p, by simp [Program.splitAtClose, hclose], by simp, rfl⟩

namespace Program

theorem exists_adjustments {body : Program} (h : ∀ i ∈ body, i.op.kind = .adjust) :
    ∃ adjustments, body.mapM (·.op.adjustment?) = some adjustments := by
  induction body with
  | nil => exact ⟨[], rfl⟩
  | cons i body ih =>
    obtain ⟨hi, hbody⟩ := List.forall_mem_cons.mp h
    obtain ⟨sign, amount, offset, hop⟩ := Op.exists_eq_adjust hi
    obtain ⟨adjustments, hadjustments⟩ := ih hbody
    exact ⟨_, by rw [List.mapM_cons, hadjustments, hop]; rfl⟩

open LoopRules in
theorem effectAt_of_adjusts {body : Program} {adjustments : List (Int × Int)}
    (h : Adjusts body adjustments) (k : Int) :
    effectAt k body.ops = ⟨false, netChange k adjustments⟩ := by
  induction h with
  | nil => rfl
  | @cons i _ body adjustments hi _ ih =>
    cases hop : i.op with
    | adjust sign amount offset =>
      rw [hop] at hi
      cases hi
      have hstill : (Op.adjust sign amount offset).displacement = 0 := rfl
      rw [ops] at ih ⊢
      rw [List.map_cons, hop, effectAt, hstill, Int.sub_zero, ih]
      by_cases hk : offset = k
      · simp [Op.effectAt, netChange, CellEffect.andThen, hk]
      · simp [Op.effectAt, netChange, hk]
    | _ =>
      rw [hop] at hi
      contradiction

/-- In a settled program no loop counts down. -/
theorem Normal.not_countsDown {opener : Instr} {p : Program} (h : Normal (opener :: p))
    (hopener : opener.op = .loop 0) (hproper : ∀ i ∈ p, i.op.Proper) :
    ¬ CountsDown (some ⟨0, 0⟩) p.ops := by
  intro hc
  obtain ⟨body, last, after, hsplit, hbody, hround⟩ := hc.exists_split
  obtain ⟨hfirst, hnormal⟩ := normal_cons_iff.mp h
  obtain rfl := eq_of_splitAtClose hsplit
  have horder := hnormal.inOrder (fun i hi => .of_isStep (hbody i hi))
    (fun i hi => hproper i (List.mem_append_left _ hi))
  simp only [Round.after, Round.mk.injEq, Int.zero_add, Int.neg_zero] at hround
  -- Movements that come back have vanished.
  have hmoves := horder.ops_displacement
  rw [hround.1] at hmoves
  have hadjust : ∀ i ∈ body, i.op.kind = .adjust := by
    intro i hi
    rcases hbody i hi with hkind | hkind
    · obtain ⟨way, amount, hop⟩ := Op.exists_eq_move hkind
      have hmem : i.op ∈ (ops body).filter (·.target? = none) :=
        List.mem_filter.mpr ⟨List.mem_map_of_mem hi, by simp [hop, Op.target?]⟩
      rw [← hmoves] at hmem
      contradiction
    · exact hkind
  obtain ⟨adjustments, hadjustments⟩ := exists_adjustments hadjust
  have hnet : LoopRules.netChange 0 adjustments = -1 := by
    rw [effectAt_of_adjusts (LoopRules.adjusts_of_mapM hadjustments)] at hround
    exact hround.2
  have hnone := hfirst .loopToTransfers
  simp [Rule.pattern, Pattern.rewrite?, hsplit, LoopRules.toTransfers?, hadjustments, hopener,
    hnet] at hnone

theorem Normal.kinds_of_countsDown {p : Program} (h : p.Normal) (hproper : ∀ i ∈ p, i.op.Proper)
    (hc : CountsDown none p.ops) : ∀ i ∈ p, i.op.kind ≠ .block ∧ i.op.kind ≠ .dump := by
  induction p with
  | nil => simp
  | cons i p ih =>
    have hproper' := (List.forall_mem_cons.mp hproper).2
    rcases CountsDown.none_cons_iff.mp hc with ⟨hkind, hrest⟩ | ⟨hloop, hrest⟩
    · exact List.forall_mem_cons.mpr ⟨hkind, ih (normal_cons_iff.mp h).2 hproper' hrest⟩
    · exact absurd hrest (h.not_countsDown hloop hproper')

end Program

/-! ### Texts -/

namespace Source

/-- Commands other than brackets, and loops without loops in them that come back to the cell that
they test and decrease it by one. -/
inductive Multiplies : List Char → Prop
  | nil : Multiplies []
  | command {c : Char} {rest : List Char} (hc : c ∈ ['+', '-', '<', '>', '.', ','])
      (h : Multiplies rest) : Multiplies (c :: rest)
  | loop (body : List Token) {rest : List Char} (hword : ∀ sign, .clear sign ∉ body)
      (hback : displacement (body.map Token.op) = 0)
      (hdown : (effectAt 0 (body.map Token.op)).net = -1) (h : Multiplies rest) :
      Multiplies ('[' :: (spell body ++ ']' :: rest))

theorem ofChars_spell {body : List Token} (hword : ∀ sign, .clear sign ∉ body) :
    Op.ofChars (spell body) = body.map Token.op := by
  induction body with
  | nil => rfl
  | cons t body ih =>
    have hrest := ih fun sign hmem => hword sign (List.mem_cons_of_mem _ hmem)
    rw [spell, List.flatMap_cons, Op.ofChars_append, ← spell, hrest]
    cases t with
    | clear sign => exact absurd List.mem_cons_self (hword sign)
    | _ => rfl

theorem Multiplies.countsDown {text : List Char} (h : Multiplies text) :
    CountsDown none (Op.ofChars text) := by
  induction h with
  | nil => exact .done
  | @command c rest hc _ ih =>
    simp only [List.mem_cons, List.not_mem_nil, or_false] at hc
    rcases hc with rfl | rfl | rfl | rfl | rfl | rfl <;> exact .outside (by simp [Op.kind]) ih
  | @loop body rest hword hback hdown _ ih =>
    have hplain : ∀ op ∈ body.map Token.op, op.isPlain = true :=
      fun op hop => Op.isPlain_of_isArithmetic (isArithmetic_of_mem hop)
    have hloop : Op.ofChars ('[' :: (spell body ++ ']' :: rest)) =
        .loop 0 :: (body.map Token.op ++ .close :: Op.ofChars rest) := by
      rw [Op.ofChars_cons rfl, Op.ofChars_append, ofChars_spell hword, Op.ofChars_cons rfl]
    rw [hloop, CountsDown.loop_iff _ hplain]
    refine ⟨rfl, fun op hop => ?_, ?_, ih⟩
    · obtain ⟨t, ht, rfl⟩ := List.mem_map.mp hop
      cases t with
      | clear sign => exact absurd ht (hword sign)
      | left | right => exact .inl rfl
      | plus | minus => exact .inr rfl
    · simp [Round.after, hback, hdown]

end Source

theorem CountsDown.blockError?_eq {ops : List Op} {s : Option Round} (h : CountsDown s ops) :
    Op.blockError? (if s.isSome then 1 else 0) ops = none := by
  induction h with
  | done => rfl
  | outside hop _ ih =>
    have hplain := mt Op.kind_eq_block_iff.mpr hop.1
    rw [Op.blockError?_plain (by simpa using hplain), ih]
  | enter _ ih | leave _ ih => exact ih
  | inside hop _ ih =>
    rw [Op.blockError?_plain (Op.isPlain_of_isArithmetic (.of_isStep hop))]
    exact ih

/-- Without blocks, and with a movement at most as the last instruction. -/
structure Program.IsStraight (p : Program) : Prop where
  blocks : ∀ i ∈ p, i.op.isOpener = false ∧ i.op ≠ .close
  moves : ∀ {before after : Program} {i : Instr} {way : Direction} {amount : Int},
    p = before ++ i :: after → i.op = .move way amount → after = []

theorem Program.Normal.isStraight {p : Program} (h : p.Normal) (hproper : ∀ i ∈ p, i.op.Proper)
    (hc : CountsDown none p.ops) : p.IsStraight := by
  have hkinds := h.kinds_of_countsDown hproper hc
  refine ⟨fun i hi => ?_, ?_⟩
  · have hplain : i.op.isPlain = true := by
      simpa using mt Op.kind_eq_block_iff.mpr (hkinds i hi).1
    exact ⟨Op.isOpener_of_isPlain hplain, Op.ne_close_of_isPlain hplain⟩
  · rintro before after i way amount rfl hmove
    rw [← List.append_nil after] at h
    refine h.eq_nil_of_move (by rw [hmove]; rfl) fun j hj => hkinds j ?_
    exact List.mem_append_right _ (List.mem_cons_of_mem _ hj)

namespace Options

/-- A text of commands and of loops that multiply is optimised to a straight program. -/
theorem multiplications_become_straight (o : Options) (hlevel : o.level = .full)
    (text : List Char) (h : Source.Multiplies (Source.strip o.debugging text)) :
    ∃ l, o.lower text = .ok l ∧ (∀ r, o.optimize l.program = .ok r → r.program.IsStraight) ∧
      ∃ limit : Nat, ∀ n : Int, limit ≤ n →
        ∃ r, { o with maxPasses := some n }.optimize l.program = .ok r ∧ r.program.IsStraight := by
  have hnested : Source.WellNested text := by
    rw [Source.wellNested_iff o.debugging]
    exact h.countsDown.blockError?_eq
  apply exists_settled hlevel hnested
  intro p q hregular hp hrewrites hnormal
  have hc : CountsDown none p.ops := by
    rw [hp]
    have hsimple := (Source.simplifiesTo_simplify _).countsDown h.countsDown
    exact (Op.condensesTo_ofText _).countsDown hsimple
  exact hnormal.isStraight (hrewrites.regular hregular).proper (hrewrites.countsDown hc)

/-- Twice the byte read is put in its place. -/
theorem multiplications_become_straight_doubling :
    Source.Multiplies (Source.strip false ", [>++<-] [-] > [<+>-] .".toList) ∧
      standard.optimize [⟨0, .read 0⟩, ⟨0, .loop 0⟩, ⟨1, .move .right 1⟩, ⟨1, .adjust .plus 2 0⟩,
          ⟨1, .move .left 1⟩, ⟨1, .adjust .minus 1 0⟩, ⟨0, .close⟩, ⟨0, .move .right 1⟩,
          ⟨0, .loop 0⟩, ⟨1, .move .left 1⟩, ⟨1, .adjust .plus 1 0⟩, ⟨1, .move .right 1⟩,
          ⟨1, .adjust .minus 1 0⟩, ⟨0, .close⟩, ⟨0, .write 0 0⟩] =
        .ok ⟨[⟨0, .read 0⟩, ⟨0, .addScaled 0 2 1 0⟩, ⟨0, .copy 0 0 1 1⟩, ⟨0, .assign 0 1⟩,
          ⟨0, .write 1 0⟩, ⟨0, .move .right 1⟩], some 5⟩ ∧
      Program.IsStraight [⟨0, .read 0⟩, ⟨0, .addScaled 0 2 1 0⟩, ⟨0, .copy 0 0 1 1⟩,
        ⟨0, .assign 0 1⟩, ⟨0, .write 1 0⟩, ⟨0, .move .right 1⟩] := by
  have hstrip : Source.strip false ", [>++<-] [-] > [<+>-] .".toList = [',', '[', '>', '+', '+',
      '<', '-', ']', '[', '-', ']', '>', '[', '<', '+', '>', '-', ']', '.'] := by decide +kernel
  have htext : Source.Multiplies (Source.strip false ", [>++<-] [-] > [<+>-] .".toList) := by
    rw [hstrip]
    exact .command (by decide) (.loop [.right, .plus, .plus, .left, .minus] (by simp) rfl rfl
      (.loop [.minus] (by simp) rfl rfl (.command (by decide)
        (.loop [.left, .plus, .right, .minus] (by simp) rfl rfl (.command (by decide) .nil)))))
  have hlower : standard.lower ", [>++<-] [-] > [<+>-] .".toList = .ok ⟨",[>++<-]>[<+>-].".toList,
      [⟨0, .read 0⟩, ⟨0, .loop 0⟩, ⟨1, .move .right 1⟩, ⟨1, .adjust .plus 2 0⟩,
        ⟨1, .move .left 1⟩, ⟨1, .adjust .minus 1 0⟩, ⟨0, .close⟩, ⟨0, .move .right 1⟩,
        ⟨0, .loop 0⟩, ⟨1, .move .left 1⟩, ⟨1, .adjust .plus 1 0⟩, ⟨1, .move .right 1⟩,
        ⟨1, .adjust .minus 1 0⟩, ⟨0, .close⟩, ⟨0, .write 0 0⟩]⟩ := by decide +kernel
  have hoptimize : standard.optimize [⟨0, .read 0⟩, ⟨0, .loop 0⟩, ⟨1, .move .right 1⟩,
      ⟨1, .adjust .plus 2 0⟩, ⟨1, .move .left 1⟩, ⟨1, .adjust .minus 1 0⟩, ⟨0, .close⟩,
      ⟨0, .move .right 1⟩, ⟨0, .loop 0⟩, ⟨1, .move .left 1⟩, ⟨1, .adjust .plus 1 0⟩,
      ⟨1, .move .right 1⟩, ⟨1, .adjust .minus 1 0⟩, ⟨0, .close⟩, ⟨0, .write 0 0⟩] =
        .ok ⟨[⟨0, .read 0⟩, ⟨0, .addScaled 0 2 1 0⟩, ⟨0, .copy 0 0 1 1⟩, ⟨0, .assign 0 1⟩,
          ⟨0, .write 1 0⟩, ⟨0, .move .right 1⟩], some 5⟩ := by decide +kernel
  obtain ⟨l, hl, hr, _⟩ := multiplications_become_straight standard rfl _ htext
  rw [hlower] at hl
  cases hl
  exact ⟨htext, hoptimize, hr _ hoptimize⟩

end Options

end Brainfuck
