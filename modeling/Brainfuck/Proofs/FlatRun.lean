import Brainfuck.Proofs.Execution
import Brainfuck.Proofs.Layout

/-! The machine, which walks through flat code with a program counter and a jump table, executes
the nesting of the program. Both directions go through `Code.steps?`, the machine instruction by
instruction: a structured run is followed by induction on its derivation, and a number of
instructions is split by strong induction into those inside a body and those after it. -/

namespace Brainfuck

open Machine

variable {m : Int}

namespace Machine

/-- A moment of a run: where the machine stands, its state, and the events so far. -/
structure Moment (m : Int) where
  pc : Nat
  state : State m
  events : List Event

def Moment.observed (c : Moment m) : Observed m := ⟨c.state.view, c.events⟩

/-- The moment before the first instruction. -/
def Moment.start (s : State m) : Moment m := ⟨0, s.mark, []⟩

/-- No byte has been sent. -/
def Quiet (events : List Event) : Prop := ∀ byte, .sent byte ∉ events

theorem Quiet.of_prefix {es es' : List Event} (h : Quiet es') (hp : es <+: es') : Quiet es :=
  fun byte hmem => h byte (hp.subset hmem)

/-- There is somewhere to send to, or nothing is sent. -/
def Observed.CanSend (w : Observed m) (events : List Event) : Prop :=
  w.output.isSome = true ∨ Quiet events

theorem Observed.CanSend.of_prefix {w : Observed m} {es es' : List Event} (h : w.CanSend es')
    (hp : es <+: es') : w.CanSend es :=
  h.imp_right fun h => h.of_prefix hp

theorem Observed.CanSend.congr {w u : Observed m} {events : List Event} (h : w.CanSend events)
    (hu : u.output.isSome = w.output.isSome) : u.CanSend events :=
  h.imp_left hu.trans

namespace Code

variable {code : Code} {c c' : Moment m}

/-- One instruction; none at the end of the code, and if the instruction cannot be executed. -/
def step? (code : Code) (c : Moment m) : Option (Moment m) :=
  match code.op? c.pc with
  | none => none
  | some op =>
    match code.next c.pc c.state op with
    | .error _ => none
    | .ok pc => some ⟨pc, op.perform c.state, c.events ++ (op.event? c.state.view).toList⟩

/-- As many instructions as `n` says; none if there are not so many. -/
def steps? (code : Code) : Nat → Moment m → Option (Moment m)
  | 0, c => some c
  | n + 1, c => (code.step? c).bind (code.steps? n)

theorem steps?_add (j k : Nat) (c : Moment m) :
    code.steps? (j + k) c = (code.steps? j c).bind (code.steps? k) := by
  induction j generalizing c with
  | zero => simp [steps?]
  | succ j ih =>
    rw [show j + 1 + k = j + k + 1 by omega, steps?, steps?, Option.bind_assoc]
    exact congrArg _ (funext ih)

theorem steps?_trans {j k : Nat} {c c' c'' : Moment m} (h : code.steps? j c = some c')
    (h' : code.steps? k c' = some c'') : code.steps? (j + k) c = some c'' := by
  rw [steps?_add, h]
  exact h'

theorem steps?_succ {n : Nat} {c c' c'' : Moment m} (h : code.step? c = some c')
    (h' : code.steps? n c' = some c'') : code.steps? (n + 1) c = some c'' := by
  rw [steps?, h]
  exact h'

theorem step?_of_next {op : Op} {pc : Nat} (hop : code.op? c.pc = some op)
    (h : code.next c.pc c.state op = .ok pc) :
    ∃ c', code.step? c = some c' ∧ c'.pc = pc ∧ c'.observed = op.act c.observed := by
  refine ⟨_, by simp only [step?, hop, h]; rfl, rfl, ?_⟩
  show Observed.mk _ _ = Observed.mk _ _
  rw [Op.view_perform]
  rfl

/-- An instruction that has been executed did what its operation does. -/
theorem of_step? {op : Op} (hop : code.op? c.pc = some op) (h : code.step? c = some c') :
    code.next c.pc c.state op = .ok c'.pc ∧ c'.observed = op.act c.observed := by
  cases hn : code.next c.pc c.state op with
  | error fault => simp [step?, hop, hn] at h
  | ok pc =>
    obtain ⟨c'', hc'', rfl, hobs⟩ := step?_of_next hop hn
    obtain rfl : c' = c'' := Option.some.inj (h.symm.trans hc'')
    exact ⟨rfl, hobs⟩

/-- An operation outside the control flow is followed by the next one; it fails only if it writes
and there is nothing to write to. -/
theorem next_plain {op : Op} (h : op.isPlain = true) (pc : Nat) (s : State m) :
    code.next pc s op = .ok (pc + 1) ∨
      code.next pc s op = .error .noOutput ∧ s.output = none ∧
        ∃ offset bias, op = .write offset bias := by
  cases op with
  | loop _ | once | close => contradiction
  | write offset bias => cases hs : s.output <;> simp [next, hs]
  | _ => exact .inl rfl

theorem step?_plain {op : Op} (hop : code.op? c.pc = some op) (h : op.isPlain = true)
    (hc : c.observed.CanSend (op.act c.observed).events) :
    ∃ c', code.step? c = some c' ∧ c'.pc = c.pc + 1 ∧ c'.observed = op.act c.observed := by
  rcases next_plain h c.pc c.state with hn | ⟨_, hnone, offset, bias, rfl⟩
  · exact step?_of_next hop hn
  · rcases hc with hc | hc
    · rw [show c.observed.output = none from hnone] at hc
      contradiction
    · rw [Op.act_write] at hc
      exact absurd (List.mem_append_right _ (List.mem_singleton_self _)) (hc _)

theorem pc_of_step?_plain {op : Op} (hop : code.op? c.pc = some op) (h : op.isPlain = true)
    (hs : code.step? c = some c') : c'.pc = c.pc + 1 := by
  have hok := (of_step? hop hs).1
  rcases next_plain h c.pc c.state with hn | ⟨hn, _⟩
  · exact Except.ok.inj (hok.symm.trans hn)
  · exact nomatch hok.symm.trans hn

/-- The offset of the cell that decides whether a block is entered. -/
def guard : Op → Int
  | .loop offset => offset
  | _ => 0

theorem next_opener {op : Op} (h : op.isOpener = true) (pc : Nat) (s : State m) :
    code.next pc s op =
      if s.tape.cell (guard op) = 0 then (code.partner pc).map (· + 1) else .ok (pc + 1) := by
  cases op with
  | loop _ | once => rfl
  | _ => contradiction

/-- Control flow leaves everything else as it is. -/
theorem act_of_not_isPlain {op : Op} (h : op.isPlain = false) (w : Observed m) :
    op.act w = w := by
  cases op with
  | loop _ | once | close => simp [Op.act, Op.perform, Op.event?, State.view]
  | _ => contradiction

theorem step?_control {op : Op} {pc : Nat} (hop : code.op? c.pc = some op)
    (hplain : op.isPlain = false) (h : code.next c.pc c.state op = .ok pc) :
    ∃ c', code.step? c = some c' ∧ c'.pc = pc ∧ c'.observed = c.observed := by
  obtain ⟨c', hc', hpc, hobs⟩ := step?_of_next hop h
  exact ⟨c', hc', hpc, hobs.trans (act_of_not_isPlain hplain _)⟩

/-- A block whose cell is zero is passed over. -/
theorem step?_skip {op : Op} {size : Nat} (h : code.Spans op c.pc size) (ho : op.isOpener = true)
    (hz : c.observed.tape.cell (guard op) = 0) :
    ∃ c', code.step? c = some c' ∧ c'.pc = c.pc + 1 + size + 1 ∧ c'.observed = c.observed := by
  refine step?_control h.opens (by cases op <;> simp_all [Op.isOpener, Op.isPlain]) ?_
  rw [next_opener ho, if_pos (show c.state.tape.cell (guard op) = 0 from hz), Code.partner, h.forth]
  rfl

/-- A block whose cell is not zero is entered. -/
theorem step?_enter {op : Op} {size : Nat} (h : code.Spans op c.pc size) (ho : op.isOpener = true)
    (hz : c.observed.tape.cell (guard op) ≠ 0) :
    ∃ c', code.step? c = some c' ∧ c'.pc = c.pc + 1 ∧ c'.observed = c.observed := by
  refine step?_control h.opens (by cases op <;> simp_all [Op.isOpener, Op.isPlain]) ?_
  rw [next_opener ho, if_neg (show c.state.tape.cell (guard op) ≠ 0 from hz)]

theorem isLoop_eq {op : Op} {pc : Nat} (h : code.op? pc = some op) :
    code.isLoop pc = (op matches .loop _) := by
  obtain ⟨⟨depth, op'⟩, hi, rfl⟩ := Option.map_eq_some_iff.mp h
  cases op' <;> simp [isLoop, hi]

/-- After the end of a loop comes its beginning. -/
theorem step?_again {offset : Int} {pc size : Nat} (h : code.Spans (.loop offset) pc size)
    (hpc : c.pc = pc + 1 + size) :
    ∃ c', code.step? c = some c' ∧ c'.pc = pc ∧ c'.observed = c.observed := by
  refine step?_control (hpc ▸ h.ends) rfl ?_
  simp [next, Code.partner, hpc, h.back, Except.map, isLoop_eq h.opens]

/-- After the end of a block that is not repeated comes what follows it. -/
theorem step?_leave {pc size : Nat} (h : code.Spans .once pc size) (hpc : c.pc = pc + 1 + size) :
    ∃ c', code.step? c = some c' ∧ c'.pc = pc + 1 + size + 1 ∧ c'.observed = c.observed := by
  refine step?_control (hpc ▸ h.ends) rfl ?_
  simp [next, Code.partner, hpc, h.back, Except.map, isLoop_eq h.opens]

theorem exists_op_of_step? (h : code.step? c = some c') : ∃ op, code.op? c.pc = some op := by
  cases hop : code.op? c.pc with
  | none => simp [step?, hop] at h
  | some op => exact ⟨op, rfl⟩

theorem isSome_output_steps? {n : Nat} (h : code.steps? n c = some c') :
    c'.observed.output.isSome = c.observed.output.isSome := by
  induction n generalizing c with
  | zero =>
    cases h
    rfl
  | succ n ih =>
    obtain ⟨d, hd, h⟩ := Option.bind_eq_some_iff.mp h
    obtain ⟨op, hop⟩ := exists_op_of_step? hd
    rw [ih h, (of_step? hop hd).2, Op.isSome_output_act]

end Code

/-- The moment is one that the progress tells of; a run that is over has come to `stop`. -/
def Progress.At (stop : Nat) (c : Moment m) : Progress m → Prop
  | .over w => c.pc = stop ∧ c.observed = w
  | .sofar events => c.events = events

end Machine

/-- The machine follows every structured run. -/
theorem Body.Run.exists_steps? {code : Code} {b : Body} {w : Observed m} {r : Progress m}
    (h : b.Run w r) {c : Moment m} {stop : Nat} (hc : c.observed = w) (hb : code.Holds c.pc b)
    (hr : w.CanSend r.events) (hstop : c.pc + b.length = stop) :
    ∃ n c', code.steps? n c = some c' ∧ r.At stop c' := by
  induction h generalizing c stop with
  | pause b w => exact ⟨0, c, rfl, by rw [← hc]; rfl⟩
  | done w => exact ⟨0, c, rfl, hstop, hc⟩
  | @step op next w r rest ih =>
    subst hc
    obtain ⟨hop, hplain, hnext⟩ := hb
    obtain ⟨c₁, h₁, hpc₁, hc₁⟩ := Code.step?_plain hop hplain (hr.of_prefix rest.events_prefix)
    obtain ⟨n, c', h', hat⟩ := ih hc₁ (hpc₁ ▸ hnext) (hr.congr (op.isSome_output_act _))
      (show _ = stop by simp only [Body.length] at hstop; omega)
    exact ⟨n + 1, c', Code.steps?_succ h₁ h', hat⟩
  | loopSkip zero rest ih | onceSkip zero rest ih =>
    subst hc
    obtain ⟨hspans, _, hnext⟩ := hb
    obtain ⟨c₁, h₁, hpc₁, hc₁⟩ := Code.step?_skip hspans rfl zero
    obtain ⟨n, c', h', hat⟩ := ih hc₁ (hpc₁ ▸ hnext) hr
      (show _ = stop by simp only [Body.length] at hstop; omega)
    exact ⟨n + 1, c', Code.steps?_succ h₁ h', hat⟩
  | loopInside nonzero inside ih | onceInside nonzero inside ih =>
    subst hc
    obtain ⟨hspans, hbody, _⟩ := hb
    obtain ⟨c₁, h₁, hpc₁, hc₁⟩ := Code.step?_enter hspans rfl nonzero
    obtain ⟨n, c', h', hat⟩ := ih hc₁ (hpc₁ ▸ hbody) hr rfl
    exact ⟨n + 1, c', Code.steps?_succ h₁ h', hat⟩
  | loopAgain nonzero once again ih ih' =>
    subst hc
    obtain ⟨hspans, hbody, hnext⟩ := hb
    obtain ⟨c₁, h₁, hpc₁, hc₁⟩ := Code.step?_enter hspans rfl nonzero
    obtain ⟨j, c₂, h₂, hpc₂, hc₂⟩ := ih hc₁ (hpc₁ ▸ hbody) (hr.of_prefix again.events_prefix) rfl
    obtain ⟨c₃, h₃, hpc₃, hc₃⟩ := Code.step?_again hspans (by rw [hpc₂, hpc₁])
    have hsend := hr.congr (hc₂ ▸ hc₁ ▸ Code.isSome_output_steps? h₂)
    obtain ⟨k, c', h', hat⟩ := ih' (hc₃.trans hc₂) (hpc₃ ▸ ⟨hspans, hbody, hnext⟩) hsend
      (hpc₃ ▸ hstop)
    have h₂' := Code.steps?_trans h₂ (Code.steps?_succ h₃ h')
    exact ⟨_, c', Code.steps?_succ h₁ h₂', hat⟩
  | onceAfter nonzero whole rest ih ih' =>
    subst hc
    obtain ⟨hspans, hbody, hnext⟩ := hb
    obtain ⟨c₁, h₁, hpc₁, hc₁⟩ := Code.step?_enter hspans rfl nonzero
    obtain ⟨j, c₂, h₂, hpc₂, hc₂⟩ := ih hc₁ (hpc₁ ▸ hbody) (hr.of_prefix rest.events_prefix) rfl
    obtain ⟨c₃, h₃, hpc₃, hc₃⟩ := Code.step?_leave hspans (by rw [hpc₂, hpc₁])
    have hsend := hr.congr (hc₂ ▸ hc₁ ▸ Code.isSome_output_steps? h₂)
    obtain ⟨k, c', h', hat⟩ := ih' (hc₃.trans hc₂) (hpc₃ ▸ hnext) hsend
      (show _ = stop by simp only [Body.length] at hstop; omega)
    have h₂' := Code.steps?_trans h₂ (Code.steps?_succ h₃ h')
    exact ⟨_, c', Code.steps?_succ h₁ h₂', hat⟩

namespace Machine.Code

variable {code : Code}

/-- At most `n` instructions that lead from `c` to `c'` end inside the body at `c`, or go through
it. -/
def Splits (code : Code) (n : Nat) (b : Body) (c c' : Moment m) : Prop :=
  (c'.pc < c.pc + b.length ∧ b.Run c.observed (.sofar c'.events)) ∨
    ∃ k d, k ≤ n ∧ code.steps? k d = some c' ∧ d.pc = c.pc + b.length ∧
      b.Run c.observed (.over d.observed)

/-- What is left to do of a body splits like the body. -/
theorem Splits.lift {n n' : Nat} {b b' : Body} {c d c' : Moment m} (h : Splits code n' b' d c')
    (hn : n' ≤ n) (hlength : d.pc + b'.length = c.pc + b.length)
    (hrun : ∀ r, b'.Run d.observed r → b.Run c.observed r) : Splits code n b c c' := by
  rcases h with ⟨hlt, h⟩ | ⟨k, e, hk, he, hpc, h⟩
  · exact .inl ⟨hlength ▸ hlt, hrun _ h⟩
  · exact .inr ⟨k, e, hk.trans hn, he, hpc.trans hlength, hrun _ h⟩

/-- Instructions that go on inside a block end there, or come to the end of the block and go on
from it as `hend` says. -/
theorem Splits.enter {n : Nat} {b body : Body} {c d c' : Moment m} (h : Splits code n body d c')
    (hpc : d.pc = c.pc + 1) (hd : d.observed = c.observed)
    (hlength : body.length + 2 ≤ b.length)
    (hinside : ∀ events, body.Run c.observed (.sofar events) → b.Run c.observed (.sofar events))
    (hend : ∀ k e, k < n → code.steps? (k + 1) e = some c' → e.pc = c.pc + 1 + body.length →
      body.Run c.observed (.over e.observed) → Splits code (n + 1) b c c') :
    Splits code (n + 1) b c c' := by
  rw [Splits, hpc, hd] at h
  rcases h with ⟨hlt, h⟩ | ⟨k, e, hk, he, hpc', h⟩
  · exact .inl ⟨by omega, hinside _ h⟩
  · cases k with
    | zero =>
      cases he
      exact .inl ⟨by omega, hinside _ h.last⟩
    | succ k => exact hend k e hk he hpc' h

/-- After some instructions the machine is still inside the body where it began, or has gone
through it. -/
theorem splits_of_steps? (n : Nat) {b : Body} {c c' : Moment m} (h : code.steps? n c = some c')
    (hb : code.Holds c.pc b) : Splits code n b c c' := by
  -- Going back to the start of a loop leaves the same body and fewer steps.
  induction n using Nat.strong_induction_on generalizing b c with
  | _ n ih =>
  cases b with
  | done => exact .inr ⟨n, c, le_rfl, h, rfl, .done _⟩
  | step op next =>
    obtain ⟨hop, hplain, hnext⟩ := hb
    cases n with
    | zero =>
      cases h
      exact .inl ⟨by simp [Body.length], .pause _ _⟩
    | succ n =>
      obtain ⟨d, hd, h⟩ := Option.bind_eq_some_iff.mp h
      have hpc := pc_of_step?_plain hop hplain hd
      have hobs := (of_step? hop hd).2
      refine (ih n (by omega) h (hpc ▸ hnext)).lift (by omega) ?_ fun r hr => .step (hobs ▸ hr)
      rw [hpc, Body.length]
      omega
  | loop offset body next =>
    obtain ⟨hspans, hbody, hnext⟩ := hb
    cases n with
    | zero =>
      cases h
      exact .inl ⟨by simp [Body.length], .pause _ _⟩
    | succ n =>
      obtain ⟨d, hd, h⟩ := Option.bind_eq_some_iff.mp h
      by_cases hz : c.observed.tape.cell offset = 0
      · obtain ⟨d', hd', hpc, hobs⟩ := step?_skip hspans rfl hz
        obtain rfl := Option.some.inj (hd.symm.trans hd')
        refine (ih n (by omega) h (hpc ▸ hnext)).lift (by omega) ?_ fun r hr =>
          .loopSkip hz (hobs ▸ hr)
        rw [hpc, Body.length]
        omega
      · obtain ⟨d', hd', hpc, hobs⟩ := step?_enter hspans rfl hz
        obtain rfl := Option.some.inj (hd.symm.trans hd')
        refine (ih n (by omega) h (hpc ▸ hbody)).enter hpc hobs (by rw [Body.length]; omega)
          (fun events => .loopInside hz) fun k e hk he hpce hrun => ?_
        obtain ⟨f, hf, he⟩ := Option.bind_eq_some_iff.mp he
        obtain ⟨f', hf', hpcf, hobsf⟩ := step?_again hspans hpce
        obtain rfl := Option.some.inj (hf.symm.trans hf')
        have hagain := ih k (by omega) he (b := .loop offset body next)
          (hpcf ▸ ⟨hspans, hbody, hnext⟩)
        exact hagain.lift (by omega) (by rw [hpcf]) fun r hr => .loopAgain hz hrun (hobsf ▸ hr)
  | once body next =>
    obtain ⟨hspans, hbody, hnext⟩ := hb
    cases n with
    | zero =>
      cases h
      exact .inl ⟨by simp [Body.length], .pause _ _⟩
    | succ n =>
      obtain ⟨d, hd, h⟩ := Option.bind_eq_some_iff.mp h
      by_cases hz : c.observed.tape.cell 0 = 0
      · obtain ⟨d', hd', hpc, hobs⟩ := step?_skip hspans rfl hz
        obtain rfl := Option.some.inj (hd.symm.trans hd')
        refine (ih n (by omega) h (hpc ▸ hnext)).lift (by omega) ?_ fun r hr =>
          .onceSkip hz (hobs ▸ hr)
        rw [hpc, Body.length]
        omega
      · obtain ⟨d', hd', hpc, hobs⟩ := step?_enter hspans rfl hz
        obtain rfl := Option.some.inj (hd.symm.trans hd')
        refine (ih n (by omega) h (hpc ▸ hbody)).enter hpc hobs (by rw [Body.length]; omega)
          (fun events => .onceInside hz) fun k e hk he hpce hrun => ?_
        obtain ⟨f, hf, he⟩ := Option.bind_eq_some_iff.mp he
        obtain ⟨f', hf', hpcf, hobsf⟩ := step?_leave hspans hpce
        obtain rfl := Option.some.inj (hf.symm.trans hf')
        refine (ih k (by omega) he (hpcf ▸ hnext)).lift (by omega) ?_ fun r hr =>
          .onceAfter hz hrun (hobsf ▸ hr)
        rw [hpcf, Body.length]
        omega

/-- An operation that is executed without anywhere to send to sends nothing. -/
theorem quiet_act {op : Op} {c : Moment m} {pc : Nat} (hc : Quiet c.events)
    (hout : c.state.output = none) (hnext : code.next c.pc c.state op = .ok pc) :
    Quiet (op.act c.observed).events := by
  intro byte hmem
  rw [Op.events_act] at hmem
  rcases List.mem_append.mp hmem with hmem | hmem
  · exact hc byte hmem
  · cases op with
    | write offset bias => simp [next, hout] at hnext
    | read offset | dump => simp [Op.event?] at hmem
    | _ => simp [Op.event?] at hmem

/-- Without anywhere to send to, nothing has been sent. -/
theorem canSend_of_steps? {n : Nat} {c c' : Moment m} (h : code.steps? n c = some c')
    (hc : c.observed.CanSend c.events) : c.observed.CanSend c'.events := by
  induction n generalizing c with
  | zero =>
    cases h
    exact hc
  | succ n ih =>
    obtain ⟨d, hd, h⟩ := Option.bind_eq_some_iff.mp h
    obtain ⟨op, hop⟩ := exists_op_of_step? hd
    obtain ⟨hnext, hobs⟩ := of_step? hop hd
    have hsome : d.observed.output.isSome = c.observed.output.isSome := by
      rw [hobs, op.isSome_output_act]
    refine (ih h ?_).congr hsome.symm
    by_cases hout : c.observed.output.isSome = true
    · exact .inl (hsome.trans hout)
    · right
      rw [show d.events = (op.act c.observed).events from congrArg Observed.events hobs]
      exact quiet_act (hc.resolve_left hout) (Option.not_isSome_iff_eq_none.mp hout) hnext

theorem run_of_end {n : Nat} {c : Moment m} (h : code.op? c.pc = none) :
    code.run n c.pc c.state = .halted c.state := by
  unfold run
  rw [Option.map_eq_none_iff.mp h]

theorem run_succ {n : Nat} {c d : Moment m} (h : code.step? c = some d) :
    code.run (n + 1) c.pc c.state = code.run n d.pc d.state := by
  obtain ⟨op, hop⟩ := exists_op_of_step? h
  have hnext := (of_step? hop h).1
  have hstate : d.state = op.perform c.state := by
    simp only [step?, hop, hnext, Option.some.injEq] at h
    rw [← h]
  obtain ⟨i, hi, rfl⟩ := Option.map_eq_some_iff.mp hop
  rw [run, hi]
  simp only [hnext, hstate]

/-- A run that halts has come to the end of the code. -/
theorem exists_steps?_of_run {n : Nat} {c : Moment m} {t : State m}
    (h : code.run n c.pc c.state = .halted t) :
    ∃ k c', code.steps? k c = some c' ∧ c'.state = t ∧ code.op? c'.pc = none := by
  induction n generalizing c with
  | zero =>
    cases hop : code.op? c.pc with
    | none =>
      rw [run_of_end hop] at h
      cases h
      exact ⟨0, c, rfl, rfl, hop⟩
    | some op =>
      obtain ⟨i, hi, rfl⟩ := Option.map_eq_some_iff.mp hop
      simp [run, hi] at h
  | succ n ih =>
    cases hd : code.step? c with
    | some d =>
      rw [run_succ hd] at h
      obtain ⟨k, c', hk, hc'⟩ := ih h
      exact ⟨k + 1, c', steps?_succ hd hk, hc'⟩
    | none =>
      cases hop : code.op? c.pc with
      | none =>
        rw [run_of_end hop] at h
        cases h
        exact ⟨0, c, rfl, rfl, hop⟩
      | some op =>
        obtain ⟨i, hi, rfl⟩ := Option.map_eq_some_iff.mp hop
        cases hnext : code.next c.pc c.state i.op with
        | error fault => simp [run, hi, hnext] at h
        | ok pc => simp [step?, hop, hnext] at hd

theorem run_of_steps? {n : Nat} {c c' : Moment m} (h : code.steps? n c = some c')
    (hend : code.op? c'.pc = none) : code.run n c.pc c.state = .halted c'.state := by
  induction n generalizing c with
  | zero =>
    cases h
    exact run_of_end hend
  | succ n ih =>
    obtain ⟨d, hd, h⟩ := Option.bind_eq_some_iff.mp h
    rw [run_succ hd]
    exact ih h

end Machine.Code

/-- The program comes to its end from `s`, and `v` is seen then. -/
def Program.Halts (program : Program) (s : State m) (v : View m) : Prop :=
  ∃ steps t, program.run steps s = .ok (.halted t) ∧ t.view = v

/-- The program executes some number of instructions from `s`, and these are the events then. -/
def Program.Emits (program : Program) (s : State m) (events : List Event) : Prop :=
  ∃ code n c, Code.ofProgram program = .ok code ∧ code.steps? n (.start s) = some c ∧
    c.events = events

/-- The end of a program whose blocks match is reached only through its nesting. -/
theorem Machine.Code.run_of_steps?_start {code : Code} {b : Body} (hb : code.Holds 0 b)
    (hend : ∀ pc, code.op? pc = none ↔ b.length ≤ pc) {n : Nat} {s : State m} {c : Moment m}
    (h : code.steps? n (.start s) = some c) :
    b.Run s.observed (.sofar c.events) ∧
      (code.op? c.pc = none → b.Run s.observed (.over c.observed)) := by
  rcases splits_of_steps? n h hb with ⟨hlt, hrun⟩ | ⟨k, d, _, hd, hpc, hrun⟩
  · refine ⟨hrun, fun hop => ?_⟩
    have hle := (hend c.pc).mp hop
    simp only [Moment.start] at hlt
    omega
  · have hop : code.op? d.pc = none := (hend _).mpr (by rw [hpc]; simp [Moment.start])
    cases k with
    | zero =>
      cases hd
      exact ⟨hrun.last, fun _ => hrun⟩
    | succ k =>
      obtain ⟨e, he, _⟩ := Option.bind_eq_some_iff.mp hd
      obtain ⟨op, hop'⟩ := exists_op_of_step? he
      rw [hop] at hop'
      contradiction

theorem Program.exists_code {program : Program} {b : Body}
    (hb : Body.ofOps? program.ops = some b) :
    ∃ code, Code.ofProgram program = .ok code ∧ code.Holds 0 b ∧
      ∀ pc, code.op? pc = none ↔ b.length ≤ pc := by
  obtain ⟨table, htable⟩ := Jumps.exists_ofProgram_iff.mpr (Body.exists_ofOps?_iff.mp ⟨b, hb⟩)
  have hcode : Code.ofProgram program = .ok ⟨program.toArray, table⟩ := by
    rw [Code.ofProgram, htable]
    rfl
  exact ⟨_, hcode, Code.holds_ofProgram hcode hb⟩

/-- The machine comes to the end of a program as structured execution does. Where there is nothing
to send to, the program must not send. -/
theorem Program.halts_iff {program : Program} {b : Body} (hb : Body.ofOps? program.ops = some b)
    {s : State m} {v : View m} :
    program.Halts s v ↔
      ∃ u : Observed m, b.Run s.observed (.over u) ∧ u.toView = v ∧
        s.observed.CanSend u.events := by
  obtain ⟨code, hcode, hholds, hend⟩ := exists_code hb
  have hrun : ∀ n, program.run n s = .ok (code.run n 0 s.mark) := fun n => by
    rw [Program.run, hcode]
    rfl
  constructor
  · rintro ⟨n, t, ht, rfl⟩
    rw [hrun, Except.ok.injEq] at ht
    have hstart : code.run n (Moment.start s).pc (Moment.start s).state = .halted t := ht
    obtain ⟨k, c, hk, rfl, hop⟩ := Code.exists_steps?_of_run hstart
    refine ⟨c.observed, (Code.run_of_steps?_start hholds hend hk).2 hop, rfl, ?_⟩
    exact Code.canSend_of_steps? hk (.inr fun byte hmem => nomatch hmem)
  · rintro ⟨u, hu, rfl, hsend⟩
    have hstart : (Moment.start s).observed = s.observed := rfl
    obtain ⟨n, c, hn, hpc, rfl⟩ := hu.exists_steps? hstart hholds hsend rfl
    have hop : code.op? c.pc = none := (hend _).mpr (by rw [hpc]; simp [Moment.start])
    refine ⟨n, c.state, ?_, rfl⟩
    rw [hrun]
    exact congrArg _ (Code.run_of_steps? hn hop)

/-- The machine shows the events that structured execution shows, as far as it can send. -/
theorem Program.emits_iff {program : Program} {b : Body} (hb : Body.ofOps? program.ops = some b)
    {s : State m} {events : List Event} :
    program.Emits s events ↔
      b.Run s.observed (.sofar events) ∧ s.observed.CanSend events := by
  obtain ⟨code, hcode, hholds, hend⟩ := exists_code hb
  constructor
  · rintro ⟨code', n, c, hcode', hn, rfl⟩
    obtain rfl := Except.ok.inj (hcode.symm.trans hcode')
    refine ⟨(Code.run_of_steps?_start hholds hend hn).1, ?_⟩
    exact Code.canSend_of_steps? hn (.inr fun byte hmem => nomatch hmem)
  · rintro ⟨hrun, hsend⟩
    have hstart : (Moment.start s).observed = s.observed := rfl
    obtain ⟨n, c, hn, hevents⟩ := hrun.exists_steps? hstart hholds hsend rfl
    exact ⟨code, n, c, hcode, hn, hevents⟩

/-- Only a program whose blocks match is executed. -/
theorem Program.exists_body_of_code {program : Program} {code : Code}
    (h : Code.ofProgram program = .ok code) : ∃ b, Body.ofOps? program.ops = some b := by
  refine Body.exists_ofOps?_iff.mpr (Jumps.exists_ofProgram_iff.mp ?_)
  cases htable : Jumps.ofProgram program with
  | ok table => exact ⟨table, rfl⟩
  | error e =>
    rw [Code.ofProgram, htable] at h
    contradiction

theorem Program.Halts.exists_body {program : Program} {s : State m} {v : View m}
    (h : program.Halts s v) : ∃ b, Body.ofOps? program.ops = some b := by
  obtain ⟨n, t, h, _⟩ := h
  cases hcode : Code.ofProgram program with
  | ok code => exact exists_body_of_code hcode
  | error e =>
    rw [Program.run, hcode] at h
    contradiction

theorem Program.Emits.exists_body {program : Program} {s : State m} {events : List Event}
    (h : program.Emits s events) : ∃ b, Body.ofOps? program.ops = some b := by
  obtain ⟨code, _, _, hcode, _⟩ := h
  exact exists_body_of_code hcode

end Brainfuck
