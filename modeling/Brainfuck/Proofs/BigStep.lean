import Brainfuck.Proofs.FlatRun

/-! Structured execution that ends. `Body.Ends b v u` says that the body, started where `v` is seen,
comes to its end where `u` is seen: operations one after the other, a loop tested again before each
round, a block that runs at most once. The machine, which goes through flat code with a counter and
a jump table, ends in the same way on the nesting of a program, and finds every jump that it looks
up. -/

namespace Brainfuck

open Machine

variable {m : Int}

/-- What an operation does to a view. -/
def Op.effect (op : Op) (v : View m) : View m :=
  (op.perform ⟨v.tape, v.input, v.output, none⟩).view

theorem Op.toView_act (op : Op) (w : Observed m) : (op.act w).toView = op.effect w.toView := rfl

theorem Op.exists_written (op : Op) (v : View m) :
    ∃ written : Array UInt8, ∀ output, op.effect { v with output := output } =
      { op.effect v with output := output.map (· ++ written) } := by
  obtain ⟨tape, input, output⟩ := v
  cases op with
  | write offset bias =>
    refine ⟨#[UInt8.ofInt (wrap m (tape.cell offset + bias))], fun output => ?_⟩
    cases output <;> simp [effect, perform, State.write, State.view]
  | dump =>
    refine ⟨(tape.render ++ "\n").toUTF8.data, fun output => ?_⟩
    cases output <;> simp [effect, perform, State.dump, State.view]
  | read offset =>
    refine ⟨#[], fun output => ?_⟩
    cases input <;> cases output <;> simp [effect, perform, State.read, State.put, State.view]
  | _ =>
    refine ⟨#[], fun output => ?_⟩
    cases output <;> simp [effect, perform, State.put, State.move, State.mark, State.view]

theorem Op.isSome_output_perform (op : Op) (s : State m) :
    (op.perform s).output.isSome = s.output.isSome := by
  have hview : (op.perform s).output = (op.act s.observed).output :=
    congrArg View.output (op.view_perform s)
  rw [hview]
  exact op.isSome_output_act s.observed

namespace Body

inductive Ends : Body → View m → View m → Prop
  | done (v : View m) : Ends done v v
  | step {op : Op} {next : Body} {v u : View m} (rest : Ends next (op.effect v) u) :
      Ends (step op next) v u
  | loopSkip {offset : Int} {body next : Body} {v u : View m} (zero : v.tape.cell offset = 0)
      (rest : Ends next v u) : Ends (loop offset body next) v u
  | loopAgain {offset : Int} {body next : Body} {v t u : View m}
      (nonzero : v.tape.cell offset ≠ 0) (once : Ends body v t)
      (again : Ends (loop offset body next) t u) : Ends (loop offset body next) v u
  | onceSkip {body next : Body} {v u : View m} (zero : v.tape.cell 0 = 0) (rest : Ends next v u) :
      Ends (once body next) v u
  | onceAfter {body next : Body} {v t u : View m} (nonzero : v.tape.cell 0 ≠ 0)
      (whole : Ends body v t) (rest : Ends next t u) : Ends (once body next) v u

/-- A body that ends can be watched to its end, whatever happened before. -/
theorem Ends.exists_run {b : Body} {v u : View m} (h : b.Ends v u) {w : Observed m}
    (hw : w.toView = v) : ∃ w', b.Run w (.over w') ∧ w'.toView = u := by
  induction h generalizing w with
  | done v => exact ⟨w, .done w, hw⟩
  | @step op next v u rest ih =>
    obtain ⟨w', hrun, hw'⟩ := ih (w := op.act w) (by rw [Op.toView_act, hw])
    exact ⟨w', .step hrun, hw'⟩
  | loopSkip zero rest ih =>
    subst hw
    obtain ⟨w', hrun, hw'⟩ := ih rfl
    exact ⟨w', .loopSkip zero hrun, hw'⟩
  | loopAgain nonzero once again ih ih' =>
    subst hw
    obtain ⟨w₁, hrun, hw₁⟩ := ih rfl
    obtain ⟨w', hagain, hw'⟩ := ih' hw₁
    exact ⟨w', .loopAgain nonzero hrun hagain, hw'⟩
  | onceSkip zero rest ih =>
    subst hw
    obtain ⟨w', hrun, hw'⟩ := ih rfl
    exact ⟨w', .onceSkip zero hrun, hw'⟩
  | onceAfter nonzero whole rest ih ih' =>
    subst hw
    obtain ⟨w₁, hrun, hw₁⟩ := ih rfl
    obtain ⟨w', hrest, hw'⟩ := ih' hw₁
    exact ⟨w', .onceAfter nonzero hrun hrest, hw'⟩

theorem Run.ends {b : Body} {w u : Observed m} (h : b.Run w (.over u)) :
    b.Ends w.toView u.toView := by
  generalize hr : Progress.over u = r at h
  induction h generalizing u with
  | pause | loopInside | onceInside => cases hr
  | done w =>
    cases hr
    exact .done _
  | step _ ih => exact .step (ih hr)
  | loopSkip zero _ ih => exact .loopSkip zero (ih hr)
  | loopAgain nonzero _ _ ih ih' => exact .loopAgain nonzero (ih rfl) (ih' hr)
  | onceSkip zero _ ih => exact .onceSkip zero (ih hr)
  | onceAfter nonzero _ _ ih ih' => exact .onceAfter nonzero (ih rfl) (ih' hr)

theorem ends_append_iff {b c : Body} {v u : View m} :
    (b.append c).Ends v u ↔ ∃ t, b.Ends v t ∧ c.Ends t u := by
  constructor
  · intro h
    obtain ⟨w, hrun, rfl⟩ := h.exists_run (w := ⟨v, []⟩) rfl
    rcases run_append_iff.mp hrun with ⟨_, hr, _⟩ | ⟨t, hb, hc⟩
    · contradiction
    · exact ⟨t.toView, hb.ends, hc.ends⟩
  · rintro ⟨t, hb, hc⟩
    obtain ⟨w, hrun, hw⟩ := hb.exists_run (w := ⟨v, []⟩) rfl
    obtain ⟨w', hrun', rfl⟩ := hc.exists_run hw
    exact (run_append_iff.mpr (.inr ⟨w, hrun, hrun'⟩)).ends

theorem Ends.unique {b : Body} {v u u' : View m} (h : b.Ends v u) (h' : b.Ends v u') : u = u' := by
  induction h generalizing u' with
  | done => cases h' with | done => rfl
  | step _ ih => cases h' with | step rest => exact ih rest
  | loopSkip zero _ ih =>
    cases h' with
    | loopSkip _ rest => exact ih rest
    | loopAgain nonzero => contradiction
  | loopAgain nonzero _ _ ih ih' =>
    cases h' with
    | loopSkip zero => contradiction
    | loopAgain _ once again =>
      obtain rfl := ih once
      exact ih' again
  | onceSkip zero _ ih =>
    cases h' with
    | onceSkip _ rest => exact ih rest
    | onceAfter nonzero => contradiction
  | onceAfter nonzero _ _ ih ih' =>
    cases h' with
    | onceSkip zero => contradiction
    | onceAfter _ whole rest =>
      obtain rfl := ih whole
      exact ih' rest

theorem Ends.change_output {b : Body} {v u : View m} (h : b.Ends v u) :
    ∃ written : Array UInt8, ∀ output,
      b.Ends { v with output := output } { u with output := output.map (· ++ written) } := by
  have htwice : ∀ (output : Option (Array UInt8)) (x y : Array UInt8),
      (output.map (· ++ x)).map (· ++ y) = output.map (· ++ (x ++ y)) := by
    intro output x y
    cases output <;> simp
  induction h with
  | done v =>
    refine ⟨#[], fun output => ?_⟩
    have hnone : output.map (· ++ #[]) = output := by cases output <;> simp
    rw [hnone]
    exact .done _
  | @step op next v u _ ih =>
    obtain ⟨first, hfirst⟩ := op.exists_written v
    obtain ⟨rest, hrest⟩ := ih
    refine ⟨first ++ rest, fun output => .step ?_⟩
    rw [hfirst, ← htwice]
    exact hrest _
  | loopSkip zero _ ih => exact ih.imp fun _ ih output => .loopSkip zero (ih output)
  | loopAgain nonzero _ _ ih ih' =>
    obtain ⟨first, hfirst⟩ := ih
    obtain ⟨rest, hrest⟩ := ih'
    refine ⟨first ++ rest, fun output => .loopAgain nonzero (hfirst output) ?_⟩
    rw [← htwice]
    exact hrest _
  | onceSkip zero _ ih => exact ih.imp fun _ ih output => .onceSkip zero (ih output)
  | onceAfter nonzero _ _ ih ih' =>
    obtain ⟨first, hfirst⟩ := ih
    obtain ⟨rest, hrest⟩ := ih'
    refine ⟨first ++ rest, fun output => .onceAfter nonzero (hfirst output) ?_⟩
    rw [← htwice]
    exact hrest _

/-- Output is only added to, and nothing depends on what was written before. -/
theorem Ends.exists_written {b : Body} {v u : View m} (h : b.Ends v u) :
    ∃ written : Array UInt8, u.output = v.output.map (· ++ written) ∧ ∀ output,
      b.Ends { v with output := output } { u with output := output.map (· ++ written) } := by
  obtain ⟨written, hwritten⟩ := h.change_output
  exact ⟨written, congrArg View.output (h.unique (hwritten v.output)), hwritten⟩

end Body

namespace Machine.Code

variable {code : Code}

/-- The jump table has both ends of every block that lies in the code. -/
theorem Holds.exists_partner {b : Body} {start pc : Nat} (h : code.Holds start b)
    (hstart : start ≤ pc) (hstop : pc < start + b.length) {op : Op} (hop : code.op? pc = some op)
    (hcontrol : op.isPlain = false) : ∃ position, code.partner pc = .ok position := by
  have hpartner : ∀ {position}, code.jumps[pc]? = some position →
      ∃ position, code.partner pc = .ok position := by
    intro position hposition
    exact ⟨position, by rw [partner, hposition]⟩
  induction b generalizing start with
  | done =>
    rw [Body.length] at hstop
    omega
  | step op' next ih =>
    obtain ⟨hop', hplain, hnext⟩ := h
    rw [Body.length] at hstop
    rcases Nat.eq_or_lt_of_le hstart with rfl | hlt
    · obtain rfl := Option.some.inj (hop.symm.trans hop')
      rw [hplain] at hcontrol
      contradiction
    · exact ih hnext hlt (by omega)
  | loop offset body next ihb ihn | once body next ihb ihn =>
    obtain ⟨hspans, hbody, hnext⟩ := h
    rw [Body.length] at hstop
    rcases Nat.eq_or_lt_of_le hstart with rfl | hlt
    · exact hpartner hspans.forth
    · rcases Nat.lt_trichotomy pc (start + 1 + body.length) with hinside | rfl | hafter
      · exact ihb hbody hlt hinside
      · exact hpartner hspans.back
      · exact ihn hnext hafter (by omega)

/-- With somewhere to write to, every instruction has one that follows it. -/
theorem exists_next {b : Body} (hb : code.Holds 0 b)
    (hend : ∀ pc, code.op? pc = none ↔ b.length ≤ pc) {pc : Nat} {op : Op}
    (hop : code.op? pc = some op) {s : State m} (hs : s.output.isSome = true) :
    ∃ pc', code.next pc s op = .ok pc' := by
  by_cases hplain : op.isPlain = true
  · rcases next_plain hplain pc s with hnext | ⟨_, hnone, _⟩
    · exact ⟨_, hnext⟩
    · simp [hnone] at hs
  · have hlt : pc < b.length := by
      by_contra hle
      rw [(hend pc).mpr (by omega)] at hop
      contradiction
    obtain ⟨position, hposition⟩ :=
      hb.exists_partner (Nat.zero_le pc) (by omega) hop (by simpa using hplain)
    rcases op.nesting_cases with rfl | ⟨offset, rfl⟩ | rfl | h
    · exact ⟨_, by rw [next, hposition]; rfl⟩
    · rw [next, hposition]
      split <;> exact ⟨_, rfl⟩
    · rw [next, hposition]
      split <;> exact ⟨_, rfl⟩
    · exact absurd h hplain

/-- With somewhere to write to, the machine never stops but at the end. -/
theorem run_halted_or_unfinished {b : Body} (hb : code.Holds 0 b)
    (hend : ∀ pc, code.op? pc = none ↔ b.length ≤ pc) (steps pc : Nat) {s : State m}
    (hs : s.output.isSome = true) :
    ∃ t, code.run steps pc s = .halted t ∨ code.run steps pc s = .unfinished t := by
  induction steps generalizing pc s with
  | zero =>
    rw [run]
    cases code.instrs[pc]? with
    | none => exact ⟨s, .inl rfl⟩
    | some i => exact ⟨s, .inr rfl⟩
  | succ steps ih =>
    rw [run]
    cases hi : code.instrs[pc]? with
    | none => exact ⟨s, .inl rfl⟩
    | some i =>
      obtain ⟨pc', hnext⟩ := exists_next hb hend (show code.op? pc = some i.op by simp [op?, hi]) hs
      simp only [hnext]
      exact ih pc' ((i.op.isSome_output_perform s).trans hs)

end Machine.Code

namespace Program

theorem halts_iff_ends {program : Program} {b : Body} (hb : Body.ofOps? program.ops = some b)
    {s : State m} (hs : s.output.isSome = true) {v : View m} :
    program.Halts s v ↔ b.Ends s.view v := by
  rw [halts_iff hb]
  constructor
  · rintro ⟨u, hrun, rfl, _⟩
    exact hrun.ends
  · intro h
    obtain ⟨u, hrun, hu⟩ := h.exists_run (w := s.observed) rfl
    exact ⟨u, hrun, hu, .inl hs⟩

theorem run_halted_or_unfinished {program : Program} {b : Body}
    (hb : Body.ofOps? program.ops = some b) (steps : Nat) {s : State m}
    (hs : s.output.isSome = true) :
    ∃ t, program.run steps s = .ok (.halted t) ∨ program.run steps s = .ok (.unfinished t) := by
  obtain ⟨code, hcode, hholds, hend⟩ := exists_code hb
  obtain ⟨t, ht⟩ := Code.run_halted_or_unfinished hholds hend steps 0 (s := s.mark) hs
  refine ⟨t, ?_⟩
  rw [run, hcode]
  exact ht.imp (congrArg Except.ok) (congrArg Except.ok)

/-- A program with a jump table has exactly one nesting. With somewhere to write to, the machine
never meets a jump that is not in the table, and it halts exactly as the structured execution of the
nesting ends, with the same tape, rest of the input and output. -/
theorem halts_iff_nesting_ends (program : Program) (table : Jumps)
    (h : Jumps.ofProgram program = .ok table) :
    (∃! b : Body, b.IsNestingOf program.ops) ∧
      ∀ (b : Body) (m : Int) (s : State m), b.IsNestingOf program.ops → s.output.isSome = true →
        (∀ steps, ∃ t, program.run steps s = .ok (.halted t) ∨
          program.run steps s = .ok (.unfinished t)) ∧
        ∀ v, program.Halts s v ↔ b.Ends s.view v := by
  obtain ⟨b, hb⟩ := Body.exists_ofOps?_iff.mpr (Jumps.exists_ofProgram_iff.mp ⟨table, h⟩)
  refine ⟨⟨b, Body.isNestingOf_iff.mpr hb, fun b' hb' => ?_⟩, fun b m s hb hs => ?_⟩
  · exact Option.some.inj ((Body.isNestingOf_iff.mp hb').symm.trans hb)
  · have hbody := Body.isNestingOf_iff.mp hb
    exact ⟨fun steps => run_halted_or_unfinished hbody steps hs, fun v => halts_iff_ends hbody hs⟩

/-- A loop that tests the next cell, with a block in it that runs at most once in each round. -/
theorem halts_iff_nesting_ends_scanning :
    (∃ table, Jumps.ofProgram [⟨0, .loop 1⟩, ⟨1, .once⟩, ⟨2, .write 0 0⟩, ⟨1, .close⟩,
        ⟨1, .move .right 1⟩, ⟨0, .close⟩] = .ok table) ∧
      ∀ (t : Tape 256) (input : List UInt8) (output : Array UInt8) (v : View 256),
        Halts [⟨0, .loop 1⟩, ⟨1, .once⟩, ⟨2, .write 0 0⟩, ⟨1, .close⟩, ⟨1, .move .right 1⟩,
            ⟨0, .close⟩] ⟨t, input, some output, none⟩ v ↔
          Body.Ends
            (.loop 1 (.once (.step (.write 0 0) .done) (.step (.move .right 1) .done)) .done)
            ⟨t, input, some output⟩ v := by
  have htable : ∃ table, Jumps.ofProgram [⟨0, .loop 1⟩, ⟨1, .once⟩, ⟨2, .write 0 0⟩, ⟨1, .close⟩,
      ⟨1, .move .right 1⟩, ⟨0, .close⟩] = .ok table := ⟨_, rfl⟩
  obtain ⟨table, h⟩ := htable
  refine ⟨⟨table, h⟩, fun t input output v => ?_⟩
  exact ((halts_iff_nesting_ends _ table h).2 _ 256 ⟨t, input, some output, none⟩
    ⟨rfl, by simp [Body.Steps]⟩ rfl).2 v

end Program

end Brainfuck
