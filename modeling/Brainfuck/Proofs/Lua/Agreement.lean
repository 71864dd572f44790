import Brainfuck.Proofs.FlatRun
import Brainfuck.Proofs.Lua.Effects

/-! The code of a program means what the machine does. A run of the statements of a body is followed
step by step by the machine, whatever its budget; and the end that the machine comes to is reached
with some budget. -/

namespace Brainfuck.Lua

open Machine

variable {o : Options} {scope : Scope} {w : World}

theorem eval_isNonzero {m : Int} {t : Tape m} (hscope : scope.OfBlocks) (hw : w.HasTape t)
    (offset : Int) :
    eval scope w (isNonzero offset) = .ok (.bool (t.cell offset ≠ 0), w) :=
  eval_binary (by decide) (Yields.cell hscope hw offset) rfl rfl

section Control

variable {m : Int} {t : Tape m} {offset : Int} {body rest : List Command}

theorem exec_while_zero (hscope : scope.OfBlocks) (hw : w.HasTape t) (h : t.cell offset = 0)
    (budget : Nat) :
    exec (budget + 1) (.whileDo (isNonzero offset) body :: rest) scope w =
      exec budget rest scope w := by
  simp only [exec, eval_isNonzero hscope hw, h]
  rfl

theorem exec_while_nonzero (hscope : scope.OfBlocks) (hw : w.HasTape t) (h : t.cell offset ≠ 0)
    (budget : Nat) :
    exec (budget + 1) (.whileDo (isNonzero offset) body :: rest) scope w =
      (exec budget body scope w).andThen
        (exec budget (.whileDo (isNonzero offset) body :: rest) scope) := by
  simp only [exec, eval_isNonzero hscope hw, h, ne_eq, not_false_eq_true, decide_true]
  rfl

theorem exec_if_zero (hscope : scope.OfBlocks) (hw : w.HasTape t) (h : t.cell offset = 0)
    (budget : Nat) :
    exec (budget + 1) (.ifElse (isNonzero offset) body [] :: rest) scope w =
      exec budget rest scope w := by
  simp only [exec, eval_isNonzero hscope hw, h]
  show (exec budget [] scope w).andThen (exec budget rest scope) = _
  rw [exec_nil]
  rfl

theorem exec_if_nonzero (hscope : scope.OfBlocks) (hw : w.HasTape t) (h : t.cell offset ≠ 0)
    (budget : Nat) :
    exec (budget + 1) (.ifElse (isNonzero offset) body [] :: rest) scope w =
      (exec budget body scope w).andThen (exec budget rest scope) := by
  simp only [exec, eval_isNonzero hscope hw, h, ne_eq, not_false_eq_true, decide_true]
  rfl

end Control

/-- The operation can be printed: it dumps only when debugging. -/
def Printable (o : Options) (op : Op) : Prop := o.debugging = true ∨ op ≠ .dump

/-- The world shows the end of a run of the body from `v`. -/
def Ends (o : Options) (b : Body) (v : Observed o.modulus) (w : World) : Prop :=
  ∃ u : Observed o.modulus, b.Run v (.over u) ∧ w.Ready o ∧ w.Shows u.toView

theorem function?_self (f : String) (body : List Command) :
    w.function? (.function f body :: scope) f = some (body, .function f body :: scope) := by
  simp [World.function?, Scope.function?]

/-- The statements of a block meet what those of its body meet, with no larger budget. -/
theorem meets_enclosed {number budget : Nat} {cs : List Command} {P : World → Prop}
    (hscope : scope.OfBlocks) (h : ∀ k ≤ budget, ∀ inner : Scope, inner.OfBlocks →
      (exec k cs inner w).Meets P) :
    (exec budget (enclosed o number cs) scope w).Meets P := by
  unfold enclosed
  split
  · match budget with
    | 0 | 1 => trivial
    | budget + 2 =>
      have hbody := h budget (by omega) _ (hscope.cons number cs)
      simp only [exec, function?_self]
      exact hbody.andThen fun w hw => by rwa [exec_nil]
  · exact h budget (Nat.le_refl _) scope hscope

/-- Whatever its budget, a run of the statements is not broken off, and when it is finished the
machine has come to the same end. -/
theorem meets_commands {b : Body} (hb : b.Steps (Printable o)) (budget number : Nat)
    (hscope : scope.OfBlocks) (hready : w.Ready o) {v : Observed o.modulus}
    (hw : w.Shows v.toView) :
    (exec budget (commands o number b) scope w).Meets (Ends o b v) := by
  -- After a round of a loop the same loop is left to run, so that the budget decreases and not
  -- the body.
  induction budget using Nat.strongRecOn generalizing b number scope w v with
  | ind budget ih =>
    cases b with
    | done =>
      rw [commands, exec_nil]
      exact ⟨v, .done v, hready, hw⟩
    | step op next =>
      obtain ⟨hplain, hprintable, hnext⟩ := hb
      obtain ⟨c, w', hc, hadvance, hready', hw'⟩ := performs hplain hprintable hscope hready hw
      rw [commands, hc, List.singleton_append]
      cases budget with
      | zero => trivial
      | succ budget =>
        rcases hadvance.exec_eq_or budget (commands o number next) with h | h
        · rw [h]
          trivial
        · rw [h]
          refine (ih budget (by omega) hnext number hscope hready' hw').mono ?_
          rintro u ⟨r, hr, hu⟩
          exact ⟨r, .step hr, hu⟩
    | loop offset body next =>
      cases budget with
      | zero => trivial
      | succ budget =>
        rw [commands]
        by_cases hc : v.tape.cell offset = 0
        · rw [exec_while_zero hscope hw.toHasTape hc]
          refine (ih budget (by omega) hb.2 _ hscope hready hw).mono ?_
          rintro u ⟨r, hr, hu⟩
          exact ⟨r, .loopSkip hc hr, hu⟩
        · rw [exec_while_nonzero hscope hw.toHasTape hc]
          refine (meets_enclosed hscope fun k hk inner hinner =>
            ih k (by omega) hb.1 _ hinner hready hw).andThen ?_
          rintro w' ⟨u, hu, hready', hw'⟩
          have hagain := ih budget (by omega) (b := .loop offset body next) hb number hscope
            hready' hw'
          refine hagain.mono ?_
          rintro w'' ⟨r, hr, hw''⟩
          exact ⟨r, .loopAgain hc hu hr, hw''⟩
    | once body next =>
      cases budget with
      | zero => trivial
      | succ budget =>
        rw [commands]
        by_cases hc : v.tape.cell 0 = 0
        · rw [exec_if_zero hscope hw.toHasTape hc]
          refine (ih budget (by omega) hb.2 _ hscope hready hw).mono ?_
          rintro u ⟨r, hr, hu⟩
          exact ⟨r, .onceSkip hc hr, hu⟩
        · rw [exec_if_nonzero hscope hw.toHasTape hc]
          refine (meets_enclosed hscope fun k hk inner hinner =>
            ih k (by omega) hb.1 _ hinner hready hw).andThen ?_
          rintro w' ⟨u, hu, hready', hw'⟩
          refine (ih budget (by omega) hb.2 _ hscope hready' hw').mono ?_
          rintro w'' ⟨r, hr, hw''⟩
          exact ⟨r, .onceAfter hc hu hr, hw''⟩

/-- With some budget the run is finished, in a world that satisfies `P`. -/
def Finishes (cs : List Command) (scope : Scope) (w : World) (P : World → Prop) : Prop :=
  ∃ budget w', exec budget cs scope w = .finished w' ∧ P w'

theorem exec_of_le {budget budget' : Nat} (hle : budget ≤ budget') {cs : List Command}
    {w' : World} (h : exec budget cs scope w = .finished w') :
    exec budget' cs scope w = .finished w' := by
  rw [exec_mono hle (by simp [h]), h]

/-- Statements that finish in turn do so with one budget. -/
theorem Finishes.andThen {cs ds : List Command} {inner : Scope} {P Q : World → Prop}
    (h : Finishes cs inner w P) (hds : ∀ w', P w' → Finishes ds scope w' Q) :
    ∃ budget w', (exec budget cs inner w).andThen (exec budget ds scope) = .finished w' ∧
      Q w' := by
  obtain ⟨k, w', hk, hP⟩ := h
  obtain ⟨n, w'', hn, hQ⟩ := hds w' hP
  refine ⟨max k n, w'', ?_, hQ⟩
  rw [exec_of_le (le_max_left k n) hk]
  exact exec_of_le (le_max_right k n) hn

theorem finishes_enclosed (number : Nat) {cs : List Command} {P : World → Prop}
    (hscope : scope.OfBlocks) (h : ∀ inner : Scope, inner.OfBlocks → Finishes cs inner w P) :
    Finishes (enclosed o number cs) scope w P := by
  unfold enclosed
  split
  · obtain ⟨budget, w', hbody, hP⟩ := h _ (hscope.cons number cs)
    refine ⟨budget + 2, w', ?_, hP⟩
    simp only [exec, function?_self, hbody]
    exact exec_nil budget
  · exact h scope hscope

/-- When the machine comes to an end, so do the statements with enough budget. -/
theorem finishes_commands {b : Body} (hb : b.Steps (Printable o)) {v u : Observed o.modulus}
    (h : b.Run v (.over u)) (number : Nat) (hscope : scope.OfBlocks) (hready : w.Ready o)
    (hw : w.Shows v.toView) :
    Finishes (commands o number b) scope w fun w' => w'.Ready o ∧ w'.Shows u.toView := by
  generalize hr : Progress.over u = r at h
  -- Each part has a budget of its own; the largest of them is enough for all.
  induction h generalizing u number scope w with
  | pause => contradiction
  | done v =>
    cases hr
    exact ⟨0, w, rfl, hready, hw⟩
  | step rest ih =>
    obtain ⟨hplain, hprintable, hnext⟩ := hb
    obtain ⟨c, w', hc, hadvance, hready', hw'⟩ := performs hplain hprintable hscope hready hw
    obtain ⟨enough, heq⟩ := hadvance.exec_eq
    obtain ⟨budget, w'', hbudget, hw''⟩ := ih hnext number hscope hready' hw' hr
    refine ⟨max budget enough + 1, w'', ?_, hw''⟩
    rw [commands, hc, List.singleton_append, heq _ _ (le_max_right ..)]
    exact exec_of_le (le_max_left ..) hbudget
  | loopSkip zero rest ih =>
    obtain ⟨budget, w', hbudget, hw'⟩ := ih hb.2 _ hscope hready hw hr
    refine ⟨budget + 1, w', ?_, hw'⟩
    rw [commands, exec_while_zero hscope hw.toHasTape zero]
    exact hbudget
  | loopInside => contradiction
  | loopAgain nonzero once again ih ih' =>
    have hbody := finishes_enclosed (o := o) number hscope
      fun inner hinner => ih hb.1 (number + o.functions.toNat) hinner hready hw rfl
    obtain ⟨budget, w', hbudget, hw'⟩ :=
      hbody.andThen fun w' hw' => ih' hb number hscope hw'.1 hw'.2 hr
    refine ⟨budget + 1, w', ?_, hw'⟩
    rw [commands, exec_while_nonzero hscope hw.toHasTape nonzero]
    exact hbudget
  | onceSkip zero rest ih =>
    obtain ⟨budget, w', hbudget, hw'⟩ := ih hb.2 _ hscope hready hw hr
    refine ⟨budget + 1, w', ?_, hw'⟩
    rw [commands, exec_if_zero hscope hw.toHasTape zero]
    exact hbudget
  | onceInside => contradiction
  | onceAfter nonzero whole rest ih ih' =>
    have hbody := finishes_enclosed (o := o) number hscope
      fun inner hinner => ih hb.1 (number + o.functions.toNat) hinner hready hw rfl
    obtain ⟨budget, w', hbudget, hw'⟩ :=
      hbody.andThen fun w' hw' => ih' hb.2 _ hscope hw'.1 hw'.2 hr
    refine ⟨budget + 1, w', ?_, hw'⟩
    rw [commands, exec_if_nonzero hscope hw.toHasTape nonzero]
    exact hbudget

namespace World

/-- The world with the tape in `data` and `ptr`, and with the given input and output. -/
def load {m : Int} (w : World) (t : Tape m) (input : List UInt8) (output : Array UInt8) : World :=
  { (w.set "data" (.table fun i => .int (t.get i))).set "ptr" (.int t.ptr) with
    input := input
    output := output }

theorem shows_load {m : Int} (w : World) (t : Tape m) (input : List UInt8)
    (output : Array UInt8) : (w.load t input output).Shows ⟨t, input, some output⟩ :=
  ⟨⟨rfl, rfl⟩, rfl, rfl⟩

theorem Ready.load (h : w.Ready o) {m : Int} (t : Tape m) (input : List UInt8)
    (output : Array UInt8) : (w.load t input output).Ready o :=
  ⟨h.max, h.dump⟩

end World

/-- From the world `w` the statements do what the program does from the state `s`: they are never
broken off, and they come to an end exactly if the program halts, in a world that shows the tape,
the rest of the input and the output of the machine then. -/
def Implements {m : Int} (statements : List Command) (w : World) (program : Program)
    (s : State m) : Prop :=
  (∀ budget trap, exec budget statements [] w ≠ .trapped trap) ∧
    (∀ budget w', exec budget statements [] w = .finished w' →
      ∃ v, program.Halts s v ∧ w'.Shows v) ∧
    ∀ v, program.Halts s v → ∃ budget w', exec budget statements [] w = .finished w' ∧ w'.Shows v

theorem implements_commands {b : Body} (hb : b.Steps (Printable o)) {program : Program}
    (hbody : Body.ofOps? program.ops = some b) (number : Nat) (hready : w.Ready o)
    {s : State o.modulus} (hw : w.Shows s.view) :
    Implements (commands o number b) w program s := by
  have hmeets (budget : Nat) :=
    meets_commands hb budget number Scope.OfBlocks.nil hready (v := s.observed) hw
  have hsend (events : List Event) : s.observed.CanSend events := .inl (by
    show s.output.isSome = true
    rw [show s.output = some w.output from hw.output]
    rfl)
  refine ⟨fun budget trap h => ?_, fun budget w' h => ?_, fun v hv => ?_⟩
  · have := hmeets budget
    rw [h] at this
    exact this
  · have := hmeets budget
    rw [h] at this
    obtain ⟨u, hu, -, hw'⟩ := this
    exact ⟨u.toView, (Program.halts_iff hbody).mpr ⟨u, hu, rfl, hsend _⟩, hw'⟩
  · obtain ⟨u, hu, rfl, -⟩ := (Program.halts_iff hbody).mp hv
    obtain ⟨budget, w', h, -, hw'⟩ := finishes_commands hb hu number .nil hready hw
    exact ⟨budget, w', h, hw'⟩

theorem Implements.prologue {m : Int} {statements : List Command} {program : Program} {s : State m}
    (h : Implements statements (w.prepared o) program s) :
    Implements (prologue o ++ statements) w program s := by
  obtain ⟨hsafe, hsound, hends⟩ := h
  have hrest (budget : Nat) (h : exec budget (Lua.prologue o ++ statements) [] w ≠ .unfinished) :
      exec budget statements [] (w.prepared o) =
        exec budget (Lua.prologue o ++ statements) [] w := by
    rw [← exec_prologue, exec_mono (Nat.le_add_right ..) h]
  refine ⟨fun budget trap h => ?_, fun budget w' h => ?_, fun v hv => ?_⟩
  · exact hsafe budget trap ((hrest budget (by simp [h])).trans h)
  · exact hsound budget w' ((hrest budget (by simp [h])).trans h)
  · obtain ⟨budget, w', h, hw'⟩ := hends v hv
    exact ⟨_, w', (exec_prologue o w budget statements).trans h, hw'⟩

/-- The code of a program whose depths are those of its nesting, and that dumps only when debugging,
means what the machine does, for every tape, input and output so far. With the header before it,
it does so from an empty tape. -/
theorem code_implements_program (o : Options) (program : Program)
    (hnest : Program.nest 0 program.ops = .ok program)
    (hdump : o.debugging = true ∨ .dump ∉ program.ops) :
    ∃ text prologue statements defined,
      code o program = .ok ((if o.header then header o else "") ++ text) ∧
      parse? (header o) = some prologue ∧
      (∃ budget, exec budget prologue [] .blank = .finished defined) ∧
      parse? text = some statements ∧
      parse? (header o ++ text) = some (prologue ++ statements) ∧
      (∀ (t : Tape o.modulus) (input : List UInt8) (output : Array UInt8)
        (trail : Option (Array Int)),
        Implements statements (defined.load t input output) program
          ⟨t, input, some output, trail⟩) ∧
      ∀ (w : World) (trail : Option (Array Int)),
        Implements (prologue ++ statements) w program
          ⟨Tape.empty o.modulus, w.input, some w.output, trail⟩ := by
  obtain ⟨b, hb⟩ := Body.exists_ofOps?_iff.mpr (Program.exists_nest_iff.mp ⟨program, hnest⟩)
  have hpieces := Body.ofOps?_eq_some_iff.mp hb
  have hprogram : program = b.program 0 := by
    simpa [Body.programsAfter] using Pieces.program_of_nest hnest hpieces
  have hprintable : ∀ op ∈ program.ops, Printable o op :=
    fun op hop => hdump.imp_right fun hdump heq => hdump (heq ▸ hop)
  have hsteps := (Pieces.steps_of_ofOps? hprintable hpieces).1
  obtain ⟨ls, hls, hread⟩ := exists_lines (o := o) hsteps
  have htext := Spells.of_readAs hread
  have hdefined : exec (0 + (prologue o).length) (prologue o) [] .blank =
      .finished (World.blank.prepared o) := by
    simpa using exec_prologue o .blank 0 []
  refine ⟨_, prologue o, commands o 1 b, _, ?_, (spells_header o).parse?_eq, ⟨_, hdefined⟩,
    htext.parse?_eq, ((spells_header o).append htext).parse?_eq, fun t input output trail => ?_,
    fun w trail => .prologue ?_⟩
  · rw [code, hprogram, hls]
    rfl
  · exact implements_commands hsteps hb 1 ((ready_prepared o _).load t input output)
      (World.shows_load _ t input output)
  · exact implements_commands hsteps hb 1 (ready_prepared o w) (shows_prepared o w)

/-- A loop whose body is a function: it writes a byte, and sets the cell from another. -/
theorem code_implements_writing_loop :
    Program.nest 0 [.loop 0, .write 0 (-1), .copy 2 0 1 (-1), .close, .dump] =
        .ok [⟨0, .loop 0⟩, ⟨1, .write 0 (-1)⟩, ⟨1, .copy 2 0 1 (-1)⟩, ⟨0, .close⟩, ⟨0, .dump⟩] ∧
      ∃ text statements defined,
        code ⟨.full, 100, true, true, false, none⟩
          [⟨0, .loop 0⟩, ⟨1, .write 0 (-1)⟩, ⟨1, .copy 2 0 1 (-1)⟩, ⟨0, .close⟩, ⟨0, .dump⟩] =
            .ok text ∧
        parse? text = some statements ∧
        ∀ (t : Tape 100) (input : List UInt8) (output : Array UInt8),
          Implements statements (World.load defined t input output)
            [⟨0, .loop 0⟩, ⟨1, .write 0 (-1)⟩, ⟨1, .copy 2 0 1 (-1)⟩, ⟨0, .close⟩, ⟨0, .dump⟩]
            ⟨t, input, some output, none⟩ := by
  obtain ⟨text, _, statements, defined, hcode, -, -, hparse, -, h, -⟩ :=
    code_implements_program ⟨.full, 100, true, true, false, none⟩
      [⟨0, .loop 0⟩, ⟨1, .write 0 (-1)⟩, ⟨1, .copy 2 0 1 (-1)⟩, ⟨0, .close⟩, ⟨0, .dump⟩] rfl
      (.inl rfl)
  refine ⟨rfl, text, statements, defined, ?_, hparse, fun t input output => h t input output none⟩
  simpa using hcode

end Brainfuck.Lua
