import Brainfuck.Proofs.Rewriting
import Brainfuck.Proofs.Simplification

/-! The levels of the compiler agree. A well-nested text is compiled at every level, except that the
passes of the optimiser may reach their limit. What a level makes of the text refines the plain
program: the same results, and with a modulus above zero the same events in the same order, whether
or not the run ends. -/

namespace Brainfuck

open Machine

variable {m : Int}

namespace Level

theorem simplifiesTo (level : Level) (text : List Char) :
    Source.SimplifiesTo text (level.simplify text) := by
  unfold simplify
  split
  · exact Source.simplifiesTo_simplify text
  · exact .refl

theorem blockError?_simplify (level : Level) (text : List Char) (depth : Nat) :
    Op.blockError? depth (Op.ofText (level.simplify text)) =
      Op.blockError? depth (Op.ofChars text) := by
  rw [(Op.ofText_interchangeable _).1.blockError?_nil, (level.simplifiesTo text).blockError?_eq]

/-- Runs of commands are taken apart, the text is simplified, and runs are joined again. -/
theorem refines_simplify (level : Level) (text : List Char) :
    Op.Refines (Observed.Cleared (m := m)) (Op.ofText text) (Op.ofText (level.simplify text)) :=
  ((Op.ofText_interchangeable text).1.refines_nil.trans (level.simplifiesTo text).refines).trans
    (Op.ofText_interchangeable _).2.refines_nil

end Level

namespace Options

theorem exists_lower (o : Options) {text : List Char} (h : Source.WellNested text) :
    ∃ l, o.lower text = .ok l ∧
      l.program.ops = Op.ofText (o.level.simplify (Source.strip o.debugging text)) := by
  have hblocks := (Source.wellNested_iff o.debugging text).mp h
  obtain ⟨commands, hcommands⟩ : ∃ commands, Source.strip o.debugging text = commands := ⟨_, rfl⟩
  rw [hcommands] at hblocks ⊢
  have hbalance : Source.balance (o.level.simplify commands) = 0 := by
    rw [(o.level.simplifiesTo _).blockError?_eq] at hblocks
    simpa using (Source.blockError?_ofChars_eq_none_iff.mp hblocks).1
  rw [← o.level.blockError?_simplify] at hblocks
  obtain ⟨program, hprogram⟩ := Program.exists_nest_iff.mpr hblocks
  refine ⟨⟨o.level.simplify commands, program⟩, ?_, Program.ops_of_nest hprogram⟩
  simp [lower, prepare, hcommands, hbalance, Program.lower, hprogram, Except.map]

/-- The optimiser fails only by reaching its limit, and only at the highest level. -/
theorem of_optimize_eq_error {o : Options} {program : Program} {e : CompileError}
    (h : o.optimize program = .error e) : o.level = .full ∧ ∃ limit, e = .unsettled limit := by
  simp only [optimize] at h
  split at h
  · next hlevel =>
    refine ⟨?_, ?_⟩
    · cases hl : o.level with
      | full => rfl
      | plain | text => simp [hl, Level.rewritesInstrs] at hlevel
    · split at h
      · cases h
        exact ⟨_, rfl⟩
      · contradiction
  · contradiction

/-- What a level makes of a text refines the plain program. -/
theorem refines_of_build (o : Options) {text : List Char} (h : Source.WellNested text) :
    ∃ p, ({ o with level := .plain }.build text).result = .ok p ∧
      ((o.level = .full ∧ ∃ limit, (o.build text).result = .error (.unsettled limit)) ∨
        ∃ q, (o.build text).result = .ok q ∧
          ∀ {m : Int}, Op.Refines (Observed.Cleared (m := m)) p.ops q.ops) := by
  obtain ⟨plain, hplain, hops⟩ := exists_lower { o with level := .plain } h
  obtain ⟨lowered, hlowered, hops'⟩ := exists_lower o h
  replace hops : plain.program.ops = Op.ofText (Source.strip o.debugging text) := hops
  refine ⟨plain.program, by rw [build, hplain]; rfl, ?_⟩
  cases hopt : o.optimize lowered.program with
  | error e =>
    obtain ⟨hlevel, limit, rfl⟩ := of_optimize_eq_error hopt
    exact .inl ⟨hlevel, limit, by rw [build, hlowered]; simp [hopt]⟩
  | ok r =>
    refine .inr ⟨r.program, by rw [build, hlowered]; simp [hopt], ?_⟩
    rw [hops]
    refine (o.level.refines_simplify _).trans ?_
    rw [← hops']
    exact (rewritesTo_of_optimize hopt).refines.restrict

/-- Whatever the level, a run of the plain program that halts is a run of the optimised one, with
the same output, tape and remaining input; with a modulus above zero the optimised program halts
only then. The compiler fails only when the passes of the highest level reach their limit. -/
theorem levels_halt_alike (o : Options) (text : List Char) (h : Source.WellNested text) :
    ∃ p, ({ o with level := .plain }.build text).result = .ok p ∧
      ((o.level = .full ∧ ∃ limit, (o.build text).result = .error (.unsettled limit)) ∨
        ∃ q, (o.build text).result = .ok q ∧
          ∀ (s : State o.modulus) (v : View o.modulus),
            (p.Halts s v → q.Halts s v) ∧ (0 < o.modulus → q.Halts s v → p.Halts s v)) := by
  obtain ⟨p, hp, hq⟩ := o.refines_of_build h
  refine ⟨p, hp, hq.imp_right fun ⟨q, hq, hpq⟩ => ⟨q, hq, fun s v => ⟨hpq.halts, fun hm => ?_⟩⟩⟩
  exact (hpq.halts_iff (by exact_mod_cast hm)).mpr

/-- A loop that doubles a byte, and the straight program that takes its place. -/
theorem levels_halt_alike_doubling :
    Source.WellNested [',', '[', '-', '>', '+', '+', '<', ']'] ∧
      ∀ (s : State 256) (v : View 256),
        Program.Halts [⟨0, .read 0⟩, ⟨0, .loop 0⟩, ⟨1, .adjust .minus 1 0⟩, ⟨1, .move .right 1⟩,
            ⟨1, .adjust .plus 2 0⟩, ⟨1, .move .left 1⟩, ⟨0, .close⟩] s v ↔
          Program.Halts [⟨0, .read 0⟩, ⟨0, .addScaled 0 2 1 0⟩, ⟨0, .assign 0 0⟩] s v := by
  have hnested : Source.WellNested [',', '[', '-', '>', '+', '+', '<', ']'] := by decide
  have hfull : (standard.build [',', '[', '-', '>', '+', '+', '<', ']']).result =
      .ok [⟨0, .read 0⟩, ⟨0, .addScaled 0 2 1 0⟩, ⟨0, .assign 0 0⟩] := by decide +kernel
  refine ⟨hnested, fun s v => ?_⟩
  obtain ⟨p, hp, ⟨_, limit, hq⟩ | ⟨q, hq, h⟩⟩ := levels_halt_alike standard _ hnested
  · rw [hfull] at hq
    contradiction
  · rw [hfull] at hq
    have hplain : ({ standard with level := .plain }.build
        [',', '[', '-', '>', '+', '+', '<', ']']).result =
          .ok [⟨0, .read 0⟩, ⟨0, .loop 0⟩, ⟨1, .adjust .minus 1 0⟩, ⟨1, .move .right 1⟩,
            ⟨1, .adjust .plus 2 0⟩, ⟨1, .move .left 1⟩, ⟨0, .close⟩] := by decide +kernel
    rw [hplain] at hp
    cases hp
    cases hq
    exact ⟨(h s v).1, (h s v).2 (by decide)⟩

/-- With a modulus above zero, the plain program and the optimised one emit the same events, also
when they never halt. -/
theorem levels_emit_alike (o : Options) (text : List Char) (h : Source.WellNested text)
    (hm : 0 < o.modulus) :
    ∃ p, ({ o with level := .plain }.build text).result = .ok p ∧
      ((o.level = .full ∧ ∃ limit, (o.build text).result = .error (.unsettled limit)) ∨
        ∃ q, (o.build text).result = .ok q ∧
          ∀ (s : State o.modulus) (events : List Event),
            p.Emits s events ↔ q.Emits s events) := by
  obtain ⟨p, hp, hq⟩ := o.refines_of_build h
  refine ⟨p, hp, hq.imp_right fun ⟨q, hq, hpq⟩ => ⟨q, hq, fun s events => ?_⟩⟩
  exact hpq.emits_iff (by exact_mod_cast hm)

/-- A program that prints the same byte for ever, and clears and sets the cell in between. -/
theorem levels_emit_alike_printing :
    Source.WellNested ['+', '[', '.', '[', '-', ']', '+', ']'] ∧
      ∀ (s : State 256) (events : List Event),
        Program.Emits [⟨0, .adjust .plus 1 0⟩, ⟨0, .loop 0⟩, ⟨1, .write 0 0⟩, ⟨1, .loop 0⟩,
            ⟨2, .adjust .minus 1 0⟩, ⟨1, .close⟩, ⟨1, .adjust .plus 1 0⟩, ⟨0, .close⟩] s events ↔
          Program.Emits [⟨0, .adjust .plus 1 0⟩, ⟨0, .loop 0⟩, ⟨1, .write 0 0⟩, ⟨1, .assign 1 0⟩,
            ⟨0, .close⟩] s events := by
  have hnested : Source.WellNested ['+', '[', '.', '[', '-', ']', '+', ']'] := by decide
  have hfull : (standard.build ['+', '[', '.', '[', '-', ']', '+', ']']).result =
      .ok [⟨0, .adjust .plus 1 0⟩, ⟨0, .loop 0⟩, ⟨1, .write 0 0⟩, ⟨1, .assign 1 0⟩,
        ⟨0, .close⟩] := by decide +kernel
  refine ⟨hnested, fun s events => ?_⟩
  obtain ⟨p, hp, ⟨_, limit, hq⟩ | ⟨q, hq, h⟩⟩ :=
    levels_emit_alike standard _ hnested (by decide)
  · rw [hfull] at hq
    contradiction
  · rw [hfull] at hq
    have hplain : ({ standard with level := .plain }.build
        ['+', '[', '.', '[', '-', ']', '+', ']']).result =
          .ok [⟨0, .adjust .plus 1 0⟩, ⟨0, .loop 0⟩, ⟨1, .write 0 0⟩, ⟨1, .loop 0⟩,
            ⟨2, .adjust .minus 1 0⟩, ⟨1, .close⟩, ⟨1, .adjust .plus 1 0⟩, ⟨0, .close⟩] := by
      decide +kernel
    rw [hplain] at hp
    cases hp
    cases hq
    exact h s events

end Options

end Brainfuck
