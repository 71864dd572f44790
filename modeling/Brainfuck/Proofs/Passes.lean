import Brainfuck.Proofs.Termination

/-! Passes. A pass either finds no rule to apply at any position, and then it leaves the program as
it is and says so, or it applies rules, and then it leaves a program of lower rank. Hence repeated
passes come to an end, and no rule applies to what they leave. -/

namespace Brainfuck

/-- No rule applies at any position. -/
def Program.Normal (p : Program) : Prop :=
  ∀ (r : Rule) (position : Nat), r.pattern.rewrite? (p.drop position) = none

theorem Program.normal_nil : Normal [] := by
  intro r position
  rw [List.drop_nil]
  cases r <;> rfl

theorem Program.normal_cons_iff {i : Instr} {rest : Program} :
    Normal (i :: rest) ↔ (∀ r : Rule, r.pattern.rewrite? (i :: rest) = none) ∧ Normal rest := by
  constructor
  · intro h
    exact ⟨fun r => h r 0, fun r position => h r (position + 1)⟩
  · rintro ⟨hfirst, hrest⟩ r position
    cases position with
    | zero => exact hfirst r
    | succ position => exact hrest r position

theorem Rule.mem_all (r : Rule) : r ∈ all := by
  cases r <;> decide

theorem Rule.changed_of_applyAt? {r : Rule} {c c' : Cursor} (h : r.applyAt? c = some c') :
    c'.changed = true := by
  obtain ⟨rewrite, _, rfl⟩ := Option.map_eq_some_iff.mp h
  dsimp only
  split <;> rfl

namespace Cursor

variable {c c' next : Cursor}

theorem of_advance? (h : c.advance? = some next) :
    ∃ i rest, c.ahead = i :: rest ∧ next.remaining = i :: rest ∧ next.ahead = rest ∧
      next.changed = c.changed := by
  unfold advance? at h
  split at h
  · contradiction
  · next i rest hahead =>
    cases h
    exact ⟨i, rest, hahead, rfl, rfl, rfl⟩

theorem ahead_of_advance?_eq_none (h : c.advance? = none) : c.ahead = [] := by
  unfold advance? at h
  split at h
  · next hahead => exact hahead
  · contradiction

/-- One step of a pass: the next instruction is taken up, and a rule is applied there if one
applies. -/
def Step (c c' : Cursor) : Prop := ∃ next, c.advance? = some next ∧ next.rewrite = c'

/-- Also when a movement is to be visited again, there is less ahead than before. -/
theorem Step.length_ahead_lt (h : c.Step c') : c'.ahead.length < c.ahead.length := by
  obtain ⟨next, hnext, rfl⟩ := h
  have hadvance := length_ahead_of_advance? hnext
  have hrewrite := next.length_ahead_rewrite_le hadvance.1
  omega

theorem steps_finish (c : Cursor) :
    Relation.ReflTransGen Step c c.finish ∧ c.finish.advance? = none := by
  fun_induction finish c with
  | case1 c h => exact ⟨.refl, h⟩
  | case2 c next h ih => exact ⟨.head ⟨next, h, rfl⟩ ih.1, ih.2⟩

theorem exists_not_step (cursors : Nat → Cursor) : ∃ n, ¬ (cursors n).Step (cursors (n + 1)) := by
  obtain ⟨n, hn⟩ := WellFounded.not_rel_apply_succ (r := (· < ·))
    fun n => (cursors n).ahead.length
  exact ⟨n, fun h => hn h.length_ahead_lt⟩

theorem rewrite_cases (c : Cursor) :
    (c.rewrite = c ∧ ∀ r : Rule, r.pattern.rewrite? c.remaining = none) ∨
      (c.rewrite.changed = true ∧ c.program.Rewrites c.rewrite.program ∧
        ∃ r : Rule, r.pattern.rewrite? c.remaining ≠ none) := by
  unfold rewrite
  cases h : Rule.all.findSome? (·.applyAt? c) with
  | none =>
    refine .inl ⟨rfl, fun r => ?_⟩
    have hr := List.findSome?_eq_none_iff.mp h r r.mem_all
    rwa [Rule.applyAt?_eq, Option.map_eq_none_iff] at hr
  | some c' =>
    obtain ⟨r, _, hr⟩ := List.exists_of_findSome?_eq_some h
    refine .inr ⟨Rule.changed_of_applyAt? hr, ⟨r, Rule.rewrites_of_applyAt? hr⟩, r, ?_⟩
    rw [Rule.applyAt?_eq] at hr
    obtain ⟨rewrite, hrewrite, _⟩ := Option.map_eq_some_iff.mp hr
    simp [hrewrite]

/-- The rest of a pass. Until the first rule is applied, every position ahead is looked at as it
was; after that the rank has fallen, and it never rises again. -/
theorem finish_cases (c : Cursor) :
    (c.finish.changed = c.changed ∧ c.finish.program = c.program ∧ Program.Normal c.ahead) ∨
      (c.finish.changed = true ∧ Relation.TransGen Program.Rewrites c.program c.finish.program ∧
        ¬ Program.Normal c.ahead) := by
  fun_induction finish c with
  | case1 c h =>
    rw [ahead_of_advance?_eq_none h]
    exact .inl ⟨rfl, rfl, Program.normal_nil⟩
  | case2 c next h ih =>
    obtain ⟨i, rest, hahead, hremaining, hrest, hchanged⟩ := of_advance? h
    have hnext := next.rewrite_cases
    rw [hremaining, program_of_advance? h] at hnext
    rw [hahead, Program.normal_cons_iff]
    rcases hnext with ⟨hsame, hnone⟩ | ⟨hnow, hrewrites, r, hr⟩
    · rw [hsame, hrest, hchanged, program_of_advance? h] at ih
      rw [hsame]
      rcases ih with ⟨hflag, hprogram, hnormal⟩ | ⟨hflag, hsteps, hnormal⟩
      · exact .inl ⟨hflag, hprogram, hnone, hnormal⟩
      · exact .inr ⟨hflag, hsteps, fun hboth => hnormal hboth.2⟩
    · refine .inr ⟨?_, ?_, fun hboth => hr (hboth.1 r)⟩
      · rcases ih with ⟨hflag, _, _⟩ | ⟨hflag, _, _⟩
        · exact hflag.trans hnow
        · exact hflag
      · rcases ih with ⟨_, hprogram, _⟩ | ⟨_, hsteps, _⟩
        · rw [hprogram]
          exact .single hrewrites
        · exact .head hrewrites hsteps

end Cursor

namespace Program

variable {p q : Program}

theorem pass_cases (p : Program) :
    (p.pass = (p, false) ∧ p.Normal) ∨
      (p.pass.2 = true ∧ Relation.TransGen Rewrites p p.pass.1 ∧ ¬ p.Normal) := by
  rcases (Cursor.ofProgram p).finish_cases with ⟨hflag, hprogram, hnormal⟩ | hrest
  · exact .inl ⟨Prod.ext hprogram hflag, hnormal⟩
  · exact .inr hrest

theorem pass_of_normal (h : p.Normal) : p.pass = (p, false) := by
  rcases p.pass_cases with ⟨hpass, _⟩ | ⟨_, _, hnormal⟩
  · exact hpass
  · exact absurd h hnormal

theorem settleFrom_of_normal (h : p.Normal) (passes limit : Nat) :
    settleFrom passes (limit + 1) p = some ⟨p, passes + 1⟩ := by
  rw [settleFrom, pass_of_normal h]

theorem settleFrom_of_changed (h : p.pass.2 = true) (passes limit : Nat) :
    settleFrom passes (limit + 1) p = settleFrom (passes + 1) limit p.pass.1 := by
  rw [settleFrom]
  split
  · next hpass => simp [hpass] at h
  · next hpass => rw [hpass]

theorem history_of_normal (h : p.Normal) (limit : Nat) : p.history (limit + 1) = [p] := by
  rw [history, pass_of_normal h]

theorem history_of_changed (h : p.pass.2 = true) (limit : Nat) :
    p.history (limit + 1) = p :: p.pass.1.history limit := by
  rw [history]
  split
  · next hpass => simp [hpass] at h
  · next hpass => rw [hpass]

theorem history_ne_nil (limit : Nat) (p : Program) : p.history limit ≠ [] := by
  unfold history
  split
  · simp
  · split <;> simp

theorem settleFrom_eq_history (passes limit : Nat) (p : Program) :
    settleFrom passes limit p =
      if (p.history limit).length ≤ limit then
        some ⟨(p.history limit).getLast (history_ne_nil limit p),
          passes + (p.history limit).length⟩
      else none := by
  induction limit generalizing passes p with
  | zero => rfl
  | succ limit ih =>
    rcases p.pass_cases with ⟨_, hnormal⟩ | ⟨hchanged, _, _⟩
    · simp [settleFrom_of_normal hnormal, history_of_normal hnormal]
    · rw [settleFrom_of_changed hchanged, ih]
      simp only [history_of_changed hchanged, List.length_cons, Nat.add_le_add_iff_right,
        List.getLast_cons (history_ne_nil limit _), Nat.add_assoc, Nat.add_comm 1]

/-- Passes settle if they leave the last program of their history unchanged within the limit; that
program is their result, and there is one pass for each program of the history. -/
theorem settle?_eq_history (limit : Nat) (p : Program) :
    p.settle? limit =
      if (p.history limit).length ≤ limit then
        some ⟨(p.history limit).getLast (history_ne_nil limit p), (p.history limit).length⟩
      else none := by
  rw [settle?, settleFrom_eq_history, Nat.zero_add]

/-- Passes settle. That the rank falls with each pass that changes something bounds their number. -/
theorem exists_settleFrom (p : Program) :
    ∃ (limit : Nat) (q : Program) (more : Nat), ∀ passes n, limit ≤ n →
      settleFrom passes n p = some ⟨q, passes + more⟩ := by
  induction p using (InvImage.wf rank wellFounded_lt).induction with
  | _ p ih =>
  rcases p.pass_cases with ⟨_, hnormal⟩ | ⟨hchanged, hsteps, _⟩
  · refine ⟨1, p, 1, fun passes n hn => ?_⟩
    obtain ⟨n, rfl⟩ := Nat.exists_eq_add_of_le' hn
    exact settleFrom_of_normal hnormal passes n
  · obtain ⟨limit, q, more, hsettle⟩ := ih p.pass.1 (rank_lt_of_transGen hsteps)
    refine ⟨limit + 1, q, more + 1, fun passes n hn => ?_⟩
    obtain ⟨n, rfl⟩ := Nat.exists_eq_add_of_le' (Nat.le_trans (Nat.le_add_left 1 limit) hn)
    rw [settleFrom_of_changed hchanged, hsettle (passes + 1) n (by omega)]
    simp only [Option.some.injEq, Settled.mk.injEq, true_and]
    omega

theorem normal_of_settleFrom {passes limit : Nat} {settled : Settled}
    (h : settleFrom passes limit p = some settled) : settled.program.Normal := by
  induction limit generalizing passes p with
  | zero => contradiction
  | succ limit ih =>
    rcases p.pass_cases with ⟨_, hnormal⟩ | ⟨hchanged, _, _⟩
    · rw [settleFrom_of_normal hnormal] at h
      cases h
      exact hnormal
    · rw [settleFrom_of_changed hchanged] at h
      exact ih h

end Program

namespace Options

variable {o : Options} {p : Program}

theorem optimize_of_settle? {settled : Program.Settled} (hlevel : o.level = .full)
    (h : p.settle? (o.maxPasses.getD p.passLimit).toNat = some settled) :
    o.optimize p = .ok ⟨settled.program, some settled.passes⟩ := by
  simp [optimize, hlevel, Level.rewritesInstrs, h]

theorem normal_of_optimize {r : Optimized} (hlevel : o.level = .full)
    (h : o.optimize p = .ok r) : r.program.Normal := by
  simp only [optimize, hlevel, Level.rewritesInstrs, if_true] at h
  split at h
  · contradiction
  · next settled hsettled =>
    cases h
    exact Program.normal_of_settleFrom hsettled

theorem optimize_of_normal (hlevel : o.level = .full)
    (hlimit : ∀ n, o.maxPasses = some n → 1 ≤ n) (h : p.Normal) :
    o.optimize p = .ok ⟨p, some 1⟩ := by
  have hpos : 1 ≤ (o.maxPasses.getD p.passLimit).toNat := by
    cases hmax : o.maxPasses with
    | none =>
      simp only [Option.getD_none, Int.toNat_natCast, Program.passLimit]
      omega
    | some n =>
      have hn := hlimit n hmax
      simp only [Option.getD_some]
      omega
  obtain ⟨limit, hlimit⟩ := Nat.exists_eq_add_of_le' hpos
  exact optimize_of_settle? hlevel (by
    rw [hlimit]
    exact Program.settleFrom_of_normal h 0 limit)

/-- With a limit that is high enough, optimisation succeeds, and its result does not depend on the
limit. -/
theorem exists_optimize (p : Program) (level : Level) :
    ∃ (limit : Nat) (q : Program), ∀ (o : Options) (n : Int), o.level = level →
      o.maxPasses = some n → limit ≤ n → ∃ passes, o.optimize p = .ok ⟨q, passes⟩ := by
  by_cases hfull : level = .full
  · obtain ⟨limit, q, passes, hsettle⟩ := p.exists_settleFrom
    refine ⟨limit, q, fun o n hlevel hmax hn => ⟨some (0 + passes), ?_⟩⟩
    refine optimize_of_settle? (hlevel.trans hfull) (hsettle 0 _ ?_)
    simp only [hmax, Option.getD_some]
    omega
  · have hrewrites : level.rewritesInstrs = false := by
      cases level with
      | full => contradiction
      | _ => rfl
    refine ⟨0, p, fun o n hlevel _ _ => ⟨none, ?_⟩⟩
    simp [optimize, hlevel, hrewrites]

end Options

namespace Program

/-- Rules cannot be applied without end, wherever and in whatever order, and none makes a program
longer. Every pass comes to its end, and so does their repetition, with a result that does not
depend on the limit, if only that is high enough. -/
theorem rewriting_ends :
    (∀ programs : Nat → Program, ∃ n, ¬ (programs n).Rewrites (programs (n + 1))) ∧
      (∀ p q : Program, p.Rewrites q → q.length ≤ p.length) ∧
      (∀ cursors : Nat → Cursor, ∃ n, ¬ (cursors n).Step (cursors (n + 1))) ∧
      (∀ p : Program, ∃ c, Relation.ReflTransGen Cursor.Step (.ofProgram p) c ∧
        c.advance? = none ∧ p.pass = (c.program, c.changed)) ∧
      ∀ (p : Program) (level : Level), ∃ (limit : Nat) (q : Program), ∀ (o : Options) (n : Int),
        o.level = level → o.maxPasses = some n → limit ≤ n →
          ∃ passes, o.optimize p = .ok ⟨q, passes⟩ := by
  refine ⟨fun programs => ?_, fun p q h => h.length_le, Cursor.exists_not_step, fun p => ?_,
    Options.exists_optimize⟩
  · obtain ⟨n, hn⟩ := WellFounded.not_rel_apply_succ (r := (· < ·)) fun n => (programs n).rank
    exact ⟨n, fun h => hn h.rank_lt⟩
  · obtain ⟨hsteps, hend⟩ := (Cursor.ofProgram p).steps_finish
    exact ⟨_, hsteps, hend, rfl⟩

/-- A pass reports no change if and only if it makes none, and if and only if no rule applies at any
position. What optimisation leaves is of this kind: a single pass more changes nothing. -/
theorem unchanged_iff_normal (p : Program) :
    (p.pass.2 = false ↔ p.pass.1 = p) ∧ (p.pass.1 = p ↔ p.Normal) ∧
      ∀ (o : Options) (r : Options.Optimized), o.level = .full → o.optimize p = .ok r →
        r.program.Normal ∧ ∀ o' : Options, o'.level = .full →
          (∀ n, o'.maxPasses = some n → 1 ≤ n) →
            o'.optimize r.program = .ok ⟨r.program, some 1⟩ := by
  have hpass : (p.pass.2 = false ↔ p.pass.1 = p) ∧ (p.pass.1 = p ↔ p.Normal) := by
    rcases p.pass_cases with ⟨hsame, hnormal⟩ | ⟨hchanged, hsteps, hnormal⟩
    · simp [hsame, hnormal]
    · -- The rewrites of one pass cannot lead back to where it began.
      have hne : p.pass.1 ≠ p := fun heq => (rank_lt_of_transGen hsteps).ne (by rw [heq])
      simp [hchanged, hne, hnormal]
  refine ⟨hpass.1, hpass.2, fun o r hlevel h => ?_⟩
  have hnormal := Options.normal_of_optimize hlevel h
  exact ⟨hnormal, fun o' hlevel' hlimit => Options.optimize_of_normal hlevel' hlimit hnormal⟩

end Program

end Brainfuck
