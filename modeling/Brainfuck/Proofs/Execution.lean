import Brainfuck.Proofs.Nesting
import Brainfuck.Proofs.Observation
import Mathlib.Data.List.Forall2
import Mathlib.Logic.Relation

/-! Structured execution. `Body.Run b w r` says how far a run of the body `b` from the observation
`w` can be watched: to its end, or up to some moment when only the events so far are known. A run
that never ends is known by its moments alone. There is no program counter: the place of a run is
the part of the derivation that is being built. What each construct does is stated once, as an
equivalence, and the other modules use these. -/

namespace Brainfuck

open Machine

variable {m : Int}

namespace Machine

/-- How far a run has been watched. -/
inductive Progress (m : Int) where
  /-- To its end. -/
  | over (w : Observed m)
  /-- To a moment when these events had happened. -/
  | sofar (events : List Event)

def Progress.events : Progress m → List Event
  | .over w => w.events
  | .sofar events => events

/-- Whether the progress of a run is compared: always at its end, before that only if `live`. -/
def Progress.Counts (live : Prop) : Progress m → Prop
  | .over _ => True
  | .sofar _ => live

end Machine

namespace Body

inductive Run : Body → Observed m → Progress m → Prop
  | pause (b : Body) (w : Observed m) : Run b w (.sofar w.events)
  | done (w : Observed m) : Run done w (.over w)
  | step {op : Op} {next : Body} {w : Observed m} {r : Progress m}
      (rest : Run next (op.act w) r) : Run (step op next) w r
  | loopSkip {offset : Int} {body next : Body} {w : Observed m} {r : Progress m}
      (zero : w.tape.cell offset = 0) (rest : Run next w r) : Run (loop offset body next) w r
  | loopInside {offset : Int} {body next : Body} {w : Observed m} {events : List Event}
      (nonzero : w.tape.cell offset ≠ 0) (inside : Run body w (.sofar events)) :
      Run (loop offset body next) w (.sofar events)
  | loopAgain {offset : Int} {body next : Body} {w u : Observed m} {r : Progress m}
      (nonzero : w.tape.cell offset ≠ 0) (once : Run body w (.over u))
      (again : Run (loop offset body next) u r) : Run (loop offset body next) w r
  | onceSkip {body next : Body} {w : Observed m} {r : Progress m}
      (zero : w.tape.cell 0 = 0) (rest : Run next w r) : Run (once body next) w r
  | onceInside {body next : Body} {w : Observed m} {events : List Event}
      (nonzero : w.tape.cell 0 ≠ 0) (inside : Run body w (.sofar events)) :
      Run (once body next) w (.sofar events)
  | onceAfter {body next : Body} {w u : Observed m} {r : Progress m}
      (nonzero : w.tape.cell 0 ≠ 0) (whole : Run body w (.over u)) (rest : Run next u r) :
      Run (once body next) w r

theorem run_done_iff {w : Observed m} {r : Progress m} :
    Run done w r ↔ r = .over w ∨ r = .sofar w.events := by
  constructor
  · intro h
    cases h with
    | pause => exact .inr rfl
    | done => exact .inl rfl
  · rintro (rfl | rfl)
    · exact .done w
    · exact .pause _ w

theorem run_step_iff {op : Op} {next : Body} {w : Observed m} {r : Progress m} :
    Run (step op next) w r ↔ r = .sofar w.events ∨ Run next (op.act w) r := by
  constructor
  · intro h
    cases h with
    | pause => exact .inl rfl
    | step rest => exact .inr rest
  · rintro (rfl | h)
    · exact .pause _ w
    · exact .step h

theorem Run.events_prefix {b : Body} {w : Observed m} {r : Progress m} (h : Run b w r) :
    w.events <+: r.events := by
  induction h with
  | pause | done => exact List.prefix_refl _
  | step rest ih => exact (Op.events_prefix_act _ _).trans ih
  | loopSkip _ _ ih | onceSkip _ _ ih | loopInside _ _ ih | onceInside _ _ ih => exact ih
  | loopAgain _ _ _ ih ih' | onceAfter _ _ _ ih ih' => exact ih.trans ih'

/-- A whole round of a loop: the cell is not zero, and the body runs to its end. -/
def Round (offset : Int) (body : Body) (w u : Observed m) : Prop :=
  w.tape.cell offset ≠ 0 ∧ Run body w (.over u)

/-- Any number of whole rounds. -/
abbrev Rounds (offset : Int) (body : Body) : Observed m → Observed m → Prop :=
  Relation.ReflTransGen (Round offset body)

/-- A run of a loop makes whole rounds, and then leaves the loop or is inside the body. -/
theorem run_loop_iff {offset : Int} {body next : Body} {w : Observed m} {r : Progress m} :
    Run (loop offset body next) w r ↔
      ∃ v, Rounds offset body w v ∧
        (v.tape.cell offset = 0 ∧ Run next v r ∨
          v.tape.cell offset ≠ 0 ∧ ∃ events, r = .sofar events ∧ Run body v r) := by
  constructor
  · intro h
    generalize hb : loop offset body next = b at h
    induction h with
    | pause b w =>
      refine ⟨w, .refl, ?_⟩
      by_cases hc : w.tape.cell offset = 0
      · exact .inl ⟨hc, .pause next w⟩
      · exact .inr ⟨hc, w.events, rfl, .pause body w⟩
    | loopSkip zero rest =>
      cases hb
      exact ⟨_, .refl, .inl ⟨zero, rest⟩⟩
    | loopInside nonzero inside =>
      cases hb
      exact ⟨_, .refl, .inr ⟨nonzero, _, rfl, inside⟩⟩
    | loopAgain nonzero once again _ ih =>
      cases hb
      obtain ⟨v, hv, h⟩ := ih rfl
      exact ⟨v, .head ⟨nonzero, once⟩ hv, h⟩
    | _ => cases hb
  · rintro ⟨v, hv, h⟩
    induction hv using Relation.ReflTransGen.head_induction_on with
    | refl =>
      rcases h with ⟨hc, h⟩ | ⟨hc, events, rfl, h⟩
      · exact .loopSkip hc h
      · exact .loopInside hc h
    | head hwu _ ih => exact .loopAgain hwu.1 hwu.2 ih

theorem run_once_iff {body next : Body} {w : Observed m} {r : Progress m} :
    Run (once body next) w r ↔
      w.tape.cell 0 = 0 ∧ Run next w r ∨
        w.tape.cell 0 ≠ 0 ∧ ((∃ events, r = .sofar events ∧ Run body w r) ∨
          ∃ u, Run body w (.over u) ∧ Run next u r) := by
  constructor
  · intro h
    cases h with
    | pause =>
      by_cases hc : w.tape.cell 0 = 0
      · exact .inl ⟨hc, .pause next w⟩
      · exact .inr ⟨hc, .inl ⟨w.events, rfl, .pause body w⟩⟩
    | onceSkip zero rest => exact .inl ⟨zero, rest⟩
    | onceInside nonzero inside => exact .inr ⟨nonzero, .inl ⟨_, rfl, inside⟩⟩
    | onceAfter nonzero whole rest => exact .inr ⟨nonzero, .inr ⟨_, whole, rest⟩⟩
  · rintro (⟨hc, h⟩ | ⟨hc, ⟨events, rfl, h⟩ | ⟨u, hu, h⟩⟩)
    · exact .onceSkip hc h
    · exact .onceInside hc h
    · exact .onceAfter hc hu h

/-- Two bodies in a row: the run is still in the first, or has gone through it. -/
theorem run_append_iff {b c : Body} {w : Observed m} {r : Progress m} :
    Run (b.append c) w r ↔
      (∃ events, r = .sofar events ∧ Run b w r) ∨ ∃ u, Run b w (.over u) ∧ Run c u r := by
  induction b generalizing w with
  | done =>
    simp only [append, run_done_iff]
    grind [Run.pause]
  | step op next ih =>
    simp only [append, run_step_iff, ih]
    grind
  | loop offset body next _ ih =>
    simp only [append, run_loop_iff, ih]
    grind
  | once body next _ ih =>
    simp only [append, run_once_iff, ih]
    grind

/-- The end of a run is a moment of it. -/
theorem Run.last {b : Body} {w u : Observed m} (h : Run b w (.over u)) :
    Run b w (.sofar u.events) := by
  rw [← append_done b, run_append_iff]
  exact .inr ⟨u, h, .pause _ u⟩

/-- The events at a moment of straight operations lie between those before and after them. -/
theorem run_prepend_iff {ops : List Op} {b : Body} {w : Observed m} {r : Progress m} :
    Run (prepend ops b) w r ↔
      (∃ events, r = .sofar events ∧ w.events <+: events ∧
        events <+: (Op.actAll ops w).events) ∨ Run b (Op.actAll ops w) r := by
  induction ops generalizing w with
  | nil =>
    simp only [prepend_nil, Op.actAll_nil, iff_or_self]
    rintro ⟨events, rfl, h, h'⟩
    rw [← h.eq_of_length_le h'.length_le]
    exact .pause b w
  | cons op ops ih =>
    simp only [prepend_cons, run_step_iff, ih, Op.actAll_cons, ← or_assoc]
    refine or_congr_left ⟨?_, ?_⟩
    · rintro (rfl | ⟨events, rfl, h, h'⟩)
      · exact ⟨_, rfl, List.prefix_refl _,
          (op.events_prefix_act w).trans (Op.events_prefix_actAll ops _)⟩
      · exact ⟨events, rfl, (op.events_prefix_act w).trans h, h'⟩
    · rintro ⟨events, rfl, h, h'⟩
      have hall := Op.events_prefix_actAll ops (op.act w)
      rcases List.prefix_or_prefix_of_prefix hall h' with ha | ha
      · exact .inr ⟨events, rfl, ha, h'⟩
      · rcases op.eq_or_eq_of_prefix_act h ha with rfl | rfl
        · exact .inl rfl
        · exact .inr ⟨_, rfl, List.prefix_refl _, h'⟩

end Body

end Brainfuck
