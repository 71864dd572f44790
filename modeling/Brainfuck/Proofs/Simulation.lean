import Brainfuck.Proofs.Execution

/-! Simulation of programs. A body is simulated by another if whatever progress of it counts is
progress of the other too. The relation passes through every construct, and through the pieces of a
program: a flat list of operations with a part replaced is simulated if the part is. `Op.Refines`
joins the two directions that are needed of an optimisation. With a modulus above zero they are the
same; without one, runs that end keep their end. -/

namespace Brainfuck

open Machine

variable {m : Int} {live : Prop} {P Q Z : Observed m → Prop}

namespace Body

/-- From observations in `P`, the progress of `b` that counts is progress of `c`. -/
def SimulatedBy (live : Prop) (P : Observed m → Prop) (b c : Body) : Prop :=
  ∀ ⦃w : Observed m⦄ ⦃r : Progress m⦄, P w → r.Counts live → b.Run w r → c.Run w r

namespace SimulatedBy

variable {b b' c d n n' : Body}

theorem refl (b : Body) : SimulatedBy live P b b := fun _ _ _ _ h => h

theorem trans (h : SimulatedBy live P b c) (h' : SimulatedBy live P c d) :
    SimulatedBy live P b d :=
  fun _ _ hw hr hb => h' hw hr (h hw hr hb)

theorem mono (h : SimulatedBy live P b c) (hPQ : ∀ w, Q w → P w) : SimulatedBy live Q b c :=
  fun w _ hw hr hb => h (hPQ w hw) hr hb

theorem step (op : Op) (h : SimulatedBy live (fun _ : Observed m => True) n n') :
    SimulatedBy live P (step op n) (step op n') := by
  intro w r _ hr hb
  rw [run_step_iff] at hb ⊢
  exact hb.imp_right fun hb => h trivial hr hb

/-- The body of a loop matters where its cell is not zero, what comes after it where it is. -/
theorem loop {offset : Int}
    (hb : SimulatedBy live (fun w : Observed m => w.tape.cell offset ≠ 0) b b')
    (hn : SimulatedBy live (fun w : Observed m => w.tape.cell offset = 0) n n') :
    SimulatedBy live P (loop offset b n) (loop offset b' n') := by
  intro w r _ hr h
  rw [run_loop_iff] at h ⊢
  obtain ⟨v, hv, h⟩ := h
  refine ⟨v, Relation.ReflTransGen.mono (fun _ _ h => ⟨h.1, hb h.1 trivial h.2⟩) _ _ hv, ?_⟩
  rcases h with ⟨hc, h⟩ | ⟨hc, events, rfl, h⟩
  · exact .inl ⟨hc, hn hc hr h⟩
  · exact .inr ⟨hc, events, rfl, hb hc hr h⟩

theorem once (hb : SimulatedBy live (fun w : Observed m => w.tape.cell 0 ≠ 0) b b')
    (hn : SimulatedBy live (fun _ : Observed m => True) n n') :
    SimulatedBy live P (once b n) (once b' n') := by
  intro w r _ hr h
  rw [run_once_iff] at h ⊢
  rcases h with ⟨hc, h⟩ | ⟨hc, ⟨events, rfl, h⟩ | ⟨u, hu, h⟩⟩
  · exact .inl ⟨hc, hn trivial hr h⟩
  · exact .inr ⟨hc, .inl ⟨events, rfl, hb hc hr h⟩⟩
  · exact .inr ⟨hc, .inr ⟨u, hb hc trivial hu, hn trivial hr h⟩⟩

theorem forall₂_trans : {bs cs ds : List Body} → List.Forall₂ (SimulatedBy live Z) bs cs →
    List.Forall₂ (SimulatedBy live Z) cs ds → List.Forall₂ (SimulatedBy live Z) bs ds
  | _, _, _, .nil, .nil => .nil
  | _, _, _, .cons h t, .cons h' t' => .cons (h.trans h') (forall₂_trans t t')

end SimulatedBy

end Body

/-- What holds of every observation with which the block that `op` opens is left. -/
def Op.Exits (op : Op) (w : Observed m) : Prop :=
  match op with
  | .loop offset => w.tape.cell offset = 0
  | _ => True

/-- The first pieces simulate from everywhere, those that come after a block from `Z`. -/
structure Pieces.SimulatedBy (live : Prop) (Z : Observed m → Prop) (p q : Pieces) : Prop where
  first : Body.SimulatedBy live (fun _ : Observed m => True) p.first q.first
  others : List.Forall₂ (Body.SimulatedBy live Z) p.others q.others

namespace Pieces.SimulatedBy

variable {p p' q r : Pieces}

theorem refl (p : Pieces) : SimulatedBy live Z p p :=
  ⟨.refl _, List.forall₂_same.mpr fun _ _ => .refl _⟩

theorem trans (h : SimulatedBy live Z p q) (h' : SimulatedBy live Z q r) :
    SimulatedBy live Z p r :=
  ⟨h.first.trans h'.first, Body.SimulatedBy.forall₂_trans h.others h'.others⟩

/-- One more operation in front of both. -/
theorem cons {op : Op} (hZ : op.isOpener = true → ∀ w, op.Exits w → Z w)
    (h : SimulatedBy live Z p q) (hp : cons? op p = some p') :
    ∃ q', cons? op q = some q' ∧ SimulatedBy live Z p' q' := by
  obtain ⟨hfirst, hothers⟩ := h
  obtain ⟨b, bs⟩ := p
  obtain ⟨c, cs⟩ := q
  rcases op.nesting_cases with rfl | ⟨offset, rfl⟩ | rfl | hop
  · cases hp
    exact ⟨_, rfl, .refl _, .cons (hfirst.mono fun _ _ => trivial) hothers⟩
  · cases hothers with
    | nil => contradiction
    | cons hnext hothers =>
      cases hp
      exact ⟨_, rfl, .loop (hfirst.mono fun _ _ => trivial) (hnext.mono (hZ rfl)), hothers⟩
  · cases hothers with
    | nil => contradiction
    | cons hnext hothers =>
      cases hp
      exact ⟨_, rfl, .once (hfirst.mono fun _ _ => trivial) (hnext.mono (hZ rfl)), hothers⟩
  · rw [cons?_plain hop] at hp ⊢
    cases hp
    exact ⟨_, rfl, hfirst.step op, hothers⟩

end Pieces.SimulatedBy

namespace Op

/-- The nesting of `xs` is simulated by that of `ys`, piece by piece. -/
def SimulatedBy (live : Prop) (Z : Observed m → Prop) (xs ys : List Op) : Prop :=
  ∀ ⦃p⦄, Pieces.ofOps? xs = some p → ∃ q, Pieces.ofOps? ys = some q ∧ p.SimulatedBy live Z q

namespace SimulatedBy

variable {xs ys zs : List Op}

theorem refl (xs : List Op) : SimulatedBy live Z xs xs := fun p hp => ⟨p, hp, .refl p⟩

theorem trans (h : SimulatedBy live Z xs ys) (h' : SimulatedBy live Z ys zs) :
    SimulatedBy live Z xs zs := by
  intro p hp
  obtain ⟨q, hq, hpq⟩ := h hp
  obtain ⟨r, hr, hqr⟩ := h' hq
  exact ⟨r, hr, hpq.trans hqr⟩

/-- The same operations before both. Where they open blocks, what comes after the blocks starts
with observations in `Z`. -/
theorem append_left {before : List Op}
    (hZ : ∀ op ∈ before, op.isOpener = true → ∀ w, op.Exits w → Z w)
    (h : SimulatedBy live Z xs ys) : SimulatedBy live Z (before ++ xs) (before ++ ys) := by
  induction before with
  | nil => exact h
  | cons op before ih =>
    intro p' hp'
    obtain ⟨p, hp, hp'⟩ := Option.bind_eq_some_iff.mp hp'
    obtain ⟨q, hq, hpq⟩ := ih (fun op hop => hZ op (by simp [hop])) hp
    obtain ⟨q', hq', hpq'⟩ := hpq.cons (hZ op (by simp)) hp'
    exact ⟨q', Option.bind_eq_some_iff.mpr ⟨q, hq, hq'⟩, hpq'⟩

theorem restrict (h : SimulatedBy live (fun _ : Observed m => True) xs ys) :
    SimulatedBy live Z xs ys := by
  intro p hp
  obtain ⟨q, hq, hpq⟩ := h hp
  exact ⟨q, hq, hpq.first, hpq.others.imp fun _ _ h => h.mono fun _ _ => trivial⟩

/-- Only the first pieces differ. -/
theorem of_first {f g : Body → Body}
    (hx : Pieces.ofOps? xs = (Pieces.ofOps? zs).map fun p => ⟨f p.first, p.others⟩)
    (hy : Pieces.ofOps? ys = (Pieces.ofOps? zs).map fun p => ⟨g p.first, p.others⟩)
    (h : ∀ n, Body.SimulatedBy live (fun _ : Observed m => True) (f n) (g n)) :
    SimulatedBy live Z xs ys := by
  intro p hp
  rw [hx] at hp
  obtain ⟨r, hr, rfl⟩ := Option.map_eq_some_iff.mp hp
  refine ⟨⟨g r.first, r.others⟩, by rw [hy, hr]; rfl, h r.first, ?_⟩
  exact List.forall₂_same.mpr fun _ _ => .refl _

end SimulatedBy

/-- Runs of `xs` that end are runs of `ys`; with a modulus above zero, `ys` shows what `xs` shows
at every moment, and nothing else. Both hold piece by piece. -/
structure Refines (Z : Observed m → Prop) (xs ys : List Op) : Prop where
  forward : SimulatedBy (0 < m) Z xs ys
  backward : 0 < m → SimulatedBy True Z ys xs

namespace Refines

variable {xs ys zs : List Op}

theorem refl (xs : List Op) : Refines Z xs xs := ⟨.refl xs, fun _ => .refl xs⟩

theorem trans (h : Refines Z xs ys) (h' : Refines Z ys zs) : Refines Z xs zs :=
  ⟨h.forward.trans h'.forward, fun hm => (h'.backward hm).trans (h.backward hm)⟩

theorem append_left {before : List Op}
    (hZ : ∀ op ∈ before, op.isOpener = true → ∀ w, op.Exits w → Z w) (h : Refines Z xs ys) :
    Refines Z (before ++ xs) (before ++ ys) :=
  ⟨h.forward.append_left hZ, fun hm => (h.backward hm).append_left hZ⟩

/-- What holds from everywhere holds from `Z`. -/
theorem restrict (h : Refines (fun _ : Observed m => True) xs ys) : Refines Z xs ys :=
  ⟨h.forward.restrict, fun hm => (h.backward hm).restrict⟩

/-- First pieces with the same runs. -/
theorem of_run_iff (f g : Body → Body) (rest : List Op)
    (hx : Pieces.ofOps? xs = (Pieces.ofOps? rest).map fun p => ⟨f p.first, p.others⟩)
    (hy : Pieces.ofOps? ys = (Pieces.ofOps? rest).map fun p => ⟨g p.first, p.others⟩)
    (h : ∀ (n : Body) (w : Observed m) (r : Progress m), (f n).Run w r ↔ (g n).Run w r) :
    Refines Z xs ys :=
  ⟨.of_first hx hy fun n w r _ _ => (h n w r).mp,
    fun _ => .of_first hy hx fun n w r _ _ => (h n w r).mpr⟩

end Refines

/-- `ys` may stand for `xs`, whatever follows. -/
structure Replaces (xs ys : List Op) : Prop where
  blockError?_eq : ∀ (depth : Nat) (rest : List Op),
    blockError? depth (xs ++ rest) = blockError? depth (ys ++ rest)
  refines : ∀ {m : Int} (rest : List Op),
    Refines (fun _ : Observed m => True) (xs ++ rest) (ys ++ rest)

theorem Replaces.refl (xs : List Op) : Replaces xs xs := ⟨fun _ _ => rfl, fun _ => .refl _⟩

theorem Replaces.refines_nil {xs ys : List Op} (h : Replaces xs ys) : Refines Z xs ys := by
  simpa using (h.refines []).restrict

theorem Replaces.blockError?_nil {xs ys : List Op} (h : Replaces xs ys) (depth : Nat) :
    blockError? depth xs = blockError? depth ys := by
  simpa using h.blockError?_eq depth []

theorem Replaces.append {xs xs' ys ys' : List Op} (h : Replaces xs ys) (h' : Replaces xs' ys') :
    Replaces (xs ++ xs') (ys ++ ys') where
  blockError?_eq depth rest := by
    rw [List.append_assoc, List.append_assoc, h.blockError?_eq]
    exact blockError?_append_congr (fun depth => h'.blockError?_eq depth rest) ys depth
  refines rest := by
    rw [List.append_assoc, List.append_assoc]
    exact (h.refines _).trans ((h'.refines rest).append_left fun _ _ _ _ _ => trivial)

/-- Straight operations that do the same. -/
structure Alike (xs ys : List Op) : Prop where
  plain_left : ∀ op ∈ xs, op.isPlain = true
  plain_right : ∀ op ∈ ys, op.isPlain = true
  act_eq : ∀ {m : Int} (w : Observed m), actAll xs w = actAll ys w

theorem Alike.symm {xs ys : List Op} (h : Alike xs ys) : Alike ys xs :=
  ⟨h.plain_right, h.plain_left, fun w => (h.act_eq w).symm⟩

theorem Alike.replaces {xs ys : List Op} (h : Alike xs ys) : Replaces xs ys where
  blockError?_eq depth rest := by
    rw [blockError?_plains h.plain_left, blockError?_plains h.plain_right]
  refines rest := by
    refine .of_run_iff _ _ rest (Pieces.ofOps?_prepend h.plain_left rest)
      (Pieces.ofOps?_prepend h.plain_right rest) fun n w r => ?_
    rw [Body.run_prepend_iff, Body.run_prepend_iff, h.act_eq]

end Op

end Brainfuck
