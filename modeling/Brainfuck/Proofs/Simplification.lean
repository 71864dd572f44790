import Brainfuck.Source.Simplify
import Brainfuck.Proofs.Lowering
import Brainfuck.Proofs.Rules.Loops

/-! Textual simplification replaces parts of the text by shorter ones. Most replacements are good in
every place. A clear mark after a loop may be dropped because a loop in a text is left only with
zero in the current cell, so `Source.Simplifies` refines programs whose blocks are of this kind. -/

namespace Brainfuck

open Machine

variable {m : Int}

/-- The current cell holds zero. -/
def Machine.Observed.Cleared (w : Observed m) : Prop := w.tape.cell 0 = 0

namespace Source

/-- What a part of a text may be replaced by. -/
inductive Shortens : List Char → List Char → Prop
  | leftRight : Shortens ['<', '>'] []
  | rightLeft : Shortens ['>', '<'] []
  | upDown : Shortens ['+', '-'] []
  | downUp : Shortens ['-', '+'] []
  | countDown : Shortens ['[', '-', ']'] ['0']
  | countUp : Shortens ['[', '+', ']'] ['0']
  | clearTwice : Shortens ['0', '0'] ['0']
  | clearAfterLoop : Shortens [']', '0'] [']']

/-- A part of the text is replaced. -/
inductive Simplifies : List Char → List Char → Prop
  | apply (before : List Char) {xs ys : List Char} (h : Shortens xs ys) (after : List Char) :
      Simplifies (before ++ (xs ++ after)) (before ++ (ys ++ after))

/-- Any number of parts are replaced. -/
abbrev SimplifiesTo : List Char → List Char → Prop := Relation.ReflTransGen Simplifies

theorem simplifiesTo_kept {written rest rest' : List Char} {c : Char}
    (h : SimplifiesTo (written ++ [c] ++ rest) (written ++ [c] ++ rest')) :
    SimplifiesTo (written ++ c :: rest) (written ++ c :: rest') := by
  simpa using h

/-- A sweep replaces parts of the text. What was written before matters only if it ends in a closing
bracket. -/
theorem simplifiesTo_sweep (text : List Char) {last : Option Char} {written : List Char}
    (hlast : last = some ']' → ∃ before, written = before ++ [']']) :
    SimplifiesTo (written ++ text) (written ++ sweep last text) := by
  fun_induction sweep last text generalizing written with
  | case1 last rest ih => exact .head (.apply written .leftRight rest) (ih hlast)
  | case2 last rest ih => exact .head (.apply written .rightLeft rest) (ih hlast)
  | case3 last rest ih => exact .head (.apply written .upDown rest) (ih hlast)
  | case4 last rest ih => exact .head (.apply written .downUp rest) (ih hlast)
  | case5 last rest ih =>
    exact .head (.apply written .countDown rest) (simplifiesTo_kept (ih (by simp)))
  | case6 last rest ih =>
    exact .head (.apply written .countUp rest) (simplifiesTo_kept (ih (by simp)))
  | case7 last rest h ih =>
    obtain ⟨rest, rfl⟩ : ∃ rest', rest = '0' :: rest' := by
      cases rest with
      | nil => contradiction
      | cons c rest' => exact ⟨rest', by simpa using h⟩
    exact .head (.apply written .clearTwice rest) (ih hlast)
  | case8 rest _ ih =>
    refine .head ?_ (ih hlast)
    obtain ⟨before, rfl⟩ := hlast rfl
    simpa using Simplifies.apply before .clearAfterLoop rest
  | case9 last rest _ _ ih => exact simplifiesTo_kept (ih (by simp))
  | case10 last c rest _ _ _ _ _ _ _ ih =>
    refine simplifiesTo_kept (ih ?_)
    rintro ⟨⟩
    exact ⟨written, rfl⟩
  | case11 last => exact .refl

theorem simplifiesTo_simplify (text : List Char) : SimplifiesTo text (simplify text) := by
  fun_induction simplify text with
  | case1 text h => exact .refl
  | case2 text h ih =>
    have hsweep : SimplifiesTo ([] ++ text) ([] ++ sweep none text) :=
      simplifiesTo_sweep text (nofun)
    exact hsweep.trans ih

end Source

namespace Op

theorem alike_moves_undone {way way' : Direction}
    (h : way.displacement 1 + way'.displacement 1 = 0) : Alike [move way 1, move way' 1] [] := by
  refine ⟨by simp, by simp, fun w => ?_⟩
  simp [Observed.move, Tape.move_move, h, Tape.move_zero]

theorem alike_adjusts_undone {sign sign' : Sign} (h : sign.change 1 + sign'.change 1 = 0) :
    Alike [adjust sign 1 0, adjust sign' 1 0] [] := by
  refine ⟨by simp, by simp, fun w => ?_⟩
  simp only [actAll_cons, actAll_nil, act_adjust, Tape.put_cell_add, Int.add_assoc, h,
    Int.add_zero]
  rw [Tape.put_eq_self _ rfl]

theorem alike_clearTwice : Alike [assign 0 0, assign 0 0] [assign 0 0] :=
  ⟨by simp, by simp, fun w => by simp [Tape.put_put]⟩

/-- Counting down to zero, or up to zero, clears the cell. -/
theorem replaces_count (sign : Sign) :
    Replaces [loop 0, adjust sign 1 0, close] [assign 0 0] := by
  have hunit : sign.change 1 * sign.change 1 = 1 := by
    cases sign <;> rfl
  have hbody : ∀ {m : Int} (w : Observed m), w.Gains (actAll [adjust sign 1 0] w)
      fun k => if k = 0 then sign.change 1 else 0 := by
    intro m w
    simpa using Observed.Gains.put w 0 (sign.change 1)
  show Replaces (loop 0 :: ([adjust sign 1 0] ++ [close])) _
  refine .of_counting_loop (e := -sign.change 1) (by rwa [Int.neg_mul_neg]) (by simp) (by simp)
    (by simp) hbody fun w => (Observed.Gains.clear w 0).congr fun k => ?_
  by_cases hk : k = 0
  · rw [if_pos hk, if_pos hk, Int.neg_mul, Int.mul_neg, ← Int.mul_assoc, hunit, Int.one_mul]
  · rw [if_neg hk, if_neg hk, Int.zero_mul]

/-- A clear mark where the cell is clear changes nothing. -/
theorem refines_clearAfterLoop (rest : List Op) :
    Refines (Observed.Cleared (m := m)) (close :: assign 0 0 :: rest) (close :: rest) := by
  have hrun : ∀ {b : Body} {w : Observed m} {r : Progress m}, w.Cleared →
      ((Body.step (assign 0 0) b).Run w r ↔ b.Run w r) := by
    intro b w r hw
    have hact : (assign 0 0).act w = w := by
      rw [act_assign, Tape.put_eq_self _ (by rw [hw])]
    rw [Body.run_step_iff, hact]
    refine ⟨?_, .inr⟩
    rintro (rfl | h)
    · exact .pause b w
    · exact h
  have hx : Pieces.ofOps? (close :: assign 0 0 :: rest) = (Pieces.ofOps? rest).map fun p =>
      ⟨.done, .step (assign 0 0) p.first :: p.others⟩ := by
    rw [Pieces.ofOps?, Pieces.ofOps?]
    cases Pieces.ofOps? rest <;> rfl
  have hy : Pieces.ofOps? (close :: rest) = (Pieces.ofOps? rest).map fun p =>
      ⟨.done, p.first :: p.others⟩ := by
    rw [Pieces.ofOps?]
    cases Pieces.ofOps? rest <;> rfl
  refine ⟨fun p hp => ?_, fun _ p hp => ?_⟩
  · rw [hx] at hp
    obtain ⟨q, hq, rfl⟩ := Option.map_eq_some_iff.mp hp
    refine ⟨⟨.done, q.first :: q.others⟩, by rw [hy, hq]; rfl, .refl _, .cons ?_ ?_⟩
    · exact fun w r hw _ => (hrun hw).mp
    · exact List.forall₂_same.mpr fun _ _ => .refl _
  · rw [hy] at hp
    obtain ⟨q, hq, rfl⟩ := Option.map_eq_some_iff.mp hp
    refine ⟨⟨.done, .step (assign 0 0) q.first :: q.others⟩, by rw [hx, hq]; rfl, .refl _,
      .cons ?_ ?_⟩
    · exact fun w r hw _ => (hrun hw).mpr
    · exact List.forall₂_same.mpr fun _ _ => .refl _

end Op

namespace Source

theorem Shortens.blockError?_eq {xs ys : List Char} (h : Shortens xs ys) (depth : Nat)
    (rest : List Op) :
    Op.blockError? depth (Op.ofChars xs ++ rest) =
      Op.blockError? depth (Op.ofChars ys ++ rest) := by
  cases h with
  | clearAfterLoop => cases depth <;> rfl
  | _ => rfl

theorem Shortens.refines {xs ys : List Char} (h : Shortens xs ys) (rest : List Op) :
    Op.Refines (Observed.Cleared (m := m)) (Op.ofChars xs ++ rest) (Op.ofChars ys ++ rest) := by
  cases h with
  | leftRight | rightLeft => exact ((Op.alike_moves_undone rfl).replaces.refines rest).restrict
  | upDown | downUp => exact ((Op.alike_adjusts_undone rfl).replaces.refines rest).restrict
  | countDown => exact ((Op.replaces_count .minus).refines rest).restrict
  | countUp => exact ((Op.replaces_count .plus).refines rest).restrict
  | clearTwice => exact (Op.alike_clearTwice.replaces.refines rest).restrict
  | clearAfterLoop => exact Op.refines_clearAfterLoop rest

theorem SimplifiesTo.blockError?_eq {text text' : List Char} (h : SimplifiesTo text text')
    (depth : Nat) :
    Op.blockError? depth (Op.ofChars text) = Op.blockError? depth (Op.ofChars text') := by
  induction h with
  | refl => rfl
  | tail _ h ih =>
    obtain ⟨before, h, after⟩ := h
    rw [ih]
    simp only [Op.ofChars_append]
    exact Op.blockError?_append_congr (fun depth => h.blockError?_eq depth _) _ depth

theorem SimplifiesTo.refines {text text' : List Char} (h : SimplifiesTo text text') :
    Op.Refines (Observed.Cleared (m := m)) (Op.ofChars text) (Op.ofChars text') := by
  induction h with
  | refl => exact .refl _
  | tail _ h ih =>
    obtain ⟨before, h, after⟩ := h
    refine ih.trans ?_
    simp only [Op.ofChars_append]
    refine (h.refines _).append_left fun op hop hopen w hw => ?_
    rw [Op.eq_loop_of_mem_ofChars hop hopen] at hw
    exact hw

end Source

end Brainfuck
