import Brainfuck.Proofs.Simplification

/-! The normal form of a text. Parts of a text may be replaced in any order and at any place, and
one replacement can make room for another to its left. Still they all lead to the same text: two
replacements that overlap give the same text, or are one step apart from it. `simplify` finds this
text, because a sweep that changes nothing has looked at every place. -/

namespace Brainfuck.Source

open Relation (ReflGen)

/-- The parts of a text that may be replaced. -/
def replaceable : List (List Char) :=
  [['<', '>'], ['>', '<'], ['+', '-'], ['-', '+'], ['[', '-', ']'], ['[', '+', ']'], ['0', '0'],
    [']', '0']]

/-- No part of the text may be replaced. -/
def IsSimple (text : List Char) : Prop := ∀ part ∈ replaceable, ¬ part <:+: text

instance (text : List Char) : Decidable (IsSimple text) :=
  inferInstanceAs (Decidable (∀ part ∈ replaceable, ¬ part <:+: text))

theorem Shortens.mem_replaceable {xs ys : List Char} (h : Shortens xs ys) : xs ∈ replaceable := by
  cases h <;> simp [replaceable]

theorem IsSimple.not_simplifies {text text' : List Char} (h : IsSimple text) :
    ¬ Simplifies text text' := by
  rintro ⟨before, hshorter, after⟩
  refine h _ hshorter.mem_replaceable ⟨before, after, ?_⟩
  rw [List.append_assoc]

/-! ### Replacements commute -/

theorem Simplifies.append_left {text text' : List Char} (h : Simplifies text text')
    (before : List Char) : Simplifies (before ++ text) (before ++ text') := by
  obtain ⟨inner, hshorter, after⟩ := h
  simpa using Simplifies.apply (before ++ inner) hshorter after

theorem Simplifies.append_right {text text' : List Char} (h : Simplifies text text')
    (after : List Char) : Simplifies (text ++ after) (text' ++ after) := by
  obtain ⟨before, hshorter, inner⟩ := h
  simpa using Simplifies.apply before hshorter (inner ++ after)

theorem SimplifiesTo.append {xs xs' ys ys' : List Char} (hx : SimplifiesTo xs xs')
    (hy : SimplifiesTo ys ys') : SimplifiesTo (xs ++ ys) (xs' ++ ys') :=
  (hx.lift (· ++ ys) fun _ _ h => h.append_right ys).trans
    (hy.lift (xs' ++ ·) fun _ _ h => h.append_left xs')

/-- Two parts that overlap can be replaced to the same effect, except where a loop that clears a
cell is followed by a clear mark. -/
theorem Shortens.overlap {xs ys xs' ys' mid after after' : List Char} (h : Shortens xs ys)
    (h' : Shortens xs' ys') (heq : xs ++ after = mid ++ (xs' ++ after'))
    (hmid : mid.length < xs.length) :
    ys ++ after = mid ++ (ys' ++ after') ∨
      ys = ['0'] ∧ after = '0' :: after' ∧ mid ++ (ys' ++ after') = xs ++ after' := by
  rcases mid with _ | ⟨c, _ | ⟨d, _ | ⟨e, mid⟩⟩⟩
  · cases h <;> cases h' <;> simp_all
  · cases h <;> cases h' <;> simp_all <;> grind
  · cases h <;> cases h' <;> simp_all <;> exact ⟨heq.1.symm, heq.2.1.symm⟩
  · cases h <;> simp at hmid <;> omega

/-- Both texts become the same in at most one step. -/
def Joins (text text' : List Char) : Prop :=
  ∃ common, ReflGen Simplifies text common ∧ ReflGen Simplifies text' common

theorem Joins.symm {text text' : List Char} (h : Joins text text') : Joins text' text :=
  let ⟨common, h, h'⟩ := h
  ⟨common, h', h⟩

theorem Joins.append_left {text text' : List Char} (h : Joins text text') (before : List Char) :
    Joins (before ++ text) (before ++ text') := by
  have hstep : ∀ {xs ys}, ReflGen Simplifies xs ys →
      ReflGen Simplifies (before ++ xs) (before ++ ys) := by
    rintro xs _ (_ | h)
    · exact .refl
    · exact .single (h.append_left before)
  obtain ⟨common, h, h'⟩ := h
  exact ⟨before ++ common, hstep h, hstep h'⟩

/-- A part at the start of the text, and another that does not start before it. -/
theorem Shortens.joins {xs ys xs' ys' mid after after' : List Char} (h : Shortens xs ys)
    (h' : Shortens xs' ys') (heq : xs ++ after = mid ++ (xs' ++ after')) :
    Joins (ys ++ after) (mid ++ (ys' ++ after')) := by
  by_cases hmid : mid.length < xs.length
  · rcases h.overlap h' heq hmid with heq' | ⟨rfl, rfl, hright⟩
    · exact ⟨_, .refl, heq' ▸ .refl⟩
    · refine ⟨['0'] ++ after', .single ?_, .single ?_⟩
      · exact .apply [] .clearTwice after'
      · rw [hright]
        exact .apply [] h after'
  · -- The parts lie apart, and each can be replaced after the other.
    obtain ⟨gap, rfl⟩ : xs <+: mid :=
      List.prefix_of_prefix_length_le ⟨after, heq⟩ (List.prefix_append mid _) (by omega)
    obtain rfl : after = gap ++ (xs' ++ after') := by simpa using heq
    refine ⟨ys ++ (gap ++ (ys' ++ after')), .single ?_, .single ?_⟩
    · simpa using Simplifies.apply (ys ++ gap) h' after'
    · simpa using Simplifies.apply [] h (gap ++ (ys' ++ after'))

theorem Simplifies.joins {text xs ys : List Char} (hx : Simplifies text xs)
    (hy : Simplifies text ys) : Joins xs ys := by
  generalize htext : text = text' at hy
  obtain ⟨before, h, after⟩ := hx
  obtain ⟨before', h', after'⟩ := hy
  rcases List.append_eq_append_iff.mp htext with ⟨mid, rfl, heq⟩ | ⟨mid, rfl, heq⟩
  · rw [List.append_assoc]
    exact (h.joins h' heq).append_left before
  · rw [List.append_assoc]
    exact (h'.joins h heq).symm.append_left before'

/-- The order of replacements does not matter. -/
theorem SimplifiesTo.confluent {text xs ys : List Char} (hx : SimplifiesTo text xs)
    (hy : SimplifiesTo text ys) : ∃ common, SimplifiesTo xs common ∧ SimplifiesTo ys common := by
  refine Relation.church_rosser (fun _ _ _ hb hc => ?_) hx hy
  obtain ⟨common, h, h'⟩ := hb.joins hc
  exact ⟨common, h, h'.to_reflTransGen⟩

theorem IsSimple.eq_of_simplifiesTo {text text' : List Char} (h : IsSimple text)
    (hto : SimplifiesTo text text') : text' = text := by
  rcases hto.cases_head with heq | ⟨next, hnext, _⟩
  · exact heq.symm
  · exact absurd hnext h.not_simplifies

/-! ### Sweeps find the normal form -/

theorem isSimple_nil : IsSimple [] := by decide

theorem isSimple_cons {c : Char} {rest : List Char} (hrest : IsSimple rest)
    (h : ∀ part ∈ replaceable, ∀ after, c :: rest ≠ part ++ after) : IsSimple (c :: rest) := by
  intro part hpart hinfix
  rcases List.infix_cons_iff.mp hinfix with ⟨after, heq⟩ | hinfix
  · exact h part hpart after heq.symm
  · exact hrest part hpart hinfix

/-- A sweep that changes nothing has met no part that may be replaced, and no clear mark right after
a loop. -/
theorem isSimple_of_sweep_eq {last : Option Char} {text : List Char} (h : sweep last text = text) :
    IsSimple text ∧ (last = some ']' → text.head? ≠ some '0') := by
  fun_induction sweep last text with
  | case1 last rest ih | case2 last rest ih | case3 last rest ih | case4 last rest ih
  | case5 last rest ih | case6 last rest ih | case7 last rest _ ih | case8 rest _ ih =>
    -- The text written is too short.
    have hlength := congrArg List.length h
    grind [length_sweep_le]
  | case9 last rest hhead hlast ih =>
    obtain ⟨hrest, _⟩ := ih (List.cons.inj h).2
    refine ⟨isSimple_cons hrest fun part hpart after heq => ?_, fun hl => absurd hl hlast⟩
    simp only [replaceable, List.mem_cons, List.not_mem_nil, or_false] at hpart
    rcases hpart with rfl | rfl | rfl | rfl | rfl | rfl | rfl | rfl <;> cases heq
    exact hhead rfl
  | case10 last c rest hlr hrl hud hdu hdown hup hclear ih =>
    obtain ⟨hrest, hafter⟩ := ih (List.cons.inj h).2
    refine ⟨isSimple_cons hrest fun part hpart after heq => ?_,
      fun _ hc => hclear (by simpa using hc)⟩
    simp only [replaceable, List.mem_cons, List.not_mem_nil, or_false] at hpart
    rcases hpart with rfl | rfl | rfl | rfl | rfl | rfl | rfl | rfl <;> cases heq
    · exact hlr after rfl rfl
    · exact hrl after rfl rfl
    · exact hud after rfl rfl
    · exact hdu after rfl rfl
    · exact hdown after rfl rfl
    · exact hup after rfl rfl
    · exact hclear rfl
    · exact hafter rfl rfl
  | case11 last => exact ⟨isSimple_nil, by simp⟩

/-- `simplify` ends with a sweep that changes nothing, and each sweep before has made the text
shorter. -/
theorem exists_iterate_sweep (text : List Char) :
    ∃ n, (sweep none)^[n] text = simplify text ∧ n + (simplify text).length ≤ text.length ∧
      sweep none (simplify text) = simplify text := by
  fun_induction simplify text with
  | case1 text h => exact ⟨0, rfl, by omega, h⟩
  | case2 text h ih =>
    obtain ⟨n, hn, hlength, hfixed⟩ := ih
    have hshorter := length_sweep_lt h
    exact ⟨n + 1, hn, by omega, hfixed⟩

theorem isSimple_simplify (text : List Char) : IsSimple (simplify text) :=
  let ⟨_, _, _, hfixed⟩ := exists_iterate_sweep text
  (isSimple_of_sweep_eq hfixed).1

theorem eq_simplify_of_isSimple {text text' : List Char} (h : SimplifiesTo text text')
    (hsimple : IsSimple text') : text' = simplify text := by
  obtain ⟨common, hleft, hright⟩ := h.confluent (simplifiesTo_simplify text)
  rw [← hsimple.eq_of_simplifiesTo hleft, ← (isSimple_simplify text).eq_of_simplifiesTo hright]

theorem simplify_eq_of_simplifiesTo {text text' : List Char} (h : SimplifiesTo text text') :
    simplify text' = simplify text :=
  eq_simplify_of_isSimple (h.trans (simplifiesTo_simplify text')) (isSimple_simplify text')

/-- After at most as many sweeps as the text is long, nothing changes any more. What `simplify`
gives then has no part that may be replaced, and every way of replacing parts until there is none
ends with it. Simplifying it again changes nothing, and a text may be simplified in two halves
first. -/
theorem simplify_unique_normal_form (text : List Char) :
    (∃ n ≤ text.length, (sweep none)^[n] text = simplify text ∧
      sweep none (simplify text) = simplify text) ∧
    IsSimple (simplify text) ∧ SimplifiesTo text (simplify text) ∧
    (∀ text', SimplifiesTo text text' → IsSimple text' → text' = simplify text) ∧
    simplify (simplify text) = simplify text ∧
    ∀ more, simplify (text ++ more) = simplify (simplify text ++ simplify more) := by
  obtain ⟨n, hn, hlength, hfixed⟩ := exists_iterate_sweep text
  refine ⟨⟨n, by omega, hn, hfixed⟩, isSimple_simplify text, simplifiesTo_simplify text,
    fun _ => eq_simplify_of_isSimple, ?_, fun more => ?_⟩
  · exact simplify_eq_of_simplifiesTo (simplifiesTo_simplify text)
  · have hhalves := (simplifiesTo_simplify text).append (simplifiesTo_simplify more)
    exact (simplify_eq_of_simplifiesTo hhalves).symm

end Brainfuck.Source
