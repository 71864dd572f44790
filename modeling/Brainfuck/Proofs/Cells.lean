import Brainfuck.Tape
import Mathlib.Data.Int.ModEq
import Mathlib.Tactic.Ring

/-! Laws of the cells: values that are stored count only up to the modulus, stores to different
cells commute, a store hides an earlier one to its cell, and a pointer movement shifts the offsets
of what comes after it. -/

namespace Brainfuck

/-- Two values leave the same remainder if they differ by a multiple of the modulus. -/
theorem wrap_eq_of_modEq {m a b : Int} (h : a ≡ b [ZMOD m]) : wrap m a = wrap m b := by
  obtain ⟨k, hk⟩ := h.dvd
  obtain rfl : b = a + m * k := by omega
  exact (Int.add_mul_fmod_self_left a m k).symm

/-- A value and its remainder differ by a multiple of the modulus. -/
theorem wrap_modEq (m a : Int) : wrap m a ≡ a [ZMOD m] := by
  refine Int.modEq_iff_dvd.mpr ⟨Int.fdiv a m, ?_⟩
  rw [wrap, Int.fmod_def]
  ring

@[simp] theorem wrap_wrap_add (m a b : Int) : wrap m (wrap m a + b) = wrap m (a + b) :=
  wrap_eq_of_modEq ((wrap_modEq m a).add_right b)

theorem wrap_nonneg {m : Int} (hm : 0 < m) (a : Int) : 0 ≤ wrap m a := by
  rw [wrap, Int.fmod_eq_emod_of_nonneg _ hm.le]
  exact Int.emod_nonneg a hm.ne'

theorem wrap_lt {m : Int} (hm : 0 < m) (a : Int) : wrap m a < m := by
  rw [wrap, Int.fmod_eq_emod_of_nonneg _ hm.le]
  exact Int.emod_lt_of_pos a hm

theorem wrap_eq_self {m a : Int} (h0 : 0 ≤ a) (h1 : a < m) : wrap m a = a := by
  rw [wrap, Int.fmod_eq_emod_of_nonneg _ (by omega), Int.emod_eq_of_lt h0 h1]

namespace Tape

variable {m : Int}

theorem ptr_put (t : Tape m) (k v : Int) : (t.put k v).ptr = t.ptr := ptr_set ..

theorem cell_put (t : Tape m) (j k v : Int) :
    (t.put j v).cell k = if j = k then wrap m v else t.cell k := by
  simp only [put, cell, ptr_set, get_set]
  by_cases h : j = k
  · simp [h]
  · rw [if_neg h, if_neg (by omega)]

@[simp] theorem cell_put_same (t : Tape m) (k v : Int) : (t.put k v).cell k = wrap m v := by
  rw [cell_put, if_pos rfl]

theorem cell_put_ne (t : Tape m) {j k : Int} (v : Int) (h : j ≠ k) :
    (t.put j v).cell k = t.cell k := by
  rw [cell_put, if_neg h]

@[simp] theorem wrap_cell (t : Tape m) (k : Int) : wrap m (t.cell k) = t.cell k := wrap_get ..

/-- Tapes with the same pointer are equal if they agree on the cell at every offset from it. -/
theorem ext_cell {t u : Tape m} (hp : t.ptr = u.ptr) (hc : ∀ k, t.cell k = u.cell k) : t = u := by
  refine Tape.ext hp fun i => ?_
  have h := hc (i - t.ptr)
  simp only [cell, ← hp] at h
  rwa [show t.ptr + (i - t.ptr) = i by omega] at h

/-- Only the remainder of the value stored counts. -/
theorem put_congr (t : Tape m) (k : Int) {v w : Int} (h : v ≡ w [ZMOD m]) :
    t.put k v = t.put k w := by
  refine ext_cell (by simp only [ptr_put]) fun j => ?_
  rw [cell_put, cell_put, wrap_eq_of_modEq h]

/-- A store is hidden by the next one to the same cell. -/
theorem put_put (t : Tape m) (k v w : Int) : (t.put k v).put k w = t.put k w := by
  refine ext_cell (by simp only [ptr_put]) fun j => ?_
  by_cases h : k = j
  · rw [h, cell_put_same, cell_put_same]
  · rw [cell_put_ne _ _ h, cell_put_ne _ _ h, cell_put_ne _ _ h]

/-- A change of a value just stored is a change of what is stored. -/
theorem put_cell_add (t : Tape m) (k v change : Int) :
    (t.put k v).put k ((t.put k v).cell k + change) = t.put k (v + change) := by
  rw [put_put, cell_put_same]
  exact put_congr t k ((wrap_modEq m v).add_right change)

theorem put_comm (t : Tape m) {j k : Int} (v w : Int) (h : j ≠ k) :
    (t.put j v).put k w = (t.put k w).put j v := by
  refine ext_cell (by simp only [ptr_put]) fun i => ?_
  by_cases hj : j = i
  · rw [cell_put_ne _ _ (by omega), hj, cell_put_same, cell_put_same]
  · rw [cell_put_ne (t.put k w) _ hj, cell_put, cell_put, if_neg hj, cell_put]

/-- Storing what a cell holds changes nothing. -/
theorem put_eq_self (t : Tape m) {k v : Int} (h : v ≡ t.cell k [ZMOD m]) : t.put k v = t := by
  refine ext_cell (ptr_put ..) fun j => ?_
  by_cases hj : k = j
  · subst hj
    rw [cell_put_same, wrap_eq_of_modEq h, wrap_cell]
  · exact cell_put_ne _ _ hj

theorem cell_move (t : Tape m) (d k : Int) : (t.move d).cell k = t.cell (k + d) := by
  show t.get (t.ptr + d + k) = t.get (t.ptr + (k + d))
  rw [show t.ptr + d + k = t.ptr + (k + d) by omega]

theorem move_move (t : Tape m) (d e : Int) : (t.move d).move e = t.move (d + e) := by
  simp only [move, Tape.mk.injEq, and_true]
  omega

theorem move_zero (t : Tape m) : t.move 0 = t := by
  simp [move]

/-- A store after a movement is a store farther away before it. -/
theorem put_move (t : Tape m) (d k v : Int) : (t.move d).put k v = (t.put (k + d) v).move d := by
  refine ext_cell ?_ fun j => ?_
  · rw [ptr_put]
    simp only [move, ptr_put]
  · rw [cell_move, cell_put, cell_put, cell_move]
    by_cases h : k = j
    · rw [if_pos h, if_pos (by omega)]
    · rw [if_neg h, if_neg (by omega)]

end Tape

end Brainfuck
