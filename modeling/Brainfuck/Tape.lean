import Brainfuck.Modulus
import Brainfuck.Text.Decimal
import Std.Data.ExtTreeMap

/-! The tape: a pointer and cells at every integer position, all but finitely many of them zero. The
cells of a tape with modulus `m` hold remainders modulo `m`; with modulus zero they hold any
integer. Two tapes are equal if their pointers and all their cells are. -/

namespace Brainfuck

/-- A tape whose cells hold remainders modulo `modulus`. -/
structure Tape (modulus : Int) where
  ptr : Int
  /-- The cells that are not zero. -/
  cells : Std.ExtTreeMap Int Int
  reduced : ∀ (i v : Int), cells[i]? = some v → v ≠ 0 ∧ wrap modulus v = v

namespace Tape

variable {m : Int}

/-- All cells are zero and the pointer is at 1. -/
def empty (m : Int) : Tape m := ⟨1, ∅, by simp⟩

/-- The value of the cell at position `i`. -/
def get (t : Tape m) (i : Int) : Int := t.cells[i]?.getD 0

/-- The value of the cell `offset` away from the pointer. -/
def cell (t : Tape m) (offset : Int) : Int := t.get (t.ptr + offset)

/-- Stores the remainder of `value` at position `i`. -/
def set (t : Tape m) (i value : Int) : Tape m :=
  if h : wrap m value = 0 then
    { t with
      cells := t.cells.erase i
      reduced := by
        intro j v hj
        rw [Std.ExtTreeMap.getElem?_erase] at hj
        split at hj
        · contradiction
        · exact t.reduced j v hj }
  else
    { t with
      cells := t.cells.insert i (wrap m value)
      reduced := by
        intro j v hj
        rw [Std.ExtTreeMap.getElem?_insert] at hj
        split at hj
        · rw [← Option.some.inj hj]
          exact ⟨h, wrap_wrap m value⟩
        · exact t.reduced j v hj }

/-- Stores the remainder of `value` in the cell `offset` away from the pointer. -/
def put (t : Tape m) (offset value : Int) : Tape m := t.set (t.ptr + offset) value

def move (t : Tape m) (distance : Int) : Tape m := { t with ptr := t.ptr + distance }

/-- The cells that are not zero, with their positions ascending. -/
def toList (t : Tape m) : List (Int × Int) := t.cells.toList

/-- The text of the cell at `i`; brackets mark the one that the pointer is at. -/
def renderCell (t : Tape m) (i : Int) : String :=
  if i = t.ptr then "[" ++ Decimal.padded 3 (t.get i) ++ "] " else Decimal.padded 3 (t.get i) ++ " "

/-- The pointer, and the values of the current cell and of eight cells on either side of it. -/
def render (t : Tape m) : String :=
  Decimal.signed t.ptr ++ ": " ++
    String.join ((List.range 17).map fun (k : Nat) => t.renderCell (t.ptr - 8 + k))

@[simp] theorem get_empty (i : Int) : (empty m).get i = 0 := by simp [empty, get]

theorem get_set (t : Tape m) (i j value : Int) :
    (t.set i value).get j = if i = j then wrap m value else t.get j := by
  unfold set
  split <;> grind [get]

@[simp] theorem ptr_set (t : Tape m) (i value : Int) : (t.set i value).ptr = t.ptr := by
  unfold set
  split <;> rfl

@[simp] theorem wrap_get (t : Tape m) (i : Int) : wrap m (t.get i) = t.get i := by
  unfold get
  cases h : t.cells[i]? with
  | none => simp
  | some v => exact (t.reduced i v h).2

/-- Tapes that agree on the pointer and on every cell are equal. -/
@[ext] theorem ext {t u : Tape m} (hp : t.ptr = u.ptr) (hc : ∀ i, t.get i = u.get i) : t = u := by
  have h : t.cells = u.cells := by
    apply Std.ExtTreeMap.ext_getElem?
    intro i
    have := hc i
    unfold get at this
    have ht := t.reduced i
    have hu := u.reduced i
    cases h1 : t.cells[i]? <;> cases h2 : u.cells[i]? <;> simp_all
  cases t; cases u; simp_all

end Tape

end Brainfuck
