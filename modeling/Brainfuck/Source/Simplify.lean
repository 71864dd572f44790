import Brainfuck.Source

/-! Textual simplification: pairs of commands that undo each other are removed, the loops `[-]` and
`[+]` become the clear mark `0`, which is no command of the language and sets the current cell to
zero, and clear marks that change nothing are dropped. `sweep` goes through the text once;
`simplify` sweeps until nothing changes, which happens because a sweep that changes the text
shortens it. -/

namespace Brainfuck.Source

/-- One sweep over a text, from left to right. `last` is the character written last. The text
written is not looked at again, apart from `last`. -/
def sweep (last : Option Char) : List Char → List Char
  | '<' :: '>' :: rest => sweep last rest
  | '>' :: '<' :: rest => sweep last rest
  | '+' :: '-' :: rest => sweep last rest
  | '-' :: '+' :: rest => sweep last rest
  | '[' :: '-' :: ']' :: rest => '0' :: sweep (some '0') rest
  | '[' :: '+' :: ']' :: rest => '0' :: sweep (some '0') rest
  | '0' :: rest =>
    if rest.head? = some '0' then sweep last rest
    else if last = some ']' then sweep last rest
    else '0' :: sweep (some '0') rest
  | c :: rest => c :: sweep (some c) rest
  | [] => []

theorem length_sweep_le (last : Option Char) (text : List Char) :
    (sweep last text).length ≤ text.length := by
  fun_induction sweep last text <;> simp <;> omega

/-- A sweep that keeps the length keeps the text. -/
theorem sweep_eq_of_length_eq (last : Option Char) (text : List Char)
    (h : (sweep last text).length = text.length) : sweep last text = text := by
  fun_induction sweep last text
  all_goals simp_all
  all_goals grind [length_sweep_le]

theorem length_sweep_lt {last : Option Char} {text : List Char} (h : sweep last text ≠ text) :
    (sweep last text).length < text.length :=
  Nat.lt_of_le_of_ne (length_sweep_le last text) fun hl => h (sweep_eq_of_length_eq last text hl)

/-- The text after sweeps up to the first one that changes nothing. -/
def simplify (text : List Char) : List Char :=
  if sweep none text = text then text else simplify (sweep none text)
termination_by text.length
decreasing_by exact length_sweep_lt ‹_›

end Brainfuck.Source
