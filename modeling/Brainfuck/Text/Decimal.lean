/-! Integers in decimal: plain, with an explicit sign, and filled with zeros to a width. -/

namespace Brainfuck.Decimal

/-- The digits of `n` without leading zeros. -/
def natural (n : Nat) : String := String.ofList (Nat.toDigits 10 n)

theorem exists_toList_natural (n : Nat) :
    ∃ d ds, (natural n).toList = d :: ds ∧ ∀ c ∈ d :: ds, c.isDigit = true := by
  rw [natural, String.toList_ofList]
  cases hds : Nat.toDigits 10 n with
  | nil => exact absurd hds Nat.toDigits_ne_nil
  | cons d ds =>
    refine ⟨d, ds, rfl, fun c hc => ?_⟩
    rw [← hds] at hc
    exact Nat.isDigit_of_mem_toDigits (by decide) (by decide) hc

@[simp] theorem ofDigitChars_natural (n : Nat) : Nat.ofDigitChars 10 (natural n).toList 0 = n := by
  rw [natural, String.toList_ofList, Nat.ofDigitChars_ten_toDigits]

/-- The sign of a negative number, before its digits. -/
def minus (n : Int) : String := if n < 0 then "-" else ""

/-- The digits of `n`, after a minus sign if `n` is negative. -/
def signed (n : Int) : String := minus n ++ natural n.natAbs

/-- The digits of `n` after its sign, which is a plus sign for zero too. -/
def explicit (n : Int) : String := (if n < 0 then "-" else "+") ++ natural n.natAbs

/-- `n` in at least `width` characters: zeros fill the room between the sign, which counts as one
of the characters, and the digits. -/
def padded (width : Nat) (n : Int) : String :=
  let room := width - (minus n).length - (natural n.natAbs).length
  minus n ++ String.ofList (List.replicate room '0') ++ natural n.natAbs

end Brainfuck.Decimal
