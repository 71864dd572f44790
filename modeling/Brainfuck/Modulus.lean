/-! Remainders modulo an integer. -/

namespace Brainfuck

/-- The remainder of `value` modulo `m`, rounding the quotient down; modulo zero, `value` itself. -/
def wrap (m value : Int) : Int := Int.fmod value m

@[simp] theorem wrap_zero_left (value : Int) : wrap 0 value = value := by simp [wrap]

@[simp] theorem wrap_zero_right (m : Int) : wrap m 0 = 0 := by simp [wrap]

@[simp] theorem wrap_wrap (m value : Int) : wrap m (wrap m value) = wrap m value := by
  simp [wrap]

end Brainfuck
