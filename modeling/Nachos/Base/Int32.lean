/-
# The values of an `int`

A sum of `int`s is taken modulo `2 ^ 32`, with a result from `-2 ^ 31` to
`2 ^ 31 - 1` (`wrap32_range`). It is the exact sum where that is such a number
(`wrap32_of_range`), and `2 ^ 32` off where it is not by one turn
(`wrap32_of_ge`, `wrap32_of_lt_neg`).

Key definitions: `wrap32`.
-/
import Mathlib

namespace Nachos

/-- 32-bit two's-complement arithmetic. -/
def wrap32 (x : ℤ) : ℤ := x.bmod (2 ^ 32)

theorem wrap32_range (x : ℤ) : -2 ^ 31 ≤ wrap32 x ∧ wrap32 x < 2 ^ 31 := by
  have h1 := Int.le_bmod (x := x) (m := 2 ^ 32) (by norm_num)
  have h2 := Int.bmod_lt (x := x) (m := 2 ^ 32) (by norm_num)
  unfold wrap32
  omega

theorem wrap32_of_range {x : ℤ} (h0 : -2 ^ 31 ≤ x) (h1 : x < 2 ^ 31) : wrap32 x = x := by
  unfold wrap32
  rw [Int.bmod_eq_of_le] <;> omega

theorem wrap32_of_lt {x : ℤ} (h0 : 0 ≤ x) (h1 : x < 2 ^ 31) : wrap32 x = x :=
  wrap32_of_range (by omega) h1

/-- One overflow at the top. -/
theorem wrap32_of_ge {x : ℤ} (h0 : 2 ^ 31 ≤ x) (h1 : x < 2 ^ 31 + 2 ^ 32) :
    wrap32 x = x - 2 ^ 32 := by
  rw [wrap32, Int.bmod_def]
  norm_num
  split_ifs <;> omega

/-- One overflow at the bottom. -/
theorem wrap32_of_lt_neg {x : ℤ} (h0 : -2 ^ 31 - 2 ^ 32 ≤ x) (h1 : x < -2 ^ 31) :
    wrap32 x = x + 2 ^ 32 := by
  rw [wrap32, Int.bmod_def]
  norm_num
  split_ifs <;> omega

end Nachos
