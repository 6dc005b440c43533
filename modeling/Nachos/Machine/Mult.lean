/-
# Multiplication (`Mult` in `machine/mipssim.cc`)

`Mult` makes the operands positive, multiplies them bit by bit in a loop that
keeps the multiplicand and the sum in two words each, and negates the sum if
the product is negative. A pair of words is read here as one word of 64 bits,
so that the carry, the doubling and the negation on pairs are those of 64-bit
arithmetic (`pair_add`, `pair_double`, `pair_neg`).

The loop shifts the multiplier as an `int`. Of a multiplier with the top bit
set the shifts fill in ones, but none of them comes down to bit 0 before the
32 passes are over (`mod_two_pow_succ`); so `n` passes add the multiplicand
times the `n` low bits of the multiplier (`multLoop_eq`). The magnitude of
-2^31 is not an `int`, and as an unsigned number it is right.

Key theorems: `multLoop_eq`, `mult_correct`.
-/
import Mathlib
import Nachos.Machine.Arithmetic

namespace Nachos

/-! ### Pairs of words -/

theorem toNat_pair (hi lo : BitVec 32) : (hi ++ lo).toNat = hi.toNat * 2 ^ 32 + lo.toNat := by
  rw [BitVec.toNat_append, ← Nat.shiftLeft_add_eq_or_of_lt lo.isLt, Nat.shiftLeft_eq]

theorem toNat_one : (1 : BitVec 32).toNat = 1 := rfl

/-- The addition of a pair of words, with the carry found by comparison. -/
theorem pair_add (hi lo bHi bLo : BitVec 32) :
    ((if lo + bLo < bLo then hi + 1 else hi) + bHi) ++ (lo + bLo) = (hi ++ lo) + (bHi ++ bLo) := by
  have hl := lo.isLt
  have hb := bLo.isLt
  refine BitVec.eq_of_toNat_eq ?_
  rw [BitVec.toNat_add, toNat_pair, toNat_pair, toNat_pair]
  split_ifs with hc
  · rw [BitVec.lt_def, BitVec.toNat_add] at hc
    simp only [BitVec.toNat_add, toNat_one]
    omega
  · rw [BitVec.lt_def, BitVec.toNat_add] at hc
    simp only [BitVec.toNat_add]
    omega

/-- A pair of words doubled. -/
theorem pair_double (bHi bLo : BitVec 32) :
    (if bLo &&& 0x80000000 ≠ 0 then (bHi <<< 1) ||| 1 else bHi <<< 1) ++ (bLo <<< 1) =
      (bHi ++ bLo) + (bHi ++ bLo) := by
  have hb := bLo.isLt
  have hmsb : bLo &&& 0x80000000 ≠ 0 ↔ 2 ^ 31 ≤ bLo.toNat := by
    have h := and_signBit_eq_zero bLo
    rw [BitVec.msb_eq_decide] at h
    unfold signBit at h
    rw [ne_eq, h]
    simp
  have hshift : ∀ x : BitVec 32, (x <<< 1).toNat = x.toNat * 2 % 2 ^ 32 := by
    intro x
    rw [BitVec.toNat_shiftLeft, Nat.shiftLeft_eq, pow_one]
  -- the lowest bit of a double is free
  have hor : (bHi <<< 1) ||| (1 : BitVec 32) = (bHi <<< 1) + (1 : BitVec 32) := by
    refine (BitVec.add_eq_or_of_and_eq_zero _ _ ?_).symm
    rw [and_one_eq, hshift]
    have : bHi.toNat * 2 % 2 ^ 32 % 2 = 0 := by omega
    rw [this]
  refine BitVec.eq_of_toNat_eq ?_
  rw [BitVec.toNat_add, toNat_pair, toNat_pair, hshift]
  split_ifs with hc
  · rw [hmsb] at hc
    rw [hor, BitVec.toNat_add, hshift, toNat_one]
    omega
  · rw [hmsb] at hc
    rw [hshift]
    omega

/-! ### The loop -/

/-- The lowest bit of the multiplier and those above, which a shift brings
down; the sign that it fills in comes down too late. -/
theorem mod_two_pow_succ (a : BitVec 32) {n : ℕ} (hn : n < 32) :
    a.toNat % 2 ^ (n + 1) = a.toNat % 2 + 2 * ((a.sshiftRight 1).toNat % 2 ^ n) := by
  have hlt := a.isLt
  have hshift : (a.sshiftRight 1).toNat % 2 ^ n = a.toNat / 2 % 2 ^ n := by
    cases hm : a.msb with
    | false => rw [BitVec.toNat_sshiftRight_of_msb_false hm, Nat.shiftRight_eq_div_pow, pow_one]
    | true =>
      have h31 : (a.sshiftRight 1).toNat = a.toNat / 2 + 2 ^ n * 2 ^ (31 - n) := by
        rw [BitVec.toNat_sshiftRight_of_msb_true hm, Nat.shiftRight_eq_div_pow, ← pow_add,
          show n + (31 - n) = 31 by omega]
        rw [BitVec.msb_eq_decide, decide_eq_true_eq] at hm
        omega
      rw [h31, Nat.add_mul_mod_self_left]
  rw [hshift, pow_succ', Nat.mod_mul]

theorem and_one_ne_zero (a : BitVec 32) : a &&& 1 ≠ 0 ↔ a.toNat % 2 = 1 := by
  rw [and_one_eq, ofNat_ne_zero (by omega)]
  omega

/-- `break`: no bit is left above the lowest. -/
theorem toNat_of_break {a : BitVec 32} (h : a &&& 1 ≠ 0) (h0 : a &&& 0xfffffffe = 0) :
    a.toNat = 1 := by
  have hmask : (0xfffffffe : BitVec 32) = ~~~1 := by decide
  have ha : a = a &&& 1 := by
    calc a = (a &&& 1) ||| (a &&& ~~~1) := by
          refine BitVec.eq_of_getLsbD_eq fun i hi => ?_
          simp only [BitVec.getLsbD_or, BitVec.getLsbD_and, BitVec.getLsbD_not, hi, decide_true,
            Bool.true_and]
          cases a.getLsbD i <;> cases (1 : BitVec 32).getLsbD i <;> rfl
      _ = a &&& 1 := by rw [← hmask, h0]; exact BitVec.or_zero
  rw [ha, and_one_eq, (and_one_ne_zero a).mp h]
  rfl

/-- **The loop of `Mult`** adds `b` times the `n` low bits of `a`. -/
theorem multLoop_eq (n : ℕ) (hn : n ≤ 32) (a bHi bLo hi lo : BitVec 32) :
    (multLoop n a bHi bLo hi lo).1 ++ (multLoop n a bHi bLo hi lo).2 =
      (hi ++ lo) + (bHi ++ bLo) * BitVec.ofNat 64 (a.toNat % 2 ^ n) := by
  induction n generalizing a bHi bLo hi lo with
  | zero => simp [multLoop, Nat.mod_one]
  | succ n ih =>
    have hbits := mod_two_pow_succ a hn
    have h2 : BitVec.ofNat 64 2 = 1 + 1 := rfl
    by_cases hbit : a &&& 1 ≠ 0
    · by_cases hbreak : a &&& 0xfffffffe = 0
      · -- the last bit
        have ha : a.toNat % 2 ^ (n + 1) = 1 := by
          rw [toNat_of_break hbit hbreak]
          exact Nat.mod_eq_of_lt (Nat.one_lt_two_pow (Nat.succ_ne_zero n))
        simp only [multLoop, if_pos hbit, if_pos hbreak]
        rw [pair_add, ha]
        exact congrArg _ (mul_one _).symm
      · simp only [multLoop, if_pos hbit, if_neg hbreak]
        rw [ih (by omega), pair_add, pair_double, hbits, (and_one_ne_zero a).mp hbit,
          BitVec.ofNat_add, BitVec.ofNat_mul, h2, show BitVec.ofNat 64 1 = 1 from rfl]
        ring
    · simp only [multLoop, if_neg hbit]
      have h0 : a.toNat % 2 = 0 := by
        have := mt (and_one_ne_zero a).mpr hbit
        omega
      rw [ih (by omega), pair_double, hbits, h0, zero_add, BitVec.ofNat_mul, h2]
      ring

/-- The loop run to its end. -/
theorem multLoop_product (a b : BitVec 32) :
    ((multLoop 32 a 0 b 0 0).1 ++ (multLoop 32 a 0 b 0 0).2).toNat = a.toNat * b.toNat := by
  have ha := a.isLt
  have hb := b.isLt
  have hlt : b.toNat * a.toNat < 2 ^ 64 := by nlinarith
  have h0 : ((0 : BitVec 32) ++ (0 : BitVec 32)) = (0 : BitVec (32 + 32)) := by decide
  have hb0 : ((0 : BitVec 32) ++ b).toNat = b.toNat := by rw [toNat_pair]; simp
  rw [multLoop_eq 32 le_rfl, Nat.mod_eq_of_lt ha, h0]
  rw [zero_add, BitVec.toNat_mul, hb0, BitVec.toNat_ofNat,
    Nat.mod_eq_of_lt (by omega : a.toNat < 2 ^ 64), Nat.mod_eq_of_lt hlt, Nat.mul_comm]

/-! ### Signs -/

/-- The negation of a pair of words. -/
theorem pair_neg (hi lo : BitVec 32) :
    (if ~~~lo + 1 = 0 then ~~~hi + 1 else ~~~hi) ++ (~~~lo + 1) = -(hi ++ lo) := by
  have hl := lo.isLt
  have hh := hi.isLt
  have hz : ~~~lo + 1 = 0 ↔ lo.toNat = 0 := by
    rw [← BitVec.toNat_inj, BitVec.toNat_add, BitVec.toNat_not, toNat_one,
      show (0 : BitVec 32).toNat = 0 from rfl]
    omega
  refine BitVec.eq_of_toNat_eq ?_
  rw [BitVec.toNat_neg, toNat_pair, toNat_pair]
  split_ifs with hc
  · rw [hz] at hc
    simp only [BitVec.toNat_add, BitVec.toNat_not, toNat_one]
    omega
  · rw [hz] at hc
    simp only [BitVec.toNat_add, BitVec.toNat_not, toNat_one]
    omega

theorem slt_zero (x : BitVec 32) : x.slt 0 = true ↔ x.toInt < 0 := by
  rw [BitVec.slt_iff_toInt_lt]
  rfl

/-- `a = -a` of a negative `int`, `-2^31` included, read as an unsigned number. -/
theorem toNat_magnitude (x : BitVec 32) : (if x.slt 0 then -x else x).toNat = x.toInt.natAbs := by
  have hx := x.isLt
  simp only [slt_zero]
  rw [BitVec.toInt_eq_toNat_cond]
  by_cases h : 2 * x.toNat < 2 ^ 32
  · rw [if_pos h, if_neg (by omega), Int.natAbs_natCast]
  · rw [if_neg h, if_pos (by omega), BitVec.toNat_neg]
    omega

theorem natAbs_le (x : BitVec 32) : x.toInt.natAbs ≤ 2 ^ 31 := by
  obtain ⟨h1, h2⟩ := inRange_toInt x
  omega

/-- A pair of words below 2^63, and its negation. -/
theorem toInt_pair {p : BitVec (32 + 32)} (h : p.toNat < 2 ^ 63) :
    p.toInt = p.toNat ∧ (-p).toInt = -p.toNat := by
  constructor
  · rw [BitVec.toInt_eq_toNat_cond, if_pos (by omega)]
  · rw [BitVec.toInt_eq_toNat_cond, BitVec.toNat_neg]
    split_ifs <;> omega

/-- The product of the magnitudes, and its sign. -/
theorem natAbs_mul_natAbs (a b : BitVec 32) :
    ((a.toInt.natAbs * b.toInt.natAbs : ℕ) : ℤ) =
      if a.slt 0 ^^ b.slt 0 then -(a.toInt * b.toInt) else a.toInt * b.toInt := by
  have hsign : ∀ x : BitVec 32, (x.toInt.natAbs : ℤ) = if x.slt 0 then -x.toInt else x.toInt := by
    intro x
    simp only [slt_zero]
    split_ifs <;> omega
  rw [Nat.cast_mul, hsign, hsign]
  cases a.slt 0 <;> cases b.slt 0 <;> simp

/-- **Multiplication.** `Mult` leaves the signed and the unsigned product. -/
theorem mult_correct (a b : BitVec 32) :
    ((Mult a b true).1 ++ (Mult a b true).2).toInt = a.toInt * b.toInt ∧
      ((Mult a b false).1 ++ (Mult a b false).2).toNat = a.toNat * b.toNat := by
  by_cases h0 : a = 0 ∨ b = 0
  · have hzero : ∀ s, Mult a b s = (0, 0) := fun s => if_pos h0
    rw [hzero, hzero]
    rcases h0 with rfl | rfl <;> simp
  constructor
  · have hp := multLoop_product (if a.slt 0 then -a else a) (if b.slt 0 then -b else b)
    rw [toNat_magnitude, toNat_magnitude] at hp
    have hlt : a.toInt.natAbs * b.toInt.natAbs < 2 ^ 63 := by
      have := Nat.mul_le_mul (natAbs_le a) (natAbs_le b)
      omega
    obtain ⟨hpos, hneg⟩ := toInt_pair (hp ▸ hlt)
    rw [hp, natAbs_mul_natAbs] at hpos hneg
    simp only [Mult, if_neg h0, Bool.true_and]
    by_cases hs : (a.slt 0 ^^ b.slt 0) = true
    · rw [if_pos hs, neg_neg] at hneg
      rw [if_pos hs, pair_neg]
      exact hneg
    · rw [if_neg hs] at hpos
      rw [if_neg hs]
      exact hpos
  · simp only [Mult, if_neg h0, Bool.false_and, Bool.false_eq_true, if_false, Bool.xor_false]
    exact multLoop_product a b

end Nachos
