/-
# Sums, differences and right shifts (`machine/mipssim.cc`)

The arms of `OneInstruction` compute on `int`s, and three of them decide with
a test of sign bits whether to trap. Here they are compared with arithmetic on
the integers: `InRange` are the values of an `int`, and an instruction
`Stores` a value when its arm assigns it and it ends as every instruction
does, with the pending load applied and the program counters advanced. The
register then holds the value, unless it is R0 or the target of that load
(`Machine.Stores.register`).

* `overflow_exact`: `ADD`, `ADDI` and `SUB` trap just when the exact result is
  no `int`, and else store it; `ADDU`, `ADDIU` and `SUBU` store it modulo 2^32.
* `right_shifts_iff`: `SRA` and `SRAV` divide by a power of two and round
  down. `SRL` and `SRLV` shift an `int` as well, so of a number with the top
  bit set they store the wrong one, unless the shift is by 0.

Key definitions: `InRange`, `Machine.Fetches`, `Machine.Stores`, `Machine.TrapsExactly`,
`ShiftedRight`.
Key theorems: `Machine.Stores.register`, `xor_signBit_eq_zero`, `decode_immediate`,
`overflow_exact`, `right_shifts_iff`.
-/
import Mathlib
import Nachos.Machine.MipsSim
import Nachos.Machine.DelaySlot

namespace Nachos

open Bytes (Byte Store)

/-! ### The values of an `int` -/

/-- The values of an `int`. -/
def InRange (z : ℤ) : Prop := -2 ^ 31 ≤ z ∧ z ≤ 2 ^ 31 - 1

instance (z : ℤ) : Decidable (InRange z) := inferInstanceAs (Decidable (_ ∧ _))

theorem inRange_toInt (x : BitVec 32) : InRange x.toInt := by
  have h1 := x.two_mul_toInt_lt
  have h2 := x.le_two_mul_toInt
  unfold InRange
  omega

/-- What is left of a sum of two `int`s. -/
theorem toInt_ofInt_cases {z : ℤ} (h1 : -2 ^ 32 ≤ z) (h2 : z < 2 ^ 32) :
    (BitVec.ofInt 32 z).toInt = if InRange z then z else if z < 0 then z + 2 ^ 32
      else z - 2 ^ 32 := by
  rw [BitVec.toInt_ofInt, Int.bmod_def]
  unfold InRange
  split_ifs <;> omega

theorem toInt_ofInt_of_inRange {z : ℤ} (h : InRange z) : (BitVec.ofInt 32 z).toInt = z := by
  obtain ⟨h1, h2⟩ := h
  rw [toInt_ofInt_cases (by omega) (by omega), if_pos ⟨h1, h2⟩]

theorem add_eq_ofInt (x y : BitVec 32) : x + y = BitVec.ofInt 32 (x.toInt + y.toInt) := by
  rw [BitVec.ofInt_add, BitVec.ofInt_toInt, BitVec.ofInt_toInt]

theorem sub_eq_ofInt (x y : BitVec 32) : x - y = BitVec.ofInt 32 (x.toInt - y.toInt) := by
  rw [Int.sub_eq_add_neg, BitVec.ofInt_add, BitVec.ofInt_neg, BitVec.ofInt_toInt,
    BitVec.ofInt_toInt, BitVec.sub_eq_add_neg]

theorem and_signBit_eq_zero (x : BitVec 32) : x &&& signBit = 0 ↔ x.msb = false := by
  have hs : signBit = BitVec.twoPow 32 31 := by decide
  rw [hs, BitVec.and_twoPow, BitVec.msb_eq_getLsbD_last]
  cases h : x.getLsbD 31 <;> simp

/-- The test of `(x ^ y) & SIGN_BIT`: have they the same sign? -/
theorem xor_signBit_eq_zero (x y : BitVec 32) :
    (x ^^^ y) &&& signBit = 0 ↔ (x.toInt < 0 ↔ y.toInt < 0) := by
  rw [and_signBit_eq_zero, BitVec.msb_xor, BitVec.msb_eq_toInt, BitVec.msb_eq_toInt,
    bne_eq_false_iff_eq, decide_eq_decide]

/-- The test of `OP_ADD`. -/
theorem add_overflow_iff (x y : BitVec 32) :
    ((x ^^^ y) &&& signBit = 0 ∧ (x ^^^ (x + y)) &&& signBit ≠ 0) ↔
    ¬ InRange (x.toInt + y.toInt) := by
  obtain ⟨hx1, hx2⟩ := inRange_toInt x
  obtain ⟨hy1, hy2⟩ := inRange_toInt y
  rw [ne_eq, xor_signBit_eq_zero, xor_signBit_eq_zero, add_eq_ofInt,
    toInt_ofInt_cases (by omega) (by omega)]
  unfold InRange
  split_ifs <;> omega

/-- The test of `OP_ADDI`, which looks at the other operand. -/
theorem addi_overflow_iff (x y : BitVec 32) :
    ((x ^^^ y) &&& signBit = 0 ∧ (y ^^^ (x + y)) &&& signBit ≠ 0) ↔
    ¬ InRange (x.toInt + y.toInt) := by
  rw [BitVec.xor_comm x y, BitVec.add_comm x y, Int.add_comm]
  exact add_overflow_iff y x

/-- The test of `OP_SUB`. -/
theorem sub_overflow_iff (x y : BitVec 32) :
    ((x ^^^ y) &&& signBit ≠ 0 ∧ (x ^^^ (x - y)) &&& signBit ≠ 0) ↔
    ¬ InRange (x.toInt - y.toInt) := by
  obtain ⟨hx1, hx2⟩ := inRange_toInt x
  obtain ⟨hy1, hy2⟩ := inRange_toInt y
  rw [ne_eq, xor_signBit_eq_zero, ne_eq, xor_signBit_eq_zero, sub_eq_ofInt,
    toInt_ofInt_cases (by omega) (by omega)]
  unfold InRange
  split_ifs <;> omega

/-! ### Decoding -/

deriving instance DecidableEq for Format

deriving instance DecidableEq for TableCode

theorem getLsbD_halves (i : ℕ) (hi : i < 32) :
    (0xffff : BitVec 32).getLsbD i = decide (i < 16) ∧ (0xffff0000 : BitVec 32).getLsbD i = decide
      (16 ≤ i) := by
  revert i
  decide

/-- The `IFMT` branch of `Decode` extends the sign of the low half. -/
theorem extra_signExtend (value : BitVec 32) :
    (if (value &&& 0xffff) &&& 0x8000 ≠ 0 then (value &&& 0xffff) ||| 0xffff0000
      else value &&& 0xffff) =
        (value.extractLsb' 0 16).signExtend 32 := by
  have hbit : (value &&& 0xffff) &&& 0x8000 ≠ 0 ↔ value.getLsbD 15 = true := by
    have h15 : (0x8000 : BitVec 32) = BitVec.twoPow 32 15 := by decide
    rw [h15, BitVec.and_twoPow, BitVec.getLsbD_and, (getLsbD_halves 15 (by decide)).1]
    cases value.getLsbD 15 <;> decide
  have hmsb : (value.extractLsb' 0 16).msb = value.getLsbD 15 := by
    simp [BitVec.msb_eq_getLsbD_last]
  refine BitVec.eq_of_getLsbD_eq fun i hi => ?_
  obtain ⟨h1, h2⟩ := getLsbD_halves i hi
  rw [BitVec.getLsbD_signExtend, hmsb, BitVec.getLsbD_extractLsb']
  by_cases hb : value.getLsbD 15 = true
  · rw [if_pos (hbit.mpr hb), BitVec.getLsbD_or, BitVec.getLsbD_and, h1, h2, hb]
    by_cases h16 : i < 16
    · simp [hi, h16]
    · simp [hi, h16, not_lt.mp h16]
  · rw [if_neg (mt hbit.mp hb), BitVec.getLsbD_and, h1, (Bool.not_eq_true _).mp hb]
    by_cases h16 : i < 16
    · simp [hi, h16]
    · simp [hi, h16]

theorem immediate_format (k : Fin 64) :
    (opTable.get k).opCode = .op .addi ∨ (opTable.get k).opCode = .op .addiu →
    (opTable.get k).format = .ifmt := by
  revert k
  decide

theorem special_format (k : Fin 64) :
    (opTable.get k).opCode = .special → (opTable.get k).format = .rfmt := by
  revert k
  decide

theorem special_not_immediate (k : Fin 64) :
    specialTable.get k ≠ .addi ∧ specialTable.get k ≠ .addiu := by
  revert k
  decide

theorem op_not_shift (k : Fin 64) :
    (opTable.get k).opCode ≠ .op .srl ∧ (opTable.get k).opCode ≠ .op .sra := by
  revert k
  decide

/-- The immediate of `ADDI` and `ADDIU`. -/
theorem decode_immediate {value : BitVec 32}
    (h : (decode value).opCode = .addi ∨ (decode value).opCode = .addiu) :
    (decode value).extra.toInt = (value.extractLsb' 0 16).toInt := by
  have hk : (opTable.get (value.extractLsb' 26 6).toFin).format = .ifmt := by
    refine immediate_format _ ?_
    simp only [decode] at h
    split at h
    · rename_i o ho
      rw [ho]
      exact h.imp (congrArg _) (congrArg _)
    · exact absurd h (not_or.mpr (special_not_immediate _))
    · split_ifs at h <;> simp at h
  simp only [decode, hk]
  rw [extra_signExtend, BitVec.toInt_signExtend_of_le (by decide)]

/-- The shift amount of `SRL` and `SRA`. -/
theorem decode_shamt {value : BitVec 32}
    (h : (decode value).opCode = .srl ∨ (decode value).opCode = .sra) :
    (decode value).extra.toNat = (value.extractLsb' 6 5).toNat := by
  have hk : (opTable.get (value.extractLsb' 26 6).toFin).format = .rfmt := by
    refine special_format _ ?_
    simp only [decode] at h
    split at h
    · rename_i o ho
      have hne := op_not_shift (value.extractLsb' 26 6).toFin
      rw [ho] at hne
      rcases h with rfl | rfl
      · exact absurd rfl hne.1
      · exact absurd rfl hne.2
    · assumption
    · split_ifs at h <;> simp at h
  simp only [decode, hk]
  rw [BitVec.toNat_and, BitVec.extractLsb'_toNat]
  exact Nat.and_two_pow_sub_one_eq_mod _ 5

/-! ### What an instruction stores -/

variable {m : Machine} {value : BitVec 32} {pageTable : PageTable}

/-- The instruction at the program counter is `value`; the fetch leaves `pageTable`. -/
def Machine.Fetches (m : Machine) (value : BitVec 32) (pageTable : PageTable) : Prop :=
  readMem m.mainMemory m.pageTable (m.registers pcReg) .word = .ok (value, pageTable)

/-- The instruction `value` stores `v` in register `x`, and nothing else. -/
structure Machine.Stores (m : Machine) (value : BitVec 32) (pageTable : PageTable) (x : Fin 32)
    (v : BitVec 32) :
    Prop where
  assigned : operate (decode value) m.registers = .assign [(gpr x, v)] (m.registers nextPCReg + 4)
  executed : oneInstruction m = .done { m with
    pageTable := pageTable
    registers :=
      advance (delayedLoad (writeRegister m.registers (gpr x) v) 0 0) (m.registers nextPCReg + 4) }

/-- The instruction traps just when `z` is no `int`; else it stores it. -/
structure Machine.TrapsExactly (m : Machine) (value : BitVec 32) (pageTable : PageTable) (z : ℤ)
    (x : Fin 32) :
    Prop where
  traps : (∃ badVAddr m', oneInstruction m = .exception .overflowException badVAddr m') ↔
    ¬ InRange z
  stores : InRange z → ∃ v : BitVec 32, v.toInt = z ∧ m.Stores value pageTable x v

theorem Machine.Fetches.oneInstruction (hf : m.Fetches value pageTable) :
    oneInstruction m = perform { m with pageTable := pageTable }
    (operate (decode value) m.registers) := by
  unfold Machine.Fetches at hf
  rw [Nachos.oneInstruction, hf]

theorem Machine.Fetches.stores (hf : m.Fetches value pageTable) {x : Fin 32} {v : BitVec 32}
    (h : operate (decode value) m.registers = .assign [(gpr x, v)] (m.registers nextPCReg + 4)) :
    m.Stores value pageTable x v := by
  refine ⟨h, ?_⟩
  rw [hf.oneInstruction, h]
  rfl

/-- A register other than R0 that is not the target of the pending load holds
the value stored, and each other register what it does once that load is
applied. -/
theorem Machine.Stores.register {x : Fin 32} {v : BitVec 32} (h : m.Stores value pageTable x v)
    (hr : Regular m.registers) (hx : x ≠ 0) (hload : (m.registers loadReg).toNat ≠ x.val) :
    ∃ m', oneInstruction m = .done m' ∧ m'.registers (gpr x) = v ∧
      ∀ y ≠ x, m'.registers (gpr y) = flush m.registers (gpr y) := by
  have hl : writeRegister m.registers (gpr x) v loadReg = m.registers loadReg :=
    Function.update_of_ne (gpr_ne (by decide)).symm _ _
  have hv : writeRegister m.registers (gpr x) v loadValueReg = m.registers loadValueReg :=
    Function.update_of_ne (gpr_ne (by decide)).symm _ _
  have hother : ∀ y ≠ x, gpr y ≠ gpr x := fun y hy he => hy (Fin.castLE_injective _ he)
  refine ⟨_, h.executed, ?_, fun y hy => ?_⟩
  · have h0 : gpr x ≠ 0 := fun he => hx (Fin.castLE_injective (by decide) he)
    have hself : writeRegister m.registers (gpr x) v (gpr x) = v := Function.update_self _ _ _
    refine (advance_gpr _ _ _).trans ?_
    rw [delayedLoad_apply (hl ▸ hr.2), hl, if_neg h0, if_neg (gpr_ne (by decide)),
      if_neg (gpr_ne (by decide)), if_neg (show (gpr x).val ≠ _ from hload.symm), hself]
  · have hkeep : writeRegister m.registers (gpr x) v (gpr y) = m.registers (gpr y) :=
      Function.update_of_ne (hother y hy) _ _
    refine (advance_gpr _ _ _).trans ?_
    rw [flush, delayedLoad_apply (hl ▸ hr.2), delayedLoad_apply hr.2, hl, hv, hkeep]

/-- An arm that tests for overflow, and then stores. -/
theorem Machine.Fetches.trapsExactly (hf : m.Fetches value pageTable) {x : Fin 32} {z : ℤ}
    {test : Prop} [Decidable test] (htest : test ↔ ¬ InRange z)
    (h : operate (decode value) m.registers =
      if test then .raise .overflowException 0
      else .assign [(gpr x, BitVec.ofInt 32 z)] (m.registers nextPCReg + 4)) :
    m.TrapsExactly value pageTable z x := by
  by_cases hz : InRange z
  · rw [if_neg fun ht => htest.mp ht hz] at h
    have hs := hf.stores h
    refine ⟨⟨fun ⟨badVAddr, m', ht⟩ => ?_, fun hn => absurd hz hn⟩,
      fun _ => ⟨_, toInt_ofInt_of_inRange hz, hs⟩⟩
    rw [hs.executed] at ht
    cases ht
  · rw [if_pos (htest.mpr hz)] at h
    refine ⟨⟨fun _ => hz, fun _ => ⟨0, { m with pageTable := pageTable }, ?_⟩⟩,
      fun hr => absurd hr hz⟩
    rw [hf.oneInstruction, h]
    rfl

/-- **Overflow trapping is exact.** -/
theorem overflow_exact (hf : m.Fetches value pageTable) :
    let i := decode value
    let rs := (m.registers (gpr i.rs)).toInt
    let rt := (m.registers (gpr i.rt)).toInt
    let imm := (value.extractLsb' 0 16).toInt
    match i.opCode with
    | .add => m.TrapsExactly value pageTable (rs + rt) i.rd
    | .addi => m.TrapsExactly value pageTable (rs + imm) i.rt
    | .sub => m.TrapsExactly value pageTable (rs - rt) i.rd
    | .addu => m.Stores value pageTable i.rd (BitVec.ofInt 32 (rs + rt))
    | .addiu => m.Stores value pageTable i.rt (BitVec.ofInt 32 (rs + imm))
    | .subu => m.Stores value pageTable i.rd (BitVec.ofInt 32 (rs - rt))
    | _ => True := by
  intro i rs rt imm
  have harm : ∀ o, i.opCode = o →
      operate (decode value) m.registers = operate { i with opCode := o } m.registers := by
    rintro o rfl
    rfl
  split
  · rename_i ho
    refine hf.trapsExactly (add_overflow_iff _ _) ?_
    rw [harm _ ho, ← add_eq_ofInt]
    rfl
  · rename_i ho
    have himm : i.extra.toInt = imm := decode_immediate (Or.inl ho)
    rw [← himm]
    refine hf.trapsExactly (addi_overflow_iff _ _) ?_
    rw [harm _ ho, ← add_eq_ofInt]
    rfl
  · rename_i ho
    refine hf.trapsExactly (sub_overflow_iff _ _) ?_
    rw [harm _ ho, ← sub_eq_ofInt]
    rfl
  · rename_i ho
    refine hf.stores ?_
    rw [harm _ ho, ← add_eq_ofInt]
    rfl
  · rename_i ho
    have himm : i.extra.toInt = imm := decode_immediate (Or.inr ho)
    rw [← himm]
    refine hf.stores ?_
    rw [harm _ ho, ← add_eq_ofInt]
    rfl
  · rename_i ho
    refine hf.stores ?_
    rw [harm _ ho, ← sub_eq_ofInt]
    rfl
  · trivial

/-- A machine of one page that starts with the word `value`. -/
def Machine.ofWord (value : BitVec 32) (registers : Registers) : Machine where
  registers := registers
  mainMemory := Bytes.write (fun _ => 0) 0 (Bytes.wordBytes value)
  pageTable := [⟨0, 0, true, false, false, false⟩]

theorem Machine.fetches_ofWord (value : BitVec 32) {r : Registers} (h : r pcReg = 0) :
    (Machine.ofWord value r).Fetches value [⟨0, 0, true, false, true, false⟩] := by
  have ht : translate [⟨0, 0, true, false, false, false⟩] 0 .word false =
      .ok (0, [⟨0, 0, true, false, true, false⟩]) := by decide
  have hw : Bytes.wordAt (Bytes.write (fun _ => 0) 0 (Bytes.wordBytes value)) 0 = value :=
    Bytes.wordAt_write _ _ _
  unfold Machine.Fetches Machine.ofWord readMem
  simp only [h, ht]
  exact congrArg (fun v => Except.ok (v, _)) hw

/-- `add r10,r9,r8` of 1 and the largest `int`: the sum is not one. -/
theorem overflow_exact_add :
    let r : Registers := fun x => if x = 9 then 1 else if x = 8 then 0x7fffffff else 0
    ∃ badVAddr m', oneInstruction (Machine.ofWord 0x01285020 r) = .exception .overflowException
      badVAddr m' := by
  intro r
  have h := overflow_exact (Machine.fetches_ofWord 0x01285020 (r := r) rfl)
  exact Machine.TrapsExactly.traps h |>.mpr (by decide)

/-! ### Right shifts -/

/-- The shift amount: the field of `SRL` and `SRA`, the low five bits of `rs`
of `SRLV` and `SRAV`. -/
def shiftAmount (value : BitVec 32) (r : Registers) : ℕ :=
  match (decode value).opCode with
  | .srl | .sra => (value.extractLsb' 6 5).toNat
  | _ => ((r (gpr (decode value).rs)).extractLsb' 0 5).toNat

/-- `v` is `x` shifted right by `s`: as an unsigned number with zeros shifted
in, or as a signed number with its sign shifted in. Both round down. -/
def ShiftedRight (o : OpCode) (x : BitVec 32) (s : ℕ) (v : BitVec 32) : Prop :=
  match o with
  | .srl | .srlv => v.toNat = x.toNat / 2 ^ s
  | _ => v.toInt = x.toInt / 2 ^ s

/-- All four shift the `int`. -/
theorem operate_shift {r : Registers}
    (hop : (decode value).opCode = .srl ∨ (decode value).opCode = .sra ∨
      (decode value).opCode = .srlv ∨
      (decode value).opCode = .srav) :
    operate (decode value) r =
      .assign
        [(gpr (decode value).rd, (r (gpr (decode value).rt)).sshiftRight (shiftAmount value r))]
        (r nextPCReg + 4) := by
  have hlow : ∀ x : BitVec 32, (x &&& 0x1f).toNat = (x.extractLsb' 0 5).toNat := by
    intro x
    rw [BitVec.toNat_and, BitVec.extractLsb'_toNat, Nat.shiftRight_zero]
    exact Nat.and_two_pow_sub_one_eq_mod _ 5
  rcases hop with ho | ho | ho | ho
  · simp only [operate, shiftAmount, ho, decode_shamt (Or.inl ho)]
  · simp only [operate, shiftAmount, ho, decode_shamt (Or.inr ho)]
  · simp only [operate, shiftAmount, ho, hlow]
  · simp only [operate, shiftAmount, ho, hlow]

theorem toInt_sshiftRight_eq (x : BitVec 32) (s : ℕ) :
    (x.sshiftRight s).toInt = x.toInt / 2 ^ s := by
  rw [BitVec.toInt_sshiftRight, Int.shiftRight_eq_div_pow]
  norm_cast

/-- The shift of an `int` is that of the unsigned number if the top bit is
clear; else it fills in ones. -/
theorem toNat_sshiftRight_iff (x : BitVec 32) (s : ℕ) :
    (x.sshiftRight s).toNat = x.toNat / 2 ^ s ↔ s = 0 ∨ x.msb = false := by
  by_cases hm : x.msb = false
  · simp [BitVec.toNat_sshiftRight_of_msb_false hm, Nat.shiftRight_eq_div_pow, hm]
  rcases Nat.eq_zero_or_pos s with rfl | hs
  · simp
  · -- the result has the top bit set, half of a number has not
    have hx : x.toInt < 0 := by simpa [BitVec.msb_eq_toInt] using hm
    have hneg : (x.sshiftRight s).toInt < 0 := by
      rw [toInt_sshiftRight_eq]
      exact Int.ediv_neg_of_neg_of_pos hx (by positivity)
    have htop : 2 ^ 31 ≤ (x.sshiftRight s).toNat := by
      rw [BitVec.toInt_eq_toNat_cond] at hneg
      split_ifs at hneg <;> omega
    have hhalf : x.toNat / 2 ^ s ≤ x.toNat / 2 :=
      Nat.div_le_div_left (by simpa using Nat.pow_le_pow_right (by decide : 0 < 2) hs) (by decide)
    have hlt := x.isLt
    exact iff_of_false (by omega) (not_or.mpr ⟨hs.ne', hm⟩)

/-- **Right shifts.** The signed ones are right; the unsigned ones of numbers
with the top bit clear, and by 0. -/
theorem right_shifts_iff (hf : m.Fetches value pageTable)
    (hop : (decode value).opCode = .srl ∨ (decode value).opCode = .sra ∨
      (decode value).opCode = .srlv ∨ (decode value).opCode = .srav) :
    (∃ v, ShiftedRight (decode value).opCode (m.registers (gpr (decode value).rt))
        (shiftAmount value m.registers) v ∧
      m.Stores value pageTable (decode value).rd v) ↔
    ((decode value).opCode = .sra ∨ (decode value).opCode = .srav) ∨
      shiftAmount value m.registers = 0 ∨
      (m.registers (gpr (decode value).rt)).msb = false := by
  have harm := operate_shift (r := m.registers) hop
  set x := m.registers (gpr (decode value).rt)
  set s := shiftAmount value m.registers
  -- the value stored is the one that the arm assigns
  have hv : (∃ v, ShiftedRight (decode value).opCode x s v ∧
      m.Stores value pageTable (decode value).rd v) ↔
      ShiftedRight (decode value).opCode x s (x.sshiftRight s) := by
    constructor
    · rintro ⟨v, hv, hs⟩
      have heq := harm.symm.trans hs.assigned
      simp only [Action.assign.injEq, List.cons.injEq, Prod.mk.injEq, true_and, and_true] at heq
      rwa [heq]
    · exact fun h => ⟨_, h, hf.stores harm⟩
  rw [hv]
  rcases hop with ho | ho | ho | ho
  · simp only [ho, ShiftedRight, toNat_sshiftRight_iff, reduceCtorEq, or_self, false_or]
  · simp only [ho, ShiftedRight, toInt_sshiftRight_eq, true_or]
  · simp only [ho, ShiftedRight, toNat_sshiftRight_iff, reduceCtorEq, or_self, false_or]
  · simp only [ho, ShiftedRight, toInt_sshiftRight_eq, or_true, true_or]

/-- `srl r10,r9,1` of 4: the top bit is clear. -/
theorem right_shifts_iff_four :
    let r : Registers := fun x => if x = 9 then 4 else 0
    ∃ v pageTable, v.toNat = 4 / 2 ^ 1 ∧
      (Machine.ofWord 0x00095042 r).Stores 0x00095042 pageTable 10 v := by
  intro r
  obtain ⟨v, hv, hs⟩ := (right_shifts_iff (Machine.fetches_ofWord 0x00095042 (r := r) rfl)
    (Or.inl (by decide))).mpr (Or.inr (Or.inr (by decide)))
  exact ⟨v, _, hv, hs⟩

/-- `srl r10,r9,1` of 2^31 stores 3 * 2^30, and the zero shifted in makes 2^30. -/
theorem srl_shifts_sign :
    let m := Machine.ofWord 0x00095042 fun x => if x = 9 then 0x80000000 else 0
    (∃ pageTable, m.Stores 0x00095042 pageTable 10 0xc0000000) ∧
      ¬ ∃ v pageTable, ShiftedRight .srl 0x80000000 1 v ∧ m.Stores 0x00095042 pageTable 10 v := by
  intro m
  have harm : operate (decode 0x00095042) m.registers = .assign [(gpr 10, 0xc0000000)]
      (m.registers nextPCReg + 4) :=
    rfl
  refine ⟨⟨_, (Machine.fetches_ofWord 0x00095042 rfl).stores harm⟩, ?_⟩
  rintro ⟨v, pageTable, hv, hs⟩
  have heq := harm.symm.trans hs.assigned
  simp only [Action.assign.injEq, List.cons.injEq, Prod.mk.injEq, true_and, and_true] at heq
  subst heq
  revert hv
  unfold ShiftedRight
  decide

end Nachos
