/-
# What the simulator asks of the host (`machine/mipssim.cc`)

`oneInstruction` of `MipsSim` has the tables, the registers and the division
of Lean, which have a value everywhere. Here the same function is written
with the checks that C++ does not make: the subscripts of the tables and of
`registers` are computed as the source computes them and compared with the
bounds, a division is refused where it is undefined, and the `default` of the
`switch` is a fault.

A user program can bring about none of these faults but one
(`oneInstruction_eq`): `OP_DIV` looks for a zero divisor and not for the
quotient of -2^31 by -1, which is no `int`.

Key definitions: `Host.decode`, `Host.operate`, `Host.oneInstruction`, `Host.DivOverflow`.
Key theorems: `Host.decode_eq`, `Host.operate_eq`, `Host.oneInstruction_eq`, `no_fault_iff`.
-/
import Mathlib
import Nachos.Machine.Arithmetic
import Nachos.Machine.DelaySlot

namespace Nachos

namespace Host

/-- What the simulator does not survive. -/
inductive Fault
  /-- an array is indexed out of its bounds -/
  | subscript
  /-- a division by zero, or one whose quotient is no `int` -/
  | division
  /-- `ASSERT(FALSE)` -/
  | assertion
  deriving DecidableEq

/-- `table[i]`. -/
def subscript {α : Type} {n : ℕ} (table : Vector α n) (i : BitVec 32) : Except Fault α :=
  if h : i.toNat < n then .ok table[i.toNat] else .error .subscript

/-- A register number of an instruction: those of the general registers are
subscripts of `registers`. -/
def register (num : BitVec 32) : Except Fault (Fin 32) :=
  if h : num.toNat < numGPRegs then .ok ⟨num.toNat, h⟩ else .error .subscript

/-- `Instruction::Decode`. -/
def decode (value : BitVec 32) : Except Fault Instruction := do
  let rs ← register ((value >>> 21) &&& 0x1f)
  let rt ← register ((value >>> 16) &&& 0x1f)
  let rd ← register ((value >>> 11) &&& 0x1f)
  let opPtr ← subscript opTable ((value >>> 26) &&& 0x3f)
  let extra :=
    match opPtr.format with
    | .ifmt =>
      let extra := value &&& 0xffff
      if extra &&& 0x8000 ≠ 0 then extra ||| 0xffff0000 else extra
    | .rfmt => (value >>> 6) &&& 0x1f
    | .jfmt => value &&& 0x3ffffff
  let opCode ←
    match opPtr.opCode with
    | .op o => pure o
    | .special => subscript specialTable (value &&& 0x3f)
    | .bcond =>
      let i := value &&& 0x1f0000
      pure (if i = 0 then .bltz
        else if i = 0x10000 then .bgez
        else if i = 0x100000 then .bltzal
        else if i = 0x110000 then .bgezal
        else .unimp)
  return { opCode, rs, rt, rd, extra }

/-- Has `a / b` of two `int`s no meaning? -/
def Undefined (a b : BitVec 32) : Prop := b = 0 ∨ (a = signBit ∧ b = -1)

instance (a b : BitVec 32) : Decidable (Undefined a b) := inferInstanceAs (Decidable (_ ∨ _))

/-- `a / b` of two `int`s. -/
def quotient (a b : BitVec 32) : Except Fault (BitVec 32) :=
  if Undefined a b then .error .division else .ok (a.sdiv b)

/-- `a % b` of two `int`s. -/
def remainder (a b : BitVec 32) : Except Fault (BitVec 32) :=
  if Undefined a b then .error .division else .ok (a.srem b)

/-- `a / b` of two `unsigned int`s. -/
def uquotient (a b : BitVec 32) : Except Fault (BitVec 32) :=
  if b = 0 then .error .division else .ok (a / b)

/-- `a % b` of two `unsigned int`s. -/
def uremainder (a b : BitVec 32) : Except Fault (BitVec 32) :=
  if b = 0 then .error .division else .ok (a % b)

/-- The `switch` of `Machine::OneInstruction`: the arms that divide, the
`default`, and the others. -/
def operate (i : Instruction) (r : Registers) : Except Fault Action :=
  let rs := r (gpr i.rs)
  let rt := r (gpr i.rt)
  let setHiLo (hi lo : BitVec 32) : Action := .assign [(hiReg, hi), (loReg, lo)] (r nextPCReg + 4)
  match i.opCode with
  | .div =>
    if rt = 0 then .ok (setHiLo 0 0)
    else do
      let lo ← quotient rs rt
      let hi ← remainder rs rt
      return setHiLo hi lo
  | .divu =>
    if rt = 0 then .ok (setHiLo 0 0)
    else do
      let lo ← uquotient rs rt
      let hi ← uremainder rs rt
      return setHiLo hi lo
  | .rfe => .error .assertion
  | _ => .ok (Nachos.operate i r)

/-- `Machine::DelayedLoad`: `registers[LoadReg]` is a subscript. -/
def delayedLoad (r : Registers) (nextReg nextValue : BitVec 32) : Except Fault Registers :=
  if (r loadReg).toNat < numTotalRegs then .ok (Nachos.delayedLoad r nextReg nextValue)
  else .error .subscript

/-- `Machine::RaiseException`, up to the handler. -/
def raiseException (m : Machine) (which : ExceptionType) (badVAddr : BitVec 32) :
    Except Fault Step := do
  let _ ← delayedLoad (writeRegister m.registers badVAddrReg badVAddr) 0 0
  return .exception which badVAddr m

/-- The rest of `OneInstruction`, after an arm that did not return. -/
def retire (m : Machine) (assigned : List (Fin numTotalRegs × BitVec 32))
    (pcAfter nextLoadReg nextLoadValue : BitVec 32) : Except Fault Step := do
  let r ← delayedLoad (assignAll m.registers assigned) nextLoadReg nextLoadValue
  return .done { m with registers := advance r pcAfter }

/-- The access to memory of an arm, and what follows. -/
def perform (m : Machine) : Action → Except Fault Step
  | .assign assigned pcAfter => retire m assigned pcAfter 0 0
  | .load addr w rt convert =>
    match readMem m.mainMemory m.pageTable addr w with
    | .error which => raiseException m which addr
    | .ok (value, pt) =>
      retire { m with pageTable := pt } [] (m.registers nextPCReg + 4) (regNum rt) (convert value)
  | .store addr w value =>
    match writeMem m.mainMemory m.pageTable addr w value with
    | .error which => raiseException m which addr
    | .ok (mem, pt) =>
      retire { m with mainMemory := mem, pageTable := pt } [] (m.registers nextPCReg + 4) 0 0
  | .update addr merge =>
    match readMem m.mainMemory m.pageTable addr .word with
    | .error which => raiseException m which addr
    | .ok (value, pt) =>
      match writeMem m.mainMemory pt addr .word (merge value) with
      | .error which => raiseException { m with pageTable := pt } which addr
      | .ok (mem, pt') =>
        retire { m with mainMemory := mem, pageTable := pt' } [] (m.registers nextPCReg + 4) 0 0
  | .raise which badVAddr => raiseException m which badVAddr
  | .crash => .error .assertion

/-- `Machine::OneInstruction`. -/
def oneInstruction (m : Machine) : Except Fault Step :=
  match readMem m.mainMemory m.pageTable (m.registers pcReg) .word with
  | .error which => raiseException m which (m.registers pcReg)
  | .ok (raw, pt) => do
    let i ← decode raw
    let action ← operate i m.registers
    perform { m with pageTable := pt } action

/-! ### Decoding -/

theorem toNat_field (value : BitVec 32) (k n : ℕ) (hn : 2 ^ n - 1 < 2 ^ 32) :
    ((value >>> k) &&& BitVec.ofNat 32 (2 ^ n - 1)).toNat = (value.extractLsb' k n).toNat := by
  rw [BitVec.toNat_and, BitVec.toNat_ushiftRight, BitVec.extractLsb'_toNat, BitVec.toNat_ofNat,
    Nat.mod_eq_of_lt hn, Nat.and_two_pow_sub_one_eq_mod]

/-- Five bits are the number of a general register. -/
theorem register_field (value : BitVec 32) (k : ℕ) :
    register ((value >>> k) &&& 0x1f) = .ok (value.extractLsb' k 5).toFin := by
  have h : ((value >>> k) &&& 0x1f).toNat = (value.extractLsb' k 5).toNat :=
    toNat_field value k 5 (by decide)
  have hlt : ((value >>> k) &&& 0x1f).toNat < numGPRegs := h ▸ (value.extractLsb' k 5).isLt
  rw [register, dif_pos hlt]
  exact congrArg Except.ok (Fin.ext h)

/-- Six bits are a subscript of a table of 64 entries. -/
theorem subscript_field {α : Type} (table : Vector α 64) (value : BitVec 32) (k : ℕ) :
    subscript table ((value >>> k) &&& 0x3f) = .ok (table.get (value.extractLsb' k 6).toFin) := by
  have h : ((value >>> k) &&& 0x3f).toNat = (value.extractLsb' k 6).toNat :=
    toNat_field value k 6 (by decide)
  have hlt : ((value >>> k) &&& 0x3f).toNat < 64 := h ▸ (value.extractLsb' k 6).isLt
  rw [subscript, dif_pos hlt]
  simp only [h]
  rfl

/-- **`Decode` stays in its tables.** -/
theorem decode_eq (value : BitVec 32) : decode value = .ok (Nachos.decode value) := by
  have hspecial : subscript specialTable (value &&& 0x3f) =
      .ok (specialTable.get (value.extractLsb' 0 6).toFin) := by
    have h := subscript_field specialTable value 0
    rwa [BitVec.ushiftRight_zero] at h
  simp only [decode, register_field, subscript_field, Nachos.decode, bind, Except.bind]
  cases hop : (opTable.get (value.extractLsb' 26 6).toFin).opCode with
  | op o => rfl
  | special =>
    rw [hspecial]
    rfl
  | bcond => rfl

theorem opTable_ne_rfe (k : Fin 64) : (opTable.get k).opCode ≠ .op .rfe := by
  revert k
  decide

theorem specialTable_ne_rfe (k : Fin 64) : specialTable.get k ≠ .rfe := by
  revert k
  decide

/-- **Every code that `Decode` leaves has an arm.** -/
theorem decode_ne_rfe (value : BitVec 32) : (Nachos.decode value).opCode ≠ .rfe := by
  simp only [Nachos.decode]
  split
  · rename_i o ho
    rintro rfl
    exact opTable_ne_rfe _ ho
  · exact specialTable_ne_rfe _
  · split_ifs <;> exact OpCode.noConfusion

/-! ### Execution -/

variable {m : Machine} {i : Instruction} {r : Registers} {ws : List (Fin numTotalRegs × BitVec 32)}

/-- `OP_DIV` of -2^31 by -1. -/
def DivOverflow (i : Instruction) (r : Registers) : Prop :=
  i.opCode = .div ∧ r (gpr i.rs) = signBit ∧ r (gpr i.rt) = -1

instance (i : Instruction) (r : Registers) : Decidable (DivOverflow i r) :=
  inferInstanceAs (Decidable (_ ∧ _))

/-- The arms divide where that has a meaning, with one exception. -/
theorem operate_eq (h : i.opCode ≠ .rfe) :
    operate i r = if DivOverflow i r then .error .division else .ok (Nachos.operate i r) := by
  obtain ⟨op, rs, rt, rd, extra⟩ := i
  cases op
  case div =>
    by_cases h0 : r (gpr rt) = 0
    · have hne : ¬ DivOverflow ⟨.div, rs, rt, rd, extra⟩ r := by
        rintro ⟨-, -, h1⟩
        rw [h0] at h1
        exact absurd h1 (by decide)
      rw [if_neg hne]
      simp only [operate, Nachos.operate, h0, if_true]
    · have hiff : Undefined (r (gpr rs)) (r (gpr rt)) ↔
          DivOverflow ⟨.div, rs, rt, rd, extra⟩ r := by
        unfold Undefined DivOverflow
        simp only [h0, false_or, true_and]
      by_cases hd : DivOverflow ⟨.div, rs, rt, rd, extra⟩ r
      · rw [if_pos hd]
        simp only [operate, quotient, h0, if_false, if_pos (hiff.mpr hd)]
        rfl
      · have hno : ¬ (r (gpr rs) = signBit ∧ r (gpr rt) = -1) := fun hc => hd ⟨rfl, hc.1, hc.2⟩
        rw [if_neg hd]
        simp only [operate, Nachos.operate, quotient, remainder, h0, if_false,
          if_neg (mt hiff.mp hd), if_neg hno]
        rfl
  case divu =>
    rw [if_neg (by rintro ⟨h1, -⟩; cases h1)]
    by_cases h0 : r (gpr rt) = 0
    · simp only [operate, Nachos.operate, h0, if_true]
    · simp only [operate, Nachos.operate, uquotient, uremainder, h0, if_false]
      rfl
  case rfe => exact absurd rfl h
  -- the arms that do not divide
  all_goals
    rw [if_neg (by rintro ⟨h1, -⟩; cases h1)]
    rfl

theorem delayedLoad_eq (h : (r loadReg).toNat < 32) (n v : BitVec 32) :
    delayedLoad r n v = .ok (Nachos.delayedLoad r n v) :=
  if_pos (h.trans (by decide))

theorem raiseException_eq (hr : Regular m.registers) (which : ExceptionType)
    (badVAddr : BitVec 32) :
    raiseException m which badVAddr = .ok (.exception which badVAddr m) := by
  have hb : Regular (writeRegister m.registers badVAddrReg badVAddr) := hr
  rw [raiseException, delayedLoad_eq hb.2]
  rfl

theorem retire_eq (hl : (assignAll m.registers ws loadReg).toNat < 32) (pc n v : BitVec 32) :
    retire m ws pc n v = .ok (Nachos.retire m ws pc n v) := by
  rw [retire, delayedLoad_eq hl]
  rfl

theorem retire_nil (hl : (m.registers loadReg).toNat < 32) (pc n v : BitVec 32) :
    retire m [] pc n v = .ok (Nachos.retire m [] pc n v) :=
  retire_eq (show (assignAll m.registers [] loadReg).toNat < 32 from hl) pc n v

/-- What follows an arm is in bounds: no arm assigns `LoadReg`. -/
theorem perform_eq (hr : Regular m.registers) {A : Action} (hA : A ≠ .crash)
    (hws : ∀ ws pc, A = .assign ws pc → (assignAll m.registers ws loadReg).toNat < 32) :
    perform m A = .ok (Nachos.perform m A) := by
  cases A with
  | assign ws pc => exact retire_eq (hws ws pc rfl) pc 0 0
  | load addr w rt f =>
    simp only [perform, Nachos.perform]
    cases readMem m.mainMemory m.pageTable addr w with
    | error which => exact raiseException_eq hr which addr
    | ok o => exact retire_nil (m := { m with pageTable := o.2 }) hr.2 _ _ _
  | store addr w value =>
    simp only [perform, Nachos.perform]
    cases writeMem m.mainMemory m.pageTable addr w value with
    | error which => exact raiseException_eq hr which addr
    | ok o => exact retire_nil (m := { m with mainMemory := o.1, pageTable := o.2 }) hr.2 _ _ _
  | update addr merge =>
    simp only [perform, Nachos.perform]
    cases readMem m.mainMemory m.pageTable addr .word with
    | error which => exact raiseException_eq hr which addr
    | ok o =>
      simp only
      cases writeMem m.mainMemory o.2 addr .word (merge o.1) with
      | error which => exact raiseException_eq (m := { m with pageTable := o.2 }) hr which addr
      | ok o => exact retire_nil (m := { m with mainMemory := o.1, pageTable := o.2 }) hr.2 _ _ _
  | raise which badVAddr => exact raiseException_eq hr which badVAddr
  | crash => exact absurd rfl hA

/-- Without the overflow no arm stops the host. -/
theorem operate_ne_crash (h : i.opCode ≠ .rfe) (hd : ¬ DivOverflow i r) :
    Nachos.operate i r ≠ .crash := by
  obtain ⟨op, rs, rt, rd, extra⟩ := i
  cases op
  case rfe => exact absurd rfl h
  case div =>
    have hno : ¬ (r (gpr rs) = signBit ∧ r (gpr rt) = -1) := fun hc => hd ⟨rfl, hc.1, hc.2⟩
    simp only [Nachos.operate, if_neg hno]
    split_ifs <;> simp
  all_goals
    simp only [Nachos.operate]
    (try split_ifs) <;> simp

/-- **The only fault** is that of the division. -/
theorem oneInstruction_eq (hr : Regular m.registers) : oneInstruction m =
    match readMem m.mainMemory m.pageTable (m.registers pcReg) .word with
    | .error _ => .ok (Nachos.oneInstruction m)
    | .ok (raw, _) =>
      if DivOverflow (Nachos.decode raw) m.registers then .error .division
        else .ok (Nachos.oneInstruction m) := by
  unfold oneInstruction Nachos.oneInstruction
  cases readMem m.mainMemory m.pageTable (m.registers pcReg) .word with
  | error which => exact raiseException_eq hr which _
  | ok o =>
    obtain ⟨raw, pt⟩ := o
    have hrfe := decode_ne_rfe raw
    simp only [decode_eq, operate_eq hrfe, bind, Except.bind]
    by_cases hd : DivOverflow (Nachos.decode raw) m.registers
    · simp only [if_pos hd]
    · simp only [if_neg hd]
      refine perform_eq (m := { m with pageTable := pt }) hr (operate_ne_crash hrfe hd)
        fun ws pc hA => ?_
      rw [assignAll_high (operate_assigned hA) (by decide)]
      exact hr.2

end Host

open Host (Fault DivOverflow)

/-- **No user instruction crashes the simulator**, but one division does. -/
theorem no_fault_iff (m : Machine) (hr : Regular m.registers) :
    (∃ step, Host.oneInstruction m = .ok step) ↔
      ¬ ∃ raw pageTable, m.Fetches raw pageTable ∧ (decode raw).opCode = .div ∧
        m.registers (gpr (decode raw).rs) = signBit ∧ m.registers (gpr (decode raw).rt) = -1 := by
  rw [Host.oneInstruction_eq hr]
  unfold Machine.Fetches
  cases readMem m.mainMemory m.pageTable (m.registers pcReg) .word with
  | error which => simp
  | ok o =>
    obtain ⟨raw, pt⟩ := o
    by_cases hd : DivOverflow (decode raw) m.registers
    · simp only [if_pos hd]
      exact iff_of_false (by simp) fun hno => hno ⟨raw, pt, rfl, hd⟩
    · simp only [if_neg hd]
      refine iff_of_true ⟨_, rfl⟩ ?_
      rintro ⟨raw', pt', heq, hd'⟩
      cases heq
      exact hd hd'

/-- `div r8,r9` of 7 by -2. -/
theorem no_fault_iff_seven :
    let r : Registers := fun x => if x = 8 then 7 else if x = 9 then -2 else 0
    ∃ step, Host.oneInstruction (Machine.ofWord 0x0109001a r) = .ok step := by
  intro r
  refine (no_fault_iff _ ⟨rfl, by decide⟩).mpr ?_
  rintro ⟨raw, pt, hf, -, hrs, -⟩
  have heq := hf.symm.trans (Machine.fetches_ofWord 0x0109001a (r := r) rfl)
  cases heq
  exact absurd hrs (by decide)

/-- `div r8,r9` of -2^31 by -1. -/
theorem div_faults :
    let r : Registers := fun x => if x = 8 then 0x80000000 else if x = 9 then 0xffffffff else 0
    Regular r ∧ Host.oneInstruction (Machine.ofWord 0x0109001a r) = .error Fault.division := by
  intro r
  have hr : Regular r := ⟨rfl, by decide⟩
  refine ⟨hr, ?_⟩
  have hf := Machine.fetches_ofWord 0x0109001a (r := r) rfl
  unfold Machine.Fetches at hf
  have hd : DivOverflow (decode 0x0109001a) r := by decide
  rw [Host.oneInstruction_eq hr, hf]
  exact if_pos hd

end Nachos
