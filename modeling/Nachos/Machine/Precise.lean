/-
# Precise exceptions (`machine/mipssim.cc`, `machine/machine.cc`)

The comment of `Machine::OneInstruction` promises that an instruction that
traps can be started again: nothing of it may be done when the kernel is
entered. `oneInstruction` of `MipsSim` decides at its end whether there is an
exception, so it cannot say what happened before. Here the function is
written statement by statement, with the `return` after every trap, on a
simulator whose calls of `RaiseException` are noted with what the handler
finds (`Simulator.execute`, `Simulator.oneInstruction`). The handler is any
function, and need not come back.

The two agree, arm by arm (`run_oneInstruction`), so

* an instruction that calls `RaiseException` calls it once and returns;
* the handler finds the machine as it was before the instruction, with the
  pending load applied (`exceptions_precise`). Only a use bit may be set, by
  the fetch, or by the read of `SWL` and `SWR` before a write that traps.

Key definitions: `Simulator.Code`, `Simulator.execute`, `Simulator.oneInstruction`,
`Raised.Precise`.
Key theorems: `Simulator.run_oneInstruction`, `oneInstruction_exception`, `exceptions_precise`.
-/
import Mathlib
import Nachos.Base.Traced
import Nachos.Machine.DelaySlot
import Nachos.Machine.Interrupt

namespace Nachos

open Bytes (Byte Store)

/-! ### The simulator, statement by statement -/

/-- The machine, and the `status` of the interrupts. -/
structure Simulator where
  machine : Machine
  status : MachineStatus

/-- A call of `RaiseException`: its arguments, and the simulator when
`ExceptionHandler` is entered. -/
structure Raised where
  which : ExceptionType
  badVAddr : BitVec 32
  entered : Simulator

/-- Why a call does not come back. -/
inductive Halt
  /-- the host stops the simulator -/
  | crash
  /-- the kernel does not return from `ExceptionHandler` -/
  | kernel

/-- `ExceptionHandler`. -/
abbrev Handler := ExceptionType → Simulator → Except Halt Simulator

namespace Simulator

/-- A piece of `mipssim.cc`: it works on the simulator, and the calls of
`RaiseException` that it makes are noted. -/
abbrev Code := StateT Simulator (Traced Halt Raised)

/-- `registers[num]`. -/
def reg (num : Fin numTotalRegs) : Code (BitVec 32) := do return (← get).machine.registers num

/-- `registers[num] = value`. -/
def setReg (num : Fin numTotalRegs) (value : BitVec 32) : Code Unit :=
  modify fun s => { s with machine.registers := writeRegister s.machine.registers num value }

/-- `Interrupt::setStatus`. -/
def setStatus (status : MachineStatus) : Code Unit := modify fun s => { s with status }

/-- `Machine::DelayedLoad`. -/
def delayedLoad (nextReg nextValue : BitVec 32) : Code Unit :=
  modify fun s =>
    { s with machine.registers := Nachos.delayedLoad s.machine.registers nextReg nextValue }

/-- The host stops the simulator. -/
def crash : Code Unit := fun _ => Traced.stop .crash

variable (handler : Handler)

/-- `ExceptionHandler(which)`. -/
def exceptionHandler (which : ExceptionType) : Code Unit := fun s =>
  Traced.lift ((handler which s).map fun s => ((), s))

/-- `Machine::RaiseException`. -/
def raiseException (which : ExceptionType) (badVAddr : BitVec 32) : Code Unit := do
  setReg badVAddrReg badVAddr
  -- finish anything in progress
  delayedLoad 0 0
  setStatus .systemMode
  let entered ← get
  StateT.lift (Traced.note ⟨which, badVAddr, entered⟩)
  exceptionHandler handler which
  setStatus .userMode

/-- `Machine::ReadMem`: the value, or `FALSE`. -/
def readMem (addr : BitVec 32) (w : Width) : Code (Option (BitVec 32)) := do
  let s ← get
  match translate s.machine.pageTable addr w false with
  | .error exception =>
    raiseException handler exception addr
    return none
  | .ok (p, pageTable) =>
    set { s with machine.pageTable := pageTable }
    return some (fetch s.machine.mainMemory p w)

/-- `Machine::WriteMem`. -/
def writeMem (addr : BitVec 32) (w : Width) (value : BitVec 32) : Code Bool := do
  let s ← get
  match translate s.machine.pageTable addr w true with
  | .error exception =>
    raiseException handler exception addr
    return false
  | .ok (p, pageTable) =>
    set { s with machine.pageTable := pageTable
                 machine.mainMemory := Bytes.write s.machine.mainMemory p (encode value w) }
    return true

/-- The end of `OneInstruction`, after the `switch`. -/
def retire (nextLoadReg nextLoadValue pcAfter : BitVec 32) : Code Unit := do
  delayedLoad nextLoadReg nextLoadValue
  setReg prevPCReg (← reg pcReg)
  setReg pcReg (← reg nextPCReg)
  setReg nextPCReg pcAfter

/-- `OneInstruction` after `Decode`. A `case` that falls through is written out. -/
def execute (i : Instruction) : Code Unit := do
  let mut nextLoadReg : BitVec 32 := 0
  let mut nextLoadValue : BitVec 32 := 0
  let mut pcAfter := (← reg nextPCReg) + 4
  match i.opCode with
  | .add =>
    let sum := (← reg (gpr i.rs)) + (← reg (gpr i.rt))
    if ((← reg (gpr i.rs)) ^^^ (← reg (gpr i.rt))) &&& signBit = 0 ∧
        ((← reg (gpr i.rs)) ^^^ sum) &&& signBit ≠ 0 then
      raiseException handler .overflowException 0
      return
    setReg (gpr i.rd) sum
  | .addi =>
    let sum := (← reg (gpr i.rs)) + i.extra
    if ((← reg (gpr i.rs)) ^^^ i.extra) &&& signBit = 0 ∧ (i.extra ^^^ sum) &&& signBit ≠ 0 then
      raiseException handler .overflowException 0
      return
    setReg (gpr i.rt) sum
  | .addiu => setReg (gpr i.rt) ((← reg (gpr i.rs)) + i.extra)
  | .addu => setReg (gpr i.rd) ((← reg (gpr i.rs)) + (← reg (gpr i.rt)))
  | .and => setReg (gpr i.rd) ((← reg (gpr i.rs)) &&& (← reg (gpr i.rt)))
  | .andi => setReg (gpr i.rt) ((← reg (gpr i.rs)) &&& (i.extra &&& 0xffff))
  | .beq =>
    if (← reg (gpr i.rs)) = (← reg (gpr i.rt)) then
      pcAfter := (← reg nextPCReg) + indexToAddr i.extra
  | .bgezal =>
    setReg (gpr r31) ((← reg nextPCReg) + 4)
    if (← reg (gpr i.rs)) &&& signBit = 0 then pcAfter := (← reg nextPCReg) + indexToAddr i.extra
  | .bgez =>
    if (← reg (gpr i.rs)) &&& signBit = 0 then pcAfter := (← reg nextPCReg) + indexToAddr i.extra
  | .bgtz =>
    if BitVec.slt 0 (← reg (gpr i.rs)) then pcAfter := (← reg nextPCReg) + indexToAddr i.extra
  | .blez =>
    if BitVec.sle (← reg (gpr i.rs)) 0 then pcAfter := (← reg nextPCReg) + indexToAddr i.extra
  | .bltzal =>
    setReg (gpr r31) ((← reg nextPCReg) + 4)
    if (← reg (gpr i.rs)) &&& signBit ≠ 0 then pcAfter := (← reg nextPCReg) + indexToAddr i.extra
  | .bltz =>
    if (← reg (gpr i.rs)) &&& signBit ≠ 0 then pcAfter := (← reg nextPCReg) + indexToAddr i.extra
  | .bne =>
    if (← reg (gpr i.rs)) ≠ (← reg (gpr i.rt)) then
      pcAfter := (← reg nextPCReg) + indexToAddr i.extra
  | .div =>
    if (← reg (gpr i.rt)) = 0 then
      setReg loReg 0
      setReg hiReg 0
    -- `-2^31 / -1`
    else if (← reg (gpr i.rs)) = signBit ∧ (← reg (gpr i.rt)) = -1 then
      crash
    else
      setReg loReg ((← reg (gpr i.rs)).sdiv (← reg (gpr i.rt)))
      setReg hiReg ((← reg (gpr i.rs)).srem (← reg (gpr i.rt)))
  | .divu =>
    let rs ← reg (gpr i.rs)
    let rt ← reg (gpr i.rt)
    if rt = 0 then
      setReg loReg 0
      setReg hiReg 0
    else
      setReg loReg (rs / rt)
      setReg hiReg (rs % rt)
  | .jal =>
    setReg (gpr r31) ((← reg nextPCReg) + 4)
    pcAfter := (pcAfter &&& 0xf0000000) ||| indexToAddr i.extra
  | .j => pcAfter := (pcAfter &&& 0xf0000000) ||| indexToAddr i.extra
  | .jalr =>
    setReg (gpr i.rd) ((← reg nextPCReg) + 4)
    pcAfter ← reg (gpr i.rs)
  | .jr => pcAfter ← reg (gpr i.rs)
  | .lb | .lbu =>
    let tmp := (← reg (gpr i.rs)) + i.extra
    let some value ← readMem handler tmp .byte | return
    nextLoadReg := regNum i.rt
    nextLoadValue :=
      if value &&& 0x80 ≠ 0 ∧ i.opCode = .lb then value ||| 0xffffff00 else value &&& 0xff
  | .lh | .lhu =>
    let tmp := (← reg (gpr i.rs)) + i.extra
    if tmp &&& 1 ≠ 0 then
      raiseException handler .addressErrorException tmp
      return
    let some value ← readMem handler tmp .half | return
    nextLoadReg := regNum i.rt
    nextLoadValue :=
      if value &&& 0x8000 ≠ 0 ∧ i.opCode = .lh then value ||| 0xffff0000 else value &&& 0xffff
  | .lui => setReg (gpr i.rt) (i.extra <<< 16)
  | .lw =>
    let tmp := (← reg (gpr i.rs)) + i.extra
    if tmp &&& 3 ≠ 0 then
      raiseException handler .addressErrorException tmp
      return
    let some value ← readMem handler tmp .word | return
    nextLoadReg := regNum i.rt
    nextLoadValue := value
  | .lwl =>
    let tmp := (← reg (gpr i.rs)) + i.extra
    let byte := tmp &&& 3
    let some value ← readMem handler (tmp - byte) .word | return
    if (← reg loadReg) = regNum i.rt then nextLoadValue ← reg loadValueReg
    else nextLoadValue ← reg (gpr i.rt)
    nextLoadValue := mergeLWL (3 - byte) nextLoadValue value
    nextLoadReg := regNum i.rt
  | .lwr =>
    let tmp := (← reg (gpr i.rs)) + i.extra
    let byte := tmp &&& 3
    let some value ← readMem handler (tmp - byte) .word | return
    if (← reg loadReg) = regNum i.rt then nextLoadValue ← reg loadValueReg
    else nextLoadValue ← reg (gpr i.rt)
    nextLoadValue := mergeLWR (3 - byte) nextLoadValue value
    nextLoadReg := regNum i.rt
  | .mfhi => setReg (gpr i.rd) (← reg hiReg)
  | .mflo => setReg (gpr i.rd) (← reg loReg)
  | .mthi => setReg hiReg (← reg (gpr i.rs))
  | .mtlo => setReg loReg (← reg (gpr i.rs))
  | .mult =>
    let (hi, lo) := Mult (← reg (gpr i.rs)) (← reg (gpr i.rt)) true
    setReg hiReg hi
    setReg loReg lo
  | .multu =>
    let (hi, lo) := Mult (← reg (gpr i.rs)) (← reg (gpr i.rt)) false
    setReg hiReg hi
    setReg loReg lo
  | .nor => setReg (gpr i.rd) (~~~((← reg (gpr i.rs)) ||| (← reg (gpr i.rt))))
  | .or => setReg (gpr i.rd) ((← reg (gpr i.rs)) ||| (← reg (gpr i.rt)))
  | .ori => setReg (gpr i.rt) ((← reg (gpr i.rs)) ||| (i.extra &&& 0xffff))
  | .sb =>
    unless ← writeMem handler ((← reg (gpr i.rs)) + i.extra) .byte (← reg (gpr i.rt)) do return
  | .sh =>
    unless ← writeMem handler ((← reg (gpr i.rs)) + i.extra) .half (← reg (gpr i.rt)) do return
  | .sll => setReg (gpr i.rd) ((← reg (gpr i.rt)) <<< i.extra)
  | .sllv => setReg (gpr i.rd) ((← reg (gpr i.rt)) <<< ((← reg (gpr i.rs)) &&& 0x1f))
  | .slt => setReg (gpr i.rd) (if (← reg (gpr i.rs)).slt (← reg (gpr i.rt)) then 1 else 0)
  | .slti => setReg (gpr i.rt) (if (← reg (gpr i.rs)).slt i.extra then 1 else 0)
  | .sltiu => setReg (gpr i.rt) (if (← reg (gpr i.rs)) < i.extra then 1 else 0)
  | .sltu => setReg (gpr i.rd) (if (← reg (gpr i.rs)) < (← reg (gpr i.rt)) then 1 else 0)
  | .sra => setReg (gpr i.rd) ((← reg (gpr i.rt)).sshiftRight i.extra.toNat)
  | .srav => setReg (gpr i.rd) ((← reg (gpr i.rt)).sshiftRight ((← reg (gpr i.rs)) &&& 0x1f).toNat)
  | .srl => setReg (gpr i.rd) ((← reg (gpr i.rt)).sshiftRight i.extra.toNat)
  | .srlv => setReg (gpr i.rd) ((← reg (gpr i.rt)).sshiftRight ((← reg (gpr i.rs)) &&& 0x1f).toNat)
  | .sub =>
    let diff := (← reg (gpr i.rs)) - (← reg (gpr i.rt))
    if ((← reg (gpr i.rs)) ^^^ (← reg (gpr i.rt))) &&& signBit ≠ 0 ∧
        ((← reg (gpr i.rs)) ^^^ diff) &&& signBit ≠ 0 then
      raiseException handler .overflowException 0
      return
    setReg (gpr i.rd) diff
  | .subu => setReg (gpr i.rd) ((← reg (gpr i.rs)) - (← reg (gpr i.rt)))
  | .sw =>
    unless ← writeMem handler ((← reg (gpr i.rs)) + i.extra) .word (← reg (gpr i.rt)) do return
  | .swl =>
    let tmp := (← reg (gpr i.rs)) + i.extra
    let byte := tmp &&& 3
    let some value ← readMem handler (tmp - byte) .word | return
    let value := mergeSWL (3 - byte) (← reg (gpr i.rt)) value
    unless ← writeMem handler (tmp - byte) .word value do return
  | .swr =>
    let tmp := (← reg (gpr i.rs)) + i.extra
    let byte := tmp &&& 3
    let some value ← readMem handler (tmp - byte) .word | return
    let value := mergeSWR (3 - byte) (← reg (gpr i.rt)) value
    unless ← writeMem handler (tmp - byte) .word value do return
  | .syscall =>
    raiseException handler .syscallException 0
    return
  | .xor => setReg (gpr i.rd) ((← reg (gpr i.rs)) ^^^ (← reg (gpr i.rt)))
  | .xori => setReg (gpr i.rt) ((← reg (gpr i.rs)) ^^^ (i.extra &&& 0xffff))
  | .res | .unimp =>
    raiseException handler .illegalInstrException 0
    return
  | .rfe => crash
  retire nextLoadReg nextLoadValue pcAfter

/-- `Machine::OneInstruction`. -/
def oneInstruction : Code Unit := do
  let some raw ← readMem handler (← reg pcReg) .word | return
  execute handler (decode raw)

/-! ### Runs -/

variable {handler : Handler} {s : Simulator}

theorem run_reg_bind {α : Type} (x : Fin numTotalRegs) (k : BitVec 32 → Code α) :
    (reg x >>= k).run s = (k (s.machine.registers x)).run s := by
  have hreg : (reg x).run s = pure (s.machine.registers x, s) := rfl
  rw [StateT.run_bind, hreg, pure_bind]

theorem run_setReg_bind {α : Type} (x : Fin numTotalRegs) (v : BitVec 32) (k : Unit → Code α) :
    (setReg x v >>= k).run s =
      (k ()).run { s with machine.registers := writeRegister s.machine.registers x v } := by
  have hset : (setReg x v).run s =
      pure ((), { s with machine.registers := writeRegister s.machine.registers x v }) := rfl
  rw [StateT.run_bind, hset, pure_bind]

/-- What an instruction does to the simulator. -/
def follow (handler : Handler) (status : MachineStatus) :
    Step → Traced Halt Raised (Unit × Simulator)
  | .done machine => pure ((), { machine, status })
  | .exception which badVAddr machine =>
    (raiseException handler which badVAddr).run { machine, status }
  | .crash => Traced.stop .crash

/-- What follows `ReadMem`, if `FALSE` makes the instruction return. -/
theorem run_readMem_bind {k : Option (BitVec 32) → Code Unit} (addr : BitVec 32) (w : Width)
    (hk : k none = pure ()) :
    (readMem handler addr w >>= k).run s =
      match Nachos.readMem s.machine.mainMemory s.machine.pageTable addr w with
      | .error exception => (raiseException handler exception addr).run s
      | .ok (value, pageTable) =>
        (k (some value)).run { s with machine.pageTable := pageTable } := by
  unfold readMem Nachos.readMem
  cases ht : translate s.machine.pageTable addr w false with
  | error exception => simp [ht, hk]
  | ok r => simp [ht]

/-- `WriteMem` as the last statement of an arm. -/
theorem run_writeMem_bind (addr : BitVec 32) (w : Width) (value pc : BitVec 32) :
    (writeMem handler addr w value >>= fun done => if done then retire 0 0 pc else pure ()).run s =
      match Nachos.writeMem s.machine.mainMemory s.machine.pageTable addr w value with
      | .error exception => (raiseException handler exception addr).run s
      | .ok (mainMemory, pageTable) =>
        (retire 0 0 pc).run
          { s with machine.mainMemory := mainMemory, machine.pageTable := pageTable } := by
  unfold writeMem Nachos.writeMem
  cases ht : translate s.machine.pageTable addr w true with
  | error exception => simp [ht]
  | ok r => simp [ht]

/-- A load, whatever its arm makes of the value. -/
theorem run_load {k : Option (BitVec 32) → Code Unit} {addr : BitVec 32} {w : Width} {rt : Fin 32}
    {convert : BitVec 32 → BitVec 32} (hnone : k none = pure ())
    (hsome : ∀ value (s' : Simulator), s'.machine.registers = s.machine.registers →
      (k (some value)).run s' =
        (retire (regNum rt) (convert value) (s.machine.registers nextPCReg + 4)).run s') :
    (readMem handler addr w >>= k).run s =
      follow handler s.status (perform s.machine (.load addr w rt convert)) := by
  rw [run_readMem_bind addr w hnone]
  simp only [perform]
  cases Nachos.readMem s.machine.mainMemory s.machine.pageTable addr w with
  | error exception => rfl
  | ok r => exact hsome r.1 _ rfl

/-- A store. -/
theorem run_store {addr : BitVec 32} {w : Width} {value : BitVec 32} :
    (writeMem handler addr w value >>= fun done =>
        if done then retire 0 0 (s.machine.registers nextPCReg + 4) else pure ()).run s =
      follow handler s.status (perform s.machine (.store addr w value)) := by
  rw [run_writeMem_bind]
  simp only [perform]
  cases Nachos.writeMem s.machine.mainMemory s.machine.pageTable addr w value with
  | error exception => rfl
  | ok r => rfl

/-- A read and a write of the same word: the write may trap where the read did not. -/
theorem run_update {k : Option (BitVec 32) → Code Unit} {addr : BitVec 32}
    {merge : BitVec 32 → BitVec 32} (hnone : k none = pure ())
    (hsome : ∀ value (s' : Simulator), s'.machine.registers = s.machine.registers →
      (k (some value)).run s' = (writeMem handler addr .word (merge value) >>= fun done =>
        if done then retire 0 0 (s.machine.registers nextPCReg + 4) else pure ()).run s') :
    (readMem handler addr .word >>= k).run s =
      follow handler s.status (perform s.machine (.update addr merge)) := by
  rw [run_readMem_bind addr .word hnone]
  simp only [perform]
  cases Nachos.readMem s.machine.mainMemory s.machine.pageTable addr .word with
  | error exception => rfl
  | ok r =>
    obtain ⟨value, pageTable⟩ := r
    refine (hsome value { s with machine.pageTable := pageTable } rfl).trans ?_
    rw [run_writeMem_bind]
    simp only
    cases Nachos.writeMem s.machine.mainMemory pageTable addr .word (merge value) with
    | error exception => rfl
    | ok r' => rfl

/-- `RaiseException(which, badVAddr); return;` -/
theorem run_raise (which : ExceptionType) (badVAddr : BitVec 32) :
    (raiseException handler which badVAddr >>= fun _ => pure ()).run s =
      follow handler s.status (perform s.machine (.raise which badVAddr)) :=
  congrArg (StateT.run · s) bind_pure_unit

/-- Lo is assigned first in the source. -/
theorem run_loHi (lo hi pc : BitVec 32) :
    (retire 0 0 pc).run { s with
        machine.registers :=
          writeRegister (writeRegister s.machine.registers loReg lo) hiReg hi } =
      follow handler s.status (perform s.machine (.assign [(hiReg, hi), (loReg, lo)] pc)) := by
  have hcomm : writeRegister (writeRegister s.machine.registers loReg lo) hiReg hi =
      assignAll s.machine.registers [(hiReg, hi), (loReg, lo)] :=
        Function.update_comm (by decide) _ _ _
  rw [hcomm]
  rfl

/-- On `i`, the statements do what `operate` and `perform` say. -/
def Agrees (handler : Handler) (i : Instruction) : Prop :=
  ∀ s : Simulator,
    (execute handler i).run s = follow handler s.status
    (perform s.machine (operate i s.machine.registers))

variable {i : Instruction}

/-- The arms that check for overflow. -/
theorem agrees_overflow (h : i.opCode = .add ∨ i.opCode = .addi ∨ i.opCode = .sub) :
    Agrees handler i := by
  obtain ⟨op, rs, rt, rd, extra⟩ := i
  intro s
  obtain rfl | rfl | rfl := h
  all_goals
    simp only [execute, operate, run_reg_bind]
    split_ifs
    · exact run_raise _ _
    · rfl

/-- The conditional branches. -/
theorem agrees_branch (h : i.opCode = .beq ∨ i.opCode = .bgez ∨ i.opCode = .bgezal ∨
      i.opCode = .bgtz ∨
    i.opCode = .blez ∨ i.opCode = .bltz ∨ i.opCode = .bltzal ∨ i.opCode = .bne) :
    Agrees handler i := by
  obtain ⟨op, rs, rt, rd, extra⟩ := i
  intro s
  obtain rfl | rfl | rfl | rfl | rfl | rfl | rfl | rfl := h
  all_goals
    simp only [execute, operate, run_reg_bind, run_setReg_bind, decide_eq_true_eq]
    split_ifs <;> rfl

/-- The divisions. -/
theorem agrees_div (h : i.opCode = .div ∨ i.opCode = .divu) : Agrees handler i := by
  obtain ⟨op, rs, rt, rd, extra⟩ := i
  intro s
  -- the operands are not Lo
  have hkeep : ∀ (v : BitVec 32) (x : Fin 32),
      writeRegister s.machine.registers loReg v (gpr x) = s.machine.registers (gpr x) :=
    fun v x => Function.update_of_ne (gpr_ne (by decide)) _ _
  obtain rfl | rfl := h
  · simp only [execute, operate, run_reg_bind]
    split_ifs with h0 h1
    · rw [run_setReg_bind, run_setReg_bind]
      exact run_loHi _ _ _
    · rw [run_reg_bind, run_reg_bind, if_pos h1]
      rfl
    · rw [run_reg_bind, run_reg_bind, if_neg h1]
      simp only [run_reg_bind, run_setReg_bind, hkeep]
      exact run_loHi _ _ _
  · simp only [execute, operate, run_reg_bind]
    split_ifs
    · rw [run_setReg_bind, run_setReg_bind]
      exact run_loHi _ _ _
    · rw [run_setReg_bind, run_setReg_bind]
      exact run_loHi _ _ _

/-- The loads. -/
theorem agrees_load (h : i.opCode = .lb ∨ i.opCode = .lbu ∨ i.opCode = .lw ∨ i.opCode = .lh ∨
      i.opCode = .lhu) :
    Agrees handler i := by
  obtain ⟨op, rs, rt, rd, extra⟩ := i
  intro s
  obtain rfl | rfl | rfl | rfl | rfl := h
  case inl | inr.inl =>
    simp only [execute, operate, run_reg_bind]
    refine run_load rfl fun value s' hs => ?_
    simp
  all_goals
    simp only [execute, operate, run_reg_bind]
    split_ifs
    · exact run_raise _ _
    · refine run_load rfl fun value s' hs => ?_
      simp

/-- The loads that merge. -/
theorem agrees_merge (h : i.opCode = .lwl ∨ i.opCode = .lwr) : Agrees handler i := by
  obtain ⟨op, rs, rt, rd, extra⟩ := i
  intro s
  obtain rfl | rfl := h
  all_goals
    simp only [execute, operate, run_reg_bind]
    refine run_load rfl fun value s' hs => ?_
    simp only [run_reg_bind, hs, mergeInto]
    split_ifs
    · rw [run_reg_bind, hs]
    · rw [run_reg_bind, hs]

/-- The stores. -/
theorem agrees_store (h : i.opCode = .sb ∨ i.opCode = .sh ∨ i.opCode = .sw ∨ i.opCode = .swl ∨
      i.opCode = .swr) :
    Agrees handler i := by
  obtain ⟨op, rs, rt, rd, extra⟩ := i
  intro s
  obtain rfl | rfl | rfl | rfl | rfl := h
  case inl | inr.inl | inr.inr.inl =>
    simp only [execute, operate, run_reg_bind]
    exact run_store
  all_goals
    simp only [execute, operate, run_reg_bind]
    refine run_update rfl fun value s' hs => ?_
    simp only [run_reg_bind, hs]

/-- The arms one by one. -/
theorem agrees (i : Instruction) : Agrees handler i := by
  obtain ⟨op, rs, rt, rd, extra⟩ := i
  cases op
  case add | addi | sub => exact agrees_overflow (by simp)
  case beq | bgez | bgezal | bgtz | blez | bltz | bltzal | bne => exact agrees_branch (by simp)
  case div | divu => exact agrees_div (by simp)
  case lb | lbu | lw | lh | lhu => exact agrees_load (by simp)
  case lwl | lwr => exact agrees_merge (by simp)
  case sb | sh | sw | swl | swr => exact agrees_store (by simp)
  case syscall | res | unimp => exact fun s => run_raise _ _
  -- the others assign registers, if anything, and go on
  all_goals
    intro s
    simp only [execute, operate, run_reg_bind, run_setReg_bind]
    rfl

/-- `Machine::OneInstruction`, statement by statement, does what the function
of the same name in `MipsSim` says, and makes the call of `RaiseException` it
ends with. -/
theorem run_oneInstruction :
    (oneInstruction handler).run s = follow handler s.status (Nachos.oneInstruction s.machine) := by
  unfold oneInstruction Nachos.oneInstruction
  rw [run_reg_bind, run_readMem_bind _ _ rfl]
  cases Nachos.readMem s.machine.mainMemory s.machine.pageTable
    (s.machine.registers pcReg) .word with
  | error exception => rfl
  | ok r => exact agrees (decode r.1) _

/-- The simulator when `RaiseException` enters the handler. -/
def entering (s : Simulator) (badVAddr : BitVec 32) : Simulator :=
  { machine := { s.machine with
      registers := Nachos.delayedLoad (writeRegister s.machine.registers badVAddrReg badVAddr) 0 0 }
    status := .systemMode }

/-- `RaiseException` calls the handler once. -/
theorem run_raiseException (which : ExceptionType) (badVAddr : BitVec 32) :
    (raiseException handler which badVAddr).run s =
      ⟨(handler which (s.entering badVAddr)).map fun s' => ((), { s' with status := .userMode }),
        [⟨which, badVAddr, s.entering badVAddr⟩]⟩ := by
  have hcall : (exceptionHandler handler which).run (s.entering badVAddr) =
      Traced.lift ((handler which (s.entering badVAddr)).map fun s' => ((), s')) := rfl
  calc (raiseException handler which badVAddr).run s
      = Traced.note ⟨which, badVAddr, s.entering badVAddr⟩ >>= fun _ =>
          (exceptionHandler handler which >>= fun _ => setStatus .userMode).run
            (s.entering badVAddr) := rfl
    _ = _ := by
      rw [Traced.note_bind, StateT.run_bind, hcall]
      cases handler which (s.entering badVAddr) with
      | error e => rfl
      | ok s' => rfl

end Simulator

/-! ### What an exception leaves alone -/

/-- The entry with its use bit cleared. -/
def TranslationEntry.clearUse (e : TranslationEntry) : TranslationEntry := { e with use := false }

/-- The tables differ at most in use bits. -/
def SameButUse (pt pt' : PageTable) : Prop := pt'.map (·.clearUse) = pt.map (·.clearUse)

variable {m m' : Machine} {pt pt' : PageTable} {which : ExceptionType} {badVAddr : BitVec 32}

/-- A read sets a use bit. -/
theorem readMem_sameButUse {mem : Store} {a v : BitVec 32} {w : Width}
    (h : readMem mem pt a w = .ok (v, pt')) :
    SameButUse pt pt' := by
  obtain ⟨p, ht, -⟩ := readMem_ok h
  obtain ⟨e, he, -, -, -, rfl⟩ := translate_ok ht
  exact map_set_of_eq he (by simp [TranslationEntry.clearUse])

/-- An access that traps has changed nothing but a use bit. -/
theorem perform_exception {A : Action} (h : perform m A = .exception which badVAddr m') :
    ∃ pt, m' = { m with pageTable := pt } ∧ SameButUse m.pageTable pt := by
  cases A with
  | assign ws pc => cases h
  | load addr w rt f =>
    simp only [perform] at h
    split at h
    · cases h
      exact ⟨m.pageTable, rfl, rfl⟩
    · cases h
  | store addr w value =>
    simp only [perform] at h
    split at h
    · cases h
      exact ⟨m.pageTable, rfl, rfl⟩
    · cases h
  | update addr merge =>
    simp only [perform] at h
    split at h
    · cases h
      exact ⟨m.pageTable, rfl, rfl⟩
    · rename_i value pt hr
      split at h
      · cases h
        exact ⟨pt, rfl, readMem_sameButUse hr⟩
      · cases h
  | raise which badVAddr =>
    cases h
    exact ⟨m.pageTable, rfl, rfl⟩
  | crash => cases h

/-- An instruction that raises an exception has assigned no register and no
byte of memory. -/
theorem oneInstruction_exception (h : oneInstruction m = .exception which badVAddr m') :
    ∃ pt, m' = { m with pageTable := pt } ∧ SameButUse m.pageTable pt := by
  unfold oneInstruction at h
  split at h
  · cases h
    exact ⟨m.pageTable, rfl, rfl⟩
  · rename_i raw pt hr
    obtain ⟨pt', rfl, hpt'⟩ := perform_exception h
    exact ⟨pt', rfl, hpt'.trans (readMem_sameButUse hr)⟩

/-- The simulator that the handler is entered on, against the machine `m` the
instruction started from. -/
structure Raised.Precise (call : Raised) (m : Machine) : Prop where
  pc : call.entered.machine.registers pcReg = m.registers pcReg
  nextPC : call.entered.machine.registers nextPCReg = m.registers nextPCReg
  prevPC : call.entered.machine.registers prevPCReg = m.registers prevPCReg
  hi : call.entered.machine.registers hiReg = m.registers hiReg
  lo : call.entered.machine.registers loReg = m.registers loReg
  /-- the pending load is applied, unless its target is R0 -/
  general : ∀ x : Fin 32, call.entered.machine.registers (gpr x) =
    if x ≠ 0 ∧ m.registers loadReg = regNum x then m.registers loadValueReg else m.registers (gpr x)
  load : call.entered.machine.registers loadReg = 0
  loadValue : call.entered.machine.registers loadValueReg = 0
  badVAddr : call.entered.machine.registers badVAddrReg = call.badVAddr
  mainMemory : call.entered.machine.mainMemory = m.mainMemory
  pageTable : SameButUse m.pageTable call.entered.machine.pageTable
  status : call.entered.status = .systemMode

/-- A machine that only use bits tell from `m`, once `RaiseException` has
finished the pending load. -/
theorem precise_entering {s : Simulator} (hr : Regular m.registers)
    (hs : s.machine = { m with pageTable := pt }) (hpt : SameButUse m.pageTable pt) :
    (⟨which, badVAddr, s.entering badVAddr⟩ : Raised).Precise m := by
  -- `BadVAddrReg` is none of the registers that `DelayedLoad` reads
  have hb : Regular (writeRegister m.registers badVAddrReg badVAddr) := hr
  have hflush : (s.entering badVAddr).machine.registers = flush
      (writeRegister m.registers badVAddrReg badVAddr) := by
    rw [Simulator.entering, hs]
    rfl
  have hhigh : ∀ x : Fin numTotalRegs, 32 ≤ x.val → x ≠ loadReg → x ≠ loadValueReg →
      (s.entering badVAddr).machine.registers x = writeRegister m.registers badVAddrReg
      badVAddr x := by
    intro x hx h1 h2
    rw [hflush, flush_high hb hx h1 h2]
  refine
    { pc := hhigh _ (by decide) (by decide) (by decide)
      nextPC := hhigh _ (by decide) (by decide) (by decide)
      prevPC := hhigh _ (by decide) (by decide) (by decide)
      hi := hhigh _ (by decide) (by decide) (by decide)
      lo := hhigh _ (by decide) (by decide) (by decide)
      general := fun x => ?_
      load := ?_
      loadValue := ?_
      badVAddr := (hhigh _ (by decide) (by decide) (by decide)).trans (Function.update_self _ _ _)
      mainMemory := ?_
      pageTable := ?_
      status := rfl }
  · have hkeep : writeRegister m.registers badVAddrReg badVAddr (gpr x) = m.registers (gpr x) :=
      Function.update_of_ne (gpr_ne (by decide)) _ _
    rw [hflush]
    by_cases h0 : x = 0
    · rw [if_neg (by simp [h0]), h0]
      exact (delayedLoad_apply hb.2 0 0 0).trans hr.1.symm
    · rw [← mergeInto_eq hb h0, mergeInto, hkeep]
      simp only [ne_eq, h0, not_false_eq_true, true_and]
      rfl
  · rw [hflush]
    exact delayedLoad_loadReg _ _ _
  · rw [hflush]
    exact delayedLoad_loadValueReg _ _ _
  · rw [Simulator.entering, hs]
  · rw [Simulator.entering, hs]
    exact hpt

/-- **Precise exceptions.** An instruction that calls `RaiseException` calls it
once and then ends; where the handler is entered, the pending load is applied
and otherwise the machine is what it was before the instruction. -/
theorem exceptions_precise (handler : Handler) (s : Simulator) (hr : Regular s.machine.registers)
    (h : ((Simulator.oneInstruction handler).run s).log ≠ []) :
    ∃ call : Raised, ((Simulator.oneInstruction handler).run s).log = [call] ∧
      ((Simulator.oneInstruction handler).run s).result =
        (handler call.which call.entered).map (fun s' => ((), { s' with status := .userMode })) ∧
      call.Precise s.machine := by
  rw [Simulator.run_oneInstruction] at h ⊢
  cases hstep : oneInstruction s.machine with
  | done m' =>
    rw [hstep] at h
    exact absurd rfl h
  | crash =>
    rw [hstep] at h
    exact absurd rfl h
  | exception which badVAddr m' =>
    obtain ⟨pt, rfl, hpt⟩ := oneInstruction_exception hstep
    simp only [Simulator.follow, Simulator.run_raiseException]
    exact ⟨_, rfl, rfl, precise_entering hr rfl hpt⟩

/-- A system call while a load of 7 into R5 is pending. -/
theorem exceptions_precise_syscall :
    let m : Machine := {
      registers := fun x => if x = loadReg then 5 else if x = loadValueReg then 7 else 0
      mainMemory := fun x => if x = 0 then 12 else 0
      pageTable := [⟨0, 0, true, false, false, false⟩] }
    ∃ call : Raised, ((Simulator.oneInstruction fun _ s => .ok s).run ⟨m, .userMode⟩).log = [call] ∧
      call.Precise m := by
  intro m
  have hlog : 0 < ((Simulator.oneInstruction fun _ s => .ok s).run ⟨m, .userMode⟩).log.length := by
    decide
  obtain ⟨call, hcall, -, hprecise⟩ :=
    exceptions_precise (fun _ s => .ok s) ⟨m, .userMode⟩ ⟨rfl, by decide⟩
      (List.ne_nil_of_length_pos hlog)
  exact ⟨call, hcall, hprecise⟩

end Nachos
