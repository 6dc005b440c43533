/-
# The MIPS simulator (`machine/mipssim.cc`)

`decode` is `Instruction::Decode` with its two tables. The `switch` of
`Machine::OneInstruction` is split in two: `operate` is what an arm computes
from the registers, and `perform` is the access to memory it asks for, so
that what holds of every access is said once. `oneInstruction` is the whole
function: fetch, decode, execute, apply the delayed load, advance the program
counters. An arm that raises an exception has assigned no register before.

Build: `SIM_FIX`, a little-endian host, arithmetic right shift of `int`.

Key definitions: `delayedLoad`, `decode`, `operate`, `perform`, `oneInstruction`.
-/
import Mathlib
import Nachos.Machine.Translate

namespace Nachos

open Bytes (Byte Store)

/-! ### Registers -/

/-- `NumTotalRegs`. -/
abbrev numTotalRegs : ℕ := 40

instance : NeZero numTotalRegs := ⟨by decide⟩

/-- `NumGPRegs`. -/
def numGPRegs : ℕ := 32

/-- `int registers[NumTotalRegs]`. -/
abbrev Registers := Fin numTotalRegs → BitVec 32

def stackReg : Fin numTotalRegs := 29
def hiReg : Fin numTotalRegs := 32
def loReg : Fin numTotalRegs := 33
def pcReg : Fin numTotalRegs := 34
def nextPCReg : Fin numTotalRegs := 35
def prevPCReg : Fin numTotalRegs := 36
def loadReg : Fin numTotalRegs := 37
def loadValueReg : Fin numTotalRegs := 38
def badVAddrReg : Fin numTotalRegs := 39

/-- `Machine::WriteRegister`. -/
def writeRegister (r : Registers) (num : Fin numTotalRegs) (value : BitVec 32) : Registers :=
  Function.update r num value

/-- `registers[i] = value` for an index read from a register. -/
def writeIndexed (r : Registers) (i value : BitVec 32) : Registers :=
  if h : i.toNat < numTotalRegs then writeRegister r ⟨i.toNat, h⟩ value else r

/-- `Machine::DelayedLoad`. -/
def delayedLoad (r : Registers) (nextReg nextValue : BitVec 32) : Registers :=
  let r := writeIndexed r (r loadReg) (r loadValueReg)
  let r := writeRegister r loadReg nextReg
  let r := writeRegister r loadValueReg nextValue
  writeRegister r 0 0

/-! ### Decoding -/

/-- The `OP_` codes of `mipssim.h`. -/
inductive OpCode
  | add | addi | addiu | addu | and | andi | beq | bgez | bgezal | bgtz | blez | bltz | bltzal | bne
  | div | divu | j | jal | jalr | jr | lb | lbu | lh | lhu | lui | lw | lwl | lwr | mfhi
  | mflo | mthi | mtlo | mult | multu | nor | or | ori | rfe | sb | sh | sll | sllv | slt
  | slti | sltiu | sltu | sra | srav | srl | srlv | sub | subu | sw | swl | swr | xor
  | xori | syscall | unimp | res
  deriving DecidableEq

/-- `class Instruction`, decoded. -/
structure Instruction where
  opCode : OpCode
  rs : Fin 32
  rt : Fin 32
  rd : Fin 32
  /-- immediate, target, shamt or offset; immediates are sign-extended -/
  extra : BitVec 32
  deriving DecidableEq

/-- `IFMT`, `JFMT` and `RFMT`. -/
inductive Format
  | ifmt | jfmt | rfmt

/-- The codes of `opTable`: a translated one, or one to decode further. -/
inductive TableCode
  | op (o : OpCode)
  | special
  | bcond

/-- `struct OpInfo`. -/
structure OpInfo where
  opCode : TableCode
  format : Format

/-- An entry of the I format. -/
def OpInfo.i (o : OpCode) : OpInfo := ⟨.op o, .ifmt⟩

def opTable : Vector OpInfo 64 := #v[
  ⟨.special, .rfmt⟩, ⟨.bcond, .ifmt⟩, ⟨.op .j, .jfmt⟩, ⟨.op .jal, .jfmt⟩,
  .i .beq, .i .bne, .i .blez, .i .bgtz,
  .i .addi, .i .addiu, .i .slti, .i .sltiu,
  .i .andi, .i .ori, .i .xori, .i .lui,
  .i .unimp, .i .unimp, .i .unimp, .i .unimp,
  .i .res, .i .res, .i .res, .i .res,
  .i .res, .i .res, .i .res, .i .res,
  .i .res, .i .res, .i .res, .i .res,
  .i .lb, .i .lh, .i .lwl, .i .lw,
  .i .lbu, .i .lhu, .i .lwr, .i .res,
  .i .sb, .i .sh, .i .swl, .i .sw,
  .i .res, .i .res, .i .swr, .i .res,
  .i .unimp, .i .unimp, .i .unimp, .i .unimp,
  .i .res, .i .res, .i .res, .i .res,
  .i .unimp, .i .unimp, .i .unimp, .i .unimp,
  .i .res, .i .res, .i .res, .i .res]

def specialTable : Vector OpCode 64 := #v[
  .sll, .res, .srl, .sra, .sllv, .res, .srlv, .srav,
  .jr, .jalr, .res, .res, .syscall, .unimp, .res, .res,
  .mfhi, .mthi, .mflo, .mtlo, .res, .res, .res, .res,
  .mult, .multu, .div, .divu, .res, .res, .res, .res,
  .add, .addu, .sub, .subu, .and, .or, .xor, .nor,
  .res, .res, .slt, .sltu, .res, .res, .res, .res,
  .res, .res, .res, .res, .res, .res, .res, .res,
  .res, .res, .res, .res, .res, .res, .res, .res]

/-- `Instruction::Decode`; `extractLsb' k n` is `(value >> k) & (2^n - 1)`. -/
def decode (value : BitVec 32) : Instruction :=
  let opPtr := opTable.get (value.extractLsb' 26 6).toFin
  { rs := (value.extractLsb' 21 5).toFin
    rt := (value.extractLsb' 16 5).toFin
    rd := (value.extractLsb' 11 5).toFin
    extra :=
      match opPtr.format with
      | .ifmt =>
        let extra := value &&& 0xffff
        if extra &&& 0x8000 ≠ 0 then extra ||| 0xffff0000 else extra
      | .rfmt => (value >>> 6) &&& 0x1f
      | .jfmt => value &&& 0x3ffffff
    opCode :=
      match opPtr.opCode with
      | .op o => o
      | .special => specialTable.get (value.extractLsb' 0 6).toFin
      | .bcond =>
        let i := value &&& 0x1f0000
        if i = 0 then .bltz
        else if i = 0x10000 then .bgez
        else if i = 0x100000 then .bltzal
        else if i = 0x110000 then .bgezal
        else .unimp }

/-! ### Execution -/

/-- The loop of `Mult`, with `n` iterations to go: the final `hi` and `lo`. -/
def multLoop : ℕ → BitVec 32 → BitVec 32 → BitVec 32 → BitVec 32 → BitVec 32 → BitVec 32 × BitVec 32
  | 0, _, _, _, hi, lo => (hi, lo)
  | n + 1, a, bHi, bLo, hi, lo =>
    let bHi' := if bLo &&& 0x80000000 ≠ 0 then (bHi <<< 1) ||| 1 else bHi <<< 1
    if a &&& 1 ≠ 0 then
      let lo := lo + bLo
      let hi := (if lo < bLo then hi + 1 else hi) + bHi
      -- `break`
      if a &&& 0xfffffffe = 0 then (hi, lo)
      else multLoop n (a.sshiftRight 1) bHi' (bLo <<< 1) hi lo
    else multLoop n (a.sshiftRight 1) bHi' (bLo <<< 1) hi lo

/-- `Mult`: what it leaves in `*hiPtr` and `*loPtr`. -/
def Mult (a b : BitVec 32) (signedArith : Bool) : BitVec 32 × BitVec 32 :=
  if a = 0 ∨ b = 0 then (0, 0)
  else
    let negA := signedArith && a.slt 0
    let negB := signedArith && b.slt 0
    let (hi, lo) := multLoop 32 (if negA then -a else a) 0 (if negB then -b else b) 0 0
    if negA ^^ negB then
      let lo := ~~~lo + 1
      (if lo = 0 then ~~~hi + 1 else ~~~hi, lo)
    else (hi, lo)

/-- The number of a general register. -/
def gpr (x : Fin 32) : Fin numTotalRegs := x.castLE (by decide)

/-- The value of a register number in an `int`. -/
def regNum (x : Fin 32) : BitVec 32 := BitVec.ofNat 32 x

/-- `R31`, the link register. -/
def r31 : Fin 32 := ⟨31, by decide⟩

/-- `SIGN_BIT`. -/
def signBit : BitVec 32 := 0x80000000

/-- `IndexToAddr`. -/
def indexToAddr (x : BitVec 32) : BitVec 32 := x <<< 2

/-- What an arm of the `switch` does. -/
inductive Action
  /-- assignments to `registers`, in order, and the `pcAfter` it leaves -/
  | assign (assigned : List (Fin numTotalRegs × BitVec 32)) (pcAfter : BitVec 32)
  /-- `ReadMem(addr, w, &value)`; then `nextLoadReg = rt` and `nextLoadValue` is `convert` of the
  value -/
  | load (addr : BitVec 32) (w : Width) (rt : Fin 32) (convert : BitVec 32 → BitVec 32)
  /-- `WriteMem(addr, w, value)` -/
  | store (addr : BitVec 32) (w : Width) (value : BitVec 32)
  /-- `ReadMem(addr, 4, &value)`, then `WriteMem` of `merge` of the value at the same address -/
  | update (addr : BitVec 32) (merge : BitVec 32 → BitVec 32)
  /-- `RaiseException(which, badVAddr); return;` -/
  | raise (which : ExceptionType) (badVAddr : BitVec 32)
  /-- the host stops the simulator: `ASSERT(FALSE)`, or a signed division that overflows -/
  | crash

/-- What `LWL` and `LWR` merge into: the value on its way to `rt`, or `rt`. -/
def mergeInto (r : Registers) (rt : Fin 32) : BitVec 32 :=
  if r loadReg = regNum rt then r loadValueReg else r (gpr rt)

/-- `switch (3 - byte)` of `OP_LWL`. -/
def mergeLWL (k old value : BitVec 32) : BitVec 32 :=
  if k = 0 then value
  else if k = 1 then (old &&& 0xff) ||| (value <<< 8)
  else if k = 2 then (old &&& 0xffff) ||| (value <<< 16)
  else if k = 3 then (old &&& 0xffffff) ||| (value <<< 24)
  else old

/-- `switch (3 - byte)` of `OP_LWR`. -/
def mergeLWR (k old value : BitVec 32) : BitVec 32 :=
  if k = 0 then (old &&& 0xffffff00) ||| ((value.sshiftRight 24) &&& 0xff)
  else if k = 1 then (old &&& 0xffff0000) ||| ((value.sshiftRight 16) &&& 0xffff)
  else if k = 2 then (old &&& 0xff000000) ||| ((value.sshiftRight 8) &&& 0xffffff)
  else if k = 3 then value
  else old

/-- `switch (3 - byte)` of `OP_SWL`. -/
def mergeSWL (k rt value : BitVec 32) : BitVec 32 :=
  if k = 0 then rt
  else if k = 1 then (value &&& 0xff000000) ||| ((rt.sshiftRight 8) &&& 0xffffff)
  else if k = 2 then (value &&& 0xffff0000) ||| ((rt.sshiftRight 16) &&& 0xffff)
  else if k = 3 then (value &&& 0xffffff00) ||| ((rt.sshiftRight 24) &&& 0xff)
  else value

/-- `switch (3 - byte)` of `OP_SWR`. -/
def mergeSWR (k rt value : BitVec 32) : BitVec 32 :=
  if k = 0 then (value &&& 0xffffff) ||| (rt <<< 24)
  else if k = 1 then (value &&& 0xffff) ||| (rt <<< 16)
  else if k = 2 then (value &&& 0xff) ||| (rt <<< 8)
  else if k = 3 then rt
  else value

/-- The `switch` of `Machine::OneInstruction`. -/
def operate (i : Instruction) (r : Registers) : Action :=
  let rs := r (gpr i.rs)
  let rt := r (gpr i.rt)
  let nextPC := r nextPCReg
  let pcAfter := nextPC + 4
  let tmp := rs + i.extra
  let byte := tmp &&& 3
  -- an arm that assigns one register
  let set (x : Fin 32) (value : BitVec 32) : Action := .assign [(gpr x, value)] pcAfter
  let setHiLo (hi lo : BitVec 32) : Action := .assign [(hiReg, hi), (loReg, lo)] pcAfter
  -- an arm that branches if `taken`, after the assignments `link`
  let branch (link : List (Fin numTotalRegs × BitVec 32)) (taken : Bool) : Action :=
    .assign link (if taken then nextPC + indexToAddr i.extra else pcAfter)
  let link : List (Fin numTotalRegs × BitVec 32) := [(gpr r31, nextPC + 4)]
  match i.opCode with
  | .add =>
    let sum := rs + rt
    if (rs ^^^ rt) &&& signBit = 0 ∧ (rs ^^^ sum) &&& signBit ≠ 0 then .raise .overflowException 0
    else set i.rd sum
  | .addi =>
    let sum := rs + i.extra
    if (rs ^^^ i.extra) &&& signBit = 0 ∧ (i.extra ^^^ sum) &&& signBit ≠ 0 then
      .raise .overflowException 0
    else set i.rt sum
  | .addiu => set i.rt (rs + i.extra)
  | .addu => set i.rd (rs + rt)
  | .and => set i.rd (rs &&& rt)
  | .andi => set i.rt (rs &&& (i.extra &&& 0xffff))
  | .beq => branch [] (rs = rt)
  -- `registers[R31]` is assigned before `registers[instr->rs]` is read
  | .bgezal => branch link (writeRegister r (gpr r31) (nextPC + 4) (gpr i.rs) &&& signBit = 0)
  | .bgez => branch [] (rs &&& signBit = 0)
  | .bgtz => branch [] (BitVec.slt 0 rs)
  | .blez => branch [] (BitVec.sle rs 0)
  | .bltzal => branch link (writeRegister r (gpr r31) (nextPC + 4) (gpr i.rs) &&& signBit ≠ 0)
  | .bltz => branch [] (rs &&& signBit ≠ 0)
  | .bne => branch [] (rs ≠ rt)
  | .div =>
    if rt = 0 then setHiLo 0 0
    -- `-2^31 / -1`
    else if rs = signBit ∧ rt = -1 then .crash
    else setHiLo (rs.srem rt) (rs.sdiv rt)
  | .divu => if rt = 0 then setHiLo 0 0 else setHiLo (rs % rt) (rs / rt)
  | .jal => .assign link ((pcAfter &&& 0xf0000000) ||| indexToAddr i.extra)
  | .j => .assign [] ((pcAfter &&& 0xf0000000) ||| indexToAddr i.extra)
  -- `registers[instr->rd]` is assigned before `registers[instr->rs]` is read
  | .jalr => .assign [(gpr i.rd, nextPC + 4)] (writeRegister r (gpr i.rd) (nextPC + 4) (gpr i.rs))
  | .jr => .assign [] rs
  | .lb =>
    .load tmp .byte i.rt fun value => if value &&& 0x80 ≠ 0 then value ||| 0xffffff00
      else value &&& 0xff
  | .lbu => .load tmp .byte i.rt fun value => value &&& 0xff
  | .lh =>
    if tmp &&& 1 ≠ 0 then .raise .addressErrorException tmp
    else .load tmp .half i.rt fun value =>
      if value &&& 0x8000 ≠ 0 then value ||| 0xffff0000 else value &&& 0xffff
  | .lhu =>
    if tmp &&& 1 ≠ 0 then .raise .addressErrorException tmp
    else .load tmp .half i.rt fun value => value &&& 0xffff
  | .lui => set i.rt (i.extra <<< 16)
  | .lw =>
    if tmp &&& 3 ≠ 0 then .raise .addressErrorException tmp
    else .load tmp .word i.rt fun value => value
  | .lwl => .load (tmp - byte) .word i.rt fun value => mergeLWL (3 - byte) (mergeInto r i.rt) value
  | .lwr => .load (tmp - byte) .word i.rt fun value => mergeLWR (3 - byte) (mergeInto r i.rt) value
  | .mfhi => set i.rd (r hiReg)
  | .mflo => set i.rd (r loReg)
  | .mthi => .assign [(hiReg, rs)] pcAfter
  | .mtlo => .assign [(loReg, rs)] pcAfter
  | .mult => setHiLo (Mult rs rt true).1 (Mult rs rt true).2
  | .multu => setHiLo (Mult rs rt false).1 (Mult rs rt false).2
  | .nor => set i.rd (~~~(rs ||| rt))
  | .or => set i.rd (rs ||| rt)
  | .ori => set i.rt (rs ||| (i.extra &&& 0xffff))
  | .sb => .store tmp .byte rt
  | .sh => .store tmp .half rt
  | .sll => set i.rd (rt <<< i.extra)
  | .sllv => set i.rd (rt <<< (rs &&& 0x1f))
  | .slt => set i.rd (if rs.slt rt then 1 else 0)
  | .slti => set i.rt (if rs.slt i.extra then 1 else 0)
  | .sltiu => set i.rt (if rs < i.extra then 1 else 0)
  | .sltu => set i.rd (if rs < rt then 1 else 0)
  | .sra => set i.rd (rt.sshiftRight i.extra.toNat)
  | .srav => set i.rd (rt.sshiftRight (rs &&& 0x1f).toNat)
  -- `int tmp`: the shift is arithmetic here too
  | .srl => set i.rd (rt.sshiftRight i.extra.toNat)
  | .srlv => set i.rd (rt.sshiftRight (rs &&& 0x1f).toNat)
  | .sub =>
    let diff := rs - rt
    if (rs ^^^ rt) &&& signBit ≠ 0 ∧ (rs ^^^ diff) &&& signBit ≠ 0 then .raise .overflowException 0
    else set i.rd diff
  | .subu => set i.rd (rs - rt)
  | .sw => .store tmp .word rt
  | .swl => .update (tmp - byte) fun value => mergeSWL (3 - byte) rt value
  | .swr => .update (tmp - byte) fun value => mergeSWR (3 - byte) rt value
  | .syscall => .raise .syscallException 0
  | .xor => set i.rd (rs ^^^ rt)
  | .xori => set i.rt (rs ^^^ (i.extra &&& 0xffff))
  | .res => .raise .illegalInstrException 0
  | .unimp => .raise .illegalInstrException 0
  -- no arm of its own: `default: ASSERT(FALSE)`
  | .rfe => .crash

/-- The machine, as far as an instruction can see it. -/
structure Machine where
  registers : Registers
  mainMemory : Store
  pageTable : PageTable

/-- How an instruction ends. -/
inductive Step
  | done (m : Machine)
  /-- `RaiseException` is called on the machine `m` -/
  | exception (which : ExceptionType) (badVAddr : BitVec 32) (m : Machine)
  | crash

/-- Assignments to `registers`, in order. -/
def assignAll (r : Registers) (assigned : List (Fin numTotalRegs × BitVec 32)) : Registers :=
  assigned.foldl (fun r p => writeRegister r p.1 p.2) r

/-- The program counters at the end of `OneInstruction`. -/
def advance (r : Registers) (pcAfter : BitVec 32) : Registers :=
  let r := writeRegister r prevPCReg (r pcReg)
  let r := writeRegister r pcReg (r nextPCReg)
  writeRegister r nextPCReg pcAfter

/-- The rest of `OneInstruction`, after an arm that did not return. -/
def retire (m : Machine) (assigned : List (Fin numTotalRegs × BitVec 32))
    (pcAfter nextLoadReg nextLoadValue : BitVec 32) : Step :=
  let r := delayedLoad (assignAll m.registers assigned) nextLoadReg nextLoadValue
  .done { m with registers := advance r pcAfter }

/-- The access to memory of an arm, and what follows. -/
def perform (m : Machine) : Action → Step
  | .assign assigned pcAfter => retire m assigned pcAfter 0 0
  | .load addr w rt convert =>
    match readMem m.mainMemory m.pageTable addr w with
    | .error which => .exception which addr m
    | .ok (value, pt) =>
      retire { m with pageTable := pt } [] (m.registers nextPCReg + 4) (regNum rt) (convert value)
  | .store addr w value =>
    match writeMem m.mainMemory m.pageTable addr w value with
    | .error which => .exception which addr m
    | .ok (mem, pt) =>
      retire { m with mainMemory := mem, pageTable := pt } [] (m.registers nextPCReg + 4) 0 0
  | .update addr merge =>
    match readMem m.mainMemory m.pageTable addr .word with
    | .error which => .exception which addr m
    | .ok (value, pt) =>
      match writeMem m.mainMemory pt addr .word (merge value) with
      -- the use bit of the read is set
      | .error which => .exception which addr { m with pageTable := pt }
      | .ok (mem, pt') =>
        retire { m with mainMemory := mem, pageTable := pt' } [] (m.registers nextPCReg + 4) 0 0
  | .raise which badVAddr => .exception which badVAddr m
  | .crash => .crash

/-- `Machine::OneInstruction`. -/
def oneInstruction (m : Machine) : Step :=
  match readMem m.mainMemory m.pageTable (m.registers pcReg) .word with
  | .error which => .exception which (m.registers pcReg) m
  | .ok (raw, pt) => perform { m with pageTable := pt } (operate (decode raw) m.registers)

end Nachos
