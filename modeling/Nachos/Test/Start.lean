/-
# The system call stubs (`test/start.S`)

A user program calls the kernel through a stub of three instructions: `addiu
$2,$0,SC_X`, `syscall`, `j $31`, with a `nop` that the assembler puts in the
delay slot of the jump. Here a stub runs on the simulator, from the call to the
return: into `RaiseException`, through `ExceptionHandler` with its result in r2
and `IncreasePC`, and back. A load that the caller left in its delay slot is
applied on the way.

* `stub_calls`: every stub enters the handler with its code in r2 and all other
  general registers, the arguments among them, as the caller had them; and when
  the handler returns, the caller goes on behind its call with the result in r2
  and all other general registers as they were.

Between two instructions interrupts come and other programs run (`exec_stages`).

Key definitions: `stub`, `StubAt`, `AtStub`, `InStub`, `Returned`.
Key theorems: `StubAt.fetches`, `exec_stages`, `exec_call`, `exec_return`, `stub_calls`.
-/
import Mathlib
import Nachos.Machine.Arithmetic
import Nachos.Machine.DelaySlot
import Nachos.Userprog.Exception
import Nachos.Userprog.Placement

namespace Nachos

open Bytes (Byte Store)
open RegSys (Idle)

/-! ### The code -/

/-- The stub of a system call: `addiu $2,$0,code`, `syscall`, `jr $31`, `nop`. -/
def stub (c : Syscall) : List (BitVec 32) := [0x24020000 + c.code, 0x0000000c, 0x03e00008, 0]

/-- The word at virtual address `v`. -/
def UserMem.word (u : UserMem) (v : ℕ) : BitVec 32 :=
  Bytes.word (u.byte v) (u.byte (v + 1)) (u.byte (v + 2)) (u.byte (v + 3))

/-- The stub is at `base`. -/
structure StubAt (u : UserMem) (base : BitVec 32) (c : Syscall) : Prop where
  space : UserSpace u.pageTable
  aligned : base.toNat % 4 = 0
  room : base.toNat + 16 ≤ u.size
  words : ∀ k < 4, u.word (base.toNat + 4 * k) = (stub c).getD k 0

/-- The program has jumped to the stub: a load may be pending, but not of r2. -/
structure AtStub (m : Machine) (base : BitVec 32) (c : Syscall) : Prop where
  code : StubAt m.user base c
  pc : m.registers pcReg = base
  nextPC : m.registers nextPCReg = base + 4
  regular : Regular m.registers
  pending : m.registers loadReg ≠ 2

/-- `RaiseException(SyscallException, 0)`, before it calls the handler. -/
def trapped (r : Registers) : Registers := delayedLoad (writeRegister r badVAddrReg 0) 0 0

/-- The general registers are those of the caller, but for r2. -/
def KeepsOthers (r r' : Registers) : Prop := ∀ x : Fin 32, x.val ≠ 2 → r' (gpr x) = flush r (gpr x)

/-- In the stub, at `pc`, with `two` in r2. -/
structure InStub (r : Registers) (base : BitVec 32) (c : Syscall) (two pc nextPC : BitVec 32)
    (m : Machine) : Prop where
  code : StubAt m.user base c
  two : m.registers 2 = two
  others : KeepsOthers r m.registers
  pc : m.registers pcReg = pc
  nextPC : m.registers nextPCReg = nextPC
  idle : Idle m.registers

/-- The stub has returned `result` to the caller. -/
abbrev Returned (r : Registers) (base : BitVec 32) (c : Syscall) (result : BitVec 32) :
    Machine → Prop :=
  InStub r base c result (flush r (gpr r31)) (flush r (gpr r31) + 4)

/-- What happens between two events of the kernel's for the program:
instructions, interrupts, and others. -/
def Machine.Event.plain : Machine.Event → Bool
  | .oneInstruction | .interrupt | .others _ => true
  | .writeRegister _ | .user2System _ _ | .system2User _ _ _ => false

def Machine.Event.isInstruction : Machine.Event → Bool
  | .oneInstruction => true
  | _ => false

/-- The instructions in a list of events. -/
def instructions (ls : List Machine.Event) : ℕ := ls.countP Machine.Event.isInstruction

variable {u : UserMem} {base a value pc : BitVec 32} {c : Syscall} {m m' : Machine}
  {r r' : Registers} {pt : PageTable} {ws : List (Fin numTotalRegs × BitVec 32)}

/-! ### Fetching -/

/-- A word of the space. -/
theorem UserSpace.readMem_word (hs : UserSpace u.pageTable) (h : AccessFits u.pageTable a .word) :
    ∃ pt, readMem u.mem u.pageTable a .word = .ok (u.word a.toNat, pt) ∧
      pt.map TranslationEntry.core = u.pageTable.map TranslationEntry.core := by
  obtain ⟨hroom, hend⟩ := h.room
  obtain ⟨pt, ht, hcore⟩ := hs.translate_of_fits h false
  have hbyte : ∀ k : ℕ, k < 4 → u.byte (a.toNat + k) = u.mem (place u.pageTable a.toNat + k) := by
    intro k hk
    rw [byte_eq
      (show a.toNat + k < u.size by unfold UserMem.size; simp only [Width.size] at hend; omega)]
    rw [place_add (by simp only [Width.size] at hroom; omega)]
  have hword : u.word a.toNat = fetch u.mem (place u.pageTable a.toNat) .word := by
    have h0 := hbyte 0 (by decide)
    have h1 := hbyte 1 (by decide)
    have h2 := hbyte 2 (by decide)
    have h3 := hbyte 3 (by decide)
    simp only [add_zero, Nat.cast_zero, Nat.cast_one, Nat.cast_ofNat] at h0 h1 h2 h3
    rw [UserMem.word, fetch, h0, h1, h2, h3]
  refine ⟨pt, ?_, hcore⟩
  rw [readMem, ht, hword]

/-- The use bits make no difference to the stub. -/
theorem StubAt.congr (h : StubAt u base c)
    (hcore : pt.map TranslationEntry.core = u.pageTable.map TranslationEntry.core) :
    StubAt ⟨u.mem, pt⟩ base c := by
  have hsize : UserMem.size ⟨u.mem, pt⟩ = u.size := size_congr hcore
  refine ⟨h.space.congr hcore, h.aligned, hsize ▸ h.room, fun k hk => ?_⟩
  unfold UserMem.word
  simp only [byte_congr hcore]
  exact h.words k hk

/-- **Instruction `k` of the stub.** -/
theorem StubAt.fetches (h : StubAt u base c) {k : ℕ} (hk : k < 4)
    (hpc : r pcReg = base + BitVec.ofNat 32 (4 * k)) :
    ∃ pt, (Machine.mk r u.mem u.pageTable).Fetches ((stub c).getD k 0) pt ∧
    StubAt ⟨u.mem, pt⟩ base c := by
  have hlen := h.space.length_le
  have hroom := h.room
  have haligned := h.aligned
  unfold UserMem.size at hroom
  have hsize : u.pageTable.length * pageSize ≤ numPhysPages * pageSize :=
    Nat.mul_le_mul_right _ hlen
  have haddr : (r pcReg).toNat = base.toNat + 4 * k := by
    rw [hpc, BitVec.toNat_add, BitVec.toNat_ofNat]
    unfold numPhysPages pageSize at hsize
    unfold pageSize at hroom
    omega
  have hfits : AccessFits u.pageTable (r pcReg) .word := by
    refine ⟨?_, ?_⟩
    · rw [haddr]
      show (base.toNat + 4 * k) % 4 = 0
      omega
    · rw [haddr]
      omega
  obtain ⟨pt, hr, hcore⟩ := h.space.readMem_word hfits
  refine ⟨pt, ?_, h.congr hcore⟩
  unfold Machine.Fetches
  rw [← h.words k hk, ← haddr]
  exact hr

/-- An instruction that only assigns registers. -/
theorem next_assign (hf : m.Fetches value pt)
    (hop : operate (decode value) m.registers = .assign ws pc) :
    m.next = some ⟨advance (delayedLoad (assignAll m.registers ws) 0 0) pc, m.mainMemory, pt⟩ := by
  rw [Machine.next_eq, hf.oneInstruction, hop]
  rfl

/-! ### The four instructions -/

theorem operate_addiu (c : Syscall) (r : Registers) :
    operate (decode ((stub c).getD 0 0)) r = .assign [(gpr 2, r 0 + c.code)] (r nextPCReg + 4) := by
  cases c <;> rfl

theorem operate_syscall (c : Syscall) (r : Registers) :
    operate (decode ((stub c).getD 1 0)) r = .raise .syscallException 0 := by
  have hd : decode ((stub c).getD 1 0) = ⟨.syscall, 0, 0, 0, 0⟩ :=
    show decode 0x0000000c = _ by decide
  rw [hd]
  rfl

theorem operate_jr (c : Syscall) (r : Registers) :
    operate (decode ((stub c).getD 2 0)) r = .assign [] (r (gpr r31)) := by
  have hd : decode ((stub c).getD 2 0) = ⟨.jr, r31, 0, 0, 0⟩ := show decode 0x03e00008 = _ by decide
  rw [hd]
  rfl

theorem operate_nop (c : Syscall) (r : Registers) :
    operate (decode ((stub c).getD 3 0)) r = .assign [(gpr 0, r (gpr 0) <<< (0 : BitVec 32))]
    (r nextPCReg + 4) := by
  have hd : decode ((stub c).getD 3 0) = ⟨.sll, 0, 0, 0, 0⟩ := show decode 0 = _ by decide
  rw [hd]
  rfl

/-! ### Registers -/

theorem gpr_ne_two {x : Fin 32} (hx : x.val ≠ 2) : gpr x ≠ 2 := by
  intro h
  have hv : x.val = 2 := congrArg Fin.val h
  exact hx hv

theorem idle_advance (h : Idle r) (pc : BitVec 32) : Idle (advance r pc) := h

/-- The first instruction: r2 is the code, and the load of the caller is applied. -/
theorem registers_addiu (hr : Regular r) (hpending : r loadReg ≠ 2) (v : BitVec 32) :
    delayedLoad (assignAll r [(gpr 2, v)]) 0 0 2 = v ∧
    KeepsOthers r (delayedLoad (assignAll r [(gpr 2, v)]) 0 0) ∧
      delayedLoad (assignAll r [(gpr 2, v)]) 0 0 nextPCReg = r nextPCReg := by
  have hwrite : assignAll r [(gpr 2, v)] = Function.update r 2 v := rfl
  have hload : (Function.update r 2 v : Registers) loadReg = r loadReg :=
    Function.update_of_ne (by decide) _ _
  have hvalue : (Function.update r 2 v : Registers) loadValueReg = r loadValueReg :=
    Function.update_of_ne (by decide) _ _
  have hlt : ((Function.update r 2 v : Registers) loadReg).toNat < 32 := hload ▸ hr.2
  have happly := fun x : Fin numTotalRegs => delayedLoad_apply hlt 0 0 x
  rw [hwrite]
  refine ⟨?_, fun x hx => ?_, ?_⟩
  · have hne : (2 : Fin numTotalRegs).val ≠ (r loadReg).toNat := by
      intro h
      exact hpending (BitVec.eq_of_toNat_eq h.symm)
    rw [happly, hload, if_neg (by decide), if_neg (by decide), if_neg (by decide), if_neg hne,
      Function.update_self]
  · rw [happly, flush, delayedLoad_apply hr.2, hload, hvalue, Function.update_of_ne (gpr_ne_two hx)]
  · have hne : nextPCReg.val ≠ (r loadReg).toNat := by
      have hl := hr.2
      show 35 ≠ (r loadReg).toNat
      omega
    rw [happly, hload, if_neg (by decide), if_neg (by decide), if_neg (by decide), if_neg hne,
      Function.update_of_ne (by decide)]

/-- `RaiseException` leaves the general registers and the program counters. -/
theorem trapped_of_idle (h : Idle r) : trapped r = writeRegister r badVAddrReg 0 :=
  RegSys.delayedLoad_of_idle (r := writeRegister r badVAddrReg 0) h

/-- The handler's result and `IncreasePC`. -/
theorem registers_return (h : Idle r) (result : BitVec 32) :
    let r' := increasePC (writeRegister (trapped r) 2 result)
    r' 2 = result ∧ r' pcReg = r nextPCReg ∧ r' nextPCReg = r nextPCReg + 4 ∧
      (∀ x : Fin 32, x.val ≠ 2 → r' (gpr x) = r (gpr x)) ∧ Idle r' := by
  rw [trapped_of_idle h]
  refine ⟨rfl, rfl, rfl, fun x hx => ?_, h⟩
  simp only [increasePC, writeRegister]
  rw [Function.update_of_ne (gpr_ne (by decide)), Function.update_of_ne (gpr_ne (by decide)),
    Function.update_of_ne (gpr_ne (by decide)), Function.update_of_ne (gpr_ne_two hx),
    Function.update_of_ne (gpr_ne (by decide))]

/-- A `nop` changes nothing but the program counters. -/
theorem registers_nop (h : Idle r) :
    delayedLoad (assignAll r [(gpr 0, r (gpr 0) <<< (0 : BitVec 32))]) 0 0 = r := by
  have hzero : r (gpr 0) = 0 := h.2.2
  have hwrite : assignAll r [(gpr 0, r (gpr 0) <<< (0 : BitVec 32))] = r := by
    rw [hzero]
    show Function.update r (gpr 0) 0 = r
    rw [← hzero, Function.update_eq_self]
  rw [hwrite, RegSys.delayedLoad_of_idle h]

/-! ### Between the instructions -/

/-- Other programs do not touch the stub. -/
theorem StubAt.others (h : StubAt m.user base c) {mainMemory : Store}
    (hok : m.Apart (.others mainMemory)) :
    StubAt ⟨mainMemory, m.pageTable⟩ base c := by
  obtain ⟨m', hm, ha⟩ := (Machine.Alike.refl h.space).others rfl hok
  cases hm
  refine ⟨h.space, h.aligned, h.room, fun k hk => ?_⟩
  have hbyte : ∀ v, UserMem.byte ⟨mainMemory, m.pageTable⟩ v = m.user.byte v := ha.user.byte
  unfold UserMem.word
  simp only [hbyte]
  exact h.words k hk

/-- In the stub nothing is pending, so an interrupt changes nothing. -/
theorem InStub.quiet {r0 : Registers} {two nextPC : BitVec 32} {l : Machine.Event}
    (h : InStub r0 base c two pc nextPC m) (hl : l.plain = true) (hi : l.isInstruction = false)
    (hok : m.Apart l) : ∃ m', m.event l = some m' ∧ InStub r0 base c two pc nextPC m' := by
  cases l with
  | oneInstruction => cases hi
  | interrupt =>
    refine ⟨_, rfl, ?_⟩
    rw [RegSys.delayedLoad_of_idle h.idle]
    exact h
  | others mainMemory => exact ⟨_, rfl, h.code.others hok, h.two, h.others, h.pc, h.nextPC, h.idle⟩
  | writeRegister | user2System | system2User => cases hl

/-- Before the first instruction it applies the caller's load. -/
theorem AtStub.quiet {l : Machine.Event} (h : AtStub m base c) (hl : l.plain = true)
    (hi : l.isInstruction = false) (hok : m.Apart l) :
    ∃ m', m.event l = some m' ∧ AtStub m' base c ∧ flush m'.registers = flush m.registers := by
  cases l with
  | oneInstruction => cases hi
  | interrupt =>
    have hreg : Regular (flush m.registers) := regular_delayedLoad h.regular.2 (by decide)
    have hpc : flush m.registers pcReg = base :=
      (flush_high h.regular (by decide) (by decide) (by decide)).trans h.pc
    have hnext : flush m.registers nextPCReg = base + 4 :=
      (flush_high h.regular (by decide) (by decide) (by decide)).trans h.nextPC
    have hload : flush m.registers loadReg ≠ 2 := by
      unfold flush
      rw [delayedLoad_loadReg]
      decide
    exact ⟨_, rfl, ⟨h.code, hpc, hnext, hreg, hload⟩, flush_flush h.regular.2⟩
  | others mainMemory =>
    exact ⟨_, rfl, ⟨h.code.others hok, h.pc, h.nextPC, h.regular, h.pending⟩, rfl⟩
  | writeRegister | user2System | system2User => cases hl

/-- **Instructions among others.** If each of `n` instructions takes a machine
from one stage to the next, and what happens between them leaves it at its stage,
then so does a run. -/
theorem exec_stages {P : ℕ → Machine → Prop} {n : ℕ}
    (hquiet : ∀ k m l, P k m → l.plain = true → l.isInstruction = false → m.Apart l →
      ∃ m', m.event l = some m' ∧ P k m')
    (hstep : ∀ k < n, ∀ m, P k m → ∃ m', m.next = some m' ∧ P (k + 1) m') (ls : List Machine.Event)
    {k : ℕ} (hP : P k m) (hls : ∀ l ∈ ls, l.plain = true)
    (hok : Runs.Along Machine.event Machine.Apart m ls) (hn : k + instructions ls ≤ n) :
    ∃ m', Runs.exec Machine.event m ls = some m' ∧ P (k + instructions ls) m' := by
  induction ls generalizing m k with
  | nil => exact ⟨m, rfl, hP⟩
  | cons l ls ih =>
    have hrest : ∀ l ∈ ls, l.plain = true := fun l' hl' => hls l' (List.mem_cons_of_mem _ hl')
    have hcount : instructions (l :: ls) = instructions ls + if l.isInstruction then 1 else 0 :=
      List.countP_cons
    by_cases hi : l.isInstruction = true
    · rw [if_pos hi] at hcount
      obtain ⟨m1, h1, hP1⟩ := hstep k (by omega) m hP
      have he : m.event l = some m1 := by
        cases l with
        | oneInstruction => exact h1
        | interrupt | writeRegister | user2System | system2User | others => cases hi
      obtain ⟨m', hm', hP'⟩ := ih hP1 hrest (hok.2 m1 he) (by omega)
      refine ⟨m', by simp only [Runs.exec, he, Option.bind_some, hm'], ?_⟩
      rw [hcount, ← add_assoc, add_right_comm]
      exact hP'
    · rw [if_neg hi, add_zero] at hcount
      obtain ⟨m1, he, hP1⟩ :=
        hquiet k m l hP (hls l List.mem_cons_self) (Bool.not_eq_true _ ▸ hi) hok.1
      obtain ⟨m', hm', hP'⟩ := ih hP1 hrest (hok.2 m1 he) (by omega)
      refine ⟨m', by simp only [Runs.exec, he, Option.bind_some, hm'], ?_⟩
      rw [hcount]
      exact hP'

/-! ### A call -/

variable {r0 : Registers} {result : BitVec 32}

/-- `addiu $2,$0,code`. -/
theorem next_addiu (h : AtStub m base c) :
    ∃ m1, m.next = some m1 ∧ InStub m.registers base c c.code (base + 4) (base + 8) m1 := by
  obtain ⟨pt, hf, hcode⟩ := h.code.fetches (k := 0) (r := m.registers) (by decide)
    (by rw [h.pc]; exact (BitVec.add_zero base).symm)
  have hzero : m.registers 0 + c.code = c.code := by rw [h.regular.1, zero_add]
  have h1 := next_assign (m := m) hf (operate_addiu c m.registers)
  rw [hzero] at h1
  obtain ⟨htwo, hothers, hnext⟩ := registers_addiu h.regular h.pending c.code
  refine ⟨_, h1, hcode, htwo, fun x hx => ?_, ?_, ?_, idle_advance (RegSys.idle_delayedLoad _) _⟩
  · calc _ = delayedLoad (assignAll m.registers [(gpr 2, c.code)]) 0 0 (gpr x) := advance_gpr _ _ _
      _ = flush m.registers (gpr x) := hothers x hx
  · exact hnext.trans h.nextPC
  · show m.registers nextPCReg + 4 = base + 8
    rw [h.nextPC, BitVec.add_assoc]
    rfl

/-- `syscall`. -/
theorem raise_syscall (h : InStub r0 base c c.code (base + 4) (base + 8) m) :
    ∃ m2, oneInstruction m = .exception .syscallException 0 m2 ∧ m2.mainMemory = m.mainMemory ∧
      InStub r0 base c c.code (base + 4) (base + 8) m2 := by
  obtain ⟨pt, hf, hcode⟩ := h.code.fetches (k := 1) (r := m.registers) (by decide) h.pc
  refine ⟨⟨m.registers, m.mainMemory, pt⟩, ?_, rfl, hcode, h.two, h.others, h.pc, h.nextPC, h.idle⟩
  have hraise := Machine.Fetches.oneInstruction (m := m) hf
  rw [operate_syscall] at hraise
  exact hraise

/-- What the handler leaves. -/
theorem return_of_handler (hc : c ≠ .halt) (h : InStub r0 base c c.code (base + 4) (base + 8) m)
    {u : UserMem} (hu : StubAt u base c) (result : BitVec 32) : ∃ r, exceptionReturn
    .syscallException (trapped m.registers 2) result (trapped m.registers) = some r ∧
      InStub r0 base c result (base + 8) (base + 12) ⟨r, u.mem, u.pageTable⟩ := by
  obtain ⟨htwo, hpc, hnext, hothers, hidle⟩ := registers_return h.idle result
  have htype : trapped m.registers 2 = c.code := by
    rw [trapped_of_idle h.idle, ← h.two]
    rfl
  have harm : exceptionReturn .syscallException (trapped m.registers 2) result
      (trapped m.registers) =
        some (increasePC (writeRegister (trapped m.registers) 2 result)) := by
    rw [htype]
    cases c with
    | halt => exact absurd rfl hc
    | _ => rfl
  rw [h.nextPC] at hpc hnext
  refine ⟨_, harm, hu, htwo, fun x hx => (hothers x hx).trans (h.others x hx), hpc, ?_, hidle⟩
  rw [BitVec.add_assoc] at hnext
  exact hnext

/-- `j $31`. -/
theorem next_jr (h : InStub r0 base c result (base + 8) (base + 12) m) :
    ∃ m', m.next = some m' ∧ InStub r0 base c result (base + 12) (flush r0 (gpr r31)) m' := by
  obtain ⟨pt, hf, hcode⟩ := h.code.fetches (k := 2) (r := m.registers) (by decide) h.pc
  have hload : delayedLoad (assignAll m.registers []) 0 0 = m.registers :=
    RegSys.delayedLoad_of_idle h.idle
  have hnext := next_assign (m := m) hf (operate_jr c m.registers)
  rw [hload] at hnext
  refine ⟨_, hnext, hcode, h.two, fun x hx => ?_, h.nextPC, h.others r31 (by decide),
    idle_advance h.idle _⟩
  calc _ = m.registers (gpr x) := advance_gpr _ _ _
    _ = flush r0 (gpr x) := h.others x hx

/-- `nop`, in its delay slot. -/
theorem next_nop (h : InStub r0 base c result (base + 12) pc m) :
    ∃ m', m.next = some m' ∧ InStub r0 base c result pc (pc + 4) m' := by
  obtain ⟨pt, hf, hcode⟩ := h.code.fetches (k := 3) (r := m.registers) (by decide) h.pc
  have hnext := next_assign (m := m) hf (operate_nop c m.registers)
  rw [registers_nop h.idle] at hnext
  refine ⟨_, hnext, hcode, h.two, fun x hx => ?_, h.nextPC, congrArg (· + 4) h.nextPC,
    idle_advance h.idle _⟩
  calc _ = m.registers (gpr x) := advance_gpr _ _ _
    _ = flush r0 (gpr x) := h.others x hx

/-- Up to the trap. -/
theorem exec_call (h : AtStub m base c) (ls : List Machine.Event) (hls : ∀ l ∈ ls, l.plain = true)
    (hok : Runs.Along Machine.event Machine.Apart m ls) (hn : instructions ls ≤ 1) :
    ∃ m', Runs.exec Machine.event m ls = some m' ∧
      (instructions ls = 1 → InStub m.registers base c c.code (base + 4) (base + 8) m') := by
  let P : ℕ → Machine → Prop := fun k m' =>
    if k = 0 then AtStub m' base c ∧ flush m'.registers = flush m.registers
      else InStub m.registers base c c.code (base + 4) (base + 8) m'
  have hquiet : ∀ k m1 l, P k m1 → l.plain = true → l.isInstruction = false → m1.Apart l →
      ∃ m', m1.event l = some m' ∧ P k m' := by
    intro k m1 l hP hl hi hok
    by_cases hk : k = 0
    · simp only [P, if_pos hk] at hP ⊢
      obtain ⟨m', hm', hat, hflush⟩ := hP.1.quiet hl hi hok
      exact ⟨m', hm', hat, hflush.trans hP.2⟩
    · simp only [P, if_neg hk] at hP ⊢
      exact hP.quiet hl hi hok
  have hstep : ∀ k < 1, ∀ m1, P k m1 → ∃ m', m1.next = some m' ∧ P (k + 1) m' := by
    intro k hk m1 hP
    obtain rfl : k = 0 := by omega
    obtain ⟨m', hm', hin⟩ := next_addiu hP.1
    refine ⟨m', hm', hin.code, hin.two, fun x hx => ?_, hin.pc, hin.nextPC, hin.idle⟩
    rw [hin.others x hx, hP.2]
  obtain ⟨m', hm', hP⟩ := exec_stages hquiet hstep ls (k := 0) ⟨h, rfl⟩ hls hok (by omega)
  refine ⟨m', hm', fun hone => ?_⟩
  rw [hone] at hP
  exact hP

/-- From the handler on. -/
theorem exec_return (h : InStub r0 base c result (base + 8) (base + 12) m) (ls : List Machine.Event)
    (hls : ∀ l ∈ ls, l.plain = true) (hok : Runs.Along Machine.event Machine.Apart m ls)
    (hn : instructions ls ≤ 2) :
    ∃ m', Runs.exec Machine.event m ls = some m' ∧
    (instructions ls = 2 → Returned r0 base c result m') := by
  let pcs : ℕ → BitVec 32 :=
    fun k => if k = 0 then base + 8 else if k = 1 then base + 12 else flush r0 (gpr r31)
  let P : ℕ → Machine → Prop := fun k =>
    InStub r0 base c result (pcs k) (if k = 0 then base + 12 else if k = 1 then flush r0 (gpr r31)
      else flush r0 (gpr r31) + 4)
  have hstep : ∀ k < 2, ∀ m1, P k m1 → ∃ m', m1.next = some m' ∧ P (k + 1) m' := by
    intro k hk m1 hP
    obtain rfl | rfl : k = 0 ∨ k = 1 := by omega
    · exact next_jr hP
    · exact next_nop hP
  obtain ⟨m', hm', hP⟩ := exec_stages (P := P) (fun k m1 l hP hl hi hok => hP.quiet hl hi hok)
    hstep ls (k := 0) h hls hok (by omega)
  refine ⟨m', hm', fun htwo => ?_⟩
  rw [htwo] at hP
  exact hP

/-- **A system call.** With interrupts and other programs between any two
instructions, a stub enters the handler with its code in r2 and all other
general registers as the caller had them; and from what the handler leaves,
whatever it has done to memory but the stub, the caller goes on behind its call
with the result in r2 and all other general registers as they were. -/
theorem stub_calls (hc : c ≠ .halt) (h : AtStub m base c) (ls : List Machine.Event)
    (hls : ∀ l ∈ ls, l.plain = true) (hok : Runs.Along Machine.event Machine.Apart m ls)
    (hn : instructions ls ≤ 1) :
    ∃ m1, Runs.exec Machine.event m ls = some m1 ∧ (instructions ls = 1 →
      ∃ m2, oneInstruction m1 = .exception .syscallException 0 m2 ∧ m2.mainMemory = m1.mainMemory ∧
        m2.registers 2 = c.code ∧ KeepsOthers m.registers m2.registers ∧
        ∀ (u : UserMem) (result : BitVec 32), StubAt u base c →
          ∃ r, exceptionReturn .syscallException (trapped m2.registers 2) result
              (trapped m2.registers) = some r ∧
            ∀ ls' : List Machine.Event, (∀ l ∈ ls', l.plain = true) →
              Runs.Along Machine.event Machine.Apart ⟨r, u.mem, u.pageTable⟩ ls' →
              instructions ls' ≤ 2 →
              ∃ m3, Runs.exec Machine.event ⟨r, u.mem, u.pageTable⟩ ls' = some m3 ∧
                (instructions ls' = 2 → Returned m.registers base c result m3)) := by
  obtain ⟨m1, h1, hone⟩ := exec_call h ls hls hok hn
  refine ⟨m1, h1, fun hcount => ?_⟩
  obtain ⟨m2, h2, hmem, hin⟩ := raise_syscall (hone hcount)
  refine ⟨m2, h2, hmem, hin.two, hin.others, fun u result hu => ?_⟩
  obtain ⟨r, hr, hret⟩ := return_of_handler hc hin hu result
  exact ⟨r, hr, fun ls' hls' hok' hn' => exec_return hret ls' hls' hok' hn'⟩

/-- The stub of `Write` at address 0, called from 92 with a load of r5 in the delay slot. -/
def atWrite : Machine where
  registers := fun x => if x = nextPCReg then 4 else if x = 31 then 100 else if x = 4 then 7
    else if x = loadReg then 5
    else if x = loadValueReg then 9 else 0
  mainMemory := Bytes.write (fun _ => 0) 256 ((stub .write).flatMap Bytes.wordBytes)
  pageTable := [⟨0, 2, true, false, false, false⟩]

/-- It is entered with the arguments 7 and 9, and returns 3. An interrupt comes
between the `j` and its delay slot. -/
theorem stub_calls_write :
    ∃ m1 m2 r m3, Runs.exec Machine.event atWrite [.oneInstruction] = some m1 ∧
    oneInstruction m1 = .exception .syscallException 0 m2 ∧ m2.registers 2 = 8 ∧
    m2.registers 4 = 7 ∧ m2.registers 5 = 9 ∧
    exceptionReturn .syscallException (trapped m2.registers 2) 3 (trapped m2.registers) = some r ∧
    Runs.exec Machine.event ⟨r, atWrite.mainMemory, atWrite.pageTable⟩
    [.oneInstruction, .interrupt, .oneInstruction] = some m3 ∧
    m3.registers 2 = 3 ∧ m3.registers 5 = 9 ∧ m3.registers pcReg = 100 := by
  have hcode : StubAt atWrite.user 0 .write := ⟨by decide, rfl, by decide, by decide⟩
  have hat : AtStub atWrite 0 .write := ⟨hcode, rfl, rfl, ⟨rfl, by decide⟩, by decide⟩
  obtain ⟨m1, h1, hone⟩ := stub_calls (by decide) hat [.oneInstruction]
    (by simp [Machine.Event.plain]) ⟨trivial, fun _ _ => trivial⟩
    (le_refl 1)
  obtain ⟨m2, h2, -, htype, hargs, hreturn⟩ := hone rfl
  obtain ⟨r, hr, hrun⟩ := hreturn atWrite.user 3 hcode
  obtain ⟨m3, h3, hret⟩ :=
    hrun [.oneInstruction, .interrupt, .oneInstruction] (by simp [Machine.Event.plain])
    ⟨trivial, fun _ _ => ⟨trivial, fun _ _ => ⟨trivial, fun _ _ => trivial⟩⟩⟩ (le_refl 2)
  have hback := hret rfl
  have h5 : flush atWrite.registers (gpr 5) = 9 := by decide
  have h31 : flush atWrite.registers (gpr r31) = 100 := by decide
  exact ⟨m1, m2, r, m3, h1, h2, htype, hargs 4 (by decide), (hargs 5 (by decide)).trans h5, hr,
    h3, hback.two, (hback.others 5 (by decide)).trans h5, hback.pc.trans h31⟩

end Nachos
