/-
# Traps and system calls (`userprog/exception.cc`)

The machine has one register set; a user program that is switched out has
its registers saved in its thread. `RegSys` is that register set under any
schedule: instructions, traps, ticks, context switches inside a system call
and outside, threads created, started and finished. A handled exception
remembers, as history, the registers the handler was entered with.

A system call whose code has an arm of its own writes r2 and advances the
program counters, and whatever was switched in meanwhile the other registers
come back as they were. A code without one falls through both defaults and
leaves the program counters at the `syscall` instruction
(`RegSys.return_discipline_iff`).

Key definitions: `increasePC`, `syscallOf`, `exceptionReturn`,
`RegSys.step`, `RegSys.ReturnDiscipline`.
Key theorems: `RegSys.inv_step`, `RegSys.return_discipline_iff`.
-/
import Mathlib
import Nachos.Base.Runs
import Nachos.Machine.MipsSim
import Nachos.Threads.Semaphore

namespace Nachos

/-! ### Registers -/

/-- `IncreasePC` of `ksyscall.h`. -/
def increasePC (r : Registers) : Registers :=
  let r := writeRegister r prevPCReg (r pcReg)
  let r := writeRegister r pcReg (r nextPCReg)
  writeRegister r nextPCReg (r pcReg + 4)

/-- `AddrSpace::InitRegisters`. -/
def initRegisters (numPages : ℕ) : Registers :=
  let r : Registers := fun _ => 0
  let r := writeRegister r pcReg 0
  let r := writeRegister r nextPCReg 4
  writeRegister r stackReg (BitVec.ofNat 32 (numPages * pageSize) - 16)

/-! ### The handler -/

/-- The system calls with an arm in `ExceptionHandler`. -/
inductive Syscall
  | halt | create | open_ | close | read | write | remove | socketTCP | connect | seek
  | send | receive | closeSocket | exec | join | exit | createSemaphore | wait | signal
  deriving DecidableEq

/-- The `SC_` codes of `syscall.h`. -/
def Syscall.code : Syscall → BitVec 32
  | .halt => 0
  | .exit => 1
  | .exec => 2
  | .join => 3
  | .create => 4
  | .remove => 5
  | .open_ => 6
  | .read => 7
  | .write => 8
  | .seek => 9
  | .close => 10
  | .socketTCP => 16
  | .connect => 17
  | .send => 18
  | .receive => 19
  | .closeSocket => 20
  | .createSemaphore => 21
  | .wait => 22
  | .signal => 23

/-- The arms, in the order of the source. -/
def Syscall.arms : List Syscall :=
  [.halt, .create, .open_, .close, .read, .write, .remove, .socketTCP, .connect, .seek,
    .send, .receive, .closeSocket, .exec, .join, .exit, .createSemaphore, .wait, .signal]

/-- `switch (type)`. -/
def syscallOf (type : BitVec 32) : Option Syscall := Syscall.arms.find? fun c => c.code = type

/-- The registers when `ExceptionHandler(which)` returns, `r` being those at
the end of the arm and `result` what its `Sys` function returned; `none` when
it does not return. `type` is r2 as the handler was entered. -/
def exceptionReturn (which : ExceptionType) (type result : BitVec 32) (r : Registers) :
    Option Registers :=
  match which with
  | .noException => some r
  | .syscallException =>
    match syscallOf type with
    -- `SysExit(0); ASSERTNOTREACHED();`
    | some .halt => none
    | some _ => some (increasePC (writeRegister r 2 result))
    -- both defaults only print
    | none => some r
  -- `SysHalt()`
  | _ => none

/-! ### The system -/

/-- Where a thread stands. -/
inductive Mode
  /-- kernel code before `AddrSpace::Execute` -/
  | starting
  | user
  /-- in `ExceptionHandler(which)`; `type` is its local, `entry` the registers it was entered
  with -/
  | handling (which : ExceptionType) (type : BitVec 32) (entry : Registers)

/-- What a context switch uses of `class Thread`; `space` is the number of
pages, once the thread has an address space. -/
structure UserThread where
  userRegisters : Registers
  space : Option ℕ
  mode : Mode

/-- The register set and the threads that exist. -/
structure RegSys where
  registers : Registers
  current : Tid
  threads : Tid → Option UserThread
  next : Tid

namespace RegSys

inductive Label
  /-- an instruction that does not trap -/
  | user (r : Registers)
  /-- `Machine::RaiseException` -/
  | trap (which : ExceptionType) (badVAddr : BitVec 32)
  /-- `Interrupt::CheckIfDue` with something due -/
  | tick
  /-- a thread is created; its `userRegisters` are as the allocator left them -/
  | fork (userRegisters : Registers)
  /-- `AddrSpace::Execute` -/
  | execute (numPages : ℕ)
  /-- `Scheduler::Run(next, FALSE)` -/
  | switch (t : Tid)
  /-- `Scheduler::Run(next, TRUE)` -/
  | finish (t : Tid)
  /-- the handler returns -/
  | ret (result : BitVec 32)

def setThread (s : RegSys) (t : Tid) (th : Option UserThread) : RegSys :=
  { s with threads := Function.update s.threads t th }

/-- The thread switched out saves the registers if it has an address space. -/
def saveUserState (s : RegSys) (th : UserThread) : UserThread :=
  if th.space.isSome then { th with userRegisters := s.registers } else th

/-- The thread switched in restores them if it has one. -/
def restoreUserState (s : RegSys) (th : UserThread) : Registers :=
  if th.space.isSome then th.userRegisters else s.registers

/-- One step of the current thread `th`. -/
def stepOf (s : RegSys) (th : UserThread) : Label → Option RegSys
  | .user r =>
    match th.mode with
    | .user => some { s with registers := r }
    | _ => none
  | .trap which badVAddr =>
    match th.mode with
    | .user =>
      let r := delayedLoad (writeRegister s.registers badVAddrReg badVAddr) 0 0
      some { s.setThread s.current (some { th with mode := .handling which (r 2) r }) with
        registers := r }
    | _ => none
  | .tick => some { s with registers := delayedLoad s.registers 0 0 }
  | .fork userRegisters =>
    some { s.setThread s.next (some ⟨userRegisters, none, .starting⟩) with next := s.next + 1 }
  | .execute numPages =>
    match th.mode with
    | .starting =>
      some { s.setThread s.current (some { th with space := some numPages, mode := .user }) with
        registers := initRegisters numPages }
    | _ => none
  | .switch t =>
    if t = s.current then none
    else (s.threads t).map fun th' =>
      { s.setThread s.current (some (s.saveUserState th)) with
        registers := s.restoreUserState th', current := t }
  | .finish t =>
    if t = s.current then none
    else (s.threads t).map fun th' =>
      { s.setThread s.current none with registers := s.restoreUserState th', current := t }
  | .ret result =>
    match th.mode with
    | .handling which type _ => (exceptionReturn which type result s.registers).map fun r =>
      { s.setThread s.current (some { th with mode := .user }) with registers := r }
    | _ => none

def step (s : RegSys) (l : Label) : Option RegSys :=
  (s.threads s.current).bind fun th => s.stepOf th l

/-- The main thread, before it starts its program. -/
def initial : RegSys where
  registers := fun _ => 0
  current := 0
  threads := fun t => if t = 0 then some ⟨fun _ => 0, none, .starting⟩ else none
  next := 1

abbrev Reach : RegSys → Prop := Runs.Reach step (· = initial) Runs.anyStep

/-! ### The invariant -/

/-- No load is in progress, and r0 is zero. -/
def Idle (r : Registers) : Prop := r loadReg = 0 ∧ r loadValueReg = 0 ∧ r 0 = 0

theorem idle_delayedLoad (r : Registers) : Idle (delayedLoad r 0 0) := by
  refine ⟨?_, ?_, ?_⟩ <;> simp [delayedLoad, writeRegister, loadReg, loadValueReg]

theorem delayedLoad_of_idle {r : Registers} (h : Idle r) : delayedLoad r 0 0 = r := by
  obtain ⟨h1, h2, h3⟩ := h
  have h0 : (0 : BitVec 32).toNat < numTotalRegs := by decide
  unfold delayedLoad writeIndexed writeRegister
  rw [h1, h2, dif_pos h0]
  funext i
  simp only [Function.update_apply]
  split_ifs with h4 h5 h6 h7
  · rw [h4, h3]
  · rw [h5, h2]
  · rw [h6, h1]
  · exact absurd h7 h4
  · rfl

/-- The registers of thread `t`: the machine's, or those saved. -/
def regsOf (s : RegSys) (t : Tid) (th : UserThread) : Registers :=
  if t = s.current then s.registers else th.userRegisters

/-- A thread past `Execute` has an address space, and in the handler its
registers `r` are those it was entered with. -/
def ThreadOk (th : UserThread) (r : Registers) : Prop :=
  match th.mode with
  | .starting => True
  | .user => th.space.isSome
  | .handling _ type entry => th.space.isSome ∧ type = entry 2 ∧ Idle entry ∧ r = entry

structure Inv (s : RegSys) : Prop where
  bound : ∀ t th, s.threads t = some th → t < s.next
  threads : ∀ t th, s.threads t = some th → ThreadOk th (s.regsOf t th)

variable {s s' : RegSys} {th : UserThread}

theorem ThreadOk.save (h : ThreadOk th s.registers) :
    ThreadOk (s.saveUserState th) (s.saveUserState th).userRegisters := by
  unfold saveUserState
  split_ifs with hs
  · exact h
  · -- without an address space the thread has not started
    unfold ThreadOk at h ⊢
    split at h
    · trivial
    · exact absurd h hs
    · exact absurd h.1 hs

theorem ThreadOk.restore (h : ThreadOk th th.userRegisters) :
    ThreadOk th (s.restoreUserState th) := by
  unfold restoreUserState
  split_ifs with hs
  · exact h
  · unfold ThreadOk at h ⊢
    split at h
    · trivial
    · exact absurd h hs
    · exact absurd h.1 hs

theorem inv_initial : Inv initial := by
  refine ⟨fun t th h => ?_, fun t th h => ?_⟩ <;> simp only [initial] at h <;>
    split_ifs at h with ht
  · rw [ht]; decide
  · cases h; trivial

/-- A step that leaves the current thread current may change its record and
the registers. -/
theorem Inv.update (hI : Inv s) {r : Registers} (th' : UserThread)
    (hth : s.threads s.current = some th) (hok : ThreadOk th' r) :
    Inv { s.setThread s.current (some th') with registers := r } := by
  refine ⟨fun t th1 h => ?_, fun t th1 h => ?_⟩ <;>
    simp only [setThread, Function.update_apply] at h
  · split_ifs at h with hc
    · rw [hc]; exact hI.bound _ th hth
    · exact hI.bound t th1 h
  · show ThreadOk th1 (if t = s.current then r else th1.userRegisters)
    split_ifs at h with hc
    · cases h
      rwa [if_pos hc]
    · rw [if_neg hc]
      have := hI.threads t th1 h
      rwa [regsOf, if_neg hc] at this

/-- Another thread is switched in; what the old one leaves behind is in order,
if it stays. -/
theorem Inv.switched (hI : Inv s) {t : Tid} {th' : UserThread} (hth : s.threads s.current = some th)
    (hne : t ≠ s.current) (ht : s.threads t = some th') {o : Option UserThread}
    (ho : ∀ th1, o = some th1 → ThreadOk th1 th1.userRegisters) :
    Inv { s.setThread s.current o with registers := s.restoreUserState th', current := t } := by
  have hth' := hI.threads t th' ht
  rw [regsOf, if_neg hne] at hth'
  refine ⟨fun u th1 h => ?_, fun u th1 h => ?_⟩ <;>
    simp only [setThread, Function.update_apply] at h
  · split_ifs at h with hc
    · rw [hc]; exact hI.bound _ th hth
    · exact hI.bound u th1 h
  · show ThreadOk th1 (if u = t then s.restoreUserState th' else th1.userRegisters)
    by_cases hu : u = t
    · rw [hu, if_neg hne, ht] at h
      rw [if_pos hu]
      cases h
      exact hth'.restore
    · rw [if_neg hu]
      by_cases hc : u = s.current
      · rw [if_pos hc] at h
        exact ho th1 h
      · rw [if_neg hc] at h
        have := hI.threads u th1 h
        rwa [regsOf, if_neg hc] at this

theorem Inv.fork (hI : Inv s) (userRegisters : Registers) :
    Inv { s.setThread s.next (some ⟨userRegisters, none, .starting⟩) with next := s.next + 1 } := by
  refine ⟨fun u th1 h => ?_, fun u th1 h => ?_⟩ <;>
    simp only [setThread, Function.update_apply] at h <;>
    split_ifs at h with hc
  · rw [hc]; exact Nat.lt_succ_self _
  · exact Nat.lt_succ_of_lt (hI.bound u th1 h)
  · cases h
    trivial
  · exact hI.threads u th1 h

/-- The current thread in order. -/
theorem Inv.cur (hI : Inv s) (hth : s.threads s.current = some th) : ThreadOk th s.registers := by
  have := hI.threads _ th hth
  rwa [regsOf, if_pos rfl] at this

theorem setThread_self (hth : s.threads s.current = some th) :
    s.setThread s.current (some th) = s := by
  unfold setThread
  rw [← hth, Function.update_eq_self]

theorem inv_step (hI : Inv s) (l : Label) (hs : s.step l = some s') : Inv s' := by
  obtain ⟨th, hth, hs⟩ := Option.bind_eq_some_iff.mp hs
  have hok := hI.cur hth
  cases l with
  | user r =>
    simp only [stepOf] at hs
    split at hs
    · rename_i hm
      cases hs
      have := hI.update (r := r) th hth (by rw [ThreadOk, hm] at hok ⊢; exact hok)
      rwa [setThread_self hth] at this
    · cases hs
  | trap which badVAddr =>
    simp only [stepOf] at hs
    split at hs
    · rename_i hm
      cases hs
      rw [ThreadOk, hm] at hok
      exact hI.update _ hth ⟨hok, rfl, idle_delayedLoad _, rfl⟩
    · cases hs
  | tick =>
    simp only [stepOf, Option.some.injEq] at hs
    have := hI.update (r := delayedLoad s.registers 0 0) th hth ?_
    · rw [setThread_self hth] at this
      exact hs ▸ this
    · unfold ThreadOk at hok ⊢
      split at hok
      · trivial
      · exact hok
      · -- a load in progress was finished at the trap
        obtain ⟨h1, h2, h3, h4⟩ := hok
        exact ⟨h1, h2, h3, by rw [h4, delayedLoad_of_idle h3]⟩
  | fork userRegisters =>
    cases hs
    exact hI.fork userRegisters
  | execute numPages =>
    simp only [stepOf] at hs
    split at hs
    · cases hs
      exact hI.update _ hth rfl
    · cases hs
  | switch t =>
    simp only [stepOf] at hs
    split_ifs at hs with hne
    obtain ⟨th', ht, rfl⟩ := Option.map_eq_some_iff.mp hs
    refine hI.switched hth hne ht fun th1 h1 => ?_
    cases h1
    exact hok.save
  | finish t =>
    simp only [stepOf] at hs
    split_ifs at hs with hne
    obtain ⟨th', ht, rfl⟩ := Option.map_eq_some_iff.mp hs
    exact hI.switched hth hne ht fun th1 h1 => by cases h1
  | ret result =>
    simp only [stepOf] at hs
    split at hs
    · rename_i hm
      obtain ⟨r, -, rfl⟩ := Option.map_eq_some_iff.mp hs
      rw [ThreadOk, hm] at hok
      exact hI.update _ hth hok.1
    · cases hs

theorem inv_reach (h : Reach s) : Inv s := by
  refine h.inv Inv ?_ fun _ l _ _ hI _ hs => inv_step hI l hs
  intro s0 h0
  rw [h0]
  exact inv_initial

/-! ### The return discipline -/

/-- The codes with an arm. -/
theorem syscallOf_isSome (type : BitVec 32) :
    (syscallOf type).isSome ↔ type.toNat ≤ 10 ∨ (16 ≤ type.toNat ∧ type.toNat ≤ 23) := by
  have h : (syscallOf type).isSome ↔ ∃ c ∈ Syscall.arms, c.code = type := by
    simp [syscallOf, List.find?_isSome]
  rw [h]
  constructor
  · rintro ⟨c, -, rfl⟩
    cases c <;> decide
  · intro ht
    have hcodes : ∀ n < 24, n ≤ 10 ∨ 16 ≤ n → ∃ c ∈ Syscall.arms, c.code.toNat = n := by decide
    obtain ⟨c, hc, hn⟩ := hcodes type.toNat (by omega) (by omega)
    exact ⟨c, hc, BitVec.eq_of_toNat_eq hn⟩

/-- What a system call that returns owes its caller, entered with the
registers `entry` and left with `r`. -/
def ReturnDiscipline (entry r : Registers) : Prop :=
  r pcReg = entry nextPCReg ∧ r nextPCReg = entry nextPCReg + 4 ∧ r prevPCReg = entry pcReg ∧
    ∀ i : Fin numTotalRegs, (i : ℕ) < numGPRegs → i ≠ 2 → r i = entry i

theorem returnDiscipline_increasePC (r : Registers) (result : BitVec 32) :
    ReturnDiscipline r (increasePC (writeRegister r 2 result)) := by
  refine ⟨?_, ?_, ?_, fun i hi h2 => ?_⟩
  · simp [increasePC, writeRegister, pcReg, nextPCReg, prevPCReg]
  · simp [increasePC, writeRegister, pcReg, nextPCReg, prevPCReg]
  · simp [increasePC, writeRegister, pcReg, nextPCReg, prevPCReg]
  · have h3 : i ≠ pcReg ∧ i ≠ nextPCReg ∧ i ≠ prevPCReg := by
      refine ⟨?_, ?_, ?_⟩ <;> rintro rfl <;> revert hi <;> decide
    simp [increasePC, writeRegister, Function.update_apply, h2, h3]

/-- The registers with which the current thread entered the system call it is in. -/
def syscallEntry (s : RegSys) : Option Registers :=
  (s.threads s.current).bind fun th =>
    match th.mode with
    | .handling .syscallException _ entry => some entry
    | _ => none

theorem syscallEntry_some {entry : Registers} (h : s.syscallEntry = some entry) : ∃ th type,
    s.threads s.current = some th ∧ th.mode = .handling .syscallException type entry := by
  obtain ⟨th, hth, h⟩ := Option.bind_eq_some_iff.mp h
  split at h
  · rename_i type e hm
    cases h
    exact ⟨th, type, hth, hm⟩
  · cases h

/-- **The return discipline.** In every schedule, a system call that returns
meets it just when the code it was called with is one of 0 to 10 and 16 to 23. -/
theorem return_discipline_iff {s s' : RegSys} {entry : Registers} {result : BitVec 32} (h : Reach s)
    (he : s.syscallEntry = some entry) (hs : s.step (.ret result) = some s') :
    ReturnDiscipline entry s'.registers ↔
      (entry 2).toNat ≤ 10 ∨ (16 ≤ (entry 2).toNat ∧ (entry 2).toNat ≤ 23) := by
  obtain ⟨th, type, hth, hm⟩ := syscallEntry_some he
  obtain ⟨th0, hth0, hs⟩ := Option.bind_eq_some_iff.mp hs
  rw [hth] at hth0
  cases hth0
  have hok := (inv_reach h).cur hth
  rw [ThreadOk, hm] at hok
  obtain ⟨-, rfl, -, hregs⟩ := hok
  simp only [stepOf, hm] at hs
  obtain ⟨r, hr, rfl⟩ := Option.map_eq_some_iff.mp hs
  rw [← syscallOf_isSome, ← hregs]
  rw [← hregs] at hr
  simp only [exceptionReturn] at hr
  cases hc : syscallOf (s.registers 2) with
  | none =>
    -- the program counters stay: the next one is not four further
    rw [hc] at hr
    cases hr
    simp only [Option.isSome_none, Bool.false_eq_true, iff_false]
    intro hd
    have := hd.2.1
    simp at this
  | some c =>
    rw [hc] at hr
    have hr' : r = increasePC (writeRegister s.registers 2 result) := by
      cases c <;> cases hr <;> rfl
    simp only [hr', Option.isSome_some, iff_true]
    exact returnDiscipline_increasePC _ _

/-- Exec forks a process that starts, runs and traps before the caller is
switched in again and its call returns. -/
theorem return_discipline_iff_exec : ∃ s s' entry, Reach s ∧ s.syscallEntry = some entry ∧
    s.step (.ret 1) = some s' ∧ entry 2 = 2 ∧ ReturnDiscipline entry s'.registers := by
  obtain ⟨s, hs, ht⟩ := Runs.Reach.of_exec step (· = initial) rfl
    [.execute 9, .user fun i => if i = 2 then 2 else 7, .trap .syscallException 0, .fork fun _ => 0,
      .tick, .switch 1, .execute 9, .user fun _ => 3, .trap .syscallException 0, .switch 0]
      (Runs.along_any _ _)
    (fun s => s.syscallEntry.any (· 2 = 2) && (s.step (.ret 1)).isSome) (by decide)
  simp only [Bool.and_eq_true, Option.any_eq_true, decide_eq_true_eq] at ht
  obtain ⟨⟨entry, he, h2⟩, hret⟩ := ht
  obtain ⟨s', hs'⟩ := Option.isSome_iff_exists.mp hret
  refine ⟨s, s', entry, hs, he, hs', h2, (return_discipline_iff hs he hs').mpr (Or.inl ?_)⟩
  rw [h2]
  decide

/-- Code 42 (`SC_Add`): the call returns and the program counters are still at
the `syscall` instruction. -/
theorem unexpected_call_loops : ∃ s s' entry, Reach s ∧ s.syscallEntry = some entry ∧
    s.step (.ret 0) = some s' ∧ entry 2 = 42 ∧ ¬ ReturnDiscipline entry s'.registers ∧
    s'.registers pcReg = entry pcReg ∧ s'.registers nextPCReg = entry nextPCReg := by
  obtain ⟨s, hs, ht⟩ := Runs.Reach.of_exec step (· = initial) rfl
    [.execute 9, .user fun i => if i = 2 then 42 else 8, .trap .syscallException 0]
    (Runs.along_any _ _)
    (fun s => s.syscallEntry.any fun e => e 2 = 42 ∧ (s.step (.ret 0)).any fun s' =>
      s'.registers pcReg = e pcReg ∧ s'.registers nextPCReg = e nextPCReg) (by decide)
  simp only [Option.any_eq_true, decide_eq_true_eq] at ht
  obtain ⟨entry, he, h2, s', hs', hpc, hnext⟩ := ht
  refine ⟨s, s', entry, hs, he, hs', h2, fun hd => ?_, hpc, hnext⟩
  have := hd.2.1
  rw [hnext] at this
  simp at this

end RegSys
end Nachos
