/-
# Preemption is invisible to user programs

The machine has one register set, one page table pointer and one pending
load; user programs share them. `TimeShare` is any number of threads, those
with a loaded program and those without, under any schedule: an instruction,
an interrupt that applies the pending load (`CheckIfDue`), a context switch
(`Scheduler::Run`), a thread created or finished, a program started
(`AddrSpace::Execute`), in any order.

A program whose pages no other program has and whose instructions keep off
the targets of pending loads is, after its `k`-th instruction, where it would
be after `k` instructions alone (`TimeShare.preemption_invisible`). The
invariant for one program, `Follows`, is that its registers are in sync with
those of the run alone wherever they are kept: in the machine while it is
current, in its thread while it is not.

Key definitions: `TimeShare`, `TimeShare.step`, `TimeShare.Loaded`, `TimeShare.Follows`.
Key theorems: `TimeShare.Turn.seen`, `TimeShare.Seen.follows`, `TimeShare.preemption_invisible`.
-/
import Mathlib
import Nachos.Base.Runs
import Nachos.Machine.DelaySlot
import Nachos.Userprog.Exception

namespace Nachos

open Bytes (Byte Store)

/-- What a context switch uses of `class Thread`, and the program to run. -/
structure ProgThread where
  userRegisters : Registers
  /-- the page table of the address space that was loaded; none for a kernel thread -/
  program : Option PageTable
  /-- `space != NULL`: the program has been started -/
  space : Bool

/-- The machine and the threads that exist. -/
structure TimeShare where
  registers : Registers
  mainMemory : Store
  /-- whose table `machine->pageTable` is -/
  pageTable : Option Tid
  current : Tid
  threads : Tid → Option ProgThread
  /-- history: the instructions that each thread has executed -/
  executed : Tid → ℕ

namespace TimeShare

inductive Label
  /-- `Machine::OneInstruction`, without a trap -/
  | oneInstruction
  /-- `Interrupt::CheckIfDue` with something due -/
  | interrupt
  /-- `AddrSpace::Execute` -/
  | execute
  /-- a kernel thread is created; its `userRegisters` are as the allocator left them -/
  | fork (t : Tid) (userRegisters : Registers)
  /-- `Scheduler::Run(t, FALSE)` -/
  | run (t : Tid)
  /-- `Scheduler::Run(t, TRUE)`, by a thread that has not started a program -/
  | finish (t : Tid)

def setThread (s : TimeShare) (t : Tid) (th : Option ProgThread) : TimeShare :=
  { s with threads := Function.update s.threads t th }

/-- `Thread::SaveUserState`, if there is an address space. `AddrSpace::SaveState` does nothing. -/
def saveUserState (s : TimeShare) (th : ProgThread) : ProgThread :=
  if th.space then { th with userRegisters := s.registers } else th

/-- After `SWITCH`, in thread `t`: `RestoreUserState` and `RestoreState`, if
there is an address space. A new thread has none. -/
def restore (s : TimeShare) (t : Tid) (th : ProgThread) : TimeShare :=
  if th.space then { s with registers := th.userRegisters, pageTable := some t, current := t }
  else { s with current := t }

/-- One step of the current thread `th`. -/
def stepOf (s : TimeShare) (th : ProgThread) : Label → Option TimeShare
  | .oneInstruction =>
    if th.space then
      s.pageTable.bind fun u => (s.threads u).bind fun owner => owner.program.bind fun pt =>
        (Machine.mk s.registers s.mainMemory pt).next.map fun m =>
          { s.setThread u (some { owner with program := some m.pageTable }) with
            registers := m.registers
            mainMemory := m.mainMemory
            executed := Function.update s.executed s.current (s.executed s.current + 1) }
    else none
  | .interrupt => some { s with registers := delayedLoad s.registers 0 0 }
  | .execute =>
    if th.space then none
    else th.program.map fun pt =>
      { s.setThread s.current (some { th with space := true }) with
        registers := initRegisters pt.length
        pageTable := some s.current }
  | .fork t userRegisters =>
    if (s.threads t).isSome then none else some (s.setThread t (some ⟨userRegisters, none, false⟩))
  | .run t =>
    if t = s.current then none
    else (s.threads t).map
      fun next => (s.setThread s.current (some (s.saveUserState th))).restore t next
  | .finish t =>
    if t = s.current ∨ th.space then none
    else (s.threads t).map fun next => (s.setThread s.current none).restore t next

def step (s : TimeShare) (l : Label) : Option TimeShare :=
  (s.threads s.current).bind fun th => s.stepOf th l

/-- The program loaded for thread `t`. -/
def program (s : TimeShare) (t : Tid) : Option PageTable := (s.threads t).bind (·.program)

/-- The programs are loaded, in pages of their own, and none is started. -/
structure Loaded (s : TimeShare) : Prop where
  bounded : ∀ t pt, s.program t = some pt → Bounded pt
  disjoint : ∀ t u pt pt', t ≠ u → s.program t = some pt → s.program u = some pt' →
    ∀ x, InPages pt x → ¬ InPages pt' x
  unstarted : ∀ t th, s.threads t = some th → th.space = false
  executed : ∀ t, s.executed t = 0

/-- The states of the runs from `s0`. -/
abbrev Reach (s0 : TimeShare) : TimeShare → Prop := Runs.Reach step (· = s0) Runs.anyStep

/-- The machine on which a program is alone, as `Execute` starts it. -/
def alone (s0 : TimeShare) (pt : PageTable) : Machine :=
  ⟨initRegisters pt.length, s0.mainMemory, pt⟩

/-- The registers of thread `t`: the machine's, or those saved. -/
def regsOf (s : TimeShare) (t : Tid) (th : ProgThread) : Registers :=
  if t = s.current then s.registers else th.userRegisters

/-! ### The steps -/

/-- What a step of the current thread `th` does. -/
inductive Turn (s : TimeShare) (th : ProgThread) : TimeShare → Prop
  | oneInstruction {u : Tid} {owner : ProgThread} {pt : PageTable} {m : Machine}
      (hs : th.space = true) (hu : s.pageTable = some u) (ho : s.threads u = some owner)
      (hp : owner.program = some pt)
      (hm : oneInstruction ⟨s.registers, s.mainMemory, pt⟩ = .done m) :
      Turn s th
        { s.setThread u (some { owner with program := some m.pageTable }) with
          registers := m.registers
          mainMemory := m.mainMemory
          executed := Function.update s.executed s.current (s.executed s.current + 1) }
  | interrupt : Turn s th { s with registers := flush s.registers }
  | execute {pt : PageTable} (hs : th.space = false) (hp : th.program = some pt) :
      Turn s th
        { s.setThread s.current (some { th with space := true }) with
          registers := initRegisters pt.length
          pageTable := some s.current }
  | fork {t : Tid} {r : Registers} (ht : s.threads t = none) :
      Turn s th (s.setThread t (some ⟨r, none, false⟩))
  | run {t : Tid} {next : ProgThread} (hne : t ≠ s.current) (ht : s.threads t = some next) :
      Turn s th ((s.setThread s.current (some (s.saveUserState th))).restore t next)
  | finish {t : Tid} {next : ProgThread} (hne : t ≠ s.current) (hs : th.space = false)
      (ht : s.threads t = some next) : Turn s th ((s.setThread s.current none).restore t next)

variable {s0 s s' : TimeShare} {t : Tid} {th : ProgThread} {pt pt0 : PageTable}
  {m m0 m' : Machine} {k : ℕ} {l : Label}

theorem step_cases (h : s.step l = some s') :
    ∃ th, s.threads s.current = some th ∧ Turn s th s' := by
  obtain ⟨th, hth, h⟩ := Option.bind_eq_some_iff.mp h
  refine ⟨th, hth, ?_⟩
  cases l with
  | oneInstruction =>
    simp only [stepOf] at h
    split_ifs at h with hs
    obtain ⟨u, hu, h⟩ := Option.bind_eq_some_iff.mp h
    obtain ⟨owner, ho, h⟩ := Option.bind_eq_some_iff.mp h
    obtain ⟨pt, hp, h⟩ := Option.bind_eq_some_iff.mp h
    obtain ⟨m, hm, rfl⟩ := Option.map_eq_some_iff.mp h
    exact .oneInstruction hs hu ho hp (Machine.next_eq.mp hm)
  | interrupt =>
    cases h
    exact .interrupt
  | execute =>
    simp only [stepOf] at h
    split_ifs at h with hs
    obtain ⟨pt, hp, rfl⟩ := Option.map_eq_some_iff.mp h
    exact .execute (by simpa using hs) hp
  | fork t r =>
    simp only [stepOf] at h
    split_ifs at h with ht
    cases h
    exact .fork (by simpa using ht)
  | run t =>
    simp only [stepOf] at h
    split_ifs at h with hne
    obtain ⟨next, ht, rfl⟩ := Option.map_eq_some_iff.mp h
    exact .run hne ht
  | finish t =>
    simp only [stepOf] at h
    split_ifs at h with hc
    rw [not_or] at hc
    obtain ⟨next, ht, rfl⟩ := Option.map_eq_some_iff.mp h
    exact .finish hc.1 (by simpa using hc.2) ht

@[simp] theorem threads_restore (s : TimeShare) (t : Tid) (th : ProgThread) :
    (s.restore t th).threads = s.threads := by
  unfold restore
  split_ifs <;> rfl

@[simp] theorem current_restore (s : TimeShare) (t : Tid) (th : ProgThread) :
    (s.restore t th).current = t := by
  unfold restore
  split_ifs <;> rfl

@[simp] theorem mainMemory_restore (s : TimeShare) (t : Tid) (th : ProgThread) :
    (s.restore t th).mainMemory = s.mainMemory := by
  unfold restore
  split_ifs <;> rfl

@[simp] theorem executed_restore (s : TimeShare) (t : Tid) (th : ProgThread) :
    (s.restore t th).executed = s.executed := by
  unfold restore
  split_ifs <;> rfl

@[simp] theorem program_saveUserState (s : TimeShare) (th : ProgThread) :
    (s.saveUserState th).program = th.program := by
  unfold saveUserState
  split_ifs <;> rfl

@[simp] theorem space_saveUserState (s : TimeShare) (th : ProgThread) :
    (s.saveUserState th).space = th.space := by
  unfold saveUserState
  split_ifs <;> rfl

@[simp] theorem current_setThread (s : TimeShare) (t : Tid) (o : Option ProgThread) :
    (s.setThread t o).current = s.current := rfl

theorem threads_setThread (s : TimeShare) (t : Tid) (o : Option ProgThread) (u : Tid) :
    (s.setThread t o).threads u = if u = t then o else s.threads u := by
  simp [setThread, Function.update_apply]

/-! ### One program -/

/-- A program against its run alone `m0`: not started, it is as it was
loaded; started, it is in sync with that run after as many instructions. -/
def Follows (m0 : Machine) (k : ℕ) (started : Bool) (m : Machine) : Prop :=
  match started with
  | false =>
    k = 0 ∧ m.pageTable = m0.pageTable ∧ ∀ x, InPages m.pageTable x →
      m.mainMemory x = m0.mainMemory x
  | true => m0.NoHazard k → ∃ a, m0.run k = some a ∧ m.Sync a

/-- What others do leaves the table, the memory in its pages and, once the
program is started, its registers. -/
theorem Follows.same {b : Bool} (h : Follows m0 k b m) (hpt : m'.pageTable = m.pageTable)
    (hmem : ∀ x, InPages m.pageTable x → m'.mainMemory x = m.mainMemory x)
    (hr : b = true → m'.registers = m.registers) : Follows m0 k b m' := by
  cases b with
  | false =>
    obtain ⟨hk, ht, hm⟩ := h
    refine ⟨hk, hpt.trans ht, fun x hx => ?_⟩
    rw [hpt] at hx
    rw [hmem x hx, hm x hx]
  | true =>
    intro hz
    obtain ⟨a, ha, hsync⟩ := h hz
    refine ⟨a, ha, ?_, hpt.trans hsync.pageTable, fun x hx => ?_⟩
    · rw [hr rfl]
      exact hsync.registers
    · rw [hmem x (hsync.pageTable ▸ hx)]
      exact hsync.memory x hx

/-- An interrupt applies the pending load. -/
theorem Follows.interrupt (h : Follows m0 k true m) :
    Follows m0 k true { m with registers := flush m.registers } := by
  intro hz
  obtain ⟨a, ha, hsync⟩ := h hz
  exact ⟨a, ha, hsync.registers.flush, hsync.pageTable, hsync.memory⟩

theorem regular_initRegisters (n : ℕ) : Regular (initRegisters n) := by
  constructor
  · simp [initRegisters, writeRegister, stackReg, nextPCReg, pcReg]
  · have hl : initRegisters n loadReg = 0 := by
      simp [initRegisters, writeRegister, stackReg, nextPCReg, pcReg, loadReg]
    rw [hl]
    decide

/-- `Execute` gives the program the registers that it starts with alone. -/
theorem Follows.execute (h : Follows m0 k false m)
    (hm0 : m0.registers = initRegisters m0.pageTable.length) :
    Follows m0 k true { m with registers := initRegisters m.pageTable.length } := by
  obtain ⟨rfl, hpt, hmem⟩ := h
  intro _
  refine ⟨m0, rfl, ?_, hpt, fun x hx => hmem x (hpt ▸ hx)⟩
  rw [hm0, hpt]
  exact .refl (regular_initRegisters _)

/-- An instruction of its own. -/
theorem Follows.oneInstruction (h : Follows m0 k true m) (hb : Bounded m.pageTable)
    (hm : oneInstruction m = .done m') : Follows m0 (k + 1) true m' := by
  intro hz
  have hlt : m0.NoHazard k := fun j hj => hz j (hj.trans (Nat.lt_succ_self k))
  obtain ⟨a, ha, hsync⟩ := h hlt
  obtain ⟨a', ha', hsync'⟩ :=
    hsync.oneInstruction (hsync.pageTable ▸ hb) (hz k (Nat.lt_succ_self k) a ha) hm
  refine ⟨a', ?_, hsync'⟩
  simp only [Machine.run, ha, Option.bind_some]
  exact Machine.next_eq.mpr ha'

/-! ### All programs -/

/-- The machine as thread `t` sees it. -/
def machineOf (s : TimeShare) (t : Tid) (th : ProgThread) (pt : PageTable) : Machine :=
  ⟨s.regsOf t th, s.mainMemory, pt⟩

/-- The tables keep their pages, the page table pointer is that of the program
that runs, and every program follows its run alone. -/
structure Ok (s0 s : TimeShare) : Prop where
  pages : ∀ t pt, s.program t = some pt →
    ∃ pt0, s0.program t = some pt0 ∧ pt.map (·.physicalPage) = pt0.map (·.physicalPage)
  table : ∀ th, s.threads s.current = some th → th.space = true → s.pageTable = some s.current
  started : ∀ t th, s.threads t = some th → th.space = true → th.program.isSome
  follows : ∀ t th pt pt0, s0.program t = some pt0 → s.threads t = some th → th.program = some pt →
    Follows (s0.alone pt0) (s.executed t) th.space (s.machineOf t th pt)

theorem ok_loaded (h0 : s0.Loaded) : Ok s0 s0 := by
  refine ⟨fun t pt hp => ⟨pt, hp, rfl⟩, fun th hth hs => ?_, fun t th hth hs => ?_,
    fun t th pt pt0 hp0 hth hp => ?_⟩
  · rw [h0.unstarted _ th hth] at hs
    cases hs
  · rw [h0.unstarted _ th hth] at hs
    cases hs
  · have hpt : some pt = some pt0 := by
      rw [← hp0, program, hth, Option.bind_some, hp]
    cases hpt
    rw [h0.unstarted t th hth, h0.executed t]
    exact ⟨rfl, rfl, fun x _ => rfl⟩

theorem Ok.bounded (h0 : s0.Loaded) (h : Ok s0 s) (hp : s.program t = some pt) : Bounded pt := by
  obtain ⟨pt0, hp0, hmap⟩ := h.pages t pt hp
  exact bounded_of_map hmap (h0.bounded t pt0 hp0)

theorem Ok.disjoint (h0 : s0.Loaded) (h : Ok s0 s) {u : Tid} {pt' : PageTable} (hne : t ≠ u)
    (hp : s.program t = some pt) (hp' : s.program u = some pt') {x : ℤ} (hx : InPages pt x) :
    ¬ InPages pt' x := by
  obtain ⟨pt0, hp0, hmap⟩ := h.pages t pt hp
  obtain ⟨pt0', hp0', hmap'⟩ := h.pages u pt' hp'
  rw [inPages_of_map hmap']
  exact h0.disjoint t u pt0 pt0' hne hp0 hp0' x ((inPages_of_map hmap).mp hx)

theorem program_of_thread (hth : s.threads t = some th) (hp : th.program = some pt) :
    s.program t = some pt := by
  rw [program, hth, Option.bind_some, hp]

theorem table_turn (h : Ok s0 s) (hth : s.threads s.current = some th) (ht : Turn s th s')
    {th' : ProgThread} (hth' : s'.threads s'.current = some th') (hs' : th'.space = true) :
    s'.pageTable = some s'.current := by
  -- the thread switched in
  have hswitch : ∀ (o : Option ProgThread) (t : Tid) (next : ProgThread), t ≠ s.current →
      s.threads t = some next →
      ((s.setThread s.current o).restore t next).threads t = some th' →
      ((s.setThread s.current o).restore t next).pageTable = some t := by
    intro o t next hne hnext hcur
    rw [threads_restore, threads_setThread, if_neg hne, hnext] at hcur
    cases hcur
    unfold restore
    rw [if_pos hs']
  cases ht with
  | @oneInstruction u owner pt m hs hu ho hp hm =>
    exact h.table th hth hs
  | interrupt => exact h.table th' hth' hs'
  | execute hs hp => rfl
  | @fork t r hfree =>
    have hne : s.current ≠ t := by
      rintro rfl
      rw [hth] at hfree
      cases hfree
    change (s.setThread t _).threads s.current = some th' at hth'
    rw [threads_setThread, if_neg hne] at hth'
    exact h.table th' hth' hs'
  | run hne hnext =>
    rw [current_restore] at hth' ⊢
    exact hswitch _ _ _ hne hnext hth'
  | finish hne hs hnext =>
    rw [current_restore] at hth' ⊢
    exact hswitch _ _ _ hne hnext hth'

theorem started_turn (h : Ok s0 s) (hth : s.threads s.current = some th) (ht : Turn s th s')
    {th' : ProgThread} (hth' : s'.threads t = some th') (hs' : th'.space = true) :
    th'.program.isSome := by
  -- only the thread that is set can differ
  have hset : ∀ (u : Tid) (o : Option ProgThread), (∀ th', o = some th' → th'.space = true →
      th'.program.isSome) →
      (s.setThread u o).threads t = some th' → th'.program.isSome := by
    intro u o ho heq
    rw [threads_setThread] at heq
    by_cases hc : t = u
    · rw [if_pos hc] at heq
      exact ho th' heq hs'
    · rw [if_neg hc] at heq
      exact h.started t th' heq hs'
  cases ht with
  | oneInstruction hs hu ho hp hm => exact hset _ _ (fun _ he _ => by cases he; rfl) hth'
  | interrupt => exact h.started t th' hth' hs'
  | execute hs hp => exact hset _ _ (fun _ he _ => by cases he; simp [hp]) hth'
  | fork hfree => exact hset _ _ (fun _ he hsp => by cases he; cases hsp) hth'
  | run hne hnext =>
    rw [threads_restore] at hth'
    refine hset _ _ (fun _ he hsp => ?_) hth'
    cases he
    rw [space_saveUserState] at hsp
    rw [program_saveUserState]
    exact h.started _ th hth hsp
  | finish hne hs hnext =>
    rw [threads_restore] at hth'
    exact hset _ _ (fun _ he _ => by cases he) hth'

/-- A step as the program of thread `t` sees it: nothing of its own changes,
or its load is applied, or it is started, or it executes an instruction. -/
inductive Seen (s s' : TimeShare) (t : Tid) (th' : ProgThread) (pt' : PageTable) : Prop
  | same {th : ProgThread} (hth : s.threads t = some th) (hp : th.program = some pt')
      (hs : th'.space = th.space) (hr : th'.space = true → s'.regsOf t th' = s.regsOf t th)
      (hk : s'.executed t = s.executed t)
      (hm : ∀ x, InPages pt' x → s'.mainMemory x = s.mainMemory x)
  | interrupt (hth : s.threads t = some th') (hp : th'.program = some pt')
      (hr : s'.regsOf t th' = flush (s.regsOf t th')) (hk : s'.executed t = s.executed t)
      (hm : s'.mainMemory = s.mainMemory)
  | execute {th : ProgThread} (hth : s.threads t = some th) (hp : th.program = some pt')
      (hs : th.space = false)
      (hs' : th'.space = true) (hr : s'.regsOf t th' = initRegisters pt'.length)
      (hk : s'.executed t = s.executed t) (hm : s'.mainMemory = s.mainMemory)
  | oneInstruction {th : ProgThread} {pt : PageTable} (hth : s.threads t = some th)
      (hp : th.program = some pt)
      (hs : th.space = true) (hs' : th'.space = true) (hk : s'.executed t = s.executed t + 1)
      (hm : Nachos.oneInstruction (s.machineOf t th pt) = .done (s'.machineOf t th' pt'))

/-- A switch, as a thread other than the one that left for good sees it. -/
theorem seen_switch {o : Option ProgThread} {u : Tid} {next th' : ProgThread} {pt' : PageTable}
    (hth : s.threads s.current = some th) (ho : ∀ th', o = some th' → th' = s.saveUserState th)
    (hne : u ≠ s.current) (hnext : s.threads u = some next)
    (hth' : ((s.setThread s.current o).restore u next).threads t = some th')
    (hp' : th'.program = some pt') :
    Seen s ((s.setThread s.current o).restore u next) t th' pt' := by
  rw [threads_restore, threads_setThread] at hth'
  by_cases hc : t = s.current
  · -- switched out
    subst hc
    rw [if_pos rfl] at hth'
    cases ho th' hth'
    rw [program_saveUserState] at hp'
    refine .same hth hp' (space_saveUserState s th) (fun hs => ?_) (by simp; rfl)
      (fun x _ => by simp; rfl)
    rw [space_saveUserState] at hs
    simp only [regsOf, current_restore, if_neg hne.symm, if_true, saveUserState, if_pos hs]
  · rw [if_neg hc] at hth'
    refine .same hth' hp' rfl (fun hs => ?_) (by simp; rfl) (fun x _ => by simp; rfl)
    by_cases hu : t = u
    · -- switched in
      subst hu
      cases hth'.symm.trans hnext
      simp only [regsOf, if_true, if_neg hc, restore, if_pos hs]
    · simp only [regsOf, current_restore, if_neg hu, if_neg hc]

theorem Turn.seen (h0 : s0.Loaded) (h : Ok s0 s) (hth : s.threads s.current = some th)
    (ht : Turn s th s') {th' : ProgThread} {pt' : PageTable} (hth' : s'.threads t = some th')
    (hp' : th'.program = some pt') :
    Seen s s' t th' pt' := by
  cases ht with
  | @oneInstruction u owner pt m hs hu ho hp hm =>
    -- the table is that of the current thread
    cases (h.table th hth hs).symm.trans hu
    cases hth.symm.trans ho
    change (s.setThread s.current _).threads t = some th' at hth'
    rw [threads_setThread] at hth'
    by_cases hc : t = s.current
    · subst hc
      rw [if_pos rfl] at hth'
      cases hth'
      cases hp'
      refine .oneInstruction hth hp hs hs (Function.update_self _ _ _) ?_
      simp only [machineOf, regsOf, current_setThread, if_true]
      exact hm
    · rw [if_neg hc] at hth'
      refine .same hth' hp' rfl (fun _ => ?_) (Function.update_of_ne hc _ _) (fun x hx => ?_)
      · simp only [regsOf, if_neg hc]
        exact if_neg hc
      · -- it writes to its own pages only
        have hpc := program_of_thread hth hp
        refine (oneInstruction_outside (m := ⟨s.registers, s.mainMemory, pt⟩)
          (h.bounded h0 hpc) hm).1 x ?_
        exact h.disjoint h0 hc (program_of_thread hth' hp') hpc hx
  | interrupt =>
    by_cases hc : t = s.current
    · refine .interrupt hth' hp' ?_ rfl rfl
      simp only [regsOf, if_pos hc]
    · refine .same hth' hp' rfl (fun _ => ?_) rfl (fun x _ => rfl)
      simp only [regsOf, if_neg hc]
  | @execute pt hs hp =>
    change (s.setThread s.current _).threads t = some th' at hth'
    rw [threads_setThread] at hth'
    by_cases hc : t = s.current
    · subst hc
      rw [if_pos rfl] at hth'
      cases hth'
      cases hp.symm.trans hp'
      refine .execute hth hp hs rfl ?_ rfl rfl
      exact if_pos rfl
    · rw [if_neg hc] at hth'
      refine .same hth' hp' rfl (fun _ => ?_) rfl (fun x _ => rfl)
      simp only [regsOf, if_neg hc]
      exact if_neg hc
  | @fork u r hfree =>
    rw [threads_setThread] at hth'
    by_cases hc : t = u
    · -- the new thread has no program
      rw [if_pos hc] at hth'
      cases hth'
      cases hp'
    · rw [if_neg hc] at hth'
      exact .same hth' hp' rfl (fun _ => rfl) rfl (fun x _ => rfl)
  | run hne hnext =>
    exact seen_switch hth (fun _ ho => (Option.some.inj ho).symm) hne hnext hth' hp'
  | finish hne hs hnext => exact seen_switch hth (fun _ ho => by cases ho) hne hnext hth' hp'

theorem Seen.pages (h0 : s0.Loaded) (h : Ok s0 s) {th' : ProgThread} {pt' : PageTable}
    (hs : Seen s s' t th' pt') :
    ∃ pt, s.program t = some pt ∧ pt'.map (·.physicalPage) = pt.map (·.physicalPage) := by
  cases hs with
  | same hth hp => exact ⟨_, program_of_thread hth hp, rfl⟩
  | interrupt hth hp => exact ⟨_, program_of_thread hth hp, rfl⟩
  | execute hth hp => exact ⟨_, program_of_thread hth hp, rfl⟩
  | @oneInstruction th pt hth hp hs hs' hk hm =>
    have hpt := program_of_thread hth hp
    exact ⟨pt, hpt, (oneInstruction_outside (m := s.machineOf t th pt) (h.bounded h0 hpt) hm).2⟩

theorem Seen.follows (h0 : s0.Loaded) (h : Ok s0 s) (hp0 : s0.program t = some pt0)
    {th' : ProgThread} {pt' : PageTable} (hs : Seen s s' t th' pt') :
    Follows (s0.alone pt0) (s'.executed t) th'.space (s'.machineOf t th' pt') := by
  cases hs with
  | same hth hp hs hr hk hm =>
    rw [hk]
    have hf := h.follows t _ pt' pt0 hp0 hth hp
    rw [← hs] at hf
    exact hf.same rfl hm hr
  | interrupt hth hp hr hk hm =>
    rw [hk]
    have hf := h.follows t th' pt' pt0 hp0 hth hp
    cases hsp : th'.space with
    | false =>
      rw [hsp] at hf
      refine hf.same rfl (fun x _ => ?_) (fun hc => by cases hc)
      exact congrFun hm x
    | true =>
      rw [hsp] at hf
      refine hf.interrupt.same rfl (fun x _ => ?_) (fun _ => hr)
      exact congrFun hm x
  | execute hth hp hs hs' hr hk hm =>
    rw [hk, hs']
    have hf := h.follows t _ pt' pt0 hp0 hth hp
    rw [hs] at hf
    refine (hf.execute rfl).same rfl (fun x _ => ?_) (fun _ => hr)
    exact congrFun hm x
  | @oneInstruction th pt hth hp hs hs' hk hm =>
    rw [hk, hs']
    have hf := h.follows t th pt pt0 hp0 hth hp
    rw [hs] at hf
    exact hf.oneInstruction (h.bounded h0 (program_of_thread hth hp)) hm

theorem program_eq (h : s.program t = some pt) :
    ∃ th, s.threads t = some th ∧ th.program = some pt :=
  Option.bind_eq_some_iff.mp h

theorem ok_turn (h0 : s0.Loaded) (h : Ok s0 s) (hth : s.threads s.current = some th)
    (ht : Turn s th s') :
    Ok s0 s' := by
  refine ⟨fun t pt hp => ?_, fun th' => table_turn h hth ht, fun t th' => started_turn h hth ht,
    fun t th' pt' pt0 hp0 hth' hp' => ?_⟩
  · obtain ⟨th', hth', hp'⟩ := program_eq hp
    obtain ⟨pt1, hp1, hmap⟩ := (ht.seen h0 h hth hth' hp').pages h0 h
    obtain ⟨pt0, hp0, hmap0⟩ := h.pages t pt1 hp1
    exact ⟨pt0, hp0, hmap.trans hmap0⟩
  · exact (ht.seen h0 h hth hth' hp').follows h0 h hp0

theorem ok_reach (h0 : s0.Loaded) (hr : Reach s0 s) : Ok s0 s := by
  refine hr.inv (Ok s0) ?_ ?_
  · rintro s rfl
    exact ok_loaded h0
  · intro s l s' _ hI _ hs
    obtain ⟨th, hth, ht⟩ := step_cases hs
    exact ok_turn h0 hI hth ht

/-- **Preemption is invisible.** Whatever interrupts and context switches came
between, a program that keeps off the targets of its pending loads is after
`k` instructions where it is after `k` instructions alone. -/
theorem preemption_invisible (h0 : s0.Loaded) (hr : Reach s0 s) (hp : s0.program t = some pt0)
    (hth : s.threads t = some th) (hs : th.space = true)
    (hz : (s0.alone pt0).NoHazard (s.executed t)) :
    ∃ a, (s0.alone pt0).run (s.executed t) = some a ∧ flush (s.regsOf t th) = flush a.registers ∧
      th.program = some a.pageTable ∧ ∀ x, InPages pt0 x → s.mainMemory x = a.mainMemory x := by
  have h := ok_reach h0 hr
  obtain ⟨pt, hpt⟩ := Option.isSome_iff_exists.mp (h.started t th hth hs)
  have hf := h.follows t th pt pt0 hp hth hpt
  rw [hs] at hf
  obtain ⟨a, ha, hsync⟩ := hf hz
  have hap : pt = a.pageTable := hsync.pageTable
  refine ⟨a, ha, hsync.registers.flushed, hap ▸ hpt, fun x hx => hsync.memory x ?_⟩
  -- the table of the program still has the pages it was loaded with
  obtain ⟨pt1, hp1, hmap⟩ := h.pages t pt (program_of_thread hth hpt)
  cases hp.symm.trans hp1
  rw [← hap]
  exact (inPages_of_map hmap).mpr hx

/-- A page table of one page. -/
def onePage (physicalPage : ℤ) : PageTable := [⟨0, physicalPage, true, false, false, false⟩]

/-- Thread 0 has no program. Thread 1 loads the word 5, adds 7 to it and
stores the sum: `lw r8,16(r0); addiu r9,r0,7; addu r10,r8,r9; sw r10,20(r0)`.
Thread 2 stores 1: `addiu r8,r0,1; sw r8,16(r0)`. -/
def twoPrograms : TimeShare where
  registers := fun _ => 0
  mainMemory :=
    Bytes.write (Bytes.write (fun _ => 0) 0 ([0x24080001, 0xac080010].flatMap Bytes.wordBytes)) 128
    ([0x8c080010, 0x24090007, 0x01095021, 0xac0a0014, 5].flatMap Bytes.wordBytes)
  pageTable := none
  current := 0
  threads := fun t =>
    if t = 0 then some ⟨fun _ => 0, none, false⟩
    else if t = 1 then some ⟨fun _ => 0, some (onePage 1), false⟩
    else if t = 2 then some ⟨fun _ => 0, some (onePage 0), false⟩
    else none
  executed := fun _ => 0

theorem twoPrograms_program (h : twoPrograms.program t = some pt) :
    t = 1 ∧ pt = onePage 1 ∨ t = 2 ∧ pt = onePage 0 := by
  simp only [program, twoPrograms] at h
  split_ifs at h with h0 h1 h2
  · cases h
  · cases h
    exact Or.inl ⟨h1, rfl⟩
  · cases h
    exact Or.inr ⟨h2, rfl⟩
  · cases h

theorem twoPrograms_loaded : twoPrograms.Loaded := by
  refine ⟨fun t pt h => ?_, fun t u pt pt' hne h h' x hx hx' => ?_, fun t th h => ?_, fun _ => rfl⟩
  · rcases twoPrograms_program h with ⟨-, rfl⟩ | ⟨-, rfl⟩ <;> simp [Bounded, onePage, numPhysPages]
  · rcases twoPrograms_program h with ⟨rfl, rfl⟩ | ⟨rfl, rfl⟩ <;>
      rcases twoPrograms_program h' with ⟨rfl, rfl⟩ | ⟨rfl, rfl⟩ <;>
      simp [InPages, OnPage, onePage, pageSize] at hne hx hx' <;> omega
  · simp only [twoPrograms] at h
    split_ifs at h <;> cases h <;> rfl

/-- Thread 1 is interrupted with its load pending; then thread 0 and thread 2
run before it goes on. -/
def preempted : List Label :=
  [.run 1, .execute, .oneInstruction, .interrupt, .run 0, .run 2, .execute, .oneInstruction,
    .oneInstruction, .run 1, .oneInstruction, .oneInstruction, .oneInstruction]

theorem preemption_invisible_two :
    ∃ s th a, twoPrograms.Reach s ∧ s.threads 1 = some th ∧ s.executed 1 = 4 ∧
    (twoPrograms.alone (onePage 1)).run 4 = some a ∧ flush (s.regsOf 1 th) = flush a.registers ∧
    s.mainMemory 148 = 12 ∧ a.mainMemory 148 = 12 := by
  obtain ⟨s, hr, ht⟩ := Runs.Reach.of_exec (C := Runs.anyStep) step (· = twoPrograms) rfl preempted
    (Runs.along_any _ _)
    (fun s => decide (s.executed 1 = 4) && (s.threads 1).any (·.space) &&
      decide (s.mainMemory 148 = 12))
    (by decide +kernel)
  simp only [Bool.and_eq_true, decide_eq_true_eq, Option.any_eq_true] at ht
  obtain ⟨⟨hk, th, hth, hs⟩, hm⟩ := ht
  have hall : ∀ j < 4, ((twoPrograms.alone (onePage 1)).run j).all (fun a => !a.hazard) = true := by
    decide +kernel
  have hz : (twoPrograms.alone (onePage 1)).NoHazard (s.executed 1) := by
    intro j hj a ha
    rw [hk] at hj
    have := hall j hj
    rw [ha] at this
    simpa using this
  obtain ⟨a, ha, hregs, -, hmem⟩ := preemption_invisible twoPrograms_loaded hr rfl hth hs hz
  rw [hk] at ha
  refine ⟨s, th, a, hr, hth, hk, ha, hregs, hm, ?_⟩
  rw [← hmem 148 (by simp [InPages, OnPage, onePage, pageSize])]
  exact hm

end TimeShare

end Nachos
