/-
# The process table in every run

What holds of `PTable` under any interleaving of `ExecUpdate`, `JoinUpdate` and
`ExitUpdate`, from any start. The table keeps to its own rules in every run
(`base_reach`), but three of its promises hold only in some:

* bitmap, `pcb` and `psize` agree until a process finishes, since `Remove`
  never comes back from the destructor of the PCB (`representation_iff`);
* a process is known by its program's name, so a name in use twice, or
  `main`, is mistaken (`identity_iff`);
* a slot that is used again is taken for the one it was: a new process may
  join the children of the one before it (`join_by_creator`), and a parent
  may read its status from the PCB of a stranger (`status_delivered`).

Key definitions: `Kernel.RepInv`, `Kernel.Identifies`, `Kernel.NamesFresh`,
`Kernel.ParentsFresh`, `Kernel.JoinsSettled`.
Key theorems: `Kernel.representation_iff`, `Kernel.identity_iff`,
`Kernel.join_by_creator`, `Kernel.status_delivered`.
-/
import Mathlib
import Nachos.Threads.Scheduler
import Nachos.Userprog.Isolation

namespace Nachos

def Pc.isFinished : Pc → Bool
  | .finished => true
  | _ => false

theorem Pc.stage_dead_iff {pc : Pc} : pc.stage = .dead ↔ pc = .finished := by
  cases pc with
  | at_ k => cases k <;> simp [Pc.stage]
  | inP k => cases k <;> simp [Pc.stage]
  | finished => simp [Pc.stage]

/-- `ExecUpdate` is between `GetFreeSlot` and `Fork`. -/
def Pc.isAllocated : Pc → Bool
  | .inP (.execPcb _ _ _) => true
  | .at_ (.execPcb _ _ _) => true
  | _ => false

/-- `ExecUpdate` is between `Fork` and `psize++`. -/
def Pc.isForked : Pc → Bool
  | .at_ (.execForked _ _) => true
  | .at_ (.execDone _ _) => true
  | _ => false

theorem Pc.isFinished_iff {pc : Pc} : pc.isFinished = true ↔ pc = .finished := by
  cases pc <;> simp [Pc.isFinished]

theorem Pc.isAllocated_iff {pc : Pc} :
    pc.isAllocated = true ↔ ∃ p f name, pc.stage = .alloc p f name := by
  cases pc with
  | at_ k => cases k <;> simp [Pc.stage, Pc.isAllocated]
  | inP k => cases k <;> simp [Pc.stage, Pc.isAllocated]
  | finished => simp [Pc.stage, Pc.isAllocated]

theorem Pc.isForked_iff {pc : Pc} : pc.isForked = true ↔ ∃ p f, pc.stage = .named p f := by
  cases pc with
  | at_ k => cases k <;> simp [Pc.stage, Pc.isForked]
  | inP k => cases k <;> simp [Pc.stage, Pc.isForked]
  | finished => simp [Pc.stage, Pc.isForked]

/-- The thread is in user code. -/
def Pc.isUser : Pc → Bool
  | .at_ .user => true
  | _ => false

/-- The thread is in `JoinUpdate(id)`, past its checks. -/
def Pc.joinsSlot (pc : Pc) (id : ℕ) : Bool :=
  match pc.phase with
  | .joining i => decide (i = id)
  | .waiting i _ => decide (i = id)
  | .joined i => decide (i = id)
  | _ => false

theorem Pc.joinsSlot_iff {pc : Pc} {id : ℕ} : pc.joinsSlot id = true ↔ pc.phase.InJoin id := by
  unfold Pc.joinsSlot
  cases pc.phase <;> simp [JPhase.InJoin]

namespace Kernel

open Runs (Reach anyStep)

variable {s s' : Kernel} {t u : Tid} {th : Thread} {C : Kernel → Label → Prop}

/-! ### Every run -/

theorem base_reach (h : Reach step IsInitial C s) : s.table.Base ∧ s.table.Counted := by
  refine h.inv (fun s => s.table.Base ∧ s.table.Counted) ?_ ?_
  · rintro s ⟨name, rfl⟩
    exact ⟨base_initial name, counted_initial name⟩
  · rintro s l s' - ⟨hB, hC⟩ - hs
    rcases table_step (Base.next_none hB) hs with he | ⟨a, hstep, -⟩
    · rw [he]
      exact ⟨hB, hC⟩
    · exact ⟨ProcTable.base_step hB hstep, ProcTable.counted_step hB hC hstep⟩

/-- What the table has at the start and every action keeps, it has in every
state of a run. -/
theorem table_reach {I : ProcTable → Prop} (h0 : ∀ name, I (initial name).table)
    (hI : ∀ s l a v, Reach step IsInitial C s → I s.table → C s l →
      (∀ t cur f name, a = .alloc t cur f name → s.allocating l = some (t, cur, f, name)) →
      s.table.Step a v → I v)
    (h : Reach step IsInitial C s) : I s.table := by
  refine h.inv (fun s => I s.table) ?_ fun s l s' hr hs hc hstep => ?_
  · rintro s ⟨name, rfl⟩
    exact h0 name
  · rcases table_step (Base.next_none (base_reach hr).1) hstep with he | ⟨a, hstep, ha⟩
    · rw [he]
      exact hs
    · exact hI s l a s'.table hr hs hc ha hstep

theorem placed_reach (h : Reach step IsInitial C s) : Placed s := by
  refine h.inv Placed ?_ fun s l s' hr hP _ hs => placed_step hP (Base.next_none (base_reach hr).1)
    hs
  rintro s ⟨name, rfl⟩
  exact placed_initial name

theorem live_iff {pr : Proc} :
    s.table.Live t pr ↔ ∃ th, s.threads t = some th ∧ th.pc ≠ .finished ∧ th.proc = pr := by
  unfold ProcTable.Live
  constructor
  · rintro ⟨h1, h2⟩
    obtain ⟨th, hth, rfl⟩ := Option.map_eq_some_iff.mp h1
    rw [table_stage hth rfl] at h2
    exact ⟨th, hth, fun h => h2 (Pc.stage_dead_iff.mpr h), rfl⟩
  · rintro ⟨th, hth, hpc, rfl⟩
    refine ⟨table_threads hth, ?_⟩
    rw [table_stage hth rfl]
    exact fun h => hpc (Pc.stage_dead_iff.mp h)

/-- A stage other than the first is that of a thread. -/
theorem stage_iff {st : Stage} (hst : st ≠ .out) :
    s.table.stage t = st ↔ ∃ th, s.threads t = some th ∧ th.pc.stage = st := by
  cases ht : s.threads t with
  | none => simpa [table, stageOf, ht] using hst.symm
  | some th => simp [table_stage ht rfl]

/-! ### The representation of the table -/

/-- A process with pid `i` has been created and has not finished. -/
def Occupied (s : Kernel) (i : ℕ) : Prop :=
  ∃ t th, s.threads t = some th ∧ th.pc ≠ .finished ∧ th.slot = i

open Classical in
noncomputable def occupied (s : Kernel) : Finset ℕ := (Finset.range maxProcess).filter s.Occupied

/-- Bitmap, pointers and processes agree slot by slot, and `psize` counts them. -/
def RepInv (s : Kernel) : Prop :=
  (∀ i < maxProcess, (s.bm.test i = true ↔ s.isExist i = true) ∧
    (s.isExist i = true ↔ s.Occupied i)) ∧
    s.psize = s.occupied.card

theorem isExist_iff {i : ℕ} (hi : i < maxProcess) : s.isExist i = true ↔ (s.pcb i).isSome := by
  have h1 : ¬ ((i : ℤ) < 0 ∨ (maxProcess : ℤ) ≤ i) := by omega
  rw [isExist, if_neg h1]
  simp

theorem occupied_iff {i : ℕ} : s.Occupied i ↔ s.table.Occupied i := by
  constructor
  · rintro ⟨t, th, h1, h2, rfl⟩
    exact ⟨t, th.proc, live_iff.mpr ⟨th, h1, h2, rfl⟩, rfl⟩
  · rintro ⟨t, pr, hl, rfl⟩
    obtain ⟨th, h1, h2, rfl⟩ := live_iff.mp hl
    exact ⟨t, th, h1, h2, rfl⟩

theorem repInv_table : s.RepInv ↔ s.table.RepInv := by
  have hcard : s.occupied = s.table.occupiedSlots := by
    classical
    exact Finset.filter_congr fun i _ => occupied_iff
  unfold RepInv ProcTable.RepInv
  rw [hcard]
  refine and_congr (forall₂_congr fun i hi => ?_) Iff.rfl
  rw [isExist_iff hi, occupied_iff]
  rfl

theorem mem_dead (hB : s.table.Base) :
    t ∈ s.table.deadThreads ↔ ∃ th, s.threads t = some th ∧ th.pc = .finished := by
  rw [ProcTable.mem_deadThreads, stage_iff (by simp)]
  constructor
  · rintro ⟨-, th, h1, h2⟩
    exact ⟨th, h1, Pc.stage_dead_iff.mp h2⟩
  · rintro ⟨th, h1, h2⟩
    exact ⟨hB.static.fresh t _ (table_threads h1), th, h1, Pc.stage_dead_iff.mpr h2⟩

/-- No thread of the kernel is at a place that shows as one of these stages. -/
theorem forall_stage {P : Stage → Prop} {b : Pc → Bool} (hout : ¬ P .out)
    (hb : ∀ pc, b pc = true ↔ P pc.stage) :
    (∀ t, ¬ P (s.table.stage t)) ↔ ∀ t th, s.threads t = some th → b th.pc = false := by
  constructor
  · intro h t th ht
    rw [← Bool.not_eq_true, hb, ← table_stage ht rfl]
    exact h t
  · intro h t hP
    cases ht : s.threads t with
    | none => exact hout (by simpa [table, stageOf, ht] using hP)
    | some th =>
      rw [table_stage ht rfl, ← hb, h t th ht] at hP
      cases hP

theorem not_allocated_iff : (∀ t p f name, s.table.stage t ≠ .alloc p f name) ↔
    ∀ t th, s.threads t = some th → th.pc.isAllocated = false := by
  rw [← forall_stage (P := fun st => ∃ p f name, st = .alloc p f name) (by simp) fun _ =>
    Pc.isAllocated_iff]
  simp

theorem not_forked_iff : (∀ t p f, s.table.stage t ≠ .named p f) ↔
    ∀ t th, s.threads t = some th → th.pc.isForked = false := by
  rw [← forall_stage (P := fun st => ∃ p f, st = .named p f) (by simp) fun _ => Pc.isForked_iff]
  simp

theorem dead_eq_zero_iff (hB : s.table.Base) : s.table.deadThreads.card = 0 ↔
    ∀ t th, s.threads t = some th → th.pc ≠ .finished := by
  rw [Finset.card_eq_zero, Finset.eq_empty_iff_forall_notMem]
  refine forall_congr' fun t => ?_
  rw [mem_dead hB]
  simp

theorem dead_eq_one_iff (hB : s.table.Base) : s.table.deadThreads.card = 1 ↔
    ∃! t, ∃ th, s.threads t = some th ∧ th.pc = .finished := by
  rw [Finset.card_eq_one, Finset.singleton_iff_unique_mem]
  simp only [mem_dead hB]

/-- In every run: the representation invariant holds with no `ExecUpdate`
between `GetFreeSlot` and `psize++` and no process finished, or in the moment
when the `psize++` still to come makes up for the one process finished, the
new one having its slot. -/
theorem representation_iff (h : Reach step IsInitial anyStep s) : s.RepInv ↔
    (∀ t th, s.threads t = some th → th.pc.isAllocated = false) ∧
      (((∀ t th, s.threads t = some th → th.pc.isForked = false) ∧
          ∀ t th, s.threads t = some th → th.pc ≠ .finished) ∨
        ((∃ t th, s.threads t = some th ∧ th.pc.isForked = true) ∧
          (∃! t, ∃ th, s.threads t = some th ∧ th.pc = .finished) ∧
          ∀ i < maxProcess, s.isExist i = true → s.bm.test i = true)) := by
  obtain ⟨hB, hC⟩ := base_reach h
  have hforked : (∃ t p f, s.table.stage t = .named p f) ↔ ∃ t th, s.threads t = some th ∧
      th.pc.isForked = true := by
    have := not_congr (not_forked_iff (s := s))
    push Not at this
    simpa using this
  have hbits : (∀ i < maxProcess, (s.table.pcb i).isSome → s.table.bm.test i = true) ↔
      ∀ i < maxProcess, s.isExist i = true → s.bm.test i = true := by
    refine forall₂_congr fun i hi => ?_
    rw [isExist_iff hi]
    rfl
  rw [repInv_table, ProcTable.repInv_iff hB hC, not_allocated_iff, not_forked_iff,
    dead_eq_zero_iff hB, hforked, dead_eq_one_iff hB, hbits]

/-! ### Runs to look at -/

/-- A new thread's load of a one-word program. -/
def loadLabels : List Label := [.load (some MemSys.oneWordImage) fun _ => 0, .run, .run, .run]

/-- `Exec` of a program, undisturbed. -/
def execLabels (name : CString) : List Label :=
  [.exec (some name), .run, .locked true, .run, .run, .run, .run]

/-- The first process, its load done, starts the program `a`. -/
def startLabels : List Label := loadLabels ++ execLabels [97]

theorem isInitial_initial (name : CString) : IsInitial (initial name) := ⟨name, rfl⟩

set_option maxRecDepth 20000 in
/-- Two processes, the table in order. -/
theorem representation_iff_started :
    ∃ s, Reach step IsInitial anyStep s ∧ s.nthreads = 2 ∧ s.RepInv := by
  obtain ⟨s, h, ht⟩ :=
    Runs.Reach.of_exec (C := anyStep) step IsInitial (isInitial_initial [115]) startLabels
    (Runs.along_any _ _) (fun s => decide (s.nthreads = 2) && (List.range s.nthreads).all fun u =>
      (s.threads u).all fun th => !th.pc.isAllocated && !th.pc.isForked &&
        !th.pc.isFinished) (by decide)
  simp only [Bool.and_eq_true, decide_eq_true_eq, List.all_eq_true, List.mem_range] at ht
  have hall : ∀ t th, s.threads t = some th →
      th.pc.isAllocated = false ∧ th.pc.isForked = false ∧ th.pc.isFinished = false := by
    intro t th hth
    have := ht.2 t ((base_reach h).1.static.fresh t _ (table_threads hth))
    rw [hth] at this
    simpa [and_assoc] using this
  refine ⟨s, h, ht.1, (representation_iff h).mpr ⟨fun t th hth => (hall t th hth).1,
    Or.inl ⟨fun t th hth => (hall t th hth).2.1, fun t th hth hf => ?_⟩⟩⟩
  have := (hall t th hth).2.2
  rw [Pc.isFinished_iff.mpr hf] at this
  cases this

/-- `Join` of slot `id`, to the wait for the child. -/
def joinLabels (id : ℤ) : List Label := [.join id, .run, .run, .run, .run]

/-- What the parent does when the child's exit has woken it, to its `ExitRelease`. -/
def wakeLabels : List Label := [.run, .run, .run, .run, .run]

/-- The program `a` loads, exits with 7, and waits for its parent. -/
def exitLabels : List Label := loadLabels ++ [Label.exit 7, Label.run, Label.run]

/-- The child is woken and ends; the parent goes on. -/
def endLabels : List Label := [.switch 0, .run, .run, .switch 0]

/-- The first process starts `a` and joins it. -/
def joinedLabels : List Label :=
  startLabels ++ joinLabels 1 ++ [Label.switch 0] ++ exitLabels ++ [Label.switch 0] ++ wakeLabels ++
    endLabels ++
    [Label.run]

set_option maxRecDepth 20000 in
/-- After process 1 has exited and been joined, `IsExist(1)` is still true and
`psize` still 2. -/
theorem joined_process_exists : ∃ s, Reach step IsInitial anyStep s ∧ s.current = some 0 ∧
    (s.threads 0).any (fun th => decide (th.joins = [(1, some 1, 7)])) = true ∧
    (s.threads 1).any (fun th => th.pc.isFinished) = true ∧ s.isExist 1 = true ∧ s.psize = 2 ∧
    ¬ s.RepInv := by
  have hrun :=
    Runs.Reach.of_exec (C := anyStep) step IsInitial (isInitial_initial [115]) joinedLabels
    (Runs.along_any _ _) (fun s => decide (s.current = some 0) &&
      ((s.threads 0).any fun th => decide (th.joins = [(1, some 1, 7)])) &&
      ((s.threads 1).any fun th => th.pc.isFinished) && s.isExist 1 && decide (s.psize = 2) &&
      !s.bm.test 1)
    (by decide)
  obtain ⟨s, h, ht⟩ := hrun
  simp only [Bool.and_eq_true, decide_eq_true_eq, Bool.not_eq_true'] at ht
  obtain ⟨⟨⟨⟨⟨h1, h2⟩, h3⟩, h4⟩, h5⟩, h6⟩ := ht
  refine ⟨s, h, h1, h2, h3, h4, h5, fun hR => ?_⟩
  have := ((hR.1 1 (by decide)).1).mpr h4
  rw [h6] at this
  cases this

/-! ### Who a process takes itself for -/

/-- Every `ExecUpdate` that gets a slot does so in a state with the property. -/
def AllocsMeet (P : Kernel → ℕ → CString → Bool) (s : Kernel) (l : Label) : Prop :=
  ∀ t cur f name, s.allocating l = some (t, cur, f, name) → P s f name = true

theorem AllocsMeet.of_and {P Q : Kernel → ℕ → CString → Bool} {l : Label}
    (h : AllocsMeet (fun s f name => P s f name && Q s f name) s l) :
    AllocsMeet P s l ∧ AllocsMeet Q s l := by
  refine ⟨fun t cur f name ha => ?_, fun t cur f name ha => ?_⟩
  · exact (Bool.and_eq_true_iff.mp (h t cur f name ha)).1
  · exact (Bool.and_eq_true_iff.mp (h t cur f name ha)).2

theorem along_allocsMeet {P : Kernel → ℕ → CString → Bool} (ls : List Label) (s : Kernel)
    (h : Runs.along step (fun s l => (s.allocating l).all fun x => P s x.2.2.1 x.2.2.2)
      s ls = true) :
    Runs.Along step (AllocsMeet P) s ls := by
  refine Runs.Along.of_along (fun s l hc t cur f name ha => ?_) ls s h
  rw [ha] at hc
  exact hc

/-- The name is not `main`, and no live process but the first has it. -/
def freshName (s : Kernel) (name : CString) : Bool :=
  decide (name ≠ mainName) && (List.range s.nthreads).all fun u => decide (u = 0) ||
    (s.threads u).all fun th => th.pc.isFinished || decide (th.name ≠ name)

/-- Every program is started under a fresh name. -/
def NamesFresh : Kernel → Label → Prop := AllocsMeet fun s _ name => s.freshName name

theorem freshName_table (hB : s.table.Base) {cur f : ℕ} {name : CString}
    (h : s.freshName name = true) :
    s.table.FreshName (.alloc t cur f name) := by
  simp only [freshName, Bool.and_eq_true, decide_eq_true_eq, List.all_eq_true, List.mem_range,
    Bool.or_eq_true] at h
  refine ⟨h.1, fun u pr hl hu => ?_⟩
  obtain ⟨th, hth, hpc, rfl⟩ := live_iff.mp hl
  have := h.2 u (hB.static.fresh u _ hl.1)
  simp only [hu, false_or, hth, Option.all_some, Bool.or_eq_true, Pc.isFinished_iff, hpc,
    decide_eq_true_eq] at this
  exact this

theorem named_reach (h : Reach step IsInitial NamesFresh s) : s.table.Named := by
  refine table_reach named_initial (fun s l a v hr hN hc ha hstep => ?_) h
  have hB := (base_reach hr).1
  refine ProcTable.named_step hB hN ?_ hstep
  cases a with
  | alloc t cur f name => exact freshName_table hB (hc t cur f name (ha t cur f name rfl))
  | _ => trivial

/-- `GetCurrentThreadId` in thread `t` returns the index of the PCB whose
`_thread` is `t`, and 0 in the first. -/
def Identifies (s : Kernel) (t : Tid) (th : Thread) : Prop :=
  ∃ (i : ℕ) (q : Ptr), s.getCurrentThreadId th = some (i : ℤ) ∧ s.pcb i = some q ∧
    (s.pcbs q).thread = some t ∧
    (t = 0 → i = 0)

/-- When names are fresh, the running process finds itself unless a PCB below
its own has not got its name yet. -/
theorem identity_iff (h : Reach step IsInitial NamesFresh s) (hcur : s.current = some t) :
    ∃ th, s.threads t = some th ∧ (s.Identifies t th ↔
      ∀ j q, 0 < j → j < th.slot → s.pcb j = some q → (s.pcbs q).file ≠ none) := by
  obtain ⟨hB, -⟩ := base_reach h
  have hN := named_reach h
  obtain ⟨⟨th, hth, hpc⟩, -⟩ := (placed_reach h).current t hcur
  have hl : s.table.Live t th.proc := live_iff.mpr ⟨th, hth, hpc, rfl⟩
  have hpcb := (hB.staged.live t _ hl).2
  refine ⟨th, hth, ?_, ?_⟩
  · rintro ⟨i, q, hi, -⟩
    rcases hN.lookup_cases hB hl with ⟨-, hnamed⟩ | ⟨hnone, -⟩
    · exact hnamed
    · rw [show s.table.lookup th.proc.name = some (i : ℤ) from hi] at hnone
      cases hnone
  · intro hnamed
    rcases hN.lookup_cases hB hl with ⟨hi, -⟩ | ⟨-, j, q, hj, hlt, hq, hfile⟩
    · refine ⟨th.slot, th.own, hi, hpcb, (hB.static.own t _ hl.1).2.1, fun h0 => ?_⟩
      obtain ⟨pr0, hl0, -, hs0⟩ := hB.staged.first
      have := hl.1
      rw [h0, hl0.1] at this
      cases this
      exact hs0
    · exact absurd hfile (hnamed j q hj hlt hq)

set_option maxRecDepth 20000 in
/-- The program `a` has just been switched in. -/
theorem identity_iff_started : ∃ s th, Reach step IsInitial NamesFresh s ∧ s.current = some 1 ∧
    s.threads 1 = some th ∧ s.Identifies 1 th := by
  have hrun :=
    Runs.Reach.of_exec step IsInitial (isInitial_initial [115]) (startLabels ++ [Label.switch 0])
    (along_allocsMeet (P := fun s _ name => s.freshName name) _ _ (by decide))
    (fun s => decide (s.current = some 1) && (s.threads 1).any fun th => decide (th.slot = 1))
      (by decide)
  obtain ⟨s, h, ht⟩ := hrun
  simp only [Bool.and_eq_true, decide_eq_true_eq] at ht
  obtain ⟨th, hth, hiff⟩ := identity_iff h ht.1
  rw [hth] at ht
  refine ⟨s, th, h, ht.1, hth, hiff.mpr fun j q hj hlt => ?_⟩
  have hslot : th.slot = 1 := by simpa using ht.2
  omega

set_option maxRecDepth 20000 in
/-- Of two processes started from the file `a`, the second takes itself for
the first. -/
theorem second_takes_first :
    ∃ s th, Reach step IsInitial anyStep s ∧ s.current = some 2 ∧ s.threads 2 = some th ∧
    s.getCurrentThreadId th = some 1 ∧ ¬ s.Identifies 2 th := by
  have hrun := Runs.Reach.of_exec (C := anyStep) step IsInitial (isInitial_initial [115])
    (startLabels ++ execLabels [97] ++ [Label.switch 0, Label.switch 0]) (Runs.along_any _ _)
    (fun s => decide (s.current = some 2) &&
      ((s.threads 2).any fun th => decide (s.getCurrentThreadId th = some 1)) &&
      (s.pcb 1).any fun q => decide ((s.pcbs q).thread = some 1)) (by decide)
  obtain ⟨s, h, ht⟩ := hrun
  simp only [Bool.and_eq_true, decide_eq_true_eq, Option.any_eq_true] at ht
  obtain ⟨⟨hc, th, hth, hid⟩, q, hq, hthr⟩ := ht
  refine ⟨s, th, h, hc, hth, hid, ?_⟩
  rintro ⟨i, q', hi, hq', hthr', -⟩
  rw [hid] at hi
  obtain rfl : 1 = i := by exact_mod_cast Option.some.inj hi
  rw [hq] at hq'
  cases hq'
  rw [hthr] at hthr'
  cases hthr'

/-! ### Who may join -/

/-- No PCB in another slot of the table has slot `f` for its parent's. -/
def freshParent (s : Kernel) (f : ℕ) : Bool :=
  (List.range maxProcess).all fun i => decide (i = f) ||
    (s.pcb i).all fun q => decide ((s.pcbs q).parentID ≠ f)

/-- Every program is started under a fresh name, in a slot no other PCB has
for its parent's. -/
def ParentsFresh : Kernel → Label → Prop :=
  AllocsMeet fun s f name => s.freshName name && s.freshParent f

theorem freshParent_table (hB : s.table.Base) {cur f : ℕ} {name : CString}
    (h : s.freshParent f = true) :
    s.table.FreshSlot (.alloc t cur f name) := by
  intro i q hi hq
  simp only [freshParent, List.all_eq_true, List.mem_range, Bool.or_eq_true, decide_eq_true_eq] at h
  have := h i (hB.entry_lt hq)
  rw [show s.pcb i = some q from hq] at this
  show (s.pcbs q).parentID ≠ f
  simpa [hi] using this

theorem parented_reach (h : Reach step IsInitial ParentsFresh s) :
    s.table.Named ∧ s.table.Parented := by
  have hnamed : ∀ {s}, Reach step IsInitial ParentsFresh s → s.table.Named := fun h =>
    named_reach (h.mono fun _ _ hc => hc.of_and.1)
  refine ⟨hnamed h, table_reach parented_initial (fun s l a v hr hP hc ha hstep => ?_) h⟩
  have hB := (base_reach hr).1
  refine ProcTable.parented_step hB (hnamed hr) hP ?_ hstep
  cases a with
  | alloc t cur f name =>
    exact freshParent_table hB (hc.of_and.2 t cur f name (ha t cur f name rfl))
  | _ => trivial

/-- A `JoinUpdate(id)` that does not return at once is by the process whose
`ExecUpdate` made the PCB in slot `id`. -/
theorem join_by_creator (h : Reach step IsInitial ParentsFresh s)
    (hcur : s.current = some t) {id : ℤ} (hs : s.step (.join id) = some s') {th' : Thread}
    (ht' : s'.threads t = some th') (hpass : th'.pc ≠ .at_ .user) :
    ∃ q, s.pcb id.toNat = some q ∧ (s.pcbs q).creator = t := by
  obtain ⟨hB, -⟩ := base_reach h
  obtain ⟨hN, hP⟩ := parented_reach h
  rcases step_cases hs with ⟨k, hk, -⟩ | ⟨t', th, hcur', hth, hs⟩
  · cases hk
  · obtain rfl : t = t' := Option.some.inj (hcur.symm.trans hcur')
    cases hs with
    | refuseJoin hpc =>
      rw [ht'] at hth
      cases hth
      exact absurd hpc hpass
    | @join cur i q m hpc hid hq hpar =>
      have hl : s.table.Live t th.proc := live_iff.mpr ⟨th, hth, by rw [hpc]; simp, rfl⟩
      refine ⟨q, hq, hP.parent i q hq t th.proc hl ?_⟩
      rw [← hN.lookup_eq hB hl hid]
      exact hpar

set_option maxRecDepth 20000 in
/-- The first process joins the program it started. -/
theorem join_by_creator_first :
    ∃ s s' th', Reach step IsInitial ParentsFresh s ∧ s.current = some 0 ∧
    s.step (.join 1) = some s' ∧ s'.threads 0 = some th' ∧ th'.pc ≠ .at_ .user ∧
    ∃ q, s.pcb 1 = some q ∧ (s.pcbs q).creator = 0 := by
  have hrun := Runs.Reach.of_exec step IsInitial (isInitial_initial [115]) startLabels
    (along_allocsMeet (P := fun s f name => s.freshName name && s.freshParent f) _ _ (by decide))
    (fun s => decide (s.current = some 0) &&
      (s.step (.join 1)).any fun s' => (s'.threads 0).any fun th =>
      !th.pc.isUser) (by decide)
  obtain ⟨s, h, ht⟩ := hrun
  simp only [Bool.and_eq_true, decide_eq_true_eq, Option.any_eq_true, Bool.not_eq_true'] at ht
  obtain ⟨hc, s', hs, th', hth, hpc⟩ := ht
  have hpass : th'.pc ≠ .at_ .user := fun he => by rw [he] at hpc; cases hpc
  exact ⟨s, s', th', h, hc, hs, hth, hpass, join_by_creator h hc hs hth hpass⟩

/-- The first process starts `a`, which starts `b` and ends; the first joins
`a` and starts `c`, which comes to slot 1 and is switched in. -/
def orphanLabels : List Label :=
  startLabels ++ [Label.switch 0] ++ loadLabels ++ execLabels [98] ++
    [Label.exit 7, Label.run, Label.run, Label.switch 0] ++ joinLabels 1 ++ wakeLabels ++
    [Label.switch 0, Label.switch 0, Label.run, Label.run, Label.switch 0] ++ execLabels [99] ++
    [Label.switch 0, Label.switch 0] ++ loadLabels

set_option maxRecDepth 20000 in
/-- The names are fresh, and `c` passes the checks for `b`, which `a` started. -/
theorem orphan_joined : ∃ s s' th', Reach step IsInitial NamesFresh s ∧ s.current = some 3 ∧
    s.step (.join 2) = some s' ∧ s'.threads 3 = some th' ∧ th'.pc ≠ .at_ .user ∧
    ∃ q, s.pcb 2 = some q ∧ (s.pcbs q).creator = 1 := by
  have hrun := Runs.Reach.of_exec step IsInitial (isInitial_initial [115]) orphanLabels
    (along_allocsMeet (P := fun s _ name => s.freshName name) _ _ (by decide))
    (fun s => decide (s.current = some 3) &&
      ((s.step (.join 2)).any fun s' => (s'.threads 3).any fun th =>
      !th.pc.isUser) && (s.pcb 2).any fun q => decide ((s.pcbs q).creator = 1)) (by decide)
  obtain ⟨s, h, ht⟩ := hrun
  simp only [Bool.and_eq_true, decide_eq_true_eq, Option.any_eq_true, Bool.not_eq_true'] at ht
  obtain ⟨⟨hc, s', hs, th', hth, hpc⟩, q, hq, hcr⟩ := ht
  have hpass : th'.pc ≠ .at_ .user := fun he => by rw [he] at hpc; cases hpc
  exact ⟨s, s', th', h, hc, hs, hth, hpass, q, hq, hcr⟩

/-! ### The status a parent gets -/

/-- No `JoinUpdate` on slot `f` is under way. -/
def noJoinOn (s : Kernel) (f : ℕ) : Bool :=
  (List.range s.nthreads).all fun u => (s.threads u).all fun th => !th.pc.joinsSlot f

/-- Every program is started under a fresh name, in a slot on which no
`JoinUpdate` is under way. -/
def JoinsSettled : Kernel → Label → Prop :=
  AllocsMeet fun s f name => s.freshName name && s.noJoinOn f

theorem noJoinOn_view (hB : s.table.Base) {cur f : ℕ} {name : CString} (h : s.noJoinOn f = true) :
    s.joinView.NoReuse (.alloc t cur f name) := by
  intro u hin
  cases hu : s.threads u with
  | none =>
    have : s.joinView.phase u = .none := by simp [joinView, phaseOf, hu]
    rw [this] at hin
    exact hin
  | some th =>
    rw [joinView_phase hu rfl, ← Pc.joinsSlot_iff] at hin
    simp only [noJoinOn, List.all_eq_true, List.mem_range] at h
    have := h u (hB.static.fresh u _ (table_threads hu))
    rw [hu] at this
    simp [hin] at this

theorem jinv_reach (h : Reach step IsInitial JoinsSettled s) : s.joinView.JInv := by
  refine h.inv (fun s => s.joinView.JInv) ?_ fun s l s' hr hJ hc hs => ?_
  · rintro s ⟨name, rfl⟩
    exact jinv_initial name
  · have hB := (base_reach hr).1
    have hN := named_reach (hr.mono fun _ _ hc => hc.of_and.1)
    rcases joinView_step (Base.next_none hB) hs with he | ⟨a, hstep, ha⟩
    · rw [he]
      exact hJ
    · refine JoinView.jinv_step hB hN hJ ?_ hstep
      rintro x rfl
      cases x with
      | alloc t cur f name =>
        exact noJoinOn_view hB (hc.of_and.2 t cur f name (ha t cur f name rfl))
      | _ => trivial

/-- What a `JoinUpdate` on a pid that the process got from its own
`ExecUpdate` has returned is the status with which the child of that
`ExecUpdate` called `ExitUpdate`. -/
theorem status_delivered (h : Reach step IsInitial JoinsSettled s) (ht : s.threads t = some th)
    {id : ℕ} {c : Tid} {e : ℤ} (hj : (id, some c, e) ∈ th.joins) :
    ∃ thc, s.threads c = some thc ∧ thc.status = some e := by
  have := (jinv_reach h).result t id c e (by rw [joinView_joins ht]; exact hj)
  exact Option.bind_eq_some_iff.mp this

set_option maxRecDepth 20000 in
/-- The first process gets the 7 of `a`. -/
theorem status_delivered_seven :
    ∃ s th thc, Reach step IsInitial JoinsSettled s ∧ s.threads 0 = some th ∧
    (1, some 1, 7) ∈ th.joins ∧ s.threads 1 = some thc ∧ thc.status = some 7 := by
  have hrun := Runs.Reach.of_exec step IsInitial (isInitial_initial [115]) joinedLabels
    (along_allocsMeet (P := fun s f name => s.freshName name && s.noJoinOn f) _ _ (by decide))
    (fun s => (s.threads 0).any fun th => decide ((1, some 1, 7) ∈ th.joins)) (by decide)
  obtain ⟨s, h, ht⟩ := hrun
  obtain ⟨th, hth, hj⟩ := (Option.any_eq_true _ _).mp ht
  obtain ⟨thc, hc, he⟩ := status_delivered h hth (of_decide_eq_true hj)
  exact ⟨s, th, thc, h, hth, of_decide_eq_true hj, hc, he⟩

/-- The first process starts `a` and `b` and joins `a`. Between its
`ExitRelease` and its return `a` ends and `b` starts `c`, which gets the slot. -/
def reuseLabels : List Label :=
  startLabels ++ execLabels [98] ++ joinLabels 1 ++ [Label.switch 0] ++ exitLabels ++
    [Label.switch 0] ++
    loadLabels ++ [Label.switch 0] ++ wakeLabels ++
    [Label.switch 0, Label.switch 0, Label.run, Label.run, Label.switch 0, Label.switch 0] ++
      execLabels [99] ++
    [Label.switch 0, Label.run]

set_option maxRecDepth 20000 in
/-- `a` exits with 7 and its parent is told 0. -/
theorem status_of_stranger : ∃ s th thc, Reach step IsInitial anyStep s ∧ s.threads 0 = some th ∧
    th.joins = [(1, some 1, 0)] ∧ s.threads 1 = some thc ∧ thc.status = some 7 := by
  have hrun :=
    Runs.Reach.of_exec (C := anyStep) step IsInitial (isInitial_initial [115]) reuseLabels
    (Runs.along_any _ _)
      (fun s => ((s.threads 0).any fun th => decide (th.joins = [(1, some 1, 0)])) &&
      (s.threads 1).any fun th => decide (th.status = some 7)) (by decide)
  obtain ⟨s, h, ht⟩ := hrun
  simp only [Bool.and_eq_true, Option.any_eq_true, decide_eq_true_eq] at ht
  obtain ⟨⟨th, hth, hj⟩, thc, hthc, hst⟩ := ht
  exact ⟨s, th, thc, h, hth, hj, hthc, hst⟩

end Kernel
end Nachos
