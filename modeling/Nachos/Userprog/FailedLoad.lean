/-
# A load that fails (`userprog/addrspace.cc`, `threads/pcb.cc`)

`Load` runs on the child's thread, with `addrLock` held, after the parent has
been given the pid. Where the free pages do not suffice it gives the lock back
and returns FALSE, and so far nothing has happened; but `RunProcess` has no
place to go on from there: behind the `if` stands `ASSERTNOTREACHED()`, and the
whole kernel ends.

* `addrLock_reach`: in every run `addrLock` is free and nobody is between its
  `P` and its `V`, or it is taken and exactly one thread is.
* `failedLoad_iff`: a load that fails leaves the bitmap, the memory and the lock
  as they should be; the child goes on only if the load does not fail, and where
  all loads of a run have their pages, none fails.

Key definitions: `Kernel.AddrLock`, `Kernel.LoadFailed`, `Kernel.Survives`,
`Kernel.LoadsFit`.
Key theorems: `Kernel.addrLock_step`, `Kernel.addrLock_reach`, `Kernel.failedLoad_iff`.
-/
import Mathlib
import Nachos.Base.Runs
import Nachos.Threads.Turn
import Nachos.Threads.Processes

namespace Nachos

open Bytes (Byte Store)

/-- The thread is between `addrLock->P()` and `addrLock->V()`. -/
def Pc.hasAddrLock : Pc → Bool
  | .at_ (.loadLocked _ _) => true
  | _ => false

/-- The thread is behind a `Load` that has returned FALSE. -/
def Pc.isFailedLoad : Pc → Bool
  | .at_ (.loadRet false) => true
  | _ => false

theorem Pc.isFailedLoad_iff {pc : Pc} : pc.isFailedLoad = true ↔ pc = .at_ (.loadRet false) := by
  unfold Pc.isFailedLoad
  split <;> simp_all

namespace Kernel

open Runs (Reach anyStep)

variable {s s' : Kernel} {t u : Tid} {th th' : Thread} {l : Label} {p : Pc → Bool}

/-! ### Where threads stand -/

/-- Thread `t` stands at one of the places `p`. -/
def StandsAt (s : Kernel) (p : Pc → Bool) (t : Tid) : Prop :=
  ∃ th, s.threads t = some th ∧ p th.pc = true

theorem standsAt_iff (hth : s.threads t = some th) : s.StandsAt p t ↔ p th.pc = true := by
  unfold StandsAt
  rw [hth]
  simp

theorem standsAt_update (ht : s'.threads = Function.update s.threads t (some th')) :
    s'.StandsAt p u ↔ if u = t then p th'.pc = true else s.StandsAt p u := by
  unfold StandsAt
  rw [ht, Function.update_apply]
  split_ifs <;> simp

/-- One thread goes on, and neither comes to these places nor leaves them. -/
theorem standsAt_goes (hth : s.threads t = some th)
    (ht : s'.threads = Function.update s.threads t (some th')) (hpc : p th'.pc = p th.pc) :
    s'.StandsAt p u ↔ s.StandsAt p u := by
  rw [standsAt_update ht]
  split_ifs with hu
  · rw [hu, standsAt_iff hth, hpc]
  · rfl

/-- A new thread stands at its beginning. -/
theorem standsAt_execPcb (hnone : s.threads s.nthreads = none) (hth : s.threads t = some th)
    {q : Ptr} {f : ℕ} {name : CString} (hpc : p (.at_ (.execForked q f)) = p th.pc)
    (hnew : p (.at_ .begin_) = false) :
    (s.execPcb t th q f name).StandsAt p u ↔ s.StandsAt p u := by
  have hmid : (s.setThread t { th with pc := .at_ (.execForked q f) }).StandsAt p u ↔
      s.StandsAt p u :=
    standsAt_goes hth rfl hpc
  rw [← hmid, standsAt_update (s := s.setThread t { th with pc := .at_ (.execForked q f) })
    (t := s.nthreads) rfl]
  split_ifs with hu
  · rw [hmid, hu]
    refine iff_of_false (by simp [Thread.new, hnew]) ?_
    rintro ⟨thu, hthu, -⟩
    rw [hnone] at hthu
    cases hthu
  · rfl

theorem standsAt_dispatch (s : Kernel) (v : Tid) :
    (s.dispatch v).StandsAt p u ↔ s.StandsAt p u := by
  obtain ⟨x, h⟩ | ⟨d, th, ht, h⟩ := dispatch_cases s v
  · rw [h]
    rfl
  · rw [h]
    exact standsAt_goes ht rfl rfl

theorem sem_dispatch (s : Kernel) (v : Tid) : (s.dispatch v).sem = s.sem := by
  obtain ⟨x, h⟩ | ⟨d, th, -, h⟩ := dispatch_cases s v
  · rw [h]
  · rw [h]
    rfl

/-! ### The lock -/

/-- The lock is free, or one thread has it. -/
def AddrLock (s : Kernel) : Prop :=
  ((s.sem .addrLock).value = 1 ∧ ∀ t, ¬ s.StandsAt Pc.hasAddrLock t) ∨
    (s.sem .addrLock).value = 0 ∧ ∃ t, s.StandsAt Pc.hasAddrLock t ∧
    ∀ u, s.StandsAt Pc.hasAddrLock u → u = t

/-- The value is as it was, and so are the threads that have the lock. -/
theorem AddrLock.same (hI : AddrLock s) (hsem : (s'.sem .addrLock).value = (s.sem .addrLock).value)
    (ht : ∀ u, s'.StandsAt Pc.hasAddrLock u ↔ s.StandsAt Pc.hasAddrLock u) : AddrLock s' := by
  unfold AddrLock
  simp only [hsem, ht]
  exact hI

/-- One thread goes on, and neither takes the lock nor gives it back. -/
theorem AddrLock.goes (hI : AddrLock s) (hth : s.threads t = some th)
    (hsem : (s'.sem .addrLock).value = (s.sem .addrLock).value)
    (ht : s'.threads = Function.update s.threads t (some th'))
    (hpc : th'.pc.hasAddrLock = th.pc.hasAddrLock) :
    AddrLock s' := hI.same hsem fun _ => standsAt_goes hth ht hpc

/-- A pass of `addrLock->P()`. -/
theorem AddrLock.pass (hI : AddrLock s) (hth : s.threads t = some th) {h : NoffHeader}
    {file : List Byte} (hpc : th.pc = .inP (.loadLocked h file)) :
    AddrLock (s.p t th .addrLock (.loadLocked h file)) := by
  have hnot : th.pc.hasAddrLock = false := by
    rw [hpc]
    rfl
  by_cases hv : (s.sem .addrLock).value = 0
  · -- the thread waits
    refine hI.goes hth ?_ rfl ?_
    · simp [Kernel.p, Semaphore.pTest, hv]
    · rw [hnot]
      simp [Semaphore.pTest, hv, Pc.hasAddrLock]
  · have hfree : ∀ u, ¬ s.StandsAt Pc.hasAddrLock u := by
      rcases hI with ⟨-, hnone⟩ | ⟨h0, -⟩
      · exact hnone
      · exact absurd h0 hv
    have hone : (s.sem .addrLock).value = 1 := by
      rcases hI with ⟨h1, -⟩ | ⟨h0, -⟩
      · exact h1
      · exact absurd h0 hv
    have hiff : ∀ u, (s.p t th .addrLock (.loadLocked h file)).StandsAt Pc.hasAddrLock u ↔
        u = t := by
      intro u
      rw [standsAt_update (s := s) (t := t) rfl]
      by_cases hu : u = t
      · rw [if_pos hu]
        simp [Semaphore.pTest, hv, Pc.hasAddrLock, hu]
      · rw [if_neg hu]
        exact iff_of_false (hfree u) hu
    refine Or.inr ⟨?_, t, (hiff t).mpr rfl, fun u hu => (hiff u).mp hu⟩
    simp [Kernel.p, Semaphore.pTest, hone]

/-- `addrLock->V()`, by the thread that has the lock. -/
theorem AddrLock.release (hI : AddrLock s) (hth : s.threads t = some th)
    (hpc : th.pc.hasAddrLock = true) (hsem : (s'.sem .addrLock).value = (s.sem .addrLock).value + 1)
    (ht : s'.threads = Function.update s.threads t (some th')) (hpc' : th'.pc.hasAddrLock = false) :
    (s'.sem .addrLock).value = 1 ∧ ∀ u, ¬ s'.StandsAt Pc.hasAddrLock u := by
  have hhas : s.StandsAt Pc.hasAddrLock t := (standsAt_iff hth).mpr hpc
  rcases hI with ⟨-, hnone⟩ | ⟨h0, v, -, honly⟩
  · exact absurd hhas (hnone t)
  · refine ⟨by omega, fun u => ?_⟩
    rw [standsAt_update ht]
    split_ifs with hu
    · simp [hpc']
    · intro hu'
      exact hu ((honly u hu').trans (honly t hhas).symm)

/-- Only `Load` waits for `addrLock`. -/
theorem sem_addrLock {k : Cont} {x : SemId} (hx : k.sem = some x) :
    (∃ h file, k = .loadLocked h file) ∨ x ≠ .addrLock ∧ (Pc.at_ k).hasAddrLock = false := by
  rcases k
  case loadLocked h file => exact Or.inl ⟨h, file, rfl⟩
  all_goals
    cases hx <;> exact Or.inr ⟨by simp, rfl⟩

theorem addrLock_turn (hI : AddrLock s) (hB : s.table.Base) (hth : s.threads t = some th)
    (h : Turn s t th l s') :
    AddrLock s' := by
  cases h with
  | @pass k x hpc hx =>
    rcases sem_addrLock hx with ⟨h, file, rfl⟩ | ⟨hne, hk⟩
    · cases hx
      exact hI.pass hth hpc
    · refine hI.goes hth ?_ rfl ?_
      · simp [Kernel.p, Function.update_of_ne hne.symm]
      · rw [hpc]
        split_ifs
        · exact hk
        · rfl
  | noMemory hpc =>
    refine Or.inl (hI.release hth (by rw [hpc]; rfl) ?_ rfl rfl)
    simp [v, setThread, Semaphore.v]
  | loaded hpc =>
    refine Or.inl (hI.release hth (by rw [hpc]; rfl) ?_ rfl rfl)
    simp [v, setThread, Semaphore.v]
  | fork hpc =>
    exact hI.same rfl fun _ => standsAt_execPcb (Base.next_none hB) hth (by rw [hpc]; rfl) rfl
  | refuseJoin => exact hI
  | _ =>
    refine hI.goes hth ?_ rfl ?_
    · simp [v, setThread, setPcb, Kernel.execDone, newSems]
    · rw [‹th.pc = _›]
      rfl

/-- Every step keeps the lock in order. -/
theorem addrLock_step (hI : AddrLock s) (hB : s.table.Base) (h : s.step l = some s') :
    AddrLock s' := by
  rcases step_cases h with ⟨k, -, h⟩ | ⟨t, th, -, hth, h⟩
  · obtain ⟨u, -, ⟨-, rfl⟩ | ⟨t, -, -, rfl⟩⟩ := switch_cases h
    · exact hI.same (by rw [sem_dispatch]) fun _ => standsAt_dispatch _ u
    · exact hI.same (by rw [sem_dispatch]) fun _ => standsAt_dispatch _ u
  · exact addrLock_turn hI hB hth h

theorem addrLock_reach {C : Kernel → Label → Prop} (h : Reach step IsInitial C s) : AddrLock s := by
  refine h.inv AddrLock ?_ fun s l s' hr hI _ hs => addrLock_step hI (base_reach hr).1 hs
  rintro s ⟨name, rfl⟩
  refine Or.inl ⟨rfl, ?_⟩
  rintro t ⟨th, hth, hlock⟩
  simp only [initial] at hth
  split_ifs at hth
  cases hth
  cases hlock

/-! ### The load -/

/-- `Load` has returned FALSE in thread `t`. -/
def LoadFailed (s : Kernel) (t : Tid) : Prop := s.StandsAt Pc.isFailedLoad t

/-- `Load` has left the bitmap and the memory as they were, and the lock free. -/
structure Untouched (s s' : Kernel) : Prop where
  bitmap : s'.gPhysPageBitMap = s.gPhysPageBitMap
  memory : s'.mainMemory = s.mainMemory
  lock : (s'.sem .addrLock).value = 1

/-- If the `Load` of thread `t` fails, it leaves nothing behind, and the thread
goes on. -/
def Survives (s : Kernel) (t : Tid) : Prop :=
  ∀ s', s.step .run = some s' → s'.LoadFailed t → Untouched s s' ∧ ∃ s'', s'.step .run = some s''

/-- Every load that has the lock finds its pages. -/
def LoadsFit (s : Kernel) (l : Label) : Prop :=
  ∀ t th h file, l = .run → s.current = some t → s.threads t = some th →
    th.pc = .at_ (.loadLocked h file) →
    h.numPages ≤ s.gPhysPageBitMap.numClear

theorem loadLocked_noMemory_iff {h : NoffHeader} {file : List Byte} {bm : Bitmap} {mem : Store} :
    Nachos.loadLocked h file bm mem = .noMemory ↔ bm.numClear < h.numPages := by
  unfold Nachos.loadLocked
  by_cases hlt : bm.numClear < h.numPages
  · simp [hlt]
  · rw [if_neg hlt]
    refine iff_of_false ?_ hlt
    simp only
    split_ifs
    · simp
    · split
      · simp
      · split <;> simp

theorem step_run (hcur : s.current = some t) (hth : s.threads t = some th) :
    s.step .run = s.run t th := by
  show (s.current.bind fun t => (s.threads t).bind fun th => s.stepOf t th .run) = _
  rw [hcur, Option.bind_some, hth, Option.bind_some]
  rfl

/-- The step of a thread that has the lock. -/
theorem step_load (hcur : s.current = some t) (hth : s.threads t = some th) {h : NoffHeader}
    {file : List Byte} (hpc : th.pc = .at_ (.loadLocked h file)) :
    s.step .run = s.loadStep t th h file := by
  rw [step_run hcur hth, run, hpc]

/-- What the step of a thread in `Load` leaves, if the load fails. -/
theorem untouched_of_failed (hI : AddrLock s) (hcur : s.current = some t)
    (hth : s.threads t = some th) {h : NoffHeader} {file : List Byte}
    (hpc : th.pc = .at_ (.loadLocked h file)) (hs : s.step .run = some s') (hf : s'.LoadFailed t) :
    Untouched s s' ∧ s'.current = some t ∧ s.gPhysPageBitMap.numClear < h.numPages := by
  have hrun := (step_load hcur hth hpc).symm.trans hs
  unfold loadStep at hrun
  rcases hload : Nachos.loadLocked h file s.gPhysPageBitMap s.mainMemory with _ | f | ⟨sp, bm, mem⟩
  · rw [hload] at hrun
    cases hrun
    refine ⟨⟨rfl, rfl, ?_⟩, hcur, loadLocked_noMemory_iff.mp hload⟩
    exact (hI.release hth (by rw [hpc]; rfl) (by simp [v, setThread, Semaphore.v]) rfl rfl).1
  · rw [hload] at hrun
    cases hrun
  · -- a load that has its pages does not return FALSE
    rw [hload] at hrun
    cases hrun
    rw [LoadFailed, standsAt_update (s := s) (t := t) rfl, if_pos rfl] at hf
    cases hf

/-- With too few free pages the load fails. -/
theorem failed_of_noMemory (hcur : s.current = some t) (hth : s.threads t = some th)
    {h : NoffHeader} {file : List Byte} (hpc : th.pc = .at_ (.loadLocked h file))
    (hlt : s.gPhysPageBitMap.numClear < h.numPages) :
    ∃ s', s.step .run = some s' ∧ s'.LoadFailed t ∧ s'.current = some t := by
  have hload : Nachos.loadLocked h file s.gPhysPageBitMap s.mainMemory = .noMemory :=
    loadLocked_noMemory_iff.mpr hlt
  have hstep : s.step .run =
      some ((s.setThread t { th with pc := .at_ (.loadRet false) }).v .addrLock) := by
    rw [step_load hcur hth hpc]
    unfold loadStep
    simp only [hload]
  refine ⟨_, hstep, ?_, hcur⟩
  rw [LoadFailed, standsAt_update (s := s) (t := t) rfl, if_pos rfl]
  rfl

/-- Behind the `if` of `RunProcess` stands `ASSERTNOTREACHED()`. -/
theorem step_of_loadFailed (hcur : s.current = some t) (hf : s.LoadFailed t) :
    s.step .run = none := by
  obtain ⟨th, hth, hpc⟩ := hf
  rw [Pc.isFailedLoad_iff] at hpc
  rw [step_run hcur hth, run, hpc]
  rfl

theorem isFailedLoad_of_sem {k : Cont} {x : SemId} (hx : k.sem = some x) :
    (Pc.at_ k).isFailedLoad = false := by
  rcases k
  all_goals
    cases hx <;> rfl

/-- A thread comes behind a failed load only by a load without its pages. -/
theorem loadFailed_turn (hB : s.table.Base) (hth : s.threads t = some th) (h : Turn s t th l s')
    (hf : s'.LoadFailed u) :
    s.LoadFailed u ∨ l = .run ∧ ∃ h file, th.pc = .at_ (.loadLocked h file) ∧
    s.gPhysPageBitMap.numClear < h.numPages := by
  unfold LoadFailed at hf ⊢
  cases h with
  | @pass k x hpc hx =>
    refine Or.inl ((standsAt_goes (p := Pc.isFailedLoad) hth rfl ?_).mp hf)
    rw [hpc]
    split_ifs
    · exact isFailedLoad_of_sem hx
    · rfl
  | noMemory hpc hload => exact Or.inr ⟨rfl, _, _, hpc, loadLocked_noMemory_iff.mp hload⟩
  | fork hpc =>
    exact Or.inl ((standsAt_execPcb (Base.next_none hB) hth (by rw [hpc]; rfl) rfl).mp hf)
  | refuseJoin => exact Or.inl hf
  | _ =>
    refine Or.inl ((standsAt_goes (p := Pc.isFailedLoad) hth rfl ?_).mp hf)
    rw [‹th.pc = _›]
    rfl

/-- Where every load finds its pages, no load has failed. -/
theorem not_loadFailed_reach (h : Reach step IsInitial LoadsFit s) (t : Tid) :
    ¬ s.LoadFailed t := by
  refine h.inv (fun s => ∀ t, ¬ s.LoadFailed t) ?_ ?_ t
  · rintro s ⟨name, rfl⟩ t ⟨th, hth, hpc⟩
    simp only [initial] at hth
    split_ifs at hth
    cases hth
    cases hpc
  · intro s l s' hr hI hfit hs u hu
    rcases step_cases hs with ⟨k, -, hs⟩ | ⟨t, th, hcur, hth, hs⟩
    · obtain ⟨v, -, ⟨-, rfl⟩ | ⟨t, -, -, rfl⟩⟩ := switch_cases hs
      · rw [LoadFailed, standsAt_dispatch] at hu
        exact hI u hu
      · rw [LoadFailed, standsAt_dispatch] at hu
        exact hI u hu
    · rcases loadFailed_turn (base_reach hr).1 hth hs hu with hf | ⟨hl, h, file, hpc, hlt⟩
      · exact hI u hf
      · have := hfit t th h file hl hcur hth hpc
        omega

/-- **A load that fails.** In every run, when `Load` returns FALSE in a child it
has left bitmap and memory as they were and the lock free; but the child gets
over it exactly if there is nothing to get over, the free pages being enough.
Where this is so for every load of a run, no load of the run fails. -/
theorem failedLoad_iff (h : Reach step IsInitial anyStep s) (hcur : s.current = some t)
    (hth : s.threads t = some th) {hd : NoffHeader} {file : List Byte}
    (hpc : th.pc = .at_ (.loadLocked hd file)) :
    (∀ s', s.step .run = some s' → s'.LoadFailed t → Untouched s s') ∧
      (Survives s t ↔ hd.numPages ≤ s.gPhysPageBitMap.numClear) ∧
      ∀ s, Reach step IsInitial LoadsFit s → ∀ t, ¬ s.LoadFailed t := by
  have hI := addrLock_reach h
  refine ⟨fun s' hs hf => (untouched_of_failed hI hcur hth hpc hs hf).1,
    ⟨fun hsurv => ?_, fun hle s' hs hf => ?_⟩, fun s hs t => not_loadFailed_reach hs t⟩
  · by_contra hlt
    obtain ⟨s', hs, hf, hcur'⟩ := failed_of_noMemory hcur hth hpc (not_le.mp hlt)
    obtain ⟨-, s'', hs''⟩ := hsurv s' hs hf
    rw [step_of_loadFailed hcur' hf] at hs''
    cases hs''
  · have := (untouched_of_failed hI hcur hth hpc hs hf).2.2
    omega

/-- The NOFF file of a program with `2^20` bytes of uninitialised data. -/
def hugeImage : List Byte :=
  ([0xbadfad, 0, 52, 4, 0, 0, 0, 0, 0, 0, 0, 0, 2 ^ 20, 0x0800000c] : List (BitVec 32)).flatMap
    Bytes.wordBytes

/-- The first process has started a program that needs more pages than there
are, and the child has `addrLock`. -/
def hugeLabels : List Label :=
  startLabels ++ [Label.switch 0, Label.load (some hugeImage) fun _ => 0, Label.run]

/-- The thread has `addrLock` in a load of more pages than `n`. -/
def loadsOver (th : Thread) (n : ℕ) : Bool :=
  match th.pc with
  | .at_ (.loadLocked h _) => decide (n < h.numPages)
  | _ => false

theorem loadsOver_iff {n : ℕ} :
    loadsOver th n = true ↔ ∃ h file, th.pc = .at_ (.loadLocked h file) ∧ n < h.numPages := by
  unfold loadsOver
  split
  · rename_i h file hpc
    rw [hpc]
    simp
  · rename_i hpc
    refine iff_of_false (by simp) ?_
    rintro ⟨h, file, hth, -⟩
    exact hpc h file hth

set_option maxRecDepth 20000 in
/-- The child loads a one-word program. -/
theorem failedLoad_iff_oneWord :
    ∃ s th hd file, Reach step IsInitial anyStep s ∧ s.current = some 1 ∧
    s.threads 1 = some th ∧ th.pc = .at_ (.loadLocked hd file) ∧
    hd.numPages ≤ s.gPhysPageBitMap.numClear ∧ Survives s 1 := by
  have hrun := Runs.Reach.of_exec (C := anyStep) step IsInitial (isInitial_initial [115])
    (startLabels ++ [Label.switch 0, Label.load (some MemSys.oneWordImage) fun _ => 0, Label.run])
    (Runs.along_any _ _)
    (fun s => decide (s.current = some 1) && (s.threads 1).any fun th => loadsOver th 8 &&
      !loadsOver th 9 &&
      decide (9 ≤ s.gPhysPageBitMap.numClear)) (by decide)
  obtain ⟨s, h, ht⟩ := hrun
  simp only [Bool.and_eq_true, decide_eq_true_eq, Option.any_eq_true, Bool.not_eq_true'] at ht
  obtain ⟨hcur, th, hth, ⟨hover, hnot⟩, hclear⟩ := ht
  obtain ⟨hd, file, hpc, -⟩ := loadsOver_iff.mp hover
  have hle : hd.numPages ≤ s.gPhysPageBitMap.numClear := by
    by_contra hlt
    have : loadsOver th 9 = true := loadsOver_iff.mpr ⟨hd, file, hpc, by omega⟩
    rw [this] at hnot
    cases hnot
  exact ⟨s, th, hd, file, h, hcur, hth, hpc, hle, (failedLoad_iff h hcur hth hpc).2.1.mpr hle⟩

set_option maxRecDepth 20000 in
/-- The child's load fails, and its next step is the end of the kernel. -/
theorem failed_load_ends_kernel : ∃ s s', Reach step IsInitial anyStep s ∧ s.current = some 1 ∧
    s.step .run = some s' ∧ s'.LoadFailed 1 ∧ s'.step .run = none ∧ ¬ Survives s 1 := by
  have hrun := Runs.Reach.of_exec (C := anyStep) step IsInitial (isInitial_initial [115]) hugeLabels
    (Runs.along_any _ _)
    (fun s => decide (s.current = some 1) &&
      (s.threads 1).any fun th => loadsOver th s.gPhysPageBitMap.numClear) (by decide)
  obtain ⟨s, h, ht⟩ := hrun
  simp only [Bool.and_eq_true, decide_eq_true_eq, Option.any_eq_true, loadsOver_iff] at ht
  obtain ⟨hcur, th, hth, hd, file, hpc, hlt⟩ := ht
  obtain ⟨s', hs, hf, hcur'⟩ := failed_of_noMemory hcur hth hpc hlt
  have hnone := step_of_loadFailed hcur' hf
  refine ⟨s, s', h, hcur, hs, hf, hnone, fun hsurv => ?_⟩
  obtain ⟨-, s'', hs''⟩ := hsurv s' hs hf
  rw [hnone] at hs''
  cases hs''

end Kernel
end Nachos
