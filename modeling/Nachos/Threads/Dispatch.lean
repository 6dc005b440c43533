/-
# Dispatching threads (`threads/scheduler.cc`, `threads/thread.cc`)

The processor and the lists threads wait in: the ready list and the queues of
the semaphores, any number of each. `Yield`, `Sleep` and `Finish` give the
processor to the front of the ready list; with nothing ready `Sleep` idles,
and an interrupt handler may then wake threads, the sleeping one among them,
so that `Run` switches a thread to itself. A thread that finishes is deleted
by the next one, when it comes back from `SWITCH` or begins.

A failed `ASSERT` sets `aborted`: of `List::Append` (no duplicates), of `Run`
(`toBeDestroyed` is free) and of `~Thread` (not the current thread).

* `Lists`: the lists agree with the threads' status; `Inv` adds what the
  current thread is doing.
* `one_place`: in every run no thread is in two places and none of the
  assertions fails.

Key definitions: `Cpu.run`, `Cpu.sleep`, `Cpu.yield`, `Cpu.pTest`, `Cpu.step`, `Cpu.Inv`.
Key theorems: `Cpu.inv_step`, `Cpu.one_place`.
-/
import Mathlib
import Nachos.Base.Runs
import Nachos.Threads.Semaphore

namespace Nachos

/-- `enum ThreadStatus`. -/
inductive ThreadStatus
  | justCreated
  | running
  | ready
  | blocked
  deriving DecidableEq

namespace Cpu

/-- Where a thread goes on when it is switched to: in `ThreadRoot`, at the
return of `Run` in `Yield` or in the `Sleep` of a `P`, or nowhere. -/
inductive Cont
  | fresh
  | yielded
  | inP (x : ℕ)
  | finished
  deriving DecidableEq

/-- What the current thread is doing: code of its own, coming back from
`SWITCH`, or the loop of `Sleep` that waits for a ready thread. -/
inductive Mode
  | user
  | switched
  | sleeping (finishing : Bool) (k : Cont)
  deriving DecidableEq

end Cpu

/-- The processor, the threads and the lists. -/
structure Cpu where
  /-- the threads created so far -/
  nthreads : ℕ
  status : Tid → ThreadStatus
  /-- where the thread goes on -/
  saved : Tid → Cpu.Cont
  /-- the threads deleted so far -/
  deleted : List Tid
  readyList : List Tid
  sem : ℕ → Semaphore
  toBeDestroyed : Option Tid
  currentThread : Tid
  mode : Cpu.Mode
  /-- an `ASSERT` has failed -/
  aborted : Bool

namespace Cpu

/-! ### The code -/

/-- `ASSERT(b)`. -/
def assert (s : Cpu) (b : Bool) : Cpu := { s with aborted := s.aborted || !b }

/-- `Scheduler::ReadyToRun`. -/
def readyToRun (s : Cpu) (t : Tid) : Cpu :=
  { s.assert (t ∉ s.readyList) with
    status := Function.update s.status t .ready
    readyList := s.readyList ++ [t] }

/-- `Semaphore::V`. -/
def v (s : Cpu) (x : ℕ) : Cpu :=
  let s' := { s with sem := Function.update s.sem x (s.sem x).v.1.int }
  match (s.sem x).v.2 with
  | none => s'
  | some t => s'.readyToRun t

/-- `Scheduler::Run`, to the `SWITCH`. The old thread goes on at `k`. -/
def run (s : Cpu) (nextThread : Tid) (finishing : Bool) (k : Cont) : Cpu :=
  let s' :=
    if finishing then
      { s.assert (s.toBeDestroyed = none) with toBeDestroyed := some s.currentThread }
    else s
  { s' with
    saved := Function.update s.saved s.currentThread k
    currentThread := nextThread
    status := Function.update s.status nextThread .running
    mode := .switched }

/-- One pass of the loop of `Sleep`. -/
def dispatch (s : Cpu) (finishing : Bool) (k : Cont) : Cpu :=
  match s.readyList with
  | [] => { s with mode := .sleeping finishing k }
  | nextThread :: rest => { s with readyList := rest }.run nextThread finishing k

/-- `Thread::Sleep`, to its first `Idle` or the `SWITCH`. -/
def sleep (s : Cpu) (finishing : Bool) (k : Cont) : Cpu :=
  { s with status := Function.update s.status s.currentThread .blocked }.dispatch finishing k

/-- One pass of the loop of `Semaphore::P`. -/
def pTest (s : Cpu) (x : ℕ) : Cpu :=
  let s' := { s with sem := Function.update s.sem x ((s.sem x).pTest s.currentThread).1.int }
  if ((s.sem x).pTest s.currentThread).2 then { s' with mode := .user }
  else (s'.assert (s.currentThread ∉ (s.sem x).queue)).sleep false (.inP x)

/-- `Thread::Yield`. -/
def yield (s : Cpu) : Cpu :=
  match s.readyList with
  | [] => s
  | nextThread :: rest =>
    ({ s with readyList := rest }.readyToRun s.currentThread).run nextThread false .yielded

/-- `Scheduler::CheckToBeDestroyed`, with the `ASSERT` of `Thread::~Thread`. -/
def checkToBeDestroyed (s : Cpu) : Cpu :=
  match s.toBeDestroyed with
  | none => s
  | some d =>
    { s.assert (d ≠ s.currentThread) with deleted := s.deleted ++ [d], toBeDestroyed := none }

/-- The current thread is back from `SWITCH`, or begins. -/
def resume (s : Cpu) : Cpu :=
  let s' := s.checkToBeDestroyed
  match s.saved s.currentThread with
  | .fresh => { s' with mode := .user }
  | .yielded => { s' with mode := .user }
  | .inP x => s'.pTest x
  | .finished => s'.assert false

/-- `new Thread`. -/
def newThread (s : Cpu) : Cpu :=
  { s with
    nthreads := s.nthreads + 1
    status := Function.update s.status s.nthreads .justCreated
    saved := Function.update s.saved s.nthreads .fresh }

/-- The operations. `v` is a thread's or an interrupt handler's, `idle xs` the
`Idle` of a sleeping thread with the `V`s of the handlers it calls. -/
inductive Label
  | newThread
  | fork (t : Tid)
  | yield
  | p (x : ℕ)
  | v (x : ℕ)
  | finish
  | resume
  | idle (xs : List ℕ)

/-- `Fork` is called on a thread just created. -/
def step (s : Cpu) (l : Label) : Option Cpu :=
  match s.mode, l with
  | .user, .newThread => some s.newThread
  | .user, .fork t =>
    if t < s.nthreads ∧ s.status t = .justCreated then some (s.readyToRun t) else none
  | .user, .yield => some s.yield
  | .user, .p x => some (s.pTest x)
  | .user, .v x => some (s.v x)
  | .user, .finish => some (s.sleep true .finished)
  | .switched, .resume => some s.resume
  | .sleeping finishing k, .idle xs => some ((xs.foldl v s).dispatch finishing k)
  | _, _ => none

/-- The main thread runs, and the semaphores have any values. -/
def initial (value : ℕ → ℤ) : Cpu where
  nthreads := 1
  status := Function.update (fun _ => .justCreated) 0 .running
  saved := fun _ => .fresh
  deleted := []
  readyList := []
  sem := fun x => Semaphore.new (value x)
  toBeDestroyed := none
  currentThread := 0
  mode := .user
  aborted := false

/-- The states of all runs. -/
abbrev Reach : Cpu → Prop := Runs.Reach step (fun s => ∃ value, s = initial value) Runs.anyStep

/-! ### The lists and the threads' status -/

/-- The thread is on no list. -/
def Free (s : Cpu) (t : Tid) : Prop := t ∉ s.readyList ∧ ∀ x, t ∉ (s.sem x).queue

/-- The thread has finished. -/
def Gone (s : Cpu) (t : Tid) : Prop := t ∈ s.deleted ∨ s.toBeDestroyed = some t

/-- The lists agree with the status of the threads on them. -/
structure Lists (s : Cpu) : Prop where
  ready : ∀ t ∈ s.readyList, s.status t = .ready
  readyNodup : s.readyList.Nodup
  queue : ∀ x, ∀ t ∈ (s.sem x).queue, s.status t = .blocked
  queueNodup : ∀ x, (s.sem x).queue.Nodup
  unique : ∀ x y t, t ∈ (s.sem x).queue → t ∈ (s.sem y).queue → x = y
  fresh : ∀ t, s.nthreads ≤ t → s.Free t
  gone : ∀ t, s.Gone t → s.Free t ∧ t < s.nthreads ∧ s.status t ≠ .justCreated

/-- What holds of every run; `current` says what the current thread is doing. -/
structure Inv (s : Cpu) : Prop where
  lists : Lists s
  aborted : s.aborted = false
  alive : ¬ s.Gone s.currentThread
  created : s.currentThread < s.nthreads
  saved : ∀ t, s.saved t = .finished → s.Gone t
  user : s.mode = .user → s.status s.currentThread = .running ∧ s.toBeDestroyed = none
  switched : s.mode = .switched → s.status s.currentThread = .running
  sleeping : ∀ finishing k, s.mode = .sleeping finishing k → s.toBeDestroyed = none ∧
    (finishing = true → s.Free s.currentThread) ∧ (k = .finished → finishing = true) ∧
    s.status s.currentThread ≠ .justCreated

variable {s s' : Cpu} {t u : Tid}

theorem lists_initial (value : ℕ → ℤ) : Lists (initial value) := by
  have hfree : ∀ t, (initial value).Free t := fun t => ⟨List.not_mem_nil, fun x => List.not_mem_nil⟩
  refine
    { ready := fun t ht => absurd ht List.not_mem_nil
      readyNodup := List.nodup_nil
      queue := fun x t ht => absurd ht List.not_mem_nil
      queueNodup := fun x => List.nodup_nil
      unique := fun x y t ht => absurd ht List.not_mem_nil
      fresh := fun t _ => hfree t
      gone := fun t ht => ?_ }
  rcases ht with ht | ht
  · exact absurd ht List.not_mem_nil
  · cases ht

/-- A thread that is neither ready nor blocked is on no list. -/
theorem Lists.free (hL : Lists s) (h1 : s.status t ≠ .ready) (h2 : s.status t ≠ .blocked) :
    s.Free t :=
  ⟨fun h => h1 (hL.ready t h), fun x h => h2 (hL.queue x t h)⟩

theorem Lists.free_running (hL : Lists s) (h : s.status t = .running) : s.Free t := by
  refine hL.free ?_ ?_ <;> rw [h] <;> decide

/-- The lists are read from these fields alone, and from the status of the
threads on them. -/
theorem Lists.frame (hL : Lists s) (hst : ∀ t, ¬ s.Free t → s'.status t = s.status t)
    (hr : s'.readyList = s.readyList) (hq : ∀ x, (s'.sem x).queue = (s.sem x).queue)
    (hn : s.nthreads ≤ s'.nthreads)
    (hg : ∀ t, s'.Gone t → s.Free t ∧ t < s'.nthreads ∧ s'.status t ≠ .justCreated) : Lists s' := by
  have hfree : ∀ t, s'.Free t ↔ s.Free t := fun t => by unfold Free; simp only [hr, hq]
  refine
    { ready := fun t ht => ?_
      readyNodup := by rw [hr]; exact hL.readyNodup
      queue := fun x t ht => ?_
      queueNodup := fun x => by rw [hq]; exact hL.queueNodup x
      unique := fun x y t hx hy => hL.unique x y t (by rw [← hq]; exact hx) (by rw [← hq]; exact hy)
      fresh := fun t ht => (hfree t).mpr (hL.fresh t (hn.trans ht))
      gone := fun t ht => ⟨(hfree t).mpr (hg t ht).1, (hg t ht).2⟩ }
  · rw [hr] at ht
    rw [hst t fun hf => hf.1 ht]
    exact hL.ready t ht
  · rw [hq] at ht
    rw [hst t fun hf => hf.2 x ht]
    exact hL.queue x t ht

theorem update_ne_justCreated {f : Tid → ThreadStatus} {st : ThreadStatus} (hst : st ≠ .justCreated)
    (hu : f u ≠ .justCreated) : Function.update f t st u ≠ .justCreated := by
  rw [Function.update_apply]
  split_ifs
  · exact hst
  · exact hu

theorem Lists.gone_update (hL : Lists s) {st : ThreadStatus} (hst : st ≠ .justCreated)
    (hu : s.Gone u) :
    s.Free u ∧ u < s.nthreads ∧ Function.update s.status t st u ≠ .justCreated := by
  obtain ⟨h1, h2, h3⟩ := hL.gone u hu
  exact ⟨h1, h2, update_ne_justCreated hst h3⟩

theorem status_update (hf : s.Free t) (st : ThreadStatus) :
    ∀ u, ¬ s.Free u → Function.update s.status t st u = s.status u := by
  intro u hu
  have hut : u ≠ t := fun he => hu (he ▸ hf)
  exact Function.update_of_ne hut _ _

/-- `ReadyToRun` of a thread that is on no list. -/
theorem lists_readyToRun (hL : Lists s) (hf : s.Free t) (hn : t < s.nthreads) (hg : ¬ s.Gone t) :
    Lists (s.readyToRun t) := by
  have hfree : ∀ u, u ≠ t → ((s.readyToRun t).Free u ↔ s.Free u) := fun u hu => by
    unfold Free
    simp [readyToRun, assert, hu]
  refine
    { ready := fun u hu => ?_
      readyNodup := hL.readyNodup.append (List.nodup_singleton t) (List.disjoint_singleton.mpr hf.1)
      queue := fun x u hu => ?_
      queueNodup := hL.queueNodup
      unique := hL.unique
      fresh := fun u hu => ?_
      gone := fun u hu => ?_ }
  · rcases List.mem_append.mp hu with hu | hu
    · refine (status_update hf _ u fun h => h.1 hu).trans (hL.ready u hu)
    · rw [List.mem_singleton.mp hu]
      exact Function.update_self _ _ _
  · exact (status_update hf _ u fun h => h.2 x hu).trans (hL.queue x u hu)
  · have hlt : s.nthreads ≤ u := hu
    have hut : u ≠ t := (hn.trans_le hlt).ne'
    exact (hfree u hut).mpr (hL.fresh u hu)
  · have hut : u ≠ t := fun he => hg (he ▸ hu)
    have hready : ThreadStatus.ready ≠ .justCreated := by decide
    obtain ⟨h1, h2⟩ := hL.gone_update (t := t) hready hu
    exact ⟨(hfree u hut).mpr h1, h2⟩

/-- The front of the ready list leaves it. -/
theorem lists_next (hL : Lists s) {rest : List Tid} (hr : s.readyList = t :: rest) :
    Lists { s with readyList := rest } ∧ Free { s with readyList := rest } t ∧ t < s.nthreads ∧
    ¬ s.Gone t ∧
      s.status t = .ready := by
  have hmem : t ∈ s.readyList := by rw [hr]; exact List.mem_cons_self
  have hsub : ∀ u ∈ rest, u ∈ s.readyList := fun u hu => by rw [hr]; exact List.mem_cons_of_mem _ hu
  have hnodup := hL.readyNodup
  rw [hr] at hnodup
  have hst := hL.ready t hmem
  refine ⟨?_, ⟨(List.nodup_cons.mp hnodup).1, fun x hx => ?_⟩, ?_,
    fun hg => (hL.gone t hg).1.1 hmem, hst⟩
  · exact
      { ready := fun u hu => hL.ready u (hsub u hu)
        readyNodup := (List.nodup_cons.mp hnodup).2
        queue := hL.queue
        queueNodup := hL.queueNodup
        unique := hL.unique
        fresh := fun u hu => ⟨fun h => (hL.fresh u hu).1 (hsub u h), (hL.fresh u hu).2⟩
        gone := fun u hu =>
          ⟨⟨fun h => (hL.gone u hu).1.1 (hsub u h), (hL.gone u hu).1.2⟩, (hL.gone u hu).2⟩ }
  · have hbl := hL.queue x t hx
    rw [hst] at hbl
    cases hbl
  · by_contra hlt
    exact (hL.fresh t (not_lt.mp hlt)).1 hmem

/-- The front of a queue leaves it. -/
theorem lists_dequeue (hL : Lists s) {x : ℕ} {q : Semaphore} (hq : (s.sem x).queue = t :: q.queue) :
    Lists { s with sem := Function.update s.sem x q } ∧
    Free { s with sem := Function.update s.sem x q } t ∧
      t < s.nthreads ∧ ¬ s.Gone t := by
  have hmem : t ∈ (s.sem x).queue := by rw [hq]; exact List.mem_cons_self
  have hsub : ∀ y u, u ∈ (Function.update s.sem x q y).queue →
      u ∈ (s.sem y).queue := fun y u hu => by
    by_cases hy : y = x
    · subst hy
      rw [Function.update_self] at hu
      rw [hq]
      exact List.mem_cons_of_mem _ hu
    · rwa [Function.update_of_ne hy] at hu
  have hnodup := hL.queueNodup x
  rw [hq] at hnodup
  have hbl := hL.queue x t hmem
  refine ⟨?_, ⟨fun hr => ?_, fun y hy => ?_⟩, ?_, fun hg => (hL.gone t hg).1.2 x hmem⟩
  · exact
      { ready := hL.ready
        readyNodup := hL.readyNodup
        queue := fun y u hu => hL.queue y u (hsub y u hu)
        queueNodup := fun y => by
          by_cases hy : y = x
          · subst hy
            simpa using (List.nodup_cons.mp hnodup).2
          · simpa [hy] using hL.queueNodup y
        unique := fun y z u hy hz => hL.unique y z u (hsub y u hy) (hsub z u hz)
        fresh := fun u hu => ⟨(hL.fresh u hu).1, fun y h => (hL.fresh u hu).2 y (hsub y u h)⟩
        gone := fun u hu =>
          ⟨⟨(hL.gone u hu).1.1, fun y h => (hL.gone u hu).1.2 y (hsub y u h)⟩, (hL.gone u hu).2⟩ }
  · have hrd := hL.ready t hr
    rw [hbl] at hrd
    cases hrd
  · have hyx := hL.unique y x t (hsub y t hy) hmem
    subst hyx
    simp only [Function.update_self] at hy
    exact (List.nodup_cons.mp hnodup).1 hy
  · by_contra hlt
    exact (hL.fresh t (not_lt.mp hlt)).2 x hmem

/-- The current thread goes into a queue and to sleep. -/
theorem lists_enqueue (hL : Lists s) (hf : s.Free t) (hn : t < s.nthreads) (hg : ¬ s.Gone t) {x : ℕ}
    {q : Semaphore} (hq : q.queue = (s.sem x).queue ++ [t]) :
    Lists { s with
      sem := Function.update s.sem x q, status := Function.update s.status t .blocked } := by
  have hmem : ∀ y u, u ∈ (Function.update s.sem x q y).queue ↔ u ∈ (s.sem y).queue ∨ u = t ∧
      y = x := fun y u => by
    by_cases hy : y = x
    · subst hy
      simp [hq]
    · simp [hy]
  have hne : ∀ u, u ≠ t → (Free { s with
      sem := Function.update s.sem x q, status :=
        Function.update s.status t .blocked } u ↔ s.Free u) := fun u hu => by
    unfold Free
    simp only [hmem, hu, false_and, or_false]
  refine
    { ready := fun u hu => (status_update hf _ u fun h => h.1 hu).trans (hL.ready u hu)
      readyNodup := hL.readyNodup
      queue := fun y u hu => ?_
      queueNodup := fun y => ?_
      unique := fun y z u hy hz => ?_
      fresh := fun u hu => ?_
      gone := fun u hu => ?_ }
  · rcases (hmem y u).mp hu with hu | ⟨rfl, -⟩
    · exact (status_update hf _ u fun h => h.2 y hu).trans (hL.queue y u hu)
    · exact Function.update_self _ _ _
  · by_cases hy : y = x
    · subst hy
      simp only [Function.update_self, hq]
      exact (hL.queueNodup y).append (List.nodup_singleton t) (List.disjoint_singleton.mpr (hf.2 y))
    · simpa [hy] using hL.queueNodup y
  · rcases (hmem y u).mp hy with h1 | ⟨h1, hyx⟩ <;> rcases (hmem z u).mp hz with h2 | ⟨h2, hzx⟩
    · exact hL.unique y z u h1 h2
    · exact absurd (h2 ▸ h1) (hf.2 y)
    · exact absurd (h1 ▸ h2) (hf.2 z)
    · rw [hyx, hzx]
  · have hlt : s.nthreads ≤ u := hu
    have hut : u ≠ t := (hn.trans_le hlt).ne'
    exact (hne u hut).mpr (hL.fresh u hu)
  · have hut : u ≠ t := fun he => hg (he ▸ hu)
    have hblocked : ThreadStatus.blocked ≠ .justCreated := by decide
    obtain ⟨h1, h2⟩ := hL.gone_update (t := t) hblocked hu
    exact ⟨(hne u hut).mpr h1, h2⟩

/-! ### The operations keep it -/

/-- What `V`s do: threads leave queues for the ready list. -/
structure Woken (s s' : Cpu) : Prop where
  lists : Lists s'
  aborted : s'.aborted = s.aborted
  free : ∀ t, s.Free t → s'.Free t ∧ s'.status t = s.status t
  status : ∀ t, s.status t ≠ .justCreated → s'.status t ≠ .justCreated
  nthreads : s'.nthreads = s.nthreads
  saved : s'.saved = s.saved
  deleted : s'.deleted = s.deleted
  toBeDestroyed : s'.toBeDestroyed = s.toBeDestroyed
  currentThread : s'.currentThread = s.currentThread
  mode : s'.mode = s.mode

theorem Woken.refl (hL : Lists s) : Woken s s :=
  ⟨hL, rfl, fun _ h => ⟨h, rfl⟩, fun _ h => h, rfl, rfl, rfl, rfl, rfl, rfl⟩

theorem Woken.trans {s1 s2 s3 : Cpu} (h12 : Woken s1 s2) (h23 : Woken s2 s3) : Woken s1 s3 where
  lists := h23.lists
  aborted := h23.aborted.trans h12.aborted
  free t ht := by
    obtain ⟨h1, h2⟩ := h12.free t ht
    obtain ⟨h3, h4⟩ := h23.free t h1
    exact ⟨h3, h4.trans h2⟩
  status t ht := h23.status t (h12.status t ht)
  nthreads := h23.nthreads.trans h12.nthreads
  saved := h23.saved.trans h12.saved
  deleted := h23.deleted.trans h12.deleted
  toBeDestroyed := h23.toBeDestroyed.trans h12.toBeDestroyed
  currentThread := h23.currentThread.trans h12.currentThread
  mode := h23.mode.trans h12.mode

theorem Woken.gone (h : Woken s s') : s'.Gone t ↔ s.Gone t := by
  unfold Gone
  rw [h.deleted, h.toBeDestroyed]

theorem readyToRun_aborted (hf : s.Free t) : (s.readyToRun t).aborted = s.aborted := by
  simp [readyToRun, assert, hf.1]

theorem woken_v (hL : Lists s) (x : ℕ) : Woken s (s.v x) := by
  unfold v
  cases hq : (s.sem x).queue with
  | nil =>
    have hw : (s.sem x).v.2 = none := by simp [Semaphore.v, hq]
    have hsame : ∀ y, (Function.update s.sem x (s.sem x).v.1.int y).queue =
        (s.sem y).queue := fun y => by
      by_cases hy : y = x
      · subst hy
        simp [Semaphore.v, hq]
      · simp [hy]
    rw [hw]
    refine ⟨hL.frame (fun _ _ => rfl) rfl hsame le_rfl fun u hu => hL.gone u hu, rfl,
      fun u hu => ⟨⟨hu.1, fun y hy => hu.2 y ?_⟩, rfl⟩, fun _ h => h, rfl, rfl, rfl, rfl, rfl, rfl⟩
    rw [← hsame]
    exact hy
  | cons t q =>
    have hw : (s.sem x).v.2 = some t := by simp [Semaphore.v, hq]
    have htail : (s.sem x).queue = t :: (s.sem x).v.1.int.queue := by simp [Semaphore.v, hq]
    obtain ⟨hL', hf, hn, hg⟩ := lists_dequeue hL htail
    rw [hw]
    refine ⟨lists_readyToRun hL' hf hn hg, readyToRun_aborted hf, fun u hu => ?_,
      fun u hu => update_ne_justCreated (by decide) hu, rfl, rfl, rfl, rfl, rfl, rfl⟩
    have hut : u ≠ t := fun he => hu.2 x (by rw [hq, he]; exact List.mem_cons_self)
    refine ⟨⟨?_, fun y hy => ?_⟩, Function.update_of_ne hut _ _⟩
    · simp [readyToRun, assert, hut, hu.1]
    · have hmem : u ∈ (Function.update s.sem x (s.sem x).v.1.int y).queue := hy
      by_cases hyx : y = x
      · subst hyx
        rw [Function.update_self] at hmem
        exact hu.2 y (List.mem_of_mem_tail hmem)
      · rw [Function.update_of_ne hyx] at hmem
        exact hu.2 y hmem

theorem woken_foldl (hL : Lists s) (xs : List ℕ) : Woken s (xs.foldl v s) := by
  induction xs generalizing s with
  | nil => exact Woken.refl hL
  | cons x xs ih => exact (woken_v hL x).trans (ih (woken_v hL x).lists)

/-- The current thread is in `Sleep`, and looks for the next one. -/
structure Asleep (s : Cpu) (finishing : Bool) (k : Cont) : Prop where
  lists : Lists s
  aborted : s.aborted = false
  alive : ¬ s.Gone s.currentThread
  created : s.currentThread < s.nthreads
  saved : ∀ t, s.saved t = .finished → s.Gone t
  toBeDestroyed : s.toBeDestroyed = none
  free : finishing = true → s.Free s.currentThread
  cont : k = .finished → finishing = true
  status : s.status s.currentThread ≠ .justCreated

theorem Asleep.woken {finishing : Bool} {k : Cont} (h : Asleep s finishing k) (hw : Woken s s') :
    Asleep s' finishing k where
  lists := hw.lists
  aborted := hw.aborted.trans h.aborted
  alive := by
    rw [hw.gone, hw.currentThread]
    exact h.alive
  created := by
    rw [hw.currentThread, hw.nthreads]
    exact h.created
  saved t ht := by
    rw [hw.saved] at ht
    exact hw.gone.mpr (h.saved t ht)
  toBeDestroyed := hw.toBeDestroyed.trans h.toBeDestroyed
  free hf := by
    rw [hw.currentThread]
    exact (hw.free _ (h.free hf)).1
  cont := h.cont
  status := by
    rw [hw.currentThread]
    exact hw.status _ h.status

/-- `Run` to a thread that has just left the ready list. -/
theorem inv_run {finishing : Bool} {k : Cont} (h : Asleep s finishing k) (hf : s.Free t)
    (hn : t < s.nthreads) (hg : ¬ s.Gone t) (hne : finishing = true → t ≠ s.currentThread) :
    Inv (s.run t finishing k) := by
  cases hfin : finishing with
  | false =>
    have hk : k ≠ .finished := fun hk => by
      have := h.cont hk
      rw [hfin] at this
      cases this
    refine
      { lists := h.lists.frame (status_update hf _) rfl (fun _ => rfl) le_rfl
          fun u hu => h.lists.gone_update (by decide) hu
        aborted := h.aborted
        alive := hg
        created := hn
        saved := fun u hu => ?_
        user := fun hm => by cases hm
        switched := fun _ => Function.update_self _ _ _
        sleeping := fun _ _ hm => by cases hm }
    by_cases huc : u = s.currentThread
    · simp only [run, huc, Function.update_self] at hu
      exact absurd hu hk
    · simp only [run, Function.update_of_ne huc] at hu
      exact h.saved u hu
  | true =>
    have hgone : ∀ u, (s.run t true k).Gone u ↔ u ∈ s.deleted ∨ u = s.currentThread := fun u => by
      simp [Gone, run, assert, eq_comm]
    refine
      { lists := h.lists.frame (status_update hf _) rfl (fun _ => rfl) le_rfl fun u hu => ?_
        aborted := by simp [run, assert, h.aborted, h.toBeDestroyed]
        alive := fun hc => ?_
        created := hn
        saved := fun u hu => ?_
        user := fun hm => by cases hm
        switched := fun _ => Function.update_self _ _ _
        sleeping := fun _ _ hm => by cases hm }
    · rcases (hgone u).mp hu with hu | hu
      · exact h.lists.gone_update (by decide) (Or.inl hu)
      · rw [hu]
        exact ⟨h.free hfin, h.created, update_ne_justCreated (by decide) h.status⟩
    · rcases (hgone _).mp hc with hc | hc
      · exact hg (Or.inl hc)
      · exact hne hfin hc
    · refine (hgone u).mpr ?_
      by_cases huc : u = s.currentThread
      · exact Or.inr huc
      · simp only [run, Function.update_of_ne huc] at hu
        rcases h.saved u hu with hd | hd
        · exact Or.inl hd
        · rw [h.toBeDestroyed] at hd
          cases hd

theorem inv_dispatch {finishing : Bool} {k : Cont} (h : Asleep s finishing k) :
    Inv (s.dispatch finishing k) := by
  unfold dispatch
  cases hr : s.readyList with
  | nil =>
    exact
      { lists := h.lists.frame (fun _ _ => rfl) hr.symm (fun _ =>
        rfl) le_rfl fun u hu => h.lists.gone u hu
        aborted := h.aborted
        alive := h.alive
        created := h.created
        saved := h.saved
        user := fun hm => by cases hm
        switched := fun hm => by cases hm
        sleeping := fun fin' k' hm => by
          cases hm
          refine ⟨h.toBeDestroyed, fun hf => ?_, h.cont, h.status⟩
          exact ⟨by simp, (h.free hf).2⟩ }
  | cons t rest =>
    obtain ⟨hL, hf, hn, hg, -⟩ := lists_next h.lists hr
    have h' : Asleep { s with readyList := rest } finishing k :=
      { lists := hL
        aborted := h.aborted
        alive := h.alive
        created := h.created
        saved := h.saved
        toBeDestroyed := h.toBeDestroyed
        status := h.status
        free := fun hfin =>
          ⟨fun hm => (h.free hfin).1 (by rw [hr]; exact List.mem_cons_of_mem _ hm), (h.free hfin).2⟩
        cont := h.cont }
    refine inv_run h' hf hn hg fun hfin he => (h.free hfin).1 ?_
    rw [hr, ← he]
    exact List.mem_cons_self

/-- The current thread is running and has nothing to clean up. -/
structure Running (s : Cpu) : Prop where
  lists : Lists s
  aborted : s.aborted = false
  alive : ¬ s.Gone s.currentThread
  created : s.currentThread < s.nthreads
  saved : ∀ t, s.saved t = .finished → s.Gone t
  toBeDestroyed : s.toBeDestroyed = none
  status : s.status s.currentThread = .running

theorem Inv.running (h : Inv s) (hm : s.mode = .user) : Running s :=
  ⟨h.lists, h.aborted, h.alive, h.created, h.saved, (h.user hm).2, (h.user hm).1⟩

/-- The current thread goes on with code of its own. -/
theorem inv_user (h : Running s) : Inv { s with mode := .user } where
  lists := h.lists.frame (fun _ _ => rfl) rfl (fun _ => rfl) le_rfl fun u hu => h.lists.gone u hu
  aborted := h.aborted
  alive := h.alive
  created := h.created
  saved := h.saved
  user _ := ⟨h.status, h.toBeDestroyed⟩
  switched hm := by cases hm
  sleeping _ _ hm := by cases hm

theorem inv_readyToRun (h : Running s) (hm : s.mode = .user) (hf : s.Free t) (hn : t < s.nthreads)
    (hg : ¬ s.Gone t) (hne : s.currentThread ≠ t) : Inv (s.readyToRun t) where
  lists := lists_readyToRun h.lists hf hn hg
  aborted := (readyToRun_aborted hf).trans h.aborted
  alive := h.alive
  created := h.created
  saved := h.saved
  user _ := ⟨(Function.update_of_ne hne _ _).trans h.status, h.toBeDestroyed⟩
  switched hm' := by
    rw [show (s.readyToRun t).mode = s.mode from rfl, hm] at hm'
    cases hm'
  sleeping _ _ hm' := by
    rw [show (s.readyToRun t).mode = s.mode from rfl, hm] at hm'
    cases hm'

theorem inv_v (h : Inv s) (hm : s.mode = .user) (x : ℕ) : Inv (s.v x) := by
  have hw := woken_v h.lists x
  have hr := h.running hm
  obtain ⟨-, hst⟩ := hw.free _ (h.lists.free_running hr.status)
  refine
    { lists := hw.lists
      aborted := hw.aborted.trans h.aborted
      alive := by rw [hw.gone, hw.currentThread]; exact h.alive
      created := by rw [hw.currentThread, hw.nthreads]; exact h.created
      saved := fun t ht => hw.gone.mpr (h.saved t (by rw [← hw.saved]; exact ht))
      user := fun _ => ⟨?_, hw.toBeDestroyed.trans hr.toBeDestroyed⟩
      switched := fun hm' => by rw [hw.mode, hm] at hm'; cases hm'
      sleeping := fun _ _ hm' => by rw [hw.mode, hm] at hm'; cases hm' }
  rw [hw.currentThread, hst]
  exact hr.status

theorem inv_yield (h : Running s) (hm : s.mode = .user) : Inv s.yield := by
  unfold yield
  cases hr : s.readyList with
  | nil =>
    have hsame : s = { s with mode := .user } := by rw [← hm]
    rw [hsame]
    exact inv_user h
  | cons t rest =>
    obtain ⟨hL, hf, hn, hg, hst⟩ := lists_next h.lists hr
    have hfree : Free { s with readyList := rest } s.currentThread :=
      ⟨fun hmem => (h.lists.free_running h.status).1
        (by rw [hr]; exact List.mem_cons_of_mem _ hmem), (h.lists.free_running h.status).2⟩
    have hne : t ≠ s.currentThread := fun he => by
      rw [he, h.status] at hst
      cases hst
    refine inv_run ?_ ?_ hn hg fun hfin => by cases hfin
    · exact
        { lists := lists_readyToRun hL hfree h.created h.alive
          aborted := (readyToRun_aborted hfree).trans h.aborted
          alive := h.alive
          created := h.created
          saved := h.saved
          toBeDestroyed := h.toBeDestroyed
          free := fun hfin => by cases hfin
          cont := fun hk => by cases hk
          status := by simp [readyToRun, assert] }
    · refine ⟨fun hmem => ?_, hf.2⟩
      rcases List.mem_append.mp hmem with hmem | hmem
      · exact hf.1 hmem
      · exact hne (List.mem_singleton.mp hmem)

theorem inv_pTest (h : Running s) (x : ℕ) : Inv (s.pTest x) := by
  have hfree := h.lists.free_running h.status
  unfold pTest Semaphore.pTest
  by_cases hv : (s.sem x).value = 0
  · simp only [hv, ↓reduceIte, Bool.false_eq_true]
    refine inv_dispatch ?_
    refine
      { lists := (lists_enqueue h.lists hfree h.created h.alive rfl).frame (fun _ _ =>
        rfl) rfl (fun _ => rfl) le_rfl
          fun u hu => (lists_enqueue h.lists hfree h.created h.alive rfl).gone u hu
        aborted := ?_
        alive := h.alive
        created := h.created
        saved := h.saved
        toBeDestroyed := h.toBeDestroyed
        free := fun hfin => by cases hfin
        cont := fun hk => by cases hk
        status := by simp }
    simp [assert, h.aborted, hfree.2 x]
  · simp only [hv, ↓reduceIte]
    set taken : Semaphore := { s.sem x with value := (s.sem x).value - 1 }
    have hq : ∀ y, (Function.update s.sem x taken.int y).queue = (s.sem y).queue := fun y => by
      by_cases hy : y = x
      · subst hy
        simp [taken]
      · simp [hy]
    refine inv_user (s := { s with sem := Function.update s.sem x taken.int }) ?_
    exact
      { lists := h.lists.frame (fun _ _ => rfl) rfl hq le_rfl fun u hu => h.lists.gone u hu
        aborted := h.aborted
        alive := h.alive
        created := h.created
        saved := h.saved
        toBeDestroyed := h.toBeDestroyed
        status := h.status }

/-- `CheckToBeDestroyed` by a thread that is back from `SWITCH`. -/
theorem running_checkToBeDestroyed (h : Inv s) (hm : s.mode = .switched) :
    Running s.checkToBeDestroyed := by
  unfold checkToBeDestroyed
  cases hd : s.toBeDestroyed with
  | none => exact ⟨h.lists, h.aborted, h.alive, h.created, h.saved, hd, h.switched hm⟩
  | some d =>
    have hgone : ∀ t, Gone { s.assert (d ≠ s.currentThread) with
        deleted := s.deleted ++ [d], toBeDestroyed := none } t ↔ s.Gone t := fun t => by
      simp [Gone, hd, eq_comm]
    have hne : d ≠ s.currentThread := fun he => h.alive (Or.inr (he ▸ hd))
    refine
      { lists := h.lists.frame (fun _ _ => rfl) rfl (fun _ =>
        rfl) le_rfl fun u hu => h.lists.gone u ((hgone u).mp hu)
        aborted := by simp [assert, h.aborted, hne]
        alive := fun hc => h.alive ((hgone _).mp hc)
        created := h.created
        saved := fun t ht => (hgone t).mpr (h.saved t ht)
        toBeDestroyed := rfl
        status := h.switched hm }

theorem inv_resume (h : Inv s) (hm : s.mode = .switched) : Inv s.resume := by
  have hr := running_checkToBeDestroyed h hm
  unfold resume
  cases hk : s.saved s.currentThread with
  | fresh => exact inv_user hr
  | yielded => exact inv_user hr
  | inP x => exact inv_pTest hr x
  | finished => exact absurd (h.saved _ hk) h.alive

theorem inv_newThread (h : Running s) (hm : s.mode = .user) : Inv s.newThread where
  lists := by
    refine h.lists.frame (fun t ht => ?_) rfl (fun _ => rfl) (Nat.le_succ _) fun u hu => ?_
    · have hne : t ≠ s.nthreads := fun he => ht (he ▸ h.lists.fresh s.nthreads le_rfl)
      exact Function.update_of_ne hne _ _
    · obtain ⟨h1, h2, h3⟩ := h.lists.gone u hu
      exact ⟨h1, Nat.lt_succ_of_lt h2, by simpa [newThread, h2.ne] using h3⟩
  aborted := h.aborted
  alive := h.alive
  created := Nat.lt_succ_of_lt h.created
  saved t ht := by
    by_cases he : t = s.nthreads
    · simp only [newThread, he, Function.update_self] at ht
      cases ht
    · simp only [newThread, Function.update_of_ne he] at ht
      exact h.saved t ht
  user _ := ⟨(Function.update_of_ne h.created.ne _ _).trans h.status, h.toBeDestroyed⟩
  switched hm' := by
    rw [show s.newThread.mode = s.mode from rfl, hm] at hm'
    cases hm'
  sleeping _ _ hm' := by
    rw [show s.newThread.mode = s.mode from rfl, hm] at hm'
    cases hm'

theorem inv_finish (h : Running s) : Inv (s.sleep true .finished) := by
  have hfree := h.lists.free_running h.status
  refine inv_dispatch ?_
  exact
    { lists := h.lists.frame (status_update hfree _) rfl (fun _ => rfl) le_rfl
        fun u hu => h.lists.gone_update (by decide) hu
      aborted := h.aborted
      alive := h.alive
      created := h.created
      saved := h.saved
      toBeDestroyed := h.toBeDestroyed
      free := fun _ => hfree
      cont := fun _ => rfl
      status := by simp }

theorem inv_fork (h : Running s) (hm : s.mode = .user) (hn : t < s.nthreads)
    (hst : s.status t = .justCreated) :
    Inv (s.readyToRun t) := by
  refine inv_readyToRun h hm (h.lists.free ?_ ?_) hn (fun hg => (h.lists.gone t hg).2.2 hst)
    fun he => ?_
  · rw [hst]; decide
  · rw [hst]; decide
  · have := h.status
    rw [he, hst] at this
    cases this

theorem inv_step (h : Inv s) (l : Label) (hs : s.step l = some s') : Inv s' := by
  unfold step at hs
  cases hm : s.mode with
  | user =>
    have hr := h.running hm
    rw [hm] at hs
    cases l with
    | newThread => cases hs; exact inv_newThread hr hm
    | fork t =>
      simp only at hs
      split_ifs at hs with hc
      cases hs
      exact inv_fork hr hm hc.1 hc.2
    | yield => cases hs; exact inv_yield hr hm
    | p x => cases hs; exact inv_pTest hr x
    | v x => cases hs; exact inv_v h hm x
    | finish => cases hs; exact inv_finish hr
    | resume => cases hs
    | idle xs => cases hs
  | switched =>
    rw [hm] at hs
    cases l with
    | resume => cases hs; exact inv_resume h hm
    | newThread | fork | yield | p | v | finish | idle => cases hs
  | sleeping finishing k =>
    rw [hm] at hs
    cases l with
    | idle xs =>
      cases hs
      obtain ⟨h1, h2, h3, h4⟩ := h.sleeping finishing k hm
      have hsleep : Asleep s finishing k :=
        ⟨h.lists, h.aborted, h.alive, h.created, h.saved, h1, h2, h3, h4⟩
      exact inv_dispatch (hsleep.woken (woken_foldl h.lists xs))
    | newThread | fork | yield | p | v | finish | resume => cases hs

theorem inv_initial (value : ℕ → ℤ) : Inv (initial value) := by
  have hgone : ∀ t, ¬ (initial value).Gone t := fun t ht => by simp [Gone, initial] at ht
  exact
    { lists := lists_initial value
      aborted := rfl
      alive := hgone _
      created := Nat.zero_lt_one
      saved := fun t ht => by cases ht
      user := fun _ => ⟨rfl, rfl⟩
      switched := fun hm => by cases hm
      sleeping := fun _ _ hm => by cases hm }

theorem inv_reach (hr : Reach s) : Inv s := by
  refine hr.inv Inv ?_ fun s l s' _ hI _ hs => inv_step hI l hs
  intro s hs
  obtain ⟨value, rfl⟩ := hs
  exact inv_initial value

/-! ### Deletions -/

@[simp] theorem run_deleted (next : Tid) (finishing : Bool) (k : Cont) :
    (s.run next finishing k).deleted = s.deleted := by
  cases finishing <;> rfl

@[simp] theorem dispatch_deleted (finishing : Bool) (k : Cont) :
    (s.dispatch finishing k).deleted = s.deleted := by
  unfold dispatch
  cases s.readyList with
  | nil => rfl
  | cons t rest => exact run_deleted t finishing k

@[simp] theorem pTest_deleted (x : ℕ) : (s.pTest x).deleted = s.deleted := by
  unfold pTest
  split_ifs
  · rfl
  · exact dispatch_deleted false _

theorem yield_deleted : s.yield.deleted = s.deleted := by
  unfold yield
  cases s.readyList with
  | nil => rfl
  | cons t rest => exact run_deleted t false _

/-- A thread that finished is deleted by the next one, before it goes on. -/
theorem resume_deleted : s.resume.deleted = s.deleted ++ s.toBeDestroyed.toList := by
  have hcheck : s.checkToBeDestroyed.deleted = s.deleted ++ s.toBeDestroyed.toList := by
    unfold checkToBeDestroyed
    cases s.toBeDestroyed <;> simp
  unfold resume
  cases s.saved s.currentThread with
  | fresh => exact hcheck
  | yielded => exact hcheck
  | inP x => exact (pTest_deleted x).trans hcheck
  | finished => exact hcheck

/-- A step deletes the thread that waits for it, and only in the mode in
which that can be. -/
theorem step_deleted (h : Inv s) (l : Label) (hs : s.step l = some s') :
    s'.deleted = s.deleted ++ s.toBeDestroyed.toList := by
  unfold step at hs
  cases hm : s.mode with
  | user =>
    have hd := (h.user hm).2
    rw [hd, Option.toList_none, List.append_nil]
    rw [hm] at hs
    cases l with
    | newThread => cases hs; rfl
    | fork t =>
      simp only at hs
      split_ifs at hs
      cases hs
      rfl
    | yield => cases hs; exact yield_deleted
    | p x => cases hs; exact pTest_deleted x
    | v x => cases hs; exact (woken_v h.lists x).deleted
    | finish => cases hs; exact dispatch_deleted true _
    | resume | idle => cases hs
  | switched =>
    rw [hm] at hs
    cases l with
    | resume => cases hs; exact resume_deleted
    | newThread | fork | yield | p | v | finish | idle => cases hs
  | sleeping finishing k =>
    have hd := (h.sleeping finishing k hm).1
    rw [hd, Option.toList_none, List.append_nil]
    rw [hm] at hs
    cases l with
    | idle xs =>
      cases hs; exact (dispatch_deleted finishing k).trans (woken_foldl h.lists xs).deleted
    | newThread | fork | yield | p | v | finish | resume => cases hs

/-! ### Every thread in one place -/

/-- No thread is on two lists or twice on one, the current thread is running
and on none, and a thread's list agrees with its status. -/
structure OnePlace (s : Cpu) : Prop where
  readyNodup : s.readyList.Nodup
  queueNodup : ∀ x, (s.sem x).queue.Nodup
  queuesDisjoint : ∀ x y, x ≠ y → (s.sem x).queue.Disjoint (s.sem y).queue
  readyDisjoint : ∀ x, s.readyList.Disjoint (s.sem x).queue
  currentRunning : s.status s.currentThread = .running
  currentFree : s.Free s.currentThread
  ready : ∀ t ∈ s.readyList, s.status t = .ready
  blocked : ∀ x, ∀ t ∈ (s.sem x).queue, s.status t = .blocked

/-- **Every thread in one place.** In every run no `ASSERT` fails; whenever the
current thread is in none of the operations, every thread is in one place; a
thread that waits to be deleted is deleted by the next step and not replaced
before, and a thread is deleted only when it is not the current one and on no
list. -/
theorem one_place {s : Cpu} (hr : Reach s) :
    s.aborted = false ∧ (s.mode = .user → OnePlace s) ∧
      (∀ l s' d, s.step l = some s' → s.toBeDestroyed = some d → d ∈ s'.deleted) ∧
      ∀ l s', s.step l = some s' → ∀ t ∈ s'.deleted, t ∉ s.deleted →
        t ≠ s.currentThread ∧ s.Free t := by
  have hI := inv_reach hr
  have hL := hI.lists
  refine ⟨hI.aborted, fun hm => ?_, fun l s' d hs hd => ?_, fun l s' hs t ht hnot => ?_⟩
  · have hrun := (hI.user hm).1
    refine
      { readyNodup := hL.readyNodup
        queueNodup := hL.queueNodup
        queuesDisjoint := fun x y hxy t hx hy => hxy (hL.unique x y t hx hy)
        readyDisjoint := fun x t h1 h2 => ?_
        currentRunning := hrun
        currentFree := hL.free_running hrun
        ready := hL.ready
        blocked := hL.queue }
    have hst := hL.ready t h1
    rw [hL.queue x t h2] at hst
    cases hst
  · rw [step_deleted hI l hs, hd]
    exact List.mem_append_right _ List.mem_cons_self
  · rw [step_deleted hI l hs] at ht
    have hd : s.toBeDestroyed = some t := by
      rcases List.mem_append.mp ht with ht | ht
      · exact absurd ht hnot
      · exact Option.mem_toList.mp ht
    exact ⟨fun he => hI.alive (Or.inr (he ▸ hd)), (hL.gone t (Or.inr hd)).1⟩

/-- Thread 0 forks thread 1 and sleeps on semaphore 0; thread 1 finishes, and a
handler wakes thread 0 from inside thread 1's `Sleep`; thread 0 deletes thread
1, sleeps again with nothing ready and is switched to itself. -/
theorem one_place_self : ∃ s, Reach s ∧ s.mode = .user ∧ s.deleted = [1] ∧ s.currentThread = 0 ∧
    s.aborted = false := by
  obtain ⟨s, hs, ht⟩ :=
    Runs.Reach.of_exec step (fun s => ∃ value, s = initial value) ⟨fun _ => 0, rfl⟩
    [.newThread, .fork 1, .p 0, .resume, .finish, .idle [0], .resume, .p 0,
      .idle [], .idle [0], .resume]
    (Runs.along_any _ _) (fun s => s.mode = .user ∧ s.deleted = [1] ∧ s.currentThread = 0)
      (by decide)
  simp only [decide_eq_true_eq] at ht
  exact ⟨s, hs, ht.1, ht.2.1, ht.2.2, (one_place hs).1⟩

end Cpu
end Nachos
