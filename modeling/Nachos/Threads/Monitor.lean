/-
# Locks and condition variables (`threads/synch.cc`)

A `Lock` is a semaphore with the value 1 and the thread that holds it; a
`Condition` is a queue of private semaphores, one for each `Wait` in
progress. `Monitor` is one lock, any number of conditions used with it and any
number of threads. The steps end where the code enables interrupts, so another
thread may come between `P` and the write to `lockHolder`, between the
`Release` of a `Wait` and its `P`, and between the signals of a `Broadcast`.
A failed `ASSERT` sets `aborted`.

* `LockInv`: one thread at most is past the `P` of the lock, and then the
  value is 0; `CondInv`: a waiter's semaphore has the value 0 until a signal
  has removed it from the queue and 1 from then until its `P`.
* `monitor_correct`: in every run in which threads release, wait and signal
  only while they hold the lock, the lock excludes, no assertion fails, and
  wakeups are in order, neither lost nor spurious.

Key definitions: `Monitor.step`, `Monitor.Disciplined`, `Monitor.LockInv`,
`Monitor.CondInv`, `Monitor.Mesa`.
Key theorems: `Monitor.step_cases`, `Monitor.lockInv_turn`, `Monitor.condInv_turn`,
`Monitor.monitor_correct`.
-/
import Mathlib
import Nachos.Base.Runs
import Nachos.Threads.Semaphore

namespace Nachos
namespace Monitor

/-- Where a thread is. -/
inductive Pc
  /-- code of its own, without the lock -/
  | out
  /-- in the `P` of `Acquire` -/
  | acquiring
  /-- past it, `lockHolder` not yet written -/
  | acquired
  /-- code of its own, with the lock -/
  | inside
  /-- in the `P` of an `Acquire` called with the lock held -/
  | again
  /-- in `Wait` on condition `c`, in the `P` of its semaphore `w` -/
  | waiting (c w : ℕ)
  /-- in the `Acquire` of that `Wait` -/
  | reacquiring (c w : ℕ)
  | reacquired (c w : ℕ)
  /-- in the loop of `Broadcast`, which began with the queue `W` -/
  | broadcasting (c : ℕ) (W : List ℕ) (held : Bool)
  deriving DecidableEq

/-- Past the `P` of the lock and before its `V`. -/
def Pc.critical : Pc → Bool
  | .acquired | .inside | .again | .reacquired _ _ | .broadcasting _ _ true => true
  | _ => false

/-- Between the return of `Acquire` or `Wait` and the next `Release` or `Wait`. -/
def Pc.owns : Pc → Bool
  | .inside | .again | .broadcasting _ _ true => true
  | _ => false

/-- What a thread is doing with a condition. -/
inductive Phase
  | idle
  | waiting (c w : ℕ)
  /-- past the `P` of the waiter `w` -/
  | resumed (c w : ℕ)
  | broadcasting (c : ℕ) (W : List ℕ)
  deriving DecidableEq

def Pc.cond : Pc → Phase
  | .waiting c w => .waiting c w
  | .reacquiring c w => .resumed c w
  | .reacquired c w => .resumed c w
  | .broadcasting c W _ => .broadcasting c W
  | _ => .idle

/-- In the `P` of the lock. -/
def Pc.atLock : Pc → Bool
  | .acquiring | .again | .reacquiring _ _ => true
  | _ => false

end Monitor

/-- `class Lock`, the conditions used with it, the threads, and the history. -/
structure Monitor where
  /-- the lock's semaphore -/
  sem : Semaphore
  lockHolder : Option Tid
  /-- the queue of each condition: the waiters, by the order of their creation -/
  waitQueue : ℕ → List ℕ
  /-- the semaphore of each waiter -/
  waiter : ℕ → Semaphore
  nwaiters : ℕ
  pc : Tid → Monitor.Pc
  /-- an `ASSERT` has failed -/
  aborted : Bool
  /-- the thread whose `Wait` created the waiter -/
  owner : ℕ → Tid
  /-- the waiters that were put into the queue, and those removed from it, in order -/
  queued : ℕ → List ℕ
  removed : ℕ → List ℕ
  /-- the waiters whose `Wait` has returned -/
  returned : List ℕ

namespace Monitor

/-! ### The code -/

/-- `ASSERT(b)`. -/
def assert (s : Monitor) (b : Bool) : Monitor := { s with aborted := s.aborted || !b }

def setPc (s : Monitor) (t : Tid) (p : Pc) : Monitor := { s with pc := Function.update s.pc t p }

/-- One pass of the loop of the lock's `P`, with the `ASSERT` of
`List::Append`. -/
def lockP (s : Monitor) (t : Tid) (passed asleep : Pc) : Monitor :=
  if (s.sem.pTest t).2 then { s with sem := (s.sem.pTest t).1 }.setPc t passed
  else { s.assert (t ∉ s.sem.queue) with sem := (s.sem.pTest t).1 }.setPc t asleep

/-- The end of `Lock::Acquire`. -/
def setHolder (s : Monitor) (t : Tid) : Monitor := { s with lockHolder := some t }.setPc t .inside

/-- `Lock::Release`. -/
def release (s : Monitor) (t : Tid) (next : Pc) : Monitor :=
  { s.assert (s.lockHolder = some t) with lockHolder := none, sem := s.sem.v.1 }.setPc t next

/-- `Condition::Wait`, to `waitQueue->Append(waiter)`. -/
def newWaiter (s : Monitor) (t : Tid) (c : ℕ) : Monitor :=
  { s.assert (s.lockHolder = some t ∧ s.nwaiters ∉ s.waitQueue c) with
    nwaiters := s.nwaiters + 1
    waiter := Function.update s.waiter s.nwaiters (Semaphore.new 0)
    waitQueue := Function.update s.waitQueue c (s.waitQueue c ++ [s.nwaiters])
    owner := Function.update s.owner s.nwaiters t
    queued := Function.update s.queued c (s.queued c ++ [s.nwaiters]) }

/-- `Condition::Wait`, to the end of its `Release`. -/
def wait (s : Monitor) (t : Tid) (c : ℕ) : Monitor :=
  (s.newWaiter t c).release t (.waiting c s.nwaiters)

def setWaiter (s : Monitor) (w : ℕ) (x : Semaphore) : Monitor :=
  { s with waiter := Function.update s.waiter w x }

/-- One pass of the loop of `waiter->P()`. -/
def waiterP (s : Monitor) (t : Tid) (c w : ℕ) : Monitor :=
  if ((s.waiter w).pTest t).2 then
    (s.setWaiter w ((s.waiter w).pTest t).1).setPc t (.reacquiring c w)
  else
    ((s.assert (t ∉ (s.waiter w).queue)).setWaiter w ((s.waiter w).pTest t).1).setPc t
      (.waiting c w)

/-- `Condition::Signal`. -/
def signal (s : Monitor) (t : Tid) (c : ℕ) : Monitor :=
  match s.waitQueue c with
  | [] => s.assert (s.lockHolder = some t)
  | w :: ws =>
    { s.assert (s.lockHolder = some t) with
      waitQueue := Function.update s.waitQueue c ws
      waiter := Function.update s.waiter w (s.waiter w).v.1
      removed := Function.update s.removed c (s.removed c ++ [w]) }

/-- The place a call of a thread comes from: the lock held, or not. -/
def place (held : Bool) : Pc := if held then .inside else .out

/-- One pass of the loop of `Condition::Broadcast`. -/
def broadcastNext (s : Monitor) (t : Tid) (c : ℕ) (held : Bool) : Monitor :=
  if s.waitQueue c = [] then s.setPc t (place held) else s.signal t c

/-- The calls of the threads, and `run` for a thread inside one of them. -/
inductive Label
  | acquire (t : Tid)
  | release (t : Tid)
  | wait (t : Tid) (c : ℕ)
  | signal (t : Tid) (c : ℕ)
  | broadcast (t : Tid) (c : ℕ)
  | run (t : Tid)
  deriving DecidableEq

/-- A thread in the queue of a semaphore does not run. -/
def runStep (s : Monitor) (t : Tid) : Option Monitor :=
  match s.pc t with
  | .out => none
  | .inside => none
  | .acquiring => if t ∈ s.sem.queue then none else some (s.lockP t .acquired .acquiring)
  | .again => if t ∈ s.sem.queue then none else some (s.lockP t .acquired .again)
  | .acquired => some (s.setHolder t)
  | .waiting c w => if t ∈ (s.waiter w).queue then none else some (s.waiterP t c w)
  | .reacquiring c w =>
    if t ∈ s.sem.queue then none else some (s.lockP t (.reacquired c w) (.reacquiring c w))
  | .reacquired _ w => some { s.setHolder t with returned := s.returned ++ [w] }
  | .broadcasting c _ held => some (s.broadcastNext t c held)

/-- A thread calls from code of its own. -/
def step (s : Monitor) : Label → Option Monitor
  | .acquire t =>
    if s.pc t = .out then some (s.lockP t .acquired .acquiring)
    else if s.pc t = .inside then some (s.lockP t .acquired .again)
    else none
  | .release t => if s.pc t = .out ∨ s.pc t = .inside then some (s.release t .out) else none
  | .wait t c => if s.pc t = .out ∨ s.pc t = .inside then some (s.wait t c) else none
  | .signal t c => if s.pc t = .out ∨ s.pc t = .inside then some (s.signal t c) else none
  | .broadcast t c =>
    if s.pc t = .out ∨ s.pc t = .inside then
      some (s.setPc t (.broadcasting c (s.waitQueue c) (s.pc t = .inside)))
    else none
  | .run t => s.runStep t

/-- A new lock and new conditions. -/
def initial : Monitor where
  sem := Semaphore.new 1
  lockHolder := none
  waitQueue := fun _ => []
  waiter := fun _ => Semaphore.new 0
  nwaiters := 0
  pc := fun _ => .out
  aborted := false
  owner := fun _ => 0
  queued := fun _ => []
  removed := fun _ => []
  returned := []

/-- The thread releases, waits or signals only while it holds the lock. -/
def Disciplined (s : Monitor) : Label → Prop
  | .release t => s.pc t = .inside
  | .wait t _ => s.pc t = .inside
  | .signal t _ => s.pc t = .inside
  | .broadcast t _ => s.pc t = .inside
  | .acquire _ => True
  | .run _ => True

instance (s : Monitor) : (l : Label) → Decidable (Disciplined s l)
  | .release t => inferInstanceAs (Decidable (s.pc t = .inside))
  | .wait t _ => inferInstanceAs (Decidable (s.pc t = .inside))
  | .signal t _ => inferInstanceAs (Decidable (s.pc t = .inside))
  | .broadcast t _ => inferInstanceAs (Decidable (s.pc t = .inside))
  | .acquire _ => inferInstanceAs (Decidable True)
  | .run _ => inferInstanceAs (Decidable True)

/-- The states of the runs in which every thread keeps the discipline. -/
abbrev Reach : Monitor → Prop := Runs.Reach step (· = initial) Disciplined

/-! ### The lock -/

/-- One thread at most is past the `P` of the lock; the value says whether one
is, and the holder is that thread once it has written so. -/
structure LockInv (s : Monitor) : Prop where
  value : s.sem.value = 0 ∨ s.sem.value = 1
  busy : ∀ t, (s.pc t).critical = true → s.sem.value = 0
  taken : s.sem.value = 0 → ∃ t, (s.pc t).critical = true
  excl : ∀ t u, (s.pc t).critical = true → (s.pc u).critical = true → t = u
  holder : ∀ t, (s.pc t).owns = true → s.lockHolder = some t
  queue : ∀ t ∈ s.sem.queue, (s.pc t).atLock = true
  nodup : s.sem.queue.Nodup
  /-- a `Broadcast` is made with the lock held -/
  held : ∀ t c W b, s.pc t = .broadcasting c W b → b = true

variable {s s' : Monitor} {t u : Tid} {c w : ℕ} {l : Label}

theorem Pc.critical_of_owns {p : Pc} (h : p.owns = true) : p.critical = true := by
  unfold Pc.owns at h
  split at h
  · rfl
  · rfl
  · rfl
  · cases h

theorem lockInv_initial : LockInv initial where
  value := Or.inr rfl
  busy _ h := by cases h
  taken h := by cases h
  excl _ _ h := by cases h
  holder _ h := by cases h
  queue _ h := absurd h List.not_mem_nil
  nodup := List.nodup_nil
  held _ _ _ _ h := by cases h

theorem apply_update {α : Type*} (f : Pc → α) {pc : Tid → Pc} {p : Pc}
    (hf : f p = f (pc t)) (u : Tid) :
    f (Function.update pc t p u) = f (pc u) := by
  by_cases hu : u = t
  · rw [hu, Function.update_self, hf]
  · rw [Function.update_of_ne hu]

theorem held_update {pc : Tid → Pc} {p : Pc} (h : ∀ u c W b, pc u = .broadcasting c W b → b = true)
    (hb : ∀ c W b, p = .broadcasting c W b → b = true) :
    ∀ u c W b, Function.update pc t p u = .broadcasting c W b → b = true := by
  intro u c W b hu
  by_cases hut : u = t
  · rw [hut, Function.update_self] at hu
    exact hb c W b hu
  · rw [Function.update_of_ne hut] at hu
    exact h u c W b hu

/-- A thread that is not in the `P` of the lock is not in its queue. -/
theorem LockInv.notMem (h : LockInv s) (ht : (s.pc t).atLock = false) : t ∉ s.sem.queue := by
  intro hm
  rw [h.queue t hm] at ht
  cases ht

/-- The lock is read from its semaphore, its holder and what the places of the
threads say about it. -/
theorem LockInv.frame (h : LockInv s) (hs : s'.sem = s.sem) (hh : s'.lockHolder = s.lockHolder)
    (hc : ∀ u, (s'.pc u).critical = (s.pc u).critical) (ho : ∀ u, (s'.pc u).owns = (s.pc u).owns)
    (hl : ∀ u, (s.pc u).atLock = true → (s'.pc u).atLock = true)
    (hb : ∀ u c W b, s'.pc u = .broadcasting c W b → b = true) :
    LockInv s' where
  value := by rw [hs]; exact h.value
  busy u hu := by rw [hs]; exact h.busy u (hc u ▸ hu)
  taken hv := by
    rw [hs] at hv
    obtain ⟨u, hu⟩ := h.taken hv
    exact ⟨u, (hc u).trans hu⟩
  excl u v hu hv := h.excl u v (hc u ▸ hu) (hc v ▸ hv)
  holder u hu := by rw [hh]; exact h.holder u (ho u ▸ hu)
  queue u hu := by
    rw [hs] at hu
    exact hl u (h.queue u hu)
  nodup := by rw [hs]; exact h.nodup
  held := hb

/-- The place of one thread changes and the lock does not see it. -/
theorem LockInv.setPc (h : LockInv s) (p : Pc) (hc : p.critical = (s.pc t).critical)
    (ho : p.owns = (s.pc t).owns) (hl : (s.pc t).atLock = true → p.atLock = true)
    (hb : ∀ c W b, p = .broadcasting c W b → b = true) : LockInv (s.setPc t p) := by
  refine h.frame rfl rfl (apply_update _ hc) (apply_update _ ho) (fun u hu => ?_)
    (held_update h.held hb)
  simp only [Monitor.setPc]
  by_cases hut : u = t
  · rw [hut, Function.update_self]
    exact hl (hut ▸ hu)
  · rw [Function.update_of_ne hut]
    exact hu

/-- A pass of the lock's `P` that succeeds: nobody was past it. -/
theorem LockInv.pass (h : LockInv s) (hv : s.sem.value ≠ 0) (p : Pc) (hc : p.critical = true)
    (ho : p.owns = false) (ht : t ∉ s.sem.queue)
    (hb : ∀ c W b, p = .broadcasting c W b → b = true) :
    LockInv ({ s with sem := { s.sem with value := s.sem.value - 1 } }.setPc t p) := by
  have hv1 : s.sem.value = 1 := h.value.resolve_left hv
  have hnone : ∀ u, (s.pc u).critical = false := fun u => by
    by_contra hu
    exact hv (h.busy u (Bool.not_eq_false _ ▸ hu))
  have hcrit : ∀ u, (Function.update s.pc t p u).critical = true → u = t := fun u hu => by
    by_contra hut
    rw [Function.update_of_ne hut, hnone u] at hu
    cases hu
  refine
    { value := Or.inl ?_
      busy := fun _ _ => ?_
      taken := fun _ => ⟨t, ?_⟩
      excl := fun u v hu hv => (hcrit u hu).trans (hcrit v hv).symm
      holder := fun u hu => ?_
      queue := fun u hu => ?_
      nodup := h.nodup
      held := held_update h.held hb }
  · simp only [Monitor.setPc]
    omega
  · simp only [Monitor.setPc]
    omega
  · simp only [Monitor.setPc, Function.update_self]
    exact hc
  · have hut := hcrit u (Pc.critical_of_owns hu)
    rw [hut] at hu
    simp only [Monitor.setPc, Function.update_self] at hu
    rw [ho] at hu
    cases hu
  · have hut : u ≠ t := fun he => ht (he ▸ hu)
    simp only [Monitor.setPc, Function.update_of_ne hut]
    exact h.queue u hu

/-- A pass that fails: the thread joins the queue. -/
theorem LockInv.asleep (h : LockInv s) (p : Pc) (hc : p.critical = (s.pc t).critical)
    (ho : p.owns = (s.pc t).owns) (hl : p.atLock = true) (ht : t ∉ s.sem.queue)
    (hb : ∀ c W b, p = .broadcasting c W b → b = true) :
    LockInv ({ s with sem := { s.sem with queue := s.sem.queue ++ [t] } }.setPc t p) := by
  have hcrit : ∀ u, (Function.update s.pc t p u).critical = (s.pc u).critical :=
    apply_update Pc.critical hc
  refine
    { value := h.value
      busy := fun u hu => h.busy u ((hcrit u).symm.trans hu)
      taken := fun hv => ?_
      excl := fun u v hu hv => h.excl u v ((hcrit u).symm.trans hu) ((hcrit v).symm.trans hv)
      holder := fun u hu => h.holder u ((apply_update Pc.owns ho u).symm.trans hu)
      queue := fun u hu => ?_
      nodup := h.nodup.append (List.nodup_singleton t) (List.disjoint_singleton.mpr ht)
      held := held_update h.held hb }
  · obtain ⟨u, hu⟩ := h.taken hv
    exact ⟨u, (hcrit u).trans hu⟩
  · by_cases hut : u = t
    · simp only [Monitor.setPc, hut, Function.update_self]
      exact hl
    · simp only [Monitor.setPc, Function.update_of_ne hut]
      rcases List.mem_append.mp hu with hu | hu
      · exact h.queue u hu
      · exact absurd (List.mem_singleton.mp hu) hut

theorem LockInv.setHolder (h : LockInv s) (hc : (s.pc t).critical = true)
    (hl : (s.pc t).atLock = false) :
    LockInv (s.setHolder t) := by
  have hcrit : ∀ u, ((s.setHolder t).pc u).critical = (s.pc u).critical :=
    apply_update Pc.critical hc.symm
  refine
    { value := h.value
      busy := fun u hu => h.busy u ((hcrit u).symm.trans hu)
      taken := fun _ => ⟨t, (hcrit t).trans hc⟩
      excl := fun u v hu hv => h.excl u v ((hcrit u).symm.trans hu) ((hcrit v).symm.trans hv)
      holder := fun u hu => ?_
      queue := fun u hu => ?_
      nodup := h.nodup
      held := held_update h.held fun c W b hp => by cases hp }
  · have hut : t = u := h.excl t u hc ((hcrit u).symm.trans (Pc.critical_of_owns hu))
    rw [← hut]
    rfl
  · have hut : u ≠ t := fun he => h.notMem hl (he ▸ hu)
    rw [show (s.setHolder t).pc u = s.pc u from Function.update_of_ne hut _ _]
    exact h.queue u hu

theorem LockInv.release (h : LockInv s) (ht : s.pc t = .inside) (next : Pc)
    (hc : next.critical = false) (hb : ∀ c W b, next = .broadcasting c W b → b = true) :
    LockInv (s.release t next) := by
  have hcrit : (s.pc t).critical = true := by rw [ht]; rfl
  have hnone : ∀ u, ((s.release t next).pc u).critical = false := fun u => by
    simp only [Monitor.release, Monitor.setPc]
    by_cases hu : u = t
    · rw [hu, Function.update_self, hc]
    · rw [Function.update_of_ne hu]
      by_contra hcu
      exact hu (h.excl u t (Bool.not_eq_false _ ▸ hcu) hcrit)
  have hno : ∀ u, ((s.release t next).pc u).critical ≠ true := fun u hu => by
    rw [hnone u] at hu
    cases hu
  have hv : (s.release t next).sem.value = 1 := by
    have := h.busy t hcrit
    simp only [Monitor.release, Monitor.setPc, Semaphore.v]
    omega
  refine
    { value := Or.inr hv
      busy := fun u hu => absurd hu (hno u)
      taken := fun h0 => by rw [hv] at h0; cases h0
      excl := fun u v hu => absurd hu (hno u)
      holder := fun u hu => absurd (Pc.critical_of_owns hu) (hno u)
      queue := fun u hu => ?_
      nodup := h.nodup.sublist (List.tail_sublist _)
      held := held_update h.held hb }
  have hmem : u ∈ s.sem.queue := List.mem_of_mem_tail hu
  have hut : u ≠ t := fun he => h.notMem (by rw [ht]; rfl) (he ▸ hmem)
  simp only [Monitor.release, Monitor.setPc, Function.update_of_ne hut]
  exact h.queue u hmem

/-! ### What a step does -/

/-- From `p` a thread makes a pass of the lock's `P`; it goes on at `passed` or
stays at `asleep`. -/
inductive Attempt : (p passed asleep : Pc) → Prop
  | out : Attempt .out .acquired .acquiring
  | acquiring : Attempt .acquiring .acquired .acquiring
  | inside : Attempt .inside .acquired .again
  | again : Attempt .again .acquired .again
  | reacquiring (c w : ℕ) : Attempt (.reacquiring c w) (.reacquired c w) (.reacquiring c w)

/-- What the attempt means for the lock, the condition and the discipline. -/
theorem Attempt.spec {p passed asleep : Pc} (h : Attempt p passed asleep) :
    (passed.critical = true ∧ passed.owns = false ∧ ∀ c W b, passed = .broadcasting c W b →
      b = true) ∧
      (asleep.critical = p.critical ∧ asleep.owns = p.owns ∧ asleep.atLock = true ∧
        ∀ c W b, asleep = .broadcasting c W b → b = true) ∧
      passed.cond = p.cond ∧ asleep.cond = p.cond := by
  cases h <;>
    exact ⟨⟨rfl, rfl, fun c W b he => by cases he⟩, ⟨rfl, rfl, rfl, fun c W b he => by cases he⟩,
      rfl, rfl⟩

/-- What a step of thread `t` does, in a run that keeps the discipline. -/
inductive Turn (s : Monitor) (t : Tid) : Monitor → Prop
  | attempt (passed asleep : Pc) (ha : Attempt (s.pc t) passed asleep)
      (hq : (s.pc t).atLock = true → t ∉ s.sem.queue) : Turn s t (s.lockP t passed asleep)
  | acquired (hpc : s.pc t = .acquired) : Turn s t (s.setHolder t)
  | reacquired (c w : ℕ) (hpc : s.pc t = .reacquired c w) :
      Turn s t { s.setHolder t with returned := s.returned ++ [w] }
  | release (hpc : s.pc t = .inside) : Turn s t (s.release t .out)
  | wait (c : ℕ) (hpc : s.pc t = .inside) : Turn s t (s.wait t c)
  | waiterP (c w : ℕ) (hpc : s.pc t = .waiting c w) (hq : t ∉ (s.waiter w).queue) :
      Turn s t (s.waiterP t c w)
  | signal (c : ℕ)
      (hpc : s.pc t = .inside ∨ s.waitQueue c ≠ [] ∧ ∃ W b, s.pc t = .broadcasting c W b) :
      Turn s t (s.signal t c)
  | broadcast (c : ℕ) (hpc : s.pc t = .inside) :
      Turn s t (s.setPc t (.broadcasting c (s.waitQueue c) true))
  | done (c : ℕ) (W : List ℕ) (b : Bool) (hpc : s.pc t = .broadcasting c W b)
      (hq : s.waitQueue c = []) :
      Turn s t (s.setPc t (place b))

/-- The thread of a label. -/
def Label.thread : Label → Tid
  | .acquire t => t
  | .release t => t
  | .wait t _ => t
  | .signal t _ => t
  | .broadcast t _ => t
  | .run t => t

theorem turn_run (hs : s.runStep t = some s') : Turn s t s' := by
  unfold runStep at hs
  cases hpc : s.pc t with
  | out | inside => rw [hpc] at hs; cases hs
  | acquiring =>
    simp only [hpc] at hs
    split_ifs at hs with hq
    cases hs
    exact Turn.attempt _ _ (hpc ▸ Attempt.acquiring) fun _ => hq
  | again =>
    simp only [hpc] at hs
    split_ifs at hs with hq
    cases hs
    exact Turn.attempt _ _ (hpc ▸ Attempt.again) fun _ => hq
  | acquired =>
    simp only [hpc] at hs
    cases hs
    exact Turn.acquired hpc
  | waiting c w =>
    simp only [hpc] at hs
    split_ifs at hs with hq
    cases hs
    exact Turn.waiterP c w hpc hq
  | reacquiring c w =>
    simp only [hpc] at hs
    split_ifs at hs with hq
    cases hs
    exact Turn.attempt _ _ (hpc ▸ Attempt.reacquiring c w) fun _ => hq
  | reacquired c w =>
    simp only [hpc] at hs
    cases hs
    exact Turn.reacquired c w hpc
  | broadcasting c W b =>
    simp only [hpc] at hs
    cases hs
    unfold broadcastNext
    split_ifs with hq
    · exact Turn.done c W b hpc hq
    · exact Turn.signal c (Or.inr ⟨hq, W, b, hpc⟩)

theorem step_cases (hd : Disciplined s l) (hs : s.step l = some s') : Turn s l.thread s' := by
  cases l with
  | acquire t =>
    simp only [step] at hs
    split_ifs at hs with h1 h2
    · cases hs
      exact Turn.attempt _ _ (h1 ▸ Attempt.out) fun h => by simp [Label.thread, h1, Pc.atLock] at h
    · cases hs
      exact Turn.attempt _ _ (h2 ▸ Attempt.inside) fun h => by
        simp [Label.thread, h2, Pc.atLock] at h
  | release t =>
    have hpc : s.pc t = .inside := hd
    rw [step, if_pos (Or.inr hpc), Option.some.injEq] at hs
    exact hs ▸ Turn.release hpc
  | wait t c =>
    have hpc : s.pc t = .inside := hd
    rw [step, if_pos (Or.inr hpc), Option.some.injEq] at hs
    exact hs ▸ Turn.wait c hpc
  | signal t c =>
    have hpc : s.pc t = .inside := hd
    rw [step, if_pos (Or.inr hpc), Option.some.injEq] at hs
    exact hs ▸ Turn.signal c (Or.inl hpc)
  | broadcast t c =>
    have hpc : s.pc t = .inside := hd
    rw [step, if_pos (Or.inr hpc), Option.some.injEq, hpc, decide_eq_true rfl] at hs
    exact hs ▸ Turn.broadcast c hpc
  | run t => exact turn_run hs

theorem LockInv.attempt_notMem (h : LockInv s) (hq : (s.pc t).atLock = true → t ∉ s.sem.queue) :
    t ∉ s.sem.queue := by
  by_cases hl : (s.pc t).atLock = true
  · exact hq hl
  · exact h.notMem (Bool.not_eq_true _ ▸ hl)

/-- What the lock reads stays as it is. -/
theorem LockInv.same (h : LockInv s) (hs : s'.sem = s.sem) (hh : s'.lockHolder = s.lockHolder)
    (hpc : s'.pc = s.pc) : LockInv s' :=
  h.frame hs hh (fun u => by rw [hpc]) (fun u => by rw [hpc]) (fun u hu => by rw [hpc]; exact hu)
    (hpc ▸ h.held)

theorem lockInv_turn (h : LockInv s) (ht : Turn s t s') : LockInv s' := by
  cases ht with
  | attempt passed asleep ha hq =>
    have hmem := h.attempt_notMem hq
    obtain ⟨⟨hp1, hp2, hp3⟩, ⟨ha1, ha2, ha3, ha4⟩, -⟩ := ha.spec
    unfold lockP Semaphore.pTest
    by_cases hv : s.sem.value = 0
    · simp only [hv, ↓reduceIte, Bool.false_eq_true]
      have := h.asleep asleep ha1 ha2 ha3 hmem ha4
      exact this.same (by simp [setPc, hv]) rfl rfl
    · simp only [hv, ↓reduceIte]
      exact h.pass hv passed hp1 hp2 hmem hp3
  | acquired hpc => exact h.setHolder (by rw [hpc]; rfl) (by rw [hpc]; rfl)
  | reacquired c w hpc =>
    have := h.setHolder (t := t) (by rw [hpc]; rfl) (by rw [hpc]; rfl)
    exact this.same rfl rfl rfl
  | release hpc => exact h.release hpc .out rfl fun c W b he => by cases he
  | wait c hpc =>
    have hnew : LockInv (s.newWaiter t c) := h.same rfl rfl rfl
    exact hnew.release hpc (.waiting c s.nwaiters) rfl fun c W b he => by cases he
  | waiterP c w hpc hq =>
    unfold waiterP
    split_ifs
    · have hw : LockInv (s.setWaiter w ((s.waiter w).pTest t).1) := h.same rfl rfl rfl
      refine hw.setPc _ ?_ ?_ (fun _ => rfl) fun c' W b he => by cases he
      · rw [show (s.setWaiter w ((s.waiter w).pTest t).1).pc t = _ from hpc]; rfl
      · rw [show (s.setWaiter w ((s.waiter w).pTest t).1).pc t = _ from hpc]; rfl
    · have hw : LockInv
          ((s.assert (t ∉ (s.waiter w).queue)).setWaiter w ((s.waiter w).pTest t).1) :=
        h.same rfl rfl rfl
      have hself : (Pc.waiting c w) =
          ((s.assert (t ∉ (s.waiter w).queue)).setWaiter w ((s.waiter w).pTest t).1).pc t :=
        hpc.symm
      refine hw.setPc _ (by rw [← hself]) (by rw [← hself]) (fun hl => by rw [hself]; exact hl)
        fun c' W b he => by cases he
  | signal c hpc =>
    unfold signal
    split
    · exact h.same rfl rfl rfl
    · exact h.same rfl rfl rfl
  | broadcast c hpc =>
    refine h.setPc _ (by rw [hpc]; rfl) (by rw [hpc]; rfl) (fun hl => by rw [hpc] at hl; cases hl)
      fun c' W b he => ?_
    cases he
    rfl
  | done c W b hpc hq =>
    have hb := h.held t c W b hpc
    subst hb
    refine h.setPc _ (by rw [hpc]; rfl) (by rw [hpc]; rfl) (fun hl => by rw [hpc] at hl; cases hl)
      fun c' W b he => ?_
    cases he

/-! ### The conditions -/

/-- A waiter in a queue belongs to a `Wait` at its `P`, with the value 0; one
that a signal has removed has the value 1 until that `P`. -/
structure CondInv (s : Monitor) : Prop where
  fifo : ∀ c, s.queued c = s.removed c ++ s.waitQueue c
  nodup : ∀ c, (s.queued c).Nodup
  bound : ∀ c, ∀ w ∈ s.queued c, w < s.nwaiters
  inQueue : ∀ c, ∀ w ∈ s.waitQueue c, (s.pc (s.owner w)).cond = .waiting c w ∧
    (s.waiter w).value = 0
  waiting : ∀ t c w, (s.pc t).cond = .waiting c w → s.owner w = t ∧ w ∈ s.queued c ∧
    (w ∈ s.removed c → (s.waiter w).value = 1 ∧ (s.waiter w).queue = [])
  resumed : ∀ t c w, (s.pc t).cond = .resumed c w → s.owner w = t ∧ w ∈ s.removed c
  sleeper : ∀ w, (s.waiter w).queue = [] ∨ (s.waiter w).queue = [s.owner w] ∧ ∃ c, w ∈ s.waitQueue c
  account : ∀ c, ∀ w ∈ s.removed c, (s.pc (s.owner w)).cond = .waiting c w ∨
    (s.pc (s.owner w)).cond = .resumed c w ∨ w ∈ s.returned
  returned : ∀ w ∈ s.returned, ∃ c, w ∈ s.removed c
  broadcasting : ∀ t c W, (s.pc t).cond = .broadcasting c W → s.waitQueue c <:+ W ∧
    ∀ w ∈ W, w ∈ s.queued c

theorem condInv_initial : CondInv initial where
  fifo _ := rfl
  nodup _ := List.nodup_nil
  bound _ _ h := absurd h List.not_mem_nil
  inQueue _ _ h := absurd h List.not_mem_nil
  waiting _ _ _ h := by cases h
  resumed _ _ _ h := by cases h
  sleeper _ := Or.inl rfl
  account _ _ h := absurd h List.not_mem_nil
  returned _ h := absurd h List.not_mem_nil
  broadcasting _ _ _ h := by cases h

/-- A waiter that was queued is still in the queue or has been removed, not both. -/
theorem CondInv.mem_queued (h : CondInv s) :
    w ∈ s.queued c ↔ w ∈ s.removed c ∨ w ∈ s.waitQueue c := by
  rw [h.fifo c, List.mem_append]

theorem CondInv.notMem_removed (h : CondInv s) (hw : w ∈ s.waitQueue c) : w ∉ s.removed c := by
  have hn := h.nodup c
  rw [h.fifo c] at hn
  exact fun hr => (List.nodup_append.mp hn).2.2 w hr w hw rfl

/-- The waiters, the queues and what the threads are doing with them stay. -/
theorem CondInv.frame (h : CondInv s) (hpc : ∀ u, (s'.pc u).cond = (s.pc u).cond)
    (hwq : s'.waitQueue = s.waitQueue) (hw : s'.waiter = s.waiter) (hn : s'.nwaiters = s.nwaiters)
    (ho : s'.owner = s.owner) (hq : s'.queued = s.queued) (hr : s'.removed = s.removed)
    (hret : s'.returned = s.returned) : CondInv s' where
  fifo c := by rw [hq, hr, hwq]; exact h.fifo c
  nodup c := by rw [hq]; exact h.nodup c
  bound c w hw := by rw [hq] at hw; rw [hn]; exact h.bound c w hw
  inQueue c w hm := by rw [hwq] at hm; rw [hpc, ho, hw]; exact h.inQueue c w hm
  waiting t c w hp := by rw [hpc] at hp; rw [ho, hq, hr, hw]; exact h.waiting t c w hp
  resumed t c w hp := by rw [hpc] at hp; rw [ho, hr]; exact h.resumed t c w hp
  sleeper w := by rw [hw, ho, hwq]; exact h.sleeper w
  account c w hm := by rw [hr] at hm; rw [hpc, ho, hret]; exact h.account c w hm
  returned w hm := by rw [hret] at hm; rw [hr]; exact h.returned w hm
  broadcasting t c W hp := by rw [hpc] at hp; rw [hwq, hq]; exact h.broadcasting t c W hp

/-- The place of `t` changes to another phase: who is in this one was there
before, and is not `t`. -/
theorem cond_of_update {pc : Tid → Pc} {p : Pc} {ph : Phase}
    (h : (Function.update pc t p u).cond = ph) (hp : p.cond ≠ ph) : u ≠ t ∧ (pc u).cond = ph := by
  have hu : u ≠ t := by
    rintro rfl
    rw [Function.update_self] at h
    exact hp h
  rw [Function.update_of_ne hu] at h
  exact ⟨hu, h⟩

/-- A waiter whose thread is in another phase than `t` is not that of `t`. -/
theorem cond_update_owner {p : Pc} {ph ph' : Phase} (hpc : (s.pc t).cond = ph)
    (hw : (s.pc (s.owner w)).cond = ph') (hne : ph' ≠ ph) :
    (Function.update s.pc t p (s.owner w)).cond = ph' := by
  have ho : s.owner w ≠ t := by
    intro he
    rw [he, hpc] at hw
    exact hne hw.symm
  rw [Function.update_of_ne ho, hw]

/-- A thread that is no `Wait` begins or ends a `Broadcast`. -/
theorem CondInv.setPc (h : CondInv s) {p : Pc}
    (hold : ∀ c w, (s.pc t).cond ≠ .waiting c w ∧ (s.pc t).cond ≠ .resumed c w)
    (hnew : p.cond = .idle ∨ ∃ c, p.cond = .broadcasting c (s.waitQueue c)) :
    CondInv (s.setPc t p) := by
  have hno : ∀ c w, p.cond ≠ .waiting c w ∧ p.cond ≠ .resumed c w := fun c w => by
    rcases hnew with hp | ⟨c, hp⟩ <;> rw [hp] <;> exact ⟨by simp, by simp⟩
  refine
    { fifo := h.fifo
      nodup := h.nodup
      bound := h.bound
      inQueue := fun c w hm => ?_
      waiting := fun u c w hu => h.waiting u c w (cond_of_update hu (hno c w).1).2
      resumed := fun u c w hu => h.resumed u c w (cond_of_update hu (hno c w).2).2
      sleeper := h.sleeper
      account := fun c w hm => ?_
      returned := h.returned
      broadcasting := fun u c W hu => ?_ }
  · obtain ⟨h1, h2⟩ := h.inQueue c w hm
    exact ⟨cond_update_owner rfl h1 (hold c w).1.symm, h2⟩
  · rcases h.account c w hm with hw | hw | hw
    · exact Or.inl (cond_update_owner rfl hw (hold c w).1.symm)
    · exact Or.inr (Or.inl (cond_update_owner rfl hw (hold c w).2.symm))
    · exact Or.inr (Or.inr hw)
  · by_cases hp : p.cond = .broadcasting c W
    · rcases hnew with hp' | ⟨c', hp'⟩
      · rw [hp'] at hp
        cases hp
      · rw [hp'] at hp
        cases hp
        exact ⟨List.suffix_rfl, fun w hw => h.mem_queued.mpr (Or.inr hw)⟩
    · exact h.broadcasting u c W (cond_of_update hu hp).2

/-- A `Wait` returns. -/
theorem CondInv.returns (h : CondInv s) (hpc : (s.pc t).cond = .resumed c w) :
    CondInv { s.setHolder t with returned := s.returned ++ [w] } := by
  obtain ⟨hown, hrem⟩ := h.resumed t c w hpc
  refine
    { fifo := h.fifo
      nodup := h.nodup
      bound := h.bound
      inQueue := fun c' w' hm => ?_
      waiting := fun u c' w' hu => h.waiting u c' w' (cond_of_update hu (by simp [Pc.cond])).2
      resumed := fun u c' w' hu => h.resumed u c' w' (cond_of_update hu (by simp [Pc.cond])).2
      sleeper := h.sleeper
      account := fun c' w' hm => ?_
      returned := fun w' hm => ?_
      broadcasting :=
        fun u c' W hu => h.broadcasting u c' W (cond_of_update hu (by simp [Pc.cond])).2 }
  · obtain ⟨h1, h2⟩ := h.inQueue c' w' hm
    exact ⟨cond_update_owner hpc h1 (by simp), h2⟩
  · by_cases hww : w' = w
    · exact Or.inr (Or.inr (by rw [hww]; simp))
    · rcases h.account c' w' hm with hw | hw | hw
      · exact Or.inl (cond_update_owner hpc hw (by simp))
      · exact Or.inr (Or.inl (cond_update_owner hpc hw (by simp [hww])))
      · exact Or.inr (Or.inr (List.mem_append_left _ hw))
  · rcases List.mem_append.mp hm with hm | hm
    · exact h.returned w' hm
    · rw [List.mem_singleton.mp hm]
      exact ⟨c, hrem⟩

@[simp] theorem wait_waitQueue (s : Monitor) (t : Tid) (c : ℕ) :
    (s.wait t c).waitQueue = Function.update s.waitQueue c (s.waitQueue c ++ [s.nwaiters]) := rfl

@[simp] theorem wait_queued (s : Monitor) (t : Tid) (c : ℕ) :
    (s.wait t c).queued = Function.update s.queued c (s.queued c ++ [s.nwaiters]) := rfl

@[simp] theorem wait_removed (s : Monitor) (t : Tid) (c : ℕ) : (s.wait t c).removed = s.removed :=
  rfl

/-- A new waiter at the end of a list. -/
theorem mem_update_append {f : ℕ → List ℕ} {c' n : ℕ} :
    w ∈ Function.update f c (f c ++ [n]) c' ↔ w ∈ f c' ∨ c' = c ∧ w = n := by
  by_cases hc : c' = c
  · subst hc
    simp
  · simp [hc]

/-- A `Wait` puts a new waiter at the end of the queue, while nobody is in
`Broadcast`. -/
theorem CondInv.wait (h : CondInv s) (hpc : (s.pc t).cond = .idle) (c : ℕ)
    (hno : ∀ u c W, (s.pc u).cond ≠ .broadcasting c W) : CondInv (s.wait t c) := by
  have hother : ∀ u, u ≠ t → (s.wait t c).pc u = s.pc u := fun u hu => Function.update_of_ne hu _ _
  have hself : ((s.wait t c).pc t).cond = .waiting c s.nwaiters := by
    simp [Monitor.wait, Monitor.release, Monitor.setPc, Pc.cond]
  have hown : ∀ w, w < s.nwaiters → (s.wait t c).owner w = s.owner w :=
    fun w hw => Function.update_of_ne hw.ne _ _
  have hownew : (s.wait t c).owner s.nwaiters = t := Function.update_self _ _ _
  have hsem : ∀ w, w < s.nwaiters → (s.wait t c).waiter w = s.waiter w :=
    fun w hw => Function.update_of_ne hw.ne _ _
  have hsemnew : (s.wait t c).waiter s.nwaiters = Semaphore.new 0 := Function.update_self _ _ _
  have hwq : ∀ c' w, w ∈ (s.wait t c).waitQueue c' ↔ w ∈ s.waitQueue c' ∨ c' = c ∧ w = s.nwaiters :=
    fun c' w => mem_update_append
  have hq : ∀ c' w, w ∈ (s.wait t c).queued c' ↔ w ∈ s.queued c' ∨ c' = c ∧ w = s.nwaiters :=
    fun c' w => mem_update_append
  have hlt : ∀ c' w, w ∈ s.waitQueue c' → w < s.nwaiters :=
    fun c' w hw => h.bound c' w (h.mem_queued.mpr (Or.inr hw))
  have hltr : ∀ c' w, w ∈ s.removed c' → w < s.nwaiters :=
    fun c' w hw => h.bound c' w (h.mem_queued.mpr (Or.inl hw))
  refine
    { fifo := fun c' => ?_
      nodup := fun c' => ?_
      bound := fun c' w hm => ?_
      inQueue := fun c' w hm => ?_
      waiting := fun u c' w hu => ?_
      resumed := fun u c' w hu => ?_
      sleeper := fun w => ?_
      account := fun c' w hm => ?_
      returned := h.returned
      broadcasting := fun u c' W hu => ?_ }
  · by_cases hc : c' = c
    · subst hc
      simp [h.fifo c']
    · simp [hc, h.fifo c']
  · rw [wait_queued]
    by_cases hc : c' = c
    · subst hc
      rw [Function.update_self]
      refine (h.nodup c').append (List.nodup_singleton _) (List.disjoint_singleton.mpr fun hm => ?_)
      exact (h.bound c' _ hm).ne rfl
    · rw [Function.update_of_ne hc]
      exact h.nodup c'
  · rcases (hq c' w).mp hm with hm | ⟨-, rfl⟩
    · exact (h.bound c' w hm).trans (Nat.lt_succ_self _)
    · exact Nat.lt_succ_self _
  · rcases (hwq c' w).mp hm with hm | ⟨rfl, rfl⟩
    · obtain ⟨h1, h2⟩ := h.inQueue c' w hm
      rw [hown w (hlt c' w hm), hsem w (hlt c' w hm)]
      exact ⟨cond_update_owner hpc h1 (by simp), h2⟩
    · rw [hownew, hself, hsemnew]
      exact ⟨rfl, rfl⟩
  · by_cases hut : u = t
    · rw [hut, hself] at hu
      cases hu
      refine ⟨by rw [hownew, hut], (hq c s.nwaiters).mpr (Or.inr ⟨rfl, rfl⟩), fun hr => ?_⟩
      exact absurd rfl (hltr c s.nwaiters hr).ne
    · rw [hother u hut] at hu
      obtain ⟨h1, h2, h3⟩ := h.waiting u c' w hu
      have hw := h.bound c' w h2
      rw [hown w hw, hsem w hw]
      exact ⟨h1, (hq c' w).mpr (Or.inl h2), h3⟩
  · obtain ⟨h1, h2⟩ := h.resumed u c' w (cond_of_update hu (by simp [Pc.cond])).2
    rw [hown w (hltr c' w h2)]
    exact ⟨h1, h2⟩
  · by_cases hw : w = s.nwaiters
    · rw [hw, hsemnew]
      exact Or.inl rfl
    · have hsw : (s.wait t c).waiter w = s.waiter w := Function.update_of_ne hw _ _
      have how : (s.wait t c).owner w = s.owner w := Function.update_of_ne hw _ _
      rw [hsw, how]
      rcases h.sleeper w with h1 | ⟨h1, c', h2⟩
      · exact Or.inl h1
      · exact Or.inr ⟨h1, c', (hwq c' w).mpr (Or.inl h2)⟩
  · have hw := hltr c' w hm
    rw [hown w hw]
    rcases h.account c' w hm with h1 | h1 | h1
    · exact Or.inl (cond_update_owner hpc h1 (by simp))
    · exact Or.inr (Or.inl (cond_update_owner hpc h1 (by simp)))
    · exact Or.inr (Or.inr h1)
  · exact absurd (cond_of_update hu (by simp [Pc.cond])).2 (hno u c' W)

/-- A waiter's `P` passes just when a signal has removed it. -/
theorem CondInv.passes_iff (h : CondInv s) (hpc : (s.pc t).cond = .waiting c w) :
    ((s.waiter w).pTest t).2 = true ↔ w ∈ s.removed c := by
  obtain ⟨-, hq, hr⟩ := h.waiting t c w hpc
  unfold Semaphore.pTest
  rcases h.mem_queued.mp hq with hw | hw
  · simp [(hr hw).1, hw]
  · simp [(h.inQueue c w hw).2, h.notMem_removed hw]

/-- A pass of a waiter's `P` that succeeds. -/
theorem CondInv.pass (h : CondInv s) (hpc : (s.pc t).cond = .waiting c w) (hw : w ∈ s.removed c) :
    CondInv ((s.setWaiter w ((s.waiter w).pTest t).1).setPc t (.reacquiring c w)) := by
  obtain ⟨hown, -, hval⟩ := h.waiting t c w hpc
  obtain ⟨hv, hqueue⟩ := hval hw
  set s1 := (s.setWaiter w ((s.waiter w).pTest t).1).setPc t (.reacquiring c w) with hs1
  have hother : ∀ u, u ≠ t → s1.pc u = s.pc u := fun u hu => Function.update_of_ne hu _ _
  have hself : (s1.pc t).cond = .resumed c w := by simp [hs1, Monitor.setPc, Pc.cond]
  have hsem : ∀ w', w' ≠ w → s1.waiter w' = s.waiter w' :=
    fun w' hw' => Function.update_of_ne hw' _ _
  have hqw : (s1.waiter w).queue = [] := by
    simp [hs1, Monitor.setPc, setWaiter, Semaphore.pTest, hv, hqueue]
  refine
    { fifo := h.fifo
      nodup := h.nodup
      bound := h.bound
      inQueue := fun c' w' hm => ?_
      waiting := fun u c' w' hu => ?_
      resumed := fun u c' w' hu => ?_
      sleeper := fun w' => ?_
      account := fun c' w' hm => ?_
      returned := h.returned
      broadcasting :=
        fun u c' W hu => h.broadcasting u c' W (cond_of_update hu (by simp [Pc.cond])).2 }
  · obtain ⟨h1, h2⟩ := h.inQueue c' w' hm
    have hww : w' ≠ w := fun he => by
      rw [he, hown, hpc] at h1
      cases h1
      exact h.notMem_removed hm (he ▸ hw)
    rw [hsem w' hww]
    exact ⟨cond_update_owner hpc h1 (by simp [hww]), h2⟩
  · obtain ⟨hut, hu⟩ := cond_of_update hu (by simp [Pc.cond])
    obtain ⟨h1, h2, h3⟩ := h.waiting u c' w' hu
    have hww : w' ≠ w := fun he => hut (by rw [← h1, he, hown])
    rw [hsem w' hww]
    exact ⟨h1, h2, h3⟩
  · by_cases hut : u = t
    · rw [hut, hself] at hu
      cases hu
      exact ⟨hown.trans hut.symm, hw⟩
    · rw [hother u hut] at hu
      exact h.resumed u c' w' hu
  · by_cases hww : w' = w
    · rw [hww]
      exact Or.inl hqw
    · rw [hsem w' hww]
      exact h.sleeper w'
  · rw [show s1.owner = s.owner from rfl]
    rcases h.account c' w' hm with h1 | h1 | h1
    · by_cases he : s.owner w' = t
      · rw [he, hpc] at h1
        cases h1
        rw [he]
        exact Or.inr (Or.inl hself)
      · rw [hother _ he]
        exact Or.inl h1
    · exact Or.inr (Or.inl (cond_update_owner hpc h1 (by simp)))
    · exact Or.inr (Or.inr h1)

/-- The waiter's semaphore changes while its `Wait` stays at the `P`. -/
theorem CondInv.setWaiter (h : CondInv s) (x : Semaphore) (hpc : s'.pc = s.pc)
    (hwq : s'.waitQueue = s.waitQueue) (hw : s'.waiter = Function.update s.waiter w x)
    (hn : s'.nwaiters = s.nwaiters) (ho : s'.owner = s.owner) (hq : s'.queued = s.queued)
    (hr : s'.removed = s.removed) (hret : s'.returned = s.returned)
    (hx : x.value = (s.waiter w).value) (hc : w ∈ s.waitQueue c)
    (hqueue : x.queue = [] ∨ x.queue = [s.owner w]) : CondInv s' := by
  have hval : ∀ w', (s'.waiter w').value = (s.waiter w').value := fun w' => by
    rw [hw]
    by_cases hww : w' = w
    · rw [hww, Function.update_self, hx]
    · rw [Function.update_of_ne hww]
  refine
    { fifo := fun c' => by rw [hq, hr, hwq]; exact h.fifo c'
      nodup := fun c' => by rw [hq]; exact h.nodup c'
      bound := fun c' w' hm => by rw [hq] at hm; rw [hn]; exact h.bound c' w' hm
      inQueue := fun c' w' hm => by rw [hwq] at hm; rw [hpc, ho, hval]; exact h.inQueue c' w' hm
      waiting := fun u c' w' hu => ?_
      resumed := fun u c' w' hu => by rw [hpc] at hu; rw [ho, hr]; exact h.resumed u c' w' hu
      sleeper := fun w' => ?_
      account := fun c' w' hm => by rw [hr] at hm; rw [hpc, ho, hret]; exact h.account c' w' hm
      returned := fun w' hm => by rw [hret] at hm; rw [hr]; exact h.returned w' hm
      broadcasting :=
        fun u c' W hu => by rw [hpc] at hu; rw [hwq, hq]; exact h.broadcasting u c' W hu }
  · rw [hpc] at hu
    obtain ⟨h1, h2, h3⟩ := h.waiting u c' w' hu
    rw [ho, hq, hr, hval]
    refine ⟨h1, h2, fun hm => ⟨(h3 hm).1, ?_⟩⟩
    by_cases hww : w' = w
    · have h4 := (h.inQueue c w hc).2
      rw [← hww, (h3 hm).1] at h4
      cases h4
    · rw [hw, Function.update_of_ne hww]
      exact (h3 hm).2
  · rw [hw, ho, hwq]
    by_cases hww : w' = w
    · rw [hww, Function.update_self]
      exact hqueue.imp_right fun h1 => ⟨h1, c, hc⟩
    · rw [Function.update_of_ne hww]
      exact h.sleeper w'

theorem CondInv.waiterP (h : CondInv s) (hpc : s.pc t = .waiting c w)
    (hq : t ∉ (s.waiter w).queue) :
    CondInv (s.waiterP t c w) := by
  have hcond : (s.pc t).cond = .waiting c w := by rw [hpc]; rfl
  unfold Monitor.waiterP
  by_cases hp : ((s.waiter w).pTest t).2 = true
  · rw [if_pos hp]
    exact h.pass hcond ((h.passes_iff hcond).mp hp)
  · rw [if_neg hp]
    obtain ⟨hown, hqd, -⟩ := h.waiting t c w hcond
    have hc : w ∈ s.waitQueue c :=
      (h.mem_queued.mp hqd).resolve_left fun hr => hp ((h.passes_iff hcond).mpr hr)
    have hempty : (s.waiter w).queue = [] := by
      rcases h.sleeper w with h1 | ⟨h1, -⟩
      · exact h1
      · rw [h1, hown] at hq
        exact absurd List.mem_cons_self hq
    have hv := (h.inQueue c w hc).2
    have hsame : (Function.update s.pc t (.waiting c w)) = s.pc := by
      rw [← hpc, Function.update_eq_self]
    refine h.setWaiter (w := w) ((s.waiter w).pTest t).1 hsame rfl rfl rfl rfl rfl rfl rfl ?_ hc
      (Or.inr ?_)
    · simp [Semaphore.pTest, hv]
    · simp [Semaphore.pTest, hv, hempty, hown]

/-- The first waiter taken out of its queue, which is the only one it is in. -/
theorem CondInv.mem_pop (h : CondInv s) {c c' w w' : ℕ} {ws : List ℕ}
    (hwq : s.waitQueue c = w :: ws) :
    w' ∈ Function.update s.waitQueue c ws c' ↔ w' ∈ s.waitQueue c' ∧ w' ≠ w := by
  by_cases hc : c' = c
  · subst hc
    have hnodup := h.nodup c'
    rw [h.fifo c', hwq] at hnodup
    have hws : w ∉ ws := (List.nodup_cons.mp (List.nodup_append.mp hnodup).2.1).1
    rw [Function.update_self, hwq, List.mem_cons, or_and_right]
    exact ⟨fun hm => Or.inr ⟨hm, fun he => hws (he ▸ hm)⟩,
      fun hm => (hm.resolve_left fun he => he.2 he.1).1⟩
  · rw [Function.update_of_ne hc]
    refine ⟨fun hm => ⟨hm, fun he => hc ?_⟩, And.left⟩
    -- a waiter waits for one condition
    have hfirst : w ∈ s.waitQueue c := by
      rw [hwq]
      exact List.mem_cons_self
    have h1 := (h.inQueue c' w' hm).1
    rw [he, (h.inQueue c w hfirst).1] at h1
    cases h1
    rfl

/-- A signal takes the first waiter out of the queue. -/
theorem CondInv.signal (h : CondInv s) (t : Tid) (c : ℕ) : CondInv (s.signal t c) := by
  unfold Monitor.signal
  cases hwq : s.waitQueue c with
  | nil => exact h.frame (fun _ => rfl) rfl rfl rfl rfl rfl rfl rfl
  | cons w ws =>
    have hmem : w ∈ s.waitQueue c := by rw [hwq]; exact List.mem_cons_self
    obtain ⟨hcond, hval⟩ := h.inQueue c w hmem
    have hwv : ((s.waiter w).v.1).value = 1 := by simp [Semaphore.v, hval]
    have hwq0 : ((s.waiter w).v.1).queue = [] := by
      rcases h.sleeper w with h1 | ⟨h1, -⟩ <;> simp [Semaphore.v, h1]
    have hrem : ∀ c' w', w' ∈ Function.update s.removed c (s.removed c ++ [w]) c' ↔
        w' ∈ s.removed c' ∨ c' = c ∧ w' = w := fun c' w' => mem_update_append
    refine
      { fifo := fun c' => ?_
        nodup := h.nodup
        bound := h.bound
        inQueue := fun c' w' hm => ?_
        waiting := fun u c' w' hu => ?_
        resumed := fun u c' w' hu => ?_
        sleeper := fun w' => ?_
        account := fun c' w' hm => ?_
        returned := fun w' hm => ?_
        broadcasting := fun u c' W hu => ?_ }
    · by_cases hc : c' = c
      · subst hc
        simp [h.fifo c', hwq, assert]
      · simp [hc, h.fifo c', assert]
    · obtain ⟨h1, h2⟩ := (h.mem_pop hwq).mp hm
      simp only [Function.update_of_ne h2]
      exact h.inQueue c' w' h1
    · obtain ⟨h1, h2, h3⟩ := h.waiting u c' w' hu
      refine ⟨h1, h2, fun hm => ?_⟩
      by_cases hww : w' = w
      · simp only [hww, Function.update_self]
        exact ⟨hwv, hwq0⟩
      · simp only [Function.update_of_ne hww]
        exact h3 (((hrem c' w').mp hm).resolve_right fun he => hww he.2)
    · obtain ⟨h1, h2⟩ := h.resumed u c' w' hu
      exact ⟨h1, (hrem c' w').mpr (Or.inl h2)⟩
    · by_cases hww : w' = w
      · simp only [hww, Function.update_self]
        exact Or.inl hwq0
      · simp only [Function.update_of_ne hww]
        rcases h.sleeper w' with h1 | ⟨h1, c', h2⟩
        · exact Or.inl h1
        · exact Or.inr ⟨h1, c', (h.mem_pop hwq).mpr ⟨h2, hww⟩⟩
    · rcases (hrem c' w').mp hm with hm | ⟨rfl, rfl⟩
      · exact h.account c' w' hm
      · exact Or.inl hcond
    · obtain ⟨c', hc'⟩ := h.returned w' hm
      exact ⟨c', (hrem c' w').mpr (Or.inl hc')⟩
    · obtain ⟨h1, h2⟩ := h.broadcasting u c' W hu
      refine ⟨?_, h2⟩
      by_cases hc : c' = c
      · subst hc
        simp only [Function.update_self]
        rw [hwq] at h1
        exact (List.suffix_cons w ws).trans h1
      · simp only [Function.update_of_ne hc]
        exact h1

/-- While a thread has the lock, no other is in `Broadcast`. -/
theorem LockInv.no_broadcast (h : LockInv s) (hpc : s.pc t = .inside) (u : Tid) (c : ℕ)
    (W : List ℕ) :
    (s.pc u).cond ≠ .broadcasting c W := by
  intro hu
  cases hp : s.pc u with
  | broadcasting c' W' b =>
    have hb := h.held u c' W' b hp
    have hut := h.excl u t (by rw [hp, hb]; rfl) (by rw [hpc]; rfl)
    rw [hut, hpc] at hp
    cases hp
  | out | acquiring | acquired | inside | again | waiting | reacquiring | reacquired =>
    rw [hp] at hu; cases hu

theorem lockP_cond {passed asleep : Pc} (h1 : passed.cond = (s.pc t).cond)
    (h2 : asleep.cond = (s.pc t).cond) (hc : CondInv s) : CondInv (s.lockP t passed asleep) := by
  unfold lockP
  split_ifs
  · exact hc.frame (apply_update Pc.cond h1) rfl rfl rfl rfl rfl rfl rfl
  · exact hc.frame (apply_update Pc.cond h2) rfl rfl rfl rfl rfl rfl rfl

theorem condInv_turn (h : LockInv s) (hc : CondInv s) (ht : Turn s t s') : CondInv s' := by
  cases ht with
  | attempt passed asleep ha hq =>
    obtain ⟨-, -, h1, h2⟩ := ha.spec
    exact lockP_cond h1 h2 hc
  | acquired hpc =>
    exact hc.frame (apply_update Pc.cond (by rw [hpc]; rfl)) rfl rfl rfl rfl rfl rfl rfl
  | reacquired c w hpc => exact hc.returns (c := c) (w := w) (by rw [hpc]; rfl)
  | release hpc =>
    have hsame : Pc.out.cond = (s.pc t).cond := by rw [hpc]; rfl
    exact hc.frame (apply_update Pc.cond hsame) rfl rfl rfl rfl rfl rfl rfl
  | wait c hpc => exact hc.wait (by rw [hpc]; rfl) c (h.no_broadcast hpc)
  | waiterP c w hpc hq => exact hc.waiterP hpc hq
  | signal c hpc => exact hc.signal t c
  | broadcast c hpc => exact hc.setPc (fun c' w => by rw [hpc]; simp [Pc.cond]) (Or.inr ⟨c, rfl⟩)
  | done c W b hpc hq =>
    refine hc.setPc (fun c' w => by rw [hpc]; simp [Pc.cond]) (Or.inl ?_)
    cases b <;> rfl

theorem lockP_pc (s : Monitor) (t : Tid) (passed asleep : Pc) :
    (s.lockP t passed asleep).pc t = passed ∨ (s.lockP t passed asleep).pc t = asleep := by
  unfold lockP
  split_ifs
  · exact Or.inl (Function.update_self _ _ _)
  · exact Or.inr (Function.update_self _ _ _)

/-- A thread that calls `Acquire` without the lock is in it or past it. -/
theorem lockP_entering (s : Monitor) (t : Tid) :
    (s.lockP t .acquired .acquiring).pc t = .acquiring ∨
    (s.lockP t .acquired .acquiring).pc t = .acquired ∨
      (s.lockP t .acquired .acquiring).pc t = .inside := by
  rcases lockP_pc s t .acquired .acquiring with h | h
  · exact Or.inr (Or.inl h)
  · exact Or.inl h

/-- It stays there until it has the lock. -/
theorem run_entering (h : s.pc t = .acquiring ∨ s.pc t = .acquired ∨ s.pc t = .inside)
    (hm : s.pc t ≠ .inside) (hs : s.runStep t = some s') :
    s'.pc t = .acquiring ∨ s'.pc t = .acquired ∨ s'.pc t = .inside := by
  rcases h with hp | hp | hp
  · simp only [runStep, hp] at hs
    split_ifs at hs
    cases hs
    exact lockP_entering s t
  · simp only [runStep, hp, Option.some.injEq] at hs
    rw [← hs]
    exact Or.inr (Or.inr (Function.update_self _ _ _))
  · exact absurd hp hm

theorem waiterP_pc (s : Monitor) (t : Tid) (c w : ℕ) :
    (s.waiterP t c w).pc t = .reacquiring c w ∨ (s.waiterP t c w).pc t = .waiting c w := by
  unfold waiterP
  split_ifs
  · exact Or.inl (Function.update_self _ _ _)
  · exact Or.inr (Function.update_self _ _ _)

/-- A step of one thread leaves the others where they are. -/
theorem turn_other (ht : Turn s t s') (hu : u ≠ t) : s'.pc u = s.pc u := by
  cases ht with
  | signal c =>
    unfold signal
    split <;> rfl
  | attempt =>
    unfold lockP
    split_ifs <;> exact Function.update_of_ne hu _ _
  | waiterP =>
    unfold waiterP
    split_ifs <;> exact Function.update_of_ne hu _ _
  | acquired | reacquired | release | wait | broadcast | done => exact Function.update_of_ne hu _ _

/-- No assertion fails. -/
theorem aborted_turn (h : LockInv s) (hc : CondInv s) (ht : Turn s t s') :
    s'.aborted = s.aborted := by
  have hnew : ∀ c, s.nwaiters ∉ s.waitQueue c := fun c hm =>
    absurd rfl (hc.bound c _ (hc.mem_queued.mpr (Or.inr hm))).ne
  cases ht with
  | attempt passed asleep ha hq =>
    have hmem := h.attempt_notMem hq
    unfold lockP
    split_ifs
    · rfl
    · simp [setPc, assert, hmem]
  | acquired | reacquired | broadcast | done => rfl
  | release hpc =>
    have hh := h.holder t (by rw [hpc]; rfl)
    simp [release, setPc, assert, hh]
  | wait c hpc =>
    have hh := h.holder t (by rw [hpc]; rfl)
    simp [Monitor.wait, newWaiter, release, setPc, assert, hh, hnew c]
  | waiterP c w hpc hq =>
    unfold waiterP
    split_ifs
    · rfl
    · simp [setPc, setWaiter, assert, hq]
  | signal c hpc =>
    have howns : (s.pc t).owns = true := by
      rcases hpc with hpc | ⟨-, W, b, hpc⟩
      · rw [hpc]; rfl
      · rw [hpc, h.held t c W b hpc]; rfl
    have hh := h.holder t howns
    unfold signal
    split <;> simp [assert, hh]

/-- Everything a run that keeps the discipline keeps. -/
structure Inv (s : Monitor) : Prop where
  lock : LockInv s
  cond : CondInv s
  aborted : s.aborted = false

theorem inv_turn (h : Inv s) (ht : Turn s t s') : Inv s' :=
  ⟨lockInv_turn h.lock ht, condInv_turn h.lock h.cond ht,
    (aborted_turn h.lock h.cond ht).trans h.aborted⟩

theorem inv_reach (hr : Reach s) : Inv s := by
  refine hr.inv Inv ?_ fun s l s' _ hI hd hs => inv_turn hI (step_cases hd hs)
  intro s hs
  rw [hs]
  exact ⟨lockInv_initial, condInv_initial, rfl⟩

/-! ### Mesa semantics -/

/-- What a signal that finds waiters does: it takes the first out of the queue,
whose `Wait` is then let through its `P`, and no other. -/
def Enables (s s' : Monitor) (c : ℕ) : Prop :=
  ∀ w ws, s.waitQueue c = w :: ws →
    s.pc (s.owner w) = .waiting c w ∧ s'.waitQueue = Function.update s.waitQueue c ws ∧
      s'.removed = Function.update s.removed c (s.removed c ++ [w]) ∧ (s'.waiter w).value = 1 ∧
      ∀ w', w' ≠ w → s'.waiter w' = s.waiter w'

/-- A monitor with Mesa semantics, in the state `s`. -/
structure Mesa (s : Monitor) : Prop where
  noAssert : s.aborted = false
  /-- one thread at most is between its `Acquire` and its `Release` -/
  exclusion : ∀ t u, (s.pc t).owns = true → (s.pc u).owns = true → t = u
  holder : ∀ t, (s.pc t).owns = true → s.lockHolder = some t
  /-- waiters leave the queue in the order they came -/
  fifo : ∀ c, s.queued c = s.removed c ++ s.waitQueue c ∧ (s.queued c).Nodup
  signal : ∀ t c s', s.pc t = .inside → s.step (.signal t c) = some s' → Enables s s' c
  /-- a waiter that was removed is let through, now or later, wherever its
  thread was at the signal -/
  notLost : ∀ t c w, s.pc t = .waiting c w → w ∈ s.removed c →
    ∃ s', s.step (.run t) = some s' ∧ s'.pc t = .reacquiring c w
  grows : ∀ l s', Disciplined s l → s.step l = some s' → ∀ c, s.removed c <+: s'.removed c
  removed : ∀ c, ∀ w ∈ s.removed c, s.pc (s.owner w) = .waiting c w ∨
    s.pc (s.owner w) = .reacquiring c w ∨
    s.pc (s.owner w) = .reacquired c w ∨ w ∈ s.returned
  /-- a waiter that was not removed is not let through -/
  blocked : ∀ t c w s', s.pc t = .waiting c w → w ∉ s.removed c → s.step (.run t) = some s' →
    s'.pc t = .waiting c w
  notSpurious : (∀ t c w, s.pc t = .reacquiring c w ∨ s.pc t = .reacquired c w → s.owner w = t ∧
    w ∈ s.removed c) ∧
    ∀ w ∈ s.returned, ∃ c, w ∈ s.removed c
  /-- a `Broadcast` that began with the queue `W` goes through it, and is done
  when all of `W` is removed -/
  broadcast : ∀ t c W b, s.pc t = .broadcasting c W b → s.waitQueue c <:+ W ∧
    (∀ w ∈ W, w ∈ s.removed c ∨ w ∈ s.waitQueue c) ∧
    ∃ s', s.step (.run t) = some s' ∧
      (s.waitQueue c ≠ [] → s'.pc t = s.pc t ∧ Enables s s' c) ∧
      (s.waitQueue c = [] → s'.pc t = .inside ∧ ∀ w ∈ W, w ∈ s'.removed c)

theorem Pc.cond_waiting {p : Pc} (h : p.cond = .waiting c w) : p = .waiting c w := by
  cases p <;> simp_all [Pc.cond]

theorem Pc.cond_resumed {p : Pc} (h : p.cond = .resumed c w) :
    p = .reacquiring c w ∨ p = .reacquired c w := by
  cases p <;> simp_all [Pc.cond]

theorem enables_signal (h : CondInv s) (t : Tid) (c : ℕ) : Enables s (s.signal t c) c := by
  intro w ws hwq
  have hmem : w ∈ s.waitQueue c := by rw [hwq]; exact List.mem_cons_self
  obtain ⟨hcond, hval⟩ := h.inQueue c w hmem
  refine ⟨Pc.cond_waiting hcond, ?_⟩
  unfold signal
  rw [hwq]
  refine ⟨rfl, rfl, ?_, fun w' hw' => Function.update_of_ne hw' _ _⟩
  simp [Semaphore.v, hval]

theorem signal_removed_prefix (s : Monitor) (t : Tid) (c c' : ℕ) :
    s.removed c' <+: (s.signal t c).removed c' := by
  unfold signal
  split
  · exact List.prefix_rfl
  · by_cases hc : c' = c
    · subst hc
      simp
    · simp [hc]

/-- Who was removed from a queue stays so. -/
theorem removed_prefix (ht : Turn s t s') (c : ℕ) : s.removed c <+: s'.removed c := by
  cases ht with
  | signal c' => exact signal_removed_prefix s t c' c
  | attempt =>
    unfold lockP
    split_ifs <;> exact List.prefix_rfl
  | waiterP =>
    unfold waiterP
    split_ifs <;> exact List.prefix_rfl
  | acquired | reacquired | release | wait | broadcast | done => exact List.prefix_rfl

theorem mesa (h : Inv s) : Mesa s := by
  have hL := h.lock
  have hC := h.cond
  refine
    { noAssert := h.aborted
      exclusion := fun t u ht hu => hL.excl t u (Pc.critical_of_owns ht) (Pc.critical_of_owns hu)
      holder := hL.holder
      fifo := fun c => ⟨hC.fifo c, hC.nodup c⟩
      signal := fun t c s' hpc hs => ?_
      notLost := fun t c w hpc hw => ?_
      grows := fun l s' hd hs => removed_prefix (step_cases hd hs)
      removed := fun c w hw => ?_
      blocked := fun t c w s' hpc hw hs => ?_
      notSpurious := ⟨fun t c w hpc => ?_, hC.returned⟩
      broadcast := fun t c W b hpc => ?_ }
  · rw [step, if_pos (Or.inr hpc), Option.some.injEq] at hs
    rw [← hs]
    exact enables_signal hC t c
  · have hcond : (s.pc t).cond = .waiting c w := by rw [hpc]; rfl
    obtain ⟨-, -, hval⟩ := hC.waiting t c w hcond
    have hq : t ∉ (s.waiter w).queue := by rw [(hval hw).2]; exact List.not_mem_nil
    refine ⟨s.waiterP t c w, ?_, ?_⟩
    · simp only [step, runStep, hpc, if_neg hq]
    · rw [waiterP, if_pos ((hC.passes_iff hcond).mpr hw)]
      exact Function.update_self _ _ _
  · rcases hC.account c w hw with h1 | h1 | h1
    · exact Or.inl (Pc.cond_waiting h1)
    · rcases Pc.cond_resumed h1 with h2 | h2
      · exact Or.inr (Or.inl h2)
      · exact Or.inr (Or.inr (Or.inl h2))
    · exact Or.inr (Or.inr (Or.inr h1))
  · have hcond : (s.pc t).cond = .waiting c w := by rw [hpc]; rfl
    simp only [step, runStep, hpc] at hs
    split_ifs at hs
    cases hs
    rw [waiterP, if_neg fun hp => hw ((hC.passes_iff hcond).mp hp)]
    exact Function.update_self _ _ _
  · have hcond : (s.pc t).cond = .resumed c w := by
      rcases hpc with hpc | hpc <;> rw [hpc] <;> rfl
    exact hC.resumed t c w hcond
  · have hcond : (s.pc t).cond = .broadcasting c W := by rw [hpc]; rfl
    obtain ⟨hsuf, hall⟩ := hC.broadcasting t c W hcond
    have hb := hL.held t c W b hpc
    have hmem : ∀ w ∈ W, w ∈ s.removed c ∨ w ∈ s.waitQueue c :=
      fun w hw => hC.mem_queued.mp (hall w hw)
    refine ⟨hsuf, hmem, s.broadcastNext t c b, by simp only [step, runStep, hpc], fun hne => ?_,
      fun he => ?_⟩
    · rw [broadcastNext, if_neg hne]
      refine ⟨?_, enables_signal hC t c⟩
      unfold signal
      split <;> rfl
    · rw [broadcastNext, if_pos he, hb]
      refine ⟨Function.update_self _ _ _, fun w hw => ?_⟩
      refine (hmem w hw).resolve_right ?_
      rw [he]
      exact List.not_mem_nil

/-- **A Mesa monitor.** In every run of any number of threads in which each
releases, waits and signals only while it holds the lock, every state is one
of a monitor with Mesa semantics; and a `Broadcast` begins with the queue as it
is at that moment. -/
theorem monitor_correct {s : Monitor} (hr : Reach s) :
    Mesa s ∧ ∀ t c, s.pc t = .inside → ∃ s', s.step (.broadcast t c) = some s' ∧
      s'.pc t = .broadcasting c (s.waitQueue c) true := by
  refine ⟨mesa (inv_reach hr), fun t c hpc => ⟨_, if_pos (Or.inr hpc), ?_⟩⟩
  rw [hpc]
  exact Function.update_self _ _ _

/-- Thread 1 waits; thread 2 signals after thread 1's `Release` and before its
`P`; thread 1 returns, and thread 3, which waits then, is not let through. -/
theorem monitor_correct_signal :
    ∃ s, Reach s ∧ s.returned = [0] ∧ s.waitQueue 7 = [1] ∧ s.lockHolder = some 1 ∧
    Mesa s := by
  obtain ⟨s, hs, ht⟩ := Runs.Reach.of_exec step (· = initial) rfl
    [.acquire 1, .run 1, .wait 1 7, .acquire 2, .run 2, .signal 2 7, .release 2, .acquire 3,
      .run 3, .wait 3 7, .run 1, .run 3, .run 1, .run 1]
    (Runs.Along.of_along (c := fun s l => Disciplined s l) (fun _ _ h => of_decide_eq_true h) _ _
      (by decide))
    (fun s => s.returned = [0] ∧ s.waitQueue 7 = [1] ∧ s.lockHolder = some 1) (by decide)
  simp only [decide_eq_true_eq] at ht
  exact ⟨s, hs, ht.1, ht.2.1, ht.2.2, (monitor_correct hs).1⟩

end Monitor
end Nachos
