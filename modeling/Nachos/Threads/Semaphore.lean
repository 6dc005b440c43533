/-
# Semaphores (`threads/synch.cc`)

`Semaphore::P` and `Semaphore::V` run with interrupts off, so each pass of
`P`'s loop and each `V` is one atomic step: a thread that finds the value 0
appends itself to the queue and sleeps, and when it is scheduled again it
goes round the loop; `V` moves the front of the queue to the ready list and
increments. `Sem` is the system of one semaphore and any number of threads,
with the counts of the calls as history.

* `Sem.conservation`: while no `V` is made at the greatest `int`, the value is
  the initial value plus the `V`s less the completed `P`s and never negative, no
  thread is queued twice, and while a thread is queued the value is at most the
  number of threads `V` has woken that have not yet gone round the loop. A
  newcomer may take the unit a `V` brought before the woken thread does, but
  both counts drop together. A `V` at the greatest `int` makes the value
  negative (`Sem.conservation_overflow`).

`pTest` and `v` count in integers, and `Semaphore.int` makes the value the `int`
that it is. A lock's semaphore is only ever 0 or 1, where the two agree
(`Semaphore.int_pTest`, `Semaphore.int_v`).

Key definitions: `Semaphore.pTest`, `Semaphore.v`, `Semaphore.int`, `Sem.step`,
`Sem.Conserved`.
Key theorems: `Sem.inv_step`, `Sem.conservation`.
-/
import Mathlib
import Nachos.Base.Int32
import Nachos.Base.Runs

namespace Nachos

/-- A thread, by the order of its creation. -/
abbrev Tid := ℕ

/-- `class Semaphore`: `value` and the threads waiting in `P`. -/
structure Semaphore where
  value : ℤ
  queue : List Tid
  deriving DecidableEq

namespace Semaphore

/-- `Semaphore::Semaphore(debugName, initialValue)`. -/
def new (initialValue : ℤ) : Semaphore := ⟨initialValue, []⟩

/-- One pass of `P`'s loop by thread `t`: `while (value == 0)` appends `t` to
the queue (it then sleeps); otherwise `value--` and `P` returns (`true`). -/
def pTest (s : Semaphore) (t : Tid) : Semaphore × Bool :=
  if s.value = 0 then ({ s with queue := s.queue ++ [t] }, false)
  else ({ s with value := s.value - 1 }, true)

/-- `V`: the front of the queue, if any, goes to the ready list, `value++`. -/
def v (s : Semaphore) : Semaphore × Option Tid :=
  ({ value := s.value + 1, queue := s.queue.tail }, s.queue.head?)

/-- `value` is an `int`: `value--` and `value++` wrap at the ends of its range. -/
def int (s : Semaphore) : Semaphore := { s with value := wrap32 s.value }

@[simp] theorem int_queue (s : Semaphore) : s.int.queue = s.queue := rfl

variable {s : Semaphore}

theorem int_of_range (h0 : -2 ^ 31 ≤ s.value) (h1 : s.value < 2 ^ 31) : s.int = s := by
  unfold int
  rw [wrap32_of_range h0 h1]

/-- A pass of `P` on a value that is not negative does not wrap. -/
theorem int_pTest (t : Tid) (h0 : 0 ≤ s.value) (h1 : s.value < 2 ^ 31) :
    (s.pTest t).1.int = (s.pTest t).1 := by
  refine int_of_range ?_ ?_ <;> unfold pTest <;> split_ifs <;> simp only <;> omega

/-- Nor does a `V` below the greatest `int`. -/
theorem int_v (h0 : 0 ≤ s.value) (h1 : s.value < 2 ^ 31 - 1) : s.v.1.int = s.v.1 := by
  refine int_of_range ?_ ?_ <;> simp only [v] <;> omega

/-- A `V` at the greatest `int`. -/
theorem int_v_greatest (h : s.value = 2 ^ 31 - 1) : s.v.1.int.value = -2 ^ 31 := by
  have hv : s.v.1.value = 2 ^ 31 := by
    simp only [v]
    omega
  unfold int
  rw [hv, wrap32_of_ge le_rfl (by norm_num)]
  norm_num

end Semaphore

/-- One semaphore and the threads that use it. -/
structure Sem where
  sem : Semaphore
  /-- the threads `V` has moved to the ready list, not yet back in the loop -/
  woken : List Tid
  /-- the calls of `V` -/
  nV : ℕ
  /-- the calls of `P` that have returned -/
  nP : ℕ

namespace Sem

/-- The steps of a schedule. -/
inductive Label
  | p (t : Tid)
  | recheck (t : Tid)
  | v

/-- A pass of the loop: `P` returns, or the thread is queued. -/
def pass (s : Sem) (t : Tid) : Sem :=
  { s with sem := (s.sem.pTest t).1.int, nP := s.nP + if (s.sem.pTest t).2 then 1 else 0 }

/-- A thread that sleeps in the queue or on its way back from it runs no code
of its own, so only another enters `P`. -/
def step (s : Sem) : Label → Option Sem
  | .p t => if t ∈ s.sem.queue ∨ t ∈ s.woken then none else some (s.pass t)
  | .recheck t => if t ∈ s.woken then some (pass { s with woken := s.woken.erase t } t) else none
  | .v =>
    some { sem := s.sem.v.1.int, woken := s.woken ++ s.sem.v.2.toList, nV := s.nV + 1, nP := s.nP }

/-- A semaphore just created. -/
def initial (initialValue : ℤ) : Sem := ⟨Semaphore.new initialValue, [], 0, 0⟩

/-- The states of the schedules of a semaphore created with `v0`. -/
abbrev Reach (v0 : ℤ) : Sem → Prop := Runs.Reach step (· = initial v0) Runs.anyStep

/-- No `V` is made at the greatest `int`. -/
def Allowed (s : Sem) : Label → Prop
  | .p _ => True
  | .recheck _ => True
  | .v => s.sem.value ≠ 2 ^ 31 - 1

instance (s : Sem) : (l : Label) → Decidable (Allowed s l)
  | .p _ => inferInstanceAs (Decidable True)
  | .recheck _ => inferInstanceAs (Decidable True)
  | .v => inferInstanceAs (Decidable (s.sem.value ≠ 2 ^ 31 - 1))

/-- Every unit is accounted for and no wakeup is lost: a thread is queued on a
positive value only while a woken one is on its way. -/
structure Conserved (initialValue : ℤ) (s : Sem) : Prop where
  count : s.sem.value = initialValue + s.nV - s.nP
  nonneg : 0 ≤ s.sem.value
  queueNodup : s.sem.queue.Nodup
  wokenNodup : s.woken.Nodup
  woken : s.sem.queue ≠ [] → s.sem.value ≤ s.woken.length
  onItsWay : s.sem.queue ≠ [] → 0 < s.sem.value → s.woken ≠ []

/-- What every interleaving keeps. -/
structure Inv (initialValue : ℤ) (s : Sem) : Prop where
  count : s.sem.value = initialValue + s.nV - s.nP
  nonneg : 0 ≤ s.sem.value
  fits : s.sem.value < 2 ^ 31
  nodup : (s.sem.queue ++ s.woken).Nodup
  woken : s.sem.queue ≠ [] → s.sem.value ≤ s.woken.length

variable {v0 : ℤ} {s s' : Sem}

theorem Inv.conserved (hI : Inv v0 s) : Conserved v0 s := by
  have hn := List.nodup_append.mp hI.nodup
  refine ⟨hI.count, hI.nonneg, hn.1, hn.2.1, hI.woken, fun hq hv hw => ?_⟩
  have := hI.woken hq
  rw [hw] at this
  simp at this
  omega

theorem inv_initial (h0 : 0 ≤ v0) (h1 : v0 < 2 ^ 31) : Inv v0 (initial v0) := by
  refine ⟨?_, h0, h1, ?_, ?_⟩ <;> simp [initial, Semaphore.new]

/-- A pass of the loop by a thread that is in neither list. `slack` is the
place the thread leaves in `woken` when it comes from there. -/
theorem inv_pass {t : Tid} (slack : ℕ) (hc : s.sem.value = v0 + s.nV - s.nP) (h0 : 0 ≤ s.sem.value)
    (h1 : s.sem.value < 2 ^ 31) (hn : (s.sem.queue ++ s.woken).Nodup)
    (ht : t ∉ s.sem.queue ++ s.woken) (hw : s.sem.queue ≠ [] → s.sem.value ≤ s.woken.length + slack)
    (hslack : slack ≤ 1) :
    Inv v0 (s.pass t) := by
  unfold pass
  rw [Semaphore.int_pTest t h0 h1]
  unfold Semaphore.pTest
  by_cases hv : s.sem.value = 0
  · -- to sleep: the value is 0, below any count
    rw [if_pos hv]
    refine ⟨?_, ?_, h1, ?_, fun _ => ?_⟩
    · simpa using hc
    · simpa using h0
    · simp only [List.append_assoc, List.singleton_append]
      exact List.nodup_middle.mpr (List.nodup_cons.mpr ⟨ht, hn⟩)
    · simp [hv]
  · -- `P` returns: the value drops by one
    rw [if_neg hv]
    refine ⟨?_, ?_, ?_, hn, fun hq => ?_⟩
    · simp only [↓reduceIte]; push_cast; omega
    · simp only; omega
    · simp only; omega
    · have := hw hq
      simp only; omega

theorem inv_v (h : Inv v0 s) (hmax : s.sem.value ≠ 2 ^ 31 - 1) :
    Inv v0 { sem := s.sem.v.1.int, woken := s.woken ++ s.sem.v.2.toList,
             nV := s.nV + 1, nP := s.nP } := by
  obtain ⟨hc, h0, h1, hn, hw⟩ := h
  rw [Semaphore.int_v h0 (by omega)]
  unfold Semaphore.v
  cases hq : s.sem.queue with
  | nil =>
    refine ⟨?_, ?_, ?_, ?_, fun h => by simp at h⟩
    · simp only; push_cast; omega
    · simp only; omega
    · simp only; omega
    · simpa [hq] using hn
  | cons t q =>
    rw [hq] at hn hw
    have := hw (by simp)
    refine ⟨?_, ?_, ?_, ?_, fun _ => ?_⟩
    · simp only; push_cast; omega
    · simp only; omega
    · simp only; omega
    · simp only [List.tail_cons, List.head?_cons, Option.toList_some]
      have hp : (t :: q ++ s.woken).Perm (q ++ (s.woken ++ [t])) := by
        rw [← List.append_assoc]
        exact (List.perm_append_singleton t (q ++ s.woken)).symm
      exact hp.nodup_iff.mp hn
    · simp only [List.head?_cons, Option.toList_some, List.length_append, List.length_singleton]
      push_cast; omega

theorem inv_step (h : Inv v0 s) (l : Label) (hl : Allowed s l) (hs : s.step l = some s') :
    Inv v0 s' := by
  cases l with
  | p t =>
    simp only [step] at hs
    split at hs
    · cases hs
    · rename_i ht
      cases hs
      have hout : t ∉ s.sem.queue ++ s.woken := by simpa using ht
      exact inv_pass 0 h.count h.nonneg h.fits h.nodup hout (by simpa using h.woken) (by omega)
  | recheck t =>
    simp only [step] at hs
    split at hs
    · rename_i ht
      cases hs
      have hp : (s.sem.queue ++ s.woken).Perm (t :: (s.sem.queue ++ s.woken.erase t)) :=
        ((List.perm_cons_erase ht).append_left _).trans List.perm_middle
      obtain ⟨hout, hnd⟩ := List.nodup_cons.mp (hp.nodup_iff.mp h.nodup)
      have hlen := List.length_erase_add_one ht
      refine inv_pass 1 h.count h.nonneg h.fits hnd hout (fun hq => ?_) le_rfl
      have := h.woken hq
      simp only; omega
    · cases hs
  | v =>
    simp only [step] at hs
    cases hs
    exact inv_v h hl

theorem inv_reach (h0 : 0 ≤ v0) (h1 : v0 < 2 ^ 31)
    (h : Runs.Reach step (· = initial v0) Allowed s) : Inv v0 s := by
  refine h.inv (Inv v0) ?_ fun _ l _ _ hI hl hs => inv_step hI l hl hs
  rintro _ rfl
  exact inv_initial h0 h1

/-- **Conservation and no lost wakeup.** In every schedule of a semaphore
created with an `int` `v0 ≥ 0` in which no `V` is made at the greatest `int`,
the counts agree and no thread waits without need; and the next `V` keeps this
exactly if it is not made there. -/
theorem conservation {v0 : ℤ} (h0 : 0 ≤ v0) (h1 : v0 < 2 ^ 31) {s : Sem}
    (h : Runs.Reach step (· = initial v0) Allowed s) :
    Conserved v0 s ∧ ∀ s', s.step .v = some s' → (Conserved v0 s' ↔ s.sem.value ≠ 2 ^ 31 - 1) := by
  have hI := inv_reach h0 h1 h
  refine ⟨hI.conserved, fun s' hs =>
    ⟨fun hc hmax => ?_, fun hmax => (inv_step hI .v hmax hs).conserved⟩⟩
  have hneg := hc.nonneg
  cases hs
  simp only [Semaphore.int_v_greatest hmax] at hneg
  omega

/-- Thread 1 sleeps, is woken, thread 2 takes the unit, thread 1 queues again. -/
theorem conservation_overtaken :
    ∃ s, Runs.Reach step (· = initial 0) Allowed s ∧ s.sem.queue = [1] ∧ s.nV = 1 ∧
    s.nP = 1 ∧ Conserved 0 s ∧ ∃ s', s.step .v = some s' ∧ Conserved 0 s' := by
  obtain ⟨s, hs, ht⟩ := Runs.Reach.of_exec step (· = initial 0) rfl [.p 1, .v, .p 2, .recheck 1]
    (Runs.Along.of_along (c := fun s l => Allowed s l) (fun _ _ h => of_decide_eq_true h) _ _
      (by decide))
    (fun s => s.sem.queue = [1] ∧ s.nV = 1 ∧ s.nP = 1 ∧ s.sem.value = 0) (by decide)
  simp only [decide_eq_true_eq] at ht
  obtain ⟨hqueue, hV, hP, hvalue⟩ := ht
  obtain ⟨hconserved, hnext⟩ := conservation le_rfl (by norm_num) hs
  exact ⟨s, hs, hqueue, hV, hP, hconserved, _, rfl, (hnext _ rfl).mpr (by rw [hvalue]; norm_num)⟩

/-- A `V` on a semaphore created with the greatest `int`. -/
theorem conservation_overflow : ¬ ∀ s, Reach (2 ^ 31 - 1) s → Conserved (2 ^ 31 - 1) s := by
  intro h
  obtain ⟨s, hs, ht⟩ :=
    Runs.Reach.of_exec step (· = initial (2 ^ 31 - 1)) rfl [.v] (Runs.along_any _ _)
    (fun s => s.sem.value = -2 ^ 31) (by decide)
  have hneg := (h s hs).nonneg
  rw [of_decide_eq_true ht] at hneg
  exact absurd hneg (by norm_num)

end Sem
end Nachos
