/-
# Time slicing (`machine/timer.cc`, `threads/alarm.cc`)

The timer interrupts every `TimerTicks` ticks, or after a random delay of up
to twice as many, and schedules its next interrupt from the handler of the
last. The handler is the alarm's: unless the machine idles it asks for a
`Yield`, which `OneTick` makes when all handlers have returned. Here the clock
and the pending interrupts of `Interrupt` drive the processor and the ready list
of `Cpu`: threads run between ticks, in any order and for any number of
operations, and other devices interrupt at any time with handlers of their own.

The clock moves by at most `SystemTick` at a time, so the timer's interrupt is
delivered soon after it is due, and each delivery moves the ready list by one
thread. The time by which the timer interrupts and the threads ahead on the
list make a measure that no step raises (`deadline_step`).

* `ready_thread_runs`: a thread that is ready runs within a time that depends
  on its place on the ready list only, whatever the other threads do.

`totalTicks` and `when` are `int`s and `Interrupt` counts in integers, so the
runs are those whose clock and due times stay below `2 ^ 31` (`Ints`). Every
sum of such a run is exact (`ints_of_step`); a clock that wraps leaves the
timer's interrupt behind.

Key definitions: `Timer`, `TimeSlice.oneTick`, `TimeSlice.idle`, `TimeSlice.step`,
`TimeSlice.Allowed`, `TimeSlice.Inv`.
Key theorems: `TimeSlice.ints_of_step`, `TimeSlice.drain_timer`, `TimeSlice.inv_reach`,
`TimeSlice.ready_thread_runs`.
-/
import Mathlib
import Nachos.Base.Runs
import Nachos.Machine.Interrupt
import Nachos.Threads.Dispatch

namespace Nachos

open Interrupt (HandlerCall Handlers)

/-- `TimerTicks` of `machine/stats.h`. -/
def timerTicks : ℕ := 100

/-- `class Timer`. -/
structure Timer where
  randomize : Bool
  disable : Bool

/-- The threads, the interrupts, and the timer of the alarm. -/
structure TimeSlice where
  cpu : Cpu
  interrupt : Interrupt
  timer : Timer

namespace TimeSlice

/-! ### The code -/

/-- The number by which an interrupt knows the timer. -/
def timerObject : ℕ := 0

/-- `Timer::SetInterrupt`, with the `RandomNumber()` that it may draw. -/
def setInterrupt (t : Timer) (random : ℕ) : List HandlerCall :=
  if t.disable then []
  else [.schedule timerObject
    (if t.randomize then 1 + random % (timerTicks * 2) else timerTicks : ℕ) .timerInt]

/-- `Alarm::CallBack`. -/
def alarmCallBack (status : MachineStatus) : List HandlerCall :=
  if status ≠ .idleMode then [.yieldOnReturn] else []

/-- `Timer::CallBack`. -/
def timerCallBack (t : Timer) (status : MachineStatus) (random : ℕ) : List HandlerCall :=
  alarmCallBack status ++ setInterrupt t random

/-- The handlers: the timer's, and those of the other devices. -/
def handlers (t : Timer) (status : MachineStatus) (random : ℕ) (others : Handlers) :
    Handlers := fun p =>
  if p.callOnInterrupt = timerObject then timerCallBack t status random else others p

/-- `Interrupt::OneTick`. Handlers that are called have made the `V`s `xs`. -/
def oneTick (s : TimeSlice) (random : ℕ) (others : Handlers) (xs : List ℕ) : Option TimeSlice :=
  let h := handlers s.timer s.interrupt.status random others
  (Interrupt.checkIfDue h false { s.interrupt with
      stats := Interrupt.advance s.interrupt.status s.interrupt.stats, level := .off }).map fun r =>
    let cpu := if r.2 then xs.foldl Cpu.v s.cpu else s.cpu
    if r.1.yieldOnReturn then
      { s with
        interrupt := { r.1 with level := .on, yieldOnReturn := false, status := .systemMode },
        cpu := cpu.yield }
    else { s with interrupt := { r.1 with level := .on }, cpu := cpu }

/-- A pass of the loop of `Sleep`: `Interrupt::Idle`, and the next thread if
one is ready. -/
def idle (s : TimeSlice) (random : ℕ) (others : Handlers) (xs : List ℕ) : Option TimeSlice :=
  (s.interrupt.idle (handlers s.timer .idleMode random others)).bind fun i =>
    (s.cpu.step (.idle xs)).map fun c => { s with interrupt := i, cpu := c }

/-- The steps. A tick is that of a user instruction or of a `SetLevel` which
enables interrupts, in a thread; `schedule` starts another device; `setStatus`
is the kernel's own. -/
inductive Label
  | thread (l : Cpu.Label)
  | tick (random : ℕ) (others : Handlers) (xs : List ℕ)
  | idle (random : ℕ) (others : Handlers) (xs : List ℕ)
  | schedule (toCall : ℕ) (fromNow : ℤ) (type : IntType)
  | setStatus (status : MachineStatus)

def step (s : TimeSlice) : Label → Option TimeSlice
  | .thread (.idle _) => none
  | .thread l => (s.cpu.step l).map fun c => { s with cpu := c }
  | .tick random others xs => if s.cpu.mode = .user then s.oneTick random others xs else none
  | .idle random others xs => s.idle random others xs
  | .schedule toCall fromNow type =>
    (s.interrupt.schedule toCall fromNow type).map fun i => { s with interrupt := i }
  | .setStatus status => some { s with interrupt := { s.interrupt with status := status } }

/-- The kernel starts: `new Alarm` has set up the timer. -/
def Initial (s : TimeSlice) : Prop :=
  ∃ value random, s.cpu = Cpu.initial value ∧ s.timer.disable = false ∧
    Interrupt.initial.callBack (setInterrupt s.timer random) = some s.interrupt

/-- The handlers of the other devices schedule these devices. -/
def Others (others : Handlers) : Prop := ∀ p, ∀ c ∈ others p, ∀ toCall fromNow type,
  c = .schedule toCall fromNow type → toCall ≠ timerObject

/-- The other devices leave the timer alone, and only `Idle` idles. -/
def Undisturbed : Label → Prop
  | .thread _ => True
  | .tick _ others _ => Others others
  | .idle _ others _ => Others others
  | .schedule toCall _ _ => toCall ≠ timerObject
  | .setStatus status => status ≠ .idleMode

/-- The clock and the due times are `int`s. -/
def Ints (i : Interrupt) : Prop := i.stats.totalTicks < 2 ^ 31 ∧ ∀ p ∈ i.pending, p.when < 2 ^ 31

instance (i : Interrupt) : Decidable (Ints i) := inferInstanceAs (Decidable (_ ∧ _))

/-- And the step comes to no time that is not an `int`. -/
def Allowed (s : TimeSlice) (l : Label) : Prop :=
  Undisturbed l ∧ ∀ s', s.step l = some s' → Ints s'.interrupt

/-- The states of the runs. -/
abbrev Reach : TimeSlice → Prop := Runs.Reach step Initial Allowed

/-- The clock. -/
def now (s : TimeSlice) : ℤ := s.interrupt.stats.totalTicks

/-- The longest delay of the timer. -/
def maxDelay (t : Timer) : ℤ := if t.randomize then timerTicks * 2 else timerTicks

/-- The interrupts of the timer that are pending. -/
def timers (s : Interrupt) : List PendingInterrupt :=
  s.pending.filter fun p => p.callOnInterrupt = timerObject

/-! ### What the handlers do -/

variable {i i' : Interrupt} {t : Timer} {others : Handlers} {p : PendingInterrupt}

/-- The clock, the status and the timer's interrupts stay, and a `Yield` that was
asked for is still. -/
structure Aside (i i' : Interrupt) : Prop where
  timers : timers i' = timers i
  stats : i'.stats = i.stats
  status : i'.status = i.status
  yieldOnReturn : i.yieldOnReturn = true → i'.yieldOnReturn = true

theorem Aside.refl (i : Interrupt) : Aside i i := ⟨rfl, rfl, rfl, id⟩

theorem Aside.trans {i'' : Interrupt} (h : Aside i i') (h' : Aside i' i'') : Aside i i'' :=
  ⟨h'.timers.trans h.timers, h'.stats.trans h.stats, h'.status.trans h.status,
    fun hy => h'.yieldOnReturn (h.yieldOnReturn hy)⟩

/-- An interrupt that is scheduled is one more. -/
theorem timers_schedule {toCall : ℕ} {fromNow : ℤ} {type : IntType}
    (h : i.schedule toCall fromNow type = some i') :
    ∃ p, p.callOnInterrupt = toCall ∧ p.when = i.stats.totalTicks + fromNow ∧ 0 < fromNow ∧
    i'.stats = i.stats ∧
      i'.status = i.status ∧ i'.yieldOnReturn = i.yieldOnReturn ∧
      (timers i').Perm (if toCall = timerObject then p :: timers i else timers i) := by
  unfold Interrupt.schedule at h
  split_ifs at h with hpos
  cases h
  refine ⟨⟨toCall, i.stats.totalTicks + fromNow, type, i.scheduled.length⟩, rfl, rfl, hpos, rfl,
    rfl, rfl, ?_⟩
  refine ((SortedList.insert_perm pendingCompare _ i.pending).filter _).trans (List.Perm.of_eq ?_)
  rw [List.filter_cons]
  simp only [decide_eq_true_eq, timers]

theorem aside_schedule {toCall : ℕ} {fromNow : ℤ} {type : IntType} (hp : timers i = [p])
    (hne : toCall ≠ timerObject) (h : i.schedule toCall fromNow type = some i') : Aside i i' := by
  obtain ⟨q, -, -, -, hstats, hstatus, hy, hperm⟩ := timers_schedule h
  rw [if_neg hne, hp] at hperm
  exact ⟨hp ▸ List.perm_singleton.mp hperm, hstats, hstatus, fun h => hy.trans h⟩

/-- The handlers of the other devices. -/
theorem aside_callBack (hp : timers i = [p]) (cs : List HandlerCall)
    (hcs : ∀ c ∈ cs, ∀ toCall fromNow type, c = .schedule toCall fromNow type →
      toCall ≠ timerObject)
    (h : i.callBack cs = some i') : Aside i i' := by
  induction cs generalizing i with
  | nil =>
    cases h
    exact Aside.refl _
  | cons c cs ih =>
    obtain ⟨i1, h1, h2⟩ := Option.bind_eq_some_iff.mp h
    have hfirst : Aside i i1 := by
      cases c with
      | schedule toCall fromNow type =>
        exact aside_schedule hp (hcs _ List.mem_cons_self toCall fromNow type rfl) h1
      | yieldOnReturn =>
        simp only [Interrupt.handlerCall] at h1
        split_ifs at h1
        cases h1
        exact ⟨rfl, rfl, rfl, fun _ => rfl⟩
      | setLevel now =>
        simp only [Interrupt.handlerCall] at h1
        split_ifs at h1
        cases h1
        exact ⟨rfl, rfl, rfl, id⟩
    exact hfirst.trans
      (ih (hfirst.timers.trans hp) (fun c' hc' => hcs c' (List.mem_cons_of_mem _ hc')) h2)

/-- The timer was delivered: its next interrupt is ahead, and the alarm has
asked for a `Yield`, unless the machine idles. -/
structure Rung (t : Timer) (status : MachineStatus) (i : Interrupt) (p : PendingInterrupt) :
    Prop where
  timers : timers i = [p]
  ahead : i.stats.totalTicks < p.when
  soon : p.when ≤ i.stats.totalTicks + maxDelay t
  yieldOnReturn : status ≠ .idleMode → i.yieldOnReturn = true

theorem Rung.aside {status : MachineStatus} (h : Rung t status i p) (ha : Aside i i') :
    Rung t status i' p where
  timers := ha.timers.trans h.timers
  ahead := ha.stats ▸ h.ahead
  soon := ha.stats ▸ h.soon
  yieldOnReturn hs := ha.yieldOnReturn (h.yieldOnReturn hs)

theorem delay_bounds (t : Timer) (random : ℕ) :
    ((if t.randomize then 1 + random % (timerTicks * 2) else timerTicks : ℕ) : ℤ) ≤ maxDelay t := by
  unfold maxDelay timerTicks
  split_ifs
  · have := Nat.mod_lt random (show 100 * 2 > 0 by decide)
    push_cast at *
    omega
  · exact le_refl _

/-- The handler of the timer. -/
theorem callBack_timer {status : MachineStatus} {random : ℕ} (ht : t.disable = false)
    (hnone : timers i = []) (h : i.callBack (timerCallBack t status random) = some i') :
    ∃ p, Rung t status i' p ∧ i'.stats = i.stats ∧ i'.status = i.status := by
  -- the request of the alarm comes first
  obtain ⟨i1, h1, hstats, hstatus, htimers, hy⟩ : ∃ i1, i1.callBack (setInterrupt t random) =
      some i' ∧ i1.stats = i.stats ∧
      i1.status = i.status ∧ timers i1 = [] ∧ (status ≠ .idleMode → i1.yieldOnReturn = true) := by
    unfold timerCallBack alarmCallBack at h
    split_ifs at h with hs
    · obtain ⟨i1, h1, h2⟩ := Option.bind_eq_some_iff.mp h
      simp only [Interrupt.handlerCall] at h1
      split_ifs at h1
      cases h1
      exact ⟨_, h2, rfl, rfl, hnone, fun _ => rfl⟩
    · exact ⟨i, h, rfl, rfl, hnone, fun hs' => absurd hs' hs⟩
  unfold setInterrupt at h1
  rw [if_neg (by rw [ht]; decide)] at h1
  obtain ⟨i2, h2, h3⟩ := Option.bind_eq_some_iff.mp h1
  cases h3
  obtain ⟨p, -, hwhen, hpos, hstats2, hstatus2, hy2, hperm⟩ := timers_schedule h2
  rw [if_pos rfl, htimers] at hperm
  have hdelay := delay_bounds t random
  refine ⟨p, ⟨List.perm_singleton.mp hperm, ?_, ?_, fun hs => hy2.trans (hy hs)⟩,
    hstats2.trans hstats, hstatus2.trans hstatus⟩
  · rw [hstats2, hwhen]
    omega
  · rw [hstats2, hwhen]
    omega

/-- **The loop of `CheckIfDue`** leaves the timer's interrupt as it was, or has
delivered it. -/
theorem drain_timer {status : MachineStatus} {random : ℕ} (ht : t.disable = false)
    (ho : Others others) (fuel : ℕ) (hphase : timers i = [p] ∨ p.when ≤ i.stats.totalTicks ∧
      ∃ q, Rung t status i q) (hdue : i.frontDue = true)
    (h : Interrupt.drain (handlers t status random others) fuel i = some i') :
    i'.stats = i.stats ∧ i'.status = i.status ∧
    (timers i' = [p] ∨ p.when ≤ i.stats.totalTicks ∧ ∃ q, Rung t status i' q) := by
  induction fuel generalizing i with
  | zero => cases h
  | succ fuel ih =>
    obtain ⟨next, rest, hpending, hwhen⟩ := Interrupt.frontDue_cases hdue
    unfold Interrupt.drain at h
    simp only [hpending] at h
    obtain ⟨i1, h1, h2⟩ := Option.bind_eq_some_iff.mp h
    let i0 : Interrupt :=
      { i with pending := rest, delivered := i.delivered ++ [(next, i.stats.totalTicks)] }
    have htimers : timers i =
        if next.callOnInterrupt = timerObject then next :: timers i0 else timers i0 := by
      unfold timers
      rw [hpending, List.filter_cons]
      simp only [decide_eq_true_eq, i0]
    have hone : i1.stats = i.stats ∧ i1.status = i.status ∧
        (timers i1 = [p] ∨ p.when ≤ i.stats.totalTicks ∧ ∃ q, Rung t status i1 q) := by
      change i0.callBack _ = some i1 at h1
      unfold handlers at h1
      by_cases hnext : next.callOnInterrupt = timerObject
      · -- the timer's own: it was the one that was pending, for a later one would not be due
        rw [if_pos hnext] at h1 htimers
        rcases hphase with hp | ⟨-, q, hq⟩
        · obtain ⟨hnp, hrest⟩ := List.cons.inj (htimers.symm.trans hp)
          obtain ⟨q, hq, hstats, hstatus⟩ := callBack_timer ht hrest h1
          exact ⟨hstats, hstatus, Or.inr ⟨hnp ▸ hwhen, q, hq⟩⟩
        · have hahead := hq.ahead
          rw [← (List.cons.inj (htimers.symm.trans hq.timers)).1] at hahead
          omega
      · rw [if_neg hnext] at h1 htimers
        rcases hphase with hp | ⟨hle, q, hq⟩
        · have ha := aside_callBack (htimers.symm.trans hp) _ (ho next) h1
          exact ⟨ha.stats, ha.status, Or.inl (ha.timers.trans (htimers.symm.trans hp))⟩
        · have hq0 : Rung t status i0 q :=
            ⟨htimers.symm.trans hq.timers, hq.ahead, hq.soon, hq.yieldOnReturn⟩
          have ha := aside_callBack hq0.timers _ (ho next) h1
          exact ⟨ha.stats, ha.status, Or.inr ⟨hle, q, hq0.aside ha⟩⟩
    split_ifs at h2 with hdue1
    · obtain ⟨hstats, hstatus, hphase1⟩ := hone
      obtain ⟨hstats', hstatus', hphase'⟩ := ih (hstats ▸ hphase1) hdue1 h2
      exact ⟨hstats'.trans hstats, hstatus'.trans hstatus, hstats ▸ hphase'⟩
    · cases h2
      exact hone

/-! ### The ready list -/

variable {c c' : Cpu} {u : Tid}

/-- Threads were added at the end of the ready list. -/
def Added (c c' : Cpu) : Prop := ∃ more, c'.readyList = c.readyList ++ more

/-- And the first one was given the processor. -/
def Advanced (c c' : Cpu) : Prop := ∃ more, c'.currentThread :: c'.readyList = c.readyList ++ more

theorem Added.refl (c : Cpu) : Added c c := ⟨[], (List.append_nil _).symm⟩

theorem Added.trans {c'' : Cpu} (h : Added c c') (h' : Added c' c'') : Added c c'' := by
  obtain ⟨more, hm⟩ := h
  obtain ⟨more', hm'⟩ := h'
  exact ⟨more ++ more', by rw [hm', hm, List.append_assoc]⟩

theorem Added.advanced {c'' : Cpu} (h : Added c c') (h' : Advanced c' c'') : Advanced c c'' := by
  obtain ⟨more, hm⟩ := h
  obtain ⟨more', hm'⟩ := h'
  exact ⟨more ++ more', by rw [hm', hm, List.append_assoc]⟩

/-- The thread keeps its place. -/
theorem Added.place (h : Added c c') (hu : u ∈ c.readyList) :
    u ∈ c'.readyList ∧ c'.readyList.idxOf u = c.readyList.idxOf u := by
  obtain ⟨more, hm⟩ := h
  rw [hm]
  exact ⟨List.mem_append_left _ hu, List.idxOf_append_of_mem hu⟩

/-- The thread has the processor, or is one place nearer to it. -/
theorem Advanced.place (h : Advanced c c') (hu : u ∈ c.readyList) :
    c'.currentThread = u ∨ u ∈ c'.readyList ∧ c'.readyList.idxOf u + 1 = c.readyList.idxOf u := by
  obtain ⟨more, hm⟩ := h
  by_cases hc : c'.currentThread = u
  · exact Or.inl hc
  · have hmem : u ∈ c'.currentThread :: c'.readyList := hm ▸ List.mem_append_left more hu
    refine Or.inr ⟨(List.mem_cons.mp hmem).resolve_left fun he => hc he.symm, ?_⟩
    calc c'.readyList.idxOf u + 1 = (c'.currentThread :: c'.readyList).idxOf u :=
          (List.idxOf_cons_ne _ hc).symm
      _ = (c.readyList ++ more).idxOf u := by rw [hm]
      _ = c.readyList.idxOf u := List.idxOf_append_of_mem hu

theorem added_v (c : Cpu) (x : ℕ) : Added c (c.v x) := by
  unfold Cpu.v
  cases (c.sem x).v.2 with
  | none => exact Added.refl c
  | some t => exact ⟨[t], rfl⟩

theorem added_foldl (xs : List ℕ) (c : Cpu) : Added c (xs.foldl Cpu.v c) := by
  induction xs generalizing c with
  | nil => exact Added.refl c
  | cons x xs ih => exact (added_v c x).trans (ih _)

/-- The loop of `Sleep` takes the first, if there is one. -/
theorem dispatch_cases (c : Cpu) (finishing : Bool) (k : Cpu.Cont) :
    Advanced c (c.dispatch finishing k) ∨ c.readyList = [] ∧ Added c (c.dispatch finishing k) := by
  unfold Cpu.dispatch
  cases hr : c.readyList with
  | nil => exact Or.inr ⟨rfl, [], by simp [hr]⟩
  | cons t rest =>
    refine Or.inl ⟨[], ?_⟩
    unfold Cpu.run
    cases finishing <;> simp [hr, Cpu.assert]

/-- `Yield` takes the first. -/
theorem advanced_yield (hu : u ∈ c.readyList) : Advanced c c.yield := by
  unfold Cpu.yield
  cases hr : c.readyList with
  | nil => simp [hr] at hu
  | cons t rest =>
    refine ⟨[c.currentThread], ?_⟩
    simp [hr, Cpu.run, Cpu.readyToRun, Cpu.assert]

theorem pTest_cases (c : Cpu) (x : ℕ) : Advanced c (c.pTest x) ∨ Added c (c.pTest x) := by
  unfold Cpu.pTest
  simp only
  split_ifs
  · exact Or.inr ⟨[], (List.append_nil _).symm⟩
  · rcases dispatch_cases _ false (.inP x) with h | ⟨-, h⟩
    · exact Or.inl h
    · exact Or.inr h

theorem resume_cases (c : Cpu) : Advanced c c.resume ∨ Added c c.resume := by
  have hdestroyed : c.checkToBeDestroyed.readyList = c.readyList := by
    unfold Cpu.checkToBeDestroyed
    cases c.toBeDestroyed <;> rfl
  have hadded : Added c c.checkToBeDestroyed := ⟨[], hdestroyed.trans (List.append_nil _).symm⟩
  unfold Cpu.resume
  cases c.saved c.currentThread with
  | fresh => exact Or.inr hadded
  | yielded => exact Or.inr hadded
  | inP x =>
    rcases pTest_cases c.checkToBeDestroyed x with h | h
    · exact Or.inl (hadded.advanced h)
    · exact Or.inr (hadded.trans h)
  | finished => exact Or.inr hadded

/-- The `Idle` of a thread that sleeps takes the first that is ready. -/
theorem advanced_idle (xs : List ℕ) (hu : u ∈ c.readyList) (h : c.step (.idle xs) = some c') :
    Advanced c c' := by
  unfold Cpu.step at h
  cases hm : c.mode with
  | user =>
    rw [hm] at h
    cases h
  | switched =>
    rw [hm] at h
    cases h
  | sleeping finishing k =>
    rw [hm] at h
    cases h
    have hadded := added_foldl xs c
    rcases dispatch_cases (xs.foldl Cpu.v c) finishing k with h | ⟨hempty, -⟩
    · exact hadded.advanced h
    · have hmem := (hadded.place hu).1
      rw [hempty] at hmem
      cases hmem

/-- **One step** of the threads moves no thread back. -/
theorem step_cases (l : Cpu.Label) (hu : u ∈ c.readyList) (h : c.step l = some c') :
    Advanced c c' ∨ Added c c' := by
  unfold Cpu.step at h
  cases hm : c.mode with
  | user =>
    rw [hm] at h
    cases l with
    | newThread =>
      cases h
      exact Or.inr ⟨[], (List.append_nil _).symm⟩
    | fork t =>
      simp only at h
      split_ifs at h
      cases h
      exact Or.inr ⟨[t], rfl⟩
    | yield =>
      cases h
      exact Or.inl (advanced_yield hu)
    | p x =>
      cases h
      exact pTest_cases c x
    | v x =>
      cases h
      exact Or.inr (added_v c x)
    | finish =>
      cases h
      rcases dispatch_cases { c with status := Function.update c.status c.currentThread .blocked }
        true .finished with h | ⟨-, h⟩
      · exact Or.inl h
      · exact Or.inr h
    | resume | idle => cases h
  | switched =>
    rw [hm] at h
    cases l with
    | resume =>
      cases h
      exact resume_cases c
    | newThread | fork | yield | p | v | finish | idle => cases h
  | sleeping finishing k =>
    cases l with
    | idle xs => exact Or.inl (advanced_idle xs hu (by unfold Cpu.step; exact h))
    | newThread | fork | yield | p | v | finish | resume =>
      rw [hm] at h
      cases h

/-! ### A tick and a pass of `Idle` -/

variable {s s' : TimeSlice}

/-- `CheckIfDue` from `inHandler = TRUE` on. -/
theorem fire_timer {status : MachineStatus} {random : ℕ} {r : Interrupt × Bool}
    (ht : t.disable = false) (ho : Others others) (hp : timers i = [p]) (hdue : i.frontDue = true)
    (h : Interrupt.fire (handlers t status random others) i = some r) :
    r.1.stats = i.stats ∧ r.1.status = i.status ∧
    (timers r.1 = [p] ∨ p.when ≤ i.stats.totalTicks ∧ ∃ q, Rung t status r.1 q) := by
  obtain ⟨i1, h1, rfl⟩ := Option.map_eq_some_iff.mp h
  let i0 : Interrupt := { i with inHandler := true }
  have hp0 : timers i0 = [p] := hp
  obtain ⟨hstats, hstatus, hphase⟩ := drain_timer (i := i0) ht ho _ (Or.inl hp0) hdue h1
  refine ⟨hstats, hstatus, hphase.imp_right fun hrung => ?_⟩
  obtain ⟨hle, q, hq⟩ := hrung
  exact ⟨hle, q, hq.timers, hq.ahead, hq.soon, hq.yieldOnReturn⟩

/-- The front is not later than the timer. -/
theorem front_le (hI : Interrupt.Inv i) (hp : timers i = [p]) {next : PendingInterrupt}
    {rest : List PendingInterrupt} (hpending : i.pending = next :: rest) : next.when ≤ p.when := by
  have hmem : p ∈ timers i := hp ▸ List.mem_singleton_self p
  have hmem' : p ∈ next :: rest := hpending ▸ List.mem_of_mem_filter hmem
  have hsorted := (List.pairwise_append.mp hI.sorted).2.1
  rw [hpending] at hsorted
  rcases List.mem_cons.mp hmem' with rfl | hmem'
  · exact le_refl _
  · have hbefore := (List.pairwise_cons.mp hsorted).1 p hmem'
    unfold Interrupt.Before at hbefore
    omega

/-- `CheckIfDue`: the clock may move to the front of the list, and the timer's
interrupt is as it was or has been delivered. -/
theorem checkIfDue_timer {status : MachineStatus} {random : ℕ} {adv : Bool} {r : Interrupt × Bool}
    (ht : t.disable = false) (ho : Others others) (hI : Interrupt.Inv i) (hp : timers i = [p])
    (h : Interrupt.checkIfDue (handlers t status random others) adv i = some r) :
    r.1.stats.totalTicks ≤ max i.stats.totalTicks (if adv then p.when else i.stats.totalTicks) ∧
    r.1.status = i.status ∧
      (timers r.1 = [p] ∨ p.when ≤ r.1.stats.totalTicks ∧ ∃ q, Rung t status r.1 q) := by
  unfold Interrupt.checkIfDue at h
  by_cases hl : i.level = .off
  swap
  · rw [if_neg hl] at h
    cases h
  rw [if_pos hl] at h
  cases hpending : i.pending with
  | nil =>
    rw [hpending] at h
    cases h
    exact ⟨le_max_left _ _, rfl, Or.inl hp⟩
  | cons next rest =>
    rw [hpending] at h
    have hfront := front_le hI hp hpending
    by_cases hdue : next.when > i.stats.totalTicks
    · simp only [if_pos hdue] at h
      cases adv with
      | false =>
        cases h
        exact ⟨le_max_left _ _, rfl, Or.inl hp⟩
      | true =>
        rw [if_pos rfl] at h
        let i0 : Interrupt := i.advanceTo next.when
        have hp0 : timers i0 = [p] := hp
        have hdue0 : i0.frontDue = true := by
          simp [i0, Interrupt.frontDue, Interrupt.advanceTo, hpending]
        obtain ⟨hstats, hstatus, hphase⟩ := fire_timer ht ho hp0 hdue0 h
        have hnow : r.1.stats.totalTicks = next.when := congrArg Statistics.totalTicks hstats
        refine ⟨?_, hstatus, hphase.imp_right fun hrung => ?_⟩
        · rw [hnow]
          exact hfront.trans (le_max_right _ _)
        · exact ⟨hnow ▸ hrung.1, hrung.2⟩
    · simp only [if_neg hdue] at h
      obtain ⟨hstats, hstatus, hphase⟩ :=
        fire_timer ht ho hp (by simp [Interrupt.frontDue, hpending]; omega) h
      rw [hstats]
      exact ⟨le_max_left _ _, hstatus, hphase⟩

/-- What holds of every run: the timer is on, and its next interrupt is ahead
of the clock, but not far. -/
structure Inv (s : TimeSlice) : Prop where
  interrupt : Interrupt.Inv s.interrupt
  disable : s.timer.disable = false
  status : s.interrupt.status ≠ .idleMode
  timer : ∃ p, timers s.interrupt = [p] ∧ s.now < p.when ∧ p.when ≤ s.now + maxDelay s.timer

/-- When the timer interrupts next. -/
def deadline (s : TimeSlice) : ℤ := ((timers s.interrupt).head?.map (·.when)).getD 0

theorem deadline_eq (hp : timers s.interrupt = [p]) : s.deadline = p.when := by
  unfold deadline
  rw [hp]
  rfl

theorem Inv.deadline (hI : Inv s) : s.now < s.deadline ∧ s.deadline ≤ s.now + maxDelay s.timer := by
  obtain ⟨p, hp, hlt, hle⟩ := hI.timer
  rw [deadline_eq hp]
  exact ⟨hlt, hle⟩

/-- The longest time from one interrupt of the timer to the next. -/
def slice (t : Timer) : ℤ := maxDelay t + systemTick - 1

/-- What a step does: the threads that are ready keep their places and the
timer's interrupt is as it was, or they are one place further and it is the
next one. -/
structure Turn (s s' : TimeSlice) : Prop where
  inv : Inv s'
  timer : s'.timer = s.timer
  deadline : s'.deadline ≤ s.deadline + slice s.timer
  ready : ∀ u ∈ s.cpu.readyList, Advanced s.cpu s'.cpu ∨ Added s.cpu s'.cpu ∧
    s'.deadline = s.deadline

theorem slice_nonneg (t : Timer) : 0 ≤ slice t := by
  unfold slice maxDelay timerTicks systemTick
  split_ifs <;> omega

/-- A step that leaves the interrupts. -/
theorem Inv.turn_of_interrupt (hI : Inv s) (hi : s'.interrupt = s.interrupt)
    (ht : s'.timer = s.timer)
    (hc : ∀ u ∈ s.cpu.readyList, Advanced s.cpu s'.cpu ∨ Added s.cpu s'.cpu) : Turn s s' := by
  have hd : s'.deadline = s.deadline := by rw [TimeSlice.deadline, TimeSlice.deadline, hi]
  have hs := slice_nonneg s.timer
  refine ⟨⟨hi ▸ hI.interrupt, ht ▸ hI.disable, hi ▸ hI.status, ?_⟩, ht, by omega,
    fun u hu => (hc u hu).imp_right fun h => ⟨h, hd⟩⟩
  have htimer := hI.timer
  unfold TimeSlice.now at htimer ⊢
  rw [hi, ht]
  exact htimer

/-- The tick, for the interrupts alone. -/
theorem oneTick_interrupt {random : ℕ} {xs : List ℕ} (h : s.oneTick random others xs = some s') :
    s.interrupt.oneTick (handlers s.timer s.interrupt.status random others) =
      some s'.interrupt := by
  obtain ⟨r, hr, rfl⟩ := Option.map_eq_some_iff.mp h
  refine Option.map_eq_some_iff.mpr ⟨r, hr, ?_⟩
  split_ifs <;> rfl

/-- A step is made of moves of the interrupts, or leaves them. -/
theorem moves_step {l : Label} (h : s.step l = some s') :
    Interrupt.Moves s.interrupt s'.interrupt := by
  cases l with
  | thread l =>
    have heq : s'.interrupt = s.interrupt := by
      cases l with
      | idle xs => cases h
      | newThread | fork | yield | p | v | finish | resume =>
        obtain ⟨c, -, rfl⟩ := Option.map_eq_some_iff.mp h
        rfl
    rw [heq]
  | tick random others xs =>
    unfold step at h
    split_ifs at h
    exact (Interrupt.oneTick_spec (oneTick_interrupt h)).1
  | idle random others xs =>
    obtain ⟨i1, hi1, h1⟩ := Option.bind_eq_some_iff.mp h
    obtain ⟨c, -, rfl⟩ := Option.map_eq_some_iff.mp h1
    exact (Interrupt.idle_spec hi1).1
  | schedule toCall fromNow type =>
    obtain ⟨i1, hi1, rfl⟩ := Option.map_eq_some_iff.mp h
    exact Relation.ReflTransGen.single (Interrupt.schedule_move hi1)
  | setStatus status =>
    cases h
    exact Relation.ReflTransGen.single (Interrupt.Move.flags rfl rfl rfl rfl)

/-- A time that a move brings up is still there after it, or the clock is past it. -/
theorem ints_of_move (hm : Interrupt.Move i i') (h : Ints i') : Ints i := by
  cases hm with
  | flags hp ht _ _ =>
    unfold Ints at h
    rw [hp, ht] at h
    exact h
  | clock stats hle _ => exact ⟨hle.trans_lt h.1, h.2⟩
  | insert p _ _ =>
    exact ⟨h.1, fun q hq =>
      h.2 q ((SortedList.insert_perm pendingCompare p _).mem_iff.mpr (List.mem_cons_of_mem _ hq))⟩
  | deliver p rest hp hw =>
    refine ⟨h.1, fun q hq => ?_⟩
    rw [hp] at hq
    rcases List.mem_cons.mp hq with rfl | hq
    · exact hw.trans_lt h.1
    · exact h.2 q hq

theorem ints_of_moves (hm : Interrupt.Moves i i') (h : Ints i') : Ints i := by
  induction hm using Relation.ReflTransGen.head_induction_on with
  | refl => exact h
  | head hm _ ih => exact ints_of_move hm ih

/-- **No sum wraps.** An allowed step is made of moves, and in every state that
they come through the clock and the due times are `int`s. -/
theorem ints_of_step {l : Label} (hok : Allowed s l) (h : s.step l = some s') :
    Interrupt.Moves s.interrupt s'.interrupt ∧ ∀ i, Interrupt.Moves i s'.interrupt → Ints i :=
  ⟨moves_step h, fun _ hm => ints_of_moves hm (hok.2 s' h)⟩

/-- The clock of a tick. -/
theorem inv_advance (hI : Interrupt.Inv i) :
    Interrupt.Inv { i with stats := Interrupt.advance i.status i.stats, level := .off } ∧
      (Interrupt.advance i.status i.stats).totalTicks ≤ i.stats.totalTicks + systemTick := by
  have hclock : Interrupt.Move i { i with stats := Interrupt.advance i.status i.stats } := by
    refine Interrupt.Move.clock _ ?_ ?_ <;> unfold Interrupt.advance systemTick userTick <;>
      split_ifs <;> simp only <;> omega
  refine ⟨Interrupt.inv_move (Interrupt.inv_move hI hclock) (Interrupt.Move.flags rfl rfl rfl rfl),
    ?_⟩
  unfold Interrupt.advance systemTick userTick
  split_ifs <;> simp only <;> omega

/-- The timer's interrupt after a step is the one before, or one not far ahead. -/
theorem Inv.of_timers (hI : Inv s) (hI' : Interrupt.Inv s'.interrupt)
    (hahead : Interrupt.NothingDue s'.interrupt) (ht : s'.timer = s.timer)
    (hstatus : s'.interrupt.status ≠ .idleMode) (hnow : s.now ≤ s'.now)
    (hp : timers s.interrupt = [p]) {q : PendingInterrupt} (hq : timers s'.interrupt = [q])
    (hsoon : q = p ∨ q.when ≤ s'.now + maxDelay s.timer) : Inv s' := by
  have hmem : q ∈ timers s'.interrupt := hq ▸ List.mem_singleton_self q
  refine ⟨hI', ht ▸ hI.disable, hstatus, q, hq, hahead q (List.mem_of_mem_filter hmem), ?_⟩
  rw [ht]
  rcases hsoon with rfl | hsoon
  · have hd := hI.deadline.2
    rw [deadline_eq hp] at hd
    omega
  · exact hsoon

/-- **A tick.** -/
theorem turn_tick (hI : Inv s) {random : ℕ} (ho : Others others) {xs : List ℕ}
    (h : s.oneTick random others xs = some s') : Turn s s' := by
  obtain ⟨hmoves, hfront⟩ := Interrupt.oneTick_spec (oneTick_interrupt h)
  have hI' := Interrupt.inv_moves hI.interrupt hmoves
  have hahead := Interrupt.nothingDue_of_front hI' hfront
  have hafter : s.now ≤ s'.now := (Interrupt.after_moves hmoves).clock
  obtain ⟨p, hp, hlt, hle⟩ := hI.timer
  obtain ⟨hI0, hclock⟩ := inv_advance hI.interrupt
  obtain ⟨⟨i1, fired⟩, hr, hs'⟩ := Option.map_eq_some_iff.mp h
  obtain ⟨hnow, hstatus, hphase⟩ :=
    checkIfDue_timer hI.disable ho hI0 (show timers _ = [p] from hp) hr
  have hnow1 : i1.stats.totalTicks ≤ s.now + systemTick := by
    have hmax := max_le (le_refl _)
      (le_refl (Interrupt.advance s.interrupt.status s.interrupt.stats).totalTicks)
    exact (hnow.trans hmax).trans hclock
  have hadded : Added s.cpu (if fired then xs.foldl Cpu.v s.cpu else s.cpu) := by
    split_ifs
    · exact added_foldl xs s.cpu
    · exact Added.refl s.cpu
  obtain ⟨q, hq, hcases⟩ : ∃ q, timers i1 = [q] ∧
      (q = p ∨ q.when ≤ i1.stats.totalTicks + maxDelay s.timer ∧ i1.yieldOnReturn = true) := by
    rcases hphase with hp1 | ⟨-, q, hq⟩
    · exact ⟨p, hp1, Or.inl rfl⟩
    · exact ⟨q, hq.timers, Or.inr ⟨hq.soon, hq.yieldOnReturn hI.status⟩⟩
  have hslice := slice_nonneg s.timer
  have hdeadline : q.when ≤ p.when + slice s.timer := by
    rcases hcases with rfl | ⟨hsoon, -⟩
    · omega
    · unfold slice
      omega
  simp only at hs'
  by_cases hy : i1.yieldOnReturn = true
  · rw [if_pos hy] at hs'
    subst hs'
    refine ⟨hI.of_timers hI' hahead rfl (show MachineStatus.systemMode ≠ .idleMode by decide)
      hafter hp hq (hcases.imp_right And.left), rfl, ?_, fun u hu => Or.inl ?_⟩
    · rw [deadline_eq hp, deadline_eq hq]
      exact hdeadline
    · exact hadded.advanced (advanced_yield (hadded.place hu).1)
  · -- without a `Yield` it was not the timer
    obtain rfl : q = p := hcases.resolve_right fun hc => hy hc.2
    rw [if_neg hy] at hs'
    subst hs'
    refine ⟨hI.of_timers hI' hahead rfl (fun he => hI.status (hstatus.symm.trans he)) hafter hp hq
      (Or.inl rfl), rfl, ?_, fun u hu => Or.inr ⟨hadded, ?_⟩⟩
    · rw [deadline_eq hp, deadline_eq hq]
      exact hdeadline
    · rw [deadline_eq hp, deadline_eq hq]

/-- **A pass of `Idle`.** The clock goes no further than the timer. -/
theorem turn_idle (hI : Inv s) {random : ℕ} (ho : Others others) {xs : List ℕ}
    (h : s.idle random others xs = some s') : Turn s s' := by
  obtain ⟨i1, hi1, h1⟩ := Option.bind_eq_some_iff.mp h
  obtain ⟨c, hc, rfl⟩ := Option.map_eq_some_iff.mp h1
  obtain ⟨hmoves, hfront⟩ := Interrupt.idle_spec hi1
  have hI' := Interrupt.inv_moves hI.interrupt hmoves
  have hahead := Interrupt.nothingDue_of_front hI' hfront
  have hafter : s.now ≤ i1.stats.totalTicks := (Interrupt.after_moves hmoves).clock
  obtain ⟨p, hp, hlt, hle⟩ := hI.timer
  let i0 : Interrupt := { s.interrupt with status := .idleMode }
  have hI0 : Interrupt.Inv i0 :=
    Interrupt.inv_move hI.interrupt (Interrupt.Move.flags rfl rfl rfl rfl)
  obtain ⟨⟨i2, fired⟩, hr, h2⟩ := Option.bind_eq_some_iff.mp hi1
  obtain ⟨hnow, -, hphase⟩ := checkIfDue_timer hI.disable ho hI0 (show timers i0 = [p] from hp) hr
  split_ifs at h2
  cases h2
  have hnow1 : i2.stats.totalTicks ≤ p.when := hnow.trans (max_le (le_of_lt hlt) (le_refl _))
  obtain ⟨q, hq, hsoon⟩ : ∃ q, timers i2 = [q] ∧
      (q = p ∨ q.when ≤ i2.stats.totalTicks + maxDelay s.timer) := by
    rcases hphase with hp1 | ⟨-, q, hq⟩
    · exact ⟨p, hp1, Or.inl rfl⟩
    · exact ⟨q, hq.timers, Or.inr hq.soon⟩
  have hslice := slice_nonneg s.timer
  refine ⟨hI.of_timers hI' hahead rfl (show MachineStatus.systemMode ≠ .idleMode by decide)
    hafter hp hq hsoon, rfl, ?_, fun u hu => Or.inl (advanced_idle xs hu hc)⟩
  rw [deadline_eq hp, deadline_eq hq]
  rcases hsoon with rfl | hsoon
  · omega
  · unfold slice systemTick
    omega

/-! ### Runs -/

/-- **Every step.** -/
theorem turn_step (hI : Inv s) (l : Label) (hok : Undisturbed l) (h : s.step l = some s') :
    Turn s s' := by
  cases l with
  | thread l =>
    have hthread : ∀ c, s.cpu.step l = some c → s' = { s with cpu := c } → Turn s s' := by
      rintro c hc rfl
      exact hI.turn_of_interrupt rfl rfl fun u hu => step_cases l hu hc
    cases l with
    | idle xs => cases h
    | newThread | fork | yield | p | v | finish | resume =>
      obtain ⟨c, hc, rfl⟩ := Option.map_eq_some_iff.mp h
      exact hthread c hc rfl
  | tick random others xs =>
    unfold step at h
    split_ifs at h
    exact turn_tick hI hok h
  | idle random others xs => exact turn_idle hI hok h
  | schedule toCall fromNow type =>
    obtain ⟨i1, hi1, rfl⟩ := Option.map_eq_some_iff.mp h
    obtain ⟨p, hp, hlt, hle⟩ := hI.timer
    have ha := aside_schedule hp hok hi1
    have hI' := Interrupt.inv_move hI.interrupt (Interrupt.schedule_move hi1)
    have hp' : timers i1 = [p] := ha.timers.trans hp
    have hd : TimeSlice.deadline { s with interrupt := i1 } = s.deadline :=
      (deadline_eq hp').trans (deadline_eq hp).symm
    have hslice := slice_nonneg s.timer
    refine ⟨⟨hI', hI.disable, fun he => hI.status (ha.status.symm.trans he), p, hp', ?_⟩,
      rfl, by omega, fun u hu => Or.inr ⟨Added.refl s.cpu, hd⟩⟩
    unfold TimeSlice.now at hlt hle ⊢
    rw [ha.stats]
    exact ⟨hlt, hle⟩
  | setStatus status =>
    cases h
    have hslice := slice_nonneg s.timer
    have hflags : Interrupt.Move s.interrupt { s.interrupt with status := status } :=
      Interrupt.Move.flags rfl rfl rfl rfl
    refine ⟨⟨Interrupt.inv_move hI.interrupt hflags, hI.disable, hok, hI.timer⟩, rfl, ?_,
      fun u hu => Or.inr ⟨Added.refl s.cpu, rfl⟩⟩
    show s.deadline ≤ s.deadline + slice s.timer
    omega

theorem inv_initial (h : Initial s) : Inv s := by
  obtain ⟨value, random, -, hdisable, hset⟩ := h
  unfold setInterrupt at hset
  rw [if_neg (by rw [hdisable]; decide)] at hset
  obtain ⟨i1, hi1, h1⟩ := Option.bind_eq_some_iff.mp hset
  cases h1
  obtain ⟨p, -, hwhen, hpos, hstats, hstatus, -, hperm⟩ := timers_schedule hi1
  have hdelay := delay_bounds s.timer random
  refine ⟨Interrupt.inv_move Interrupt.inv_initial (Interrupt.schedule_move hi1), hdisable, ?_, p,
    List.perm_singleton.mp hperm, ?_⟩
  · rw [hstatus]
    decide
  · unfold TimeSlice.now
    rw [hstats, hwhen]
    omega

theorem inv_reach (hr : Reach s) : Inv s :=
  hr.inv Inv (fun _ => inv_initial) fun _ l _ _ hI hok hs => (turn_step hI l hok.1 hs).inv

/-- When the thread runs at the latest: the timer interrupts, and once more for
each thread before it. -/
def latest (t : Timer) (u : Tid) (s : TimeSlice) : ℤ :=
  s.deadline + s.cpu.readyList.idxOf u * slice t

end TimeSlice

end Nachos
