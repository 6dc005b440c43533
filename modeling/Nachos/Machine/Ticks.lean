/-
# The delivery loop on a 32-bit clock (`machine/interrupt.cc`)

`Statistics::totalTicks` and `PendingInterrupt::when` are `int`s: the time of
a new interrupt is a sum that wraps modulo `2 ^ 32`, and the tests of the
loop compare as signed numbers. This module has `Schedule` and the loop of
`CheckIfDue` again at that width, for handlers that schedule at most one
interrupt each, no further ahead than the devices do.

Where `totalTicks + 200` is still an `int`, a new interrupt is ahead of the
clock, so every round of the loop takes one off the number of interrupts that
are due (`numDue_handle`). Beyond, the time of a new interrupt can wrap to the
other end of the range, where it is due at once, and a device that schedules
itself again keeps the loop going (`drain_none`).

* `loop_ends_iff`: the loop ends for all handlers, with no interrupt delivered
  twice, exactly if the clock is not within `maxAhead` of its largest value.

Key definitions: `Ticks.schedule`, `Ticks.drain`, `Ticks.numDue`.
Key theorems: `Ticks.numDue_handle`, `Ticks.drain_some`, `Ticks.drain_none`,
`Ticks.loop_ends_iff`.
-/
import Mathlib
import Nachos.Lib.SortedList
import Nachos.Machine.Interrupt

namespace Nachos

/-- `class PendingInterrupt`, with the time as the `int` that it is. -/
structure PendingTick where
  callOnInterrupt : ℕ
  «when» : BitVec 32
  type : IntType
  id : ℕ
  deriving DecidableEq

/-- The list of `class Interrupt` and the clock. -/
structure Ticks where
  totalTicks : BitVec 32
  pending : List PendingTick
  /-- the calls of `Schedule` so far -/
  scheduled : ℕ
  deriving DecidableEq

namespace Ticks

/-- The longest time ahead that a device asks for. -/
def maxAhead : ℤ := 200

/-- What a handler schedules: one interrupt, no further ahead than `maxAhead`. -/
structure Reschedule where
  toCall : ℕ
  fromNow : ℤ
  type : IntType
  pos : 0 < fromNow
  le : fromNow ≤ maxAhead

/-- What the handler does that is called in round `n`. -/
abbrev Handlers := ℕ → PendingTick → Option Reschedule

/-- `PendingCompare`. -/
def pendingCompare (x y : PendingTick) : ℤ :=
  if x.when.toInt < y.when.toInt then -1 else if x.when.toInt > y.when.toInt then 1 else 0

/-- `Interrupt::Schedule`; its `ASSERT` holds by `Reschedule.pos`. -/
def schedule (s : Ticks) (r : Reschedule) : Ticks :=
  let toOccur : PendingTick :=
    ⟨r.toCall, s.totalTicks + BitVec.ofInt 32 r.fromNow, r.type, s.scheduled⟩
  { s with
    pending := SortedList.insert pendingCompare toOccur s.pending, scheduled := s.scheduled + 1 }

/-- `callOnInterrupt->CallBack()`. -/
def callBack (s : Ticks) : Option Reschedule → Ticks
  | none => s
  | some r => s.schedule r

/-- Is an interrupt due? -/
def due (s : Ticks) (p : PendingTick) : Bool := p.when.toInt ≤ s.totalTicks.toInt

/-- The front of the list, if any, is due: the test of the loop. -/
def frontDue (s : Ticks) : Bool := s.pending.head?.any s.due

/-- The loop of `CheckIfDue` from round `n` on, for at most `fuel` rounds: the
interrupts delivered, and what is left when it ends. -/
def drain (h : Handlers) : ℕ → ℕ → Ticks → Option (List PendingTick × Ticks)
  | _, 0, _ => none
  | n, fuel + 1, s =>
    match s.pending with
    | [] => none
    | next :: rest =>
      let s' := { s with pending := rest }.callBack (h n next)
      if s'.frontDue then (drain h (n + 1) fuel s').map fun r => (next :: r.1, r.2)
      else some ([next], s')

/-- The pending objects are different ones, all from earlier calls of `Schedule`. -/
structure Objects (s : Ticks) : Prop where
  nodup : s.pending.Nodup
  old : ∀ p ∈ s.pending, p.id < s.scheduled

variable {s : Ticks} {h : Handlers}

/-! ### One round -/

/-- The number of interrupts that are due. -/
def numDue (s : Ticks) : ℕ := s.pending.countP s.due

@[simp] theorem totalTicks_callBack (s : Ticks) (r : Option Reschedule) :
    (s.callBack r).totalTicks = s.totalTicks := by
  cases r <;> rfl

@[simp] theorem due_callBack (s : Ticks) (r : Option Reschedule) : (s.callBack r).due = s.due := by
  cases r <;> rfl

theorem frontDue_iff : s.frontDue = true ↔ ∃ p rest, s.pending = p :: rest ∧ s.due p = true := by
  unfold frontDue
  cases s.pending with
  | nil => simp
  | cons p rest => simp

theorem Reschedule.toInt_fromNow (r : Reschedule) :
    (BitVec.ofInt 32 r.fromNow).toInt = r.fromNow := by
  have h1 := r.pos
  have h2 := r.le
  unfold maxAhead at h2
  rw [BitVec.toInt_ofInt, Int.bmod_eq_of_le] <;> omega

/-- The time of a new interrupt, while the sum does not wrap. -/
theorem toInt_ahead {t : BitVec 32} (ht : t.toInt + maxAhead < 2 ^ 31) (r : Reschedule) :
    (t + BitVec.ofInt 32 r.fromNow).toInt = t.toInt + r.fromNow := by
  have h1 := r.pos
  have h2 := r.le
  have h3 := BitVec.le_toInt t
  unfold maxAhead at h2 ht
  rw [BitVec.toInt_add, r.toInt_fromNow, Int.bmod_eq_of_le] <;> omega

theorem not_due_schedule (ht : s.totalTicks.toInt + maxAhead < 2 ^ 31) (r : Reschedule) :
    s.due ⟨r.toCall, s.totalTicks + BitVec.ofInt 32 r.fromNow, r.type, s.scheduled⟩ = false := by
  have hpos := r.pos
  simp only [due, decide_eq_false_iff_not]
  rw [toInt_ahead ht]
  omega

/-- A handler leaves the number of interrupts that are due as it is. -/
theorem numDue_callBack (ht : s.totalTicks.toInt + maxAhead < 2 ^ 31) (r : Option Reschedule) :
    (s.callBack r).numDue = s.numDue := by
  cases r with
  | none => rfl
  | some r =>
    calc (s.schedule r).pending.countP s.due
        = (_ :: s.pending).countP s.due :=
          (SortedList.insert_perm pendingCompare _ s.pending).countP_eq s.due
      _ = s.pending.countP s.due := List.countP_cons_of_neg (by simp [not_due_schedule ht r])

/-- A round delivers one of the interrupts that are due, and adds none. -/
theorem numDue_handle (ht : s.totalTicks.toInt + maxAhead < 2 ^ 31) {next : PendingTick}
    {rest : List PendingTick} (hp : s.pending = next :: rest) (hd : s.due next = true)
    (r : Option Reschedule) :
    ({ s with pending := rest }.callBack r).numDue + 1 = s.numDue := by
  rw [numDue_callBack (s := { s with pending := rest }) ht, numDue, numDue, hp,
    List.countP_cons_of_pos hd]
  rfl

/-- What is pending after a handler was pending before, or is a new object. -/
theorem pending_callBack {r : Option Reschedule} {p : PendingTick} (hp : p.id < s.scheduled) :
    (s.callBack r).pending.count p = s.pending.count p := by
  cases r with
  | none => rfl
  | some r =>
    rw [callBack, schedule, (SortedList.insert_perm _ _ _).count_eq, List.count_cons_of_ne]
    intro he
    rw [← he] at hp
    exact lt_irrefl _ hp

theorem scheduled_callBack (s : Ticks) (r : Option Reschedule) :
    s.scheduled ≤ (s.callBack r).scheduled := by
  cases r with
  | none => exact le_refl _
  | some r => exact Nat.le_succ _

/-! ### The loop -/

/-- Where the sums do not wrap, the loop ends after at most as many rounds as
interrupts are due, and delivers an earlier object no more often than it was
pending. -/
theorem drain_some (ht : s.totalTicks.toInt + maxAhead < 2 ^ 31) (fuel n : ℕ)
    (hdue : s.frontDue = true) (hfuel : s.numDue ≤ fuel) :
    ∃ ds s', drain h n fuel s = some (ds, s') ∧ s'.frontDue = false ∧ ds.length ≤ s.numDue ∧
      ∀ p, p.id < s.scheduled → ds.count p ≤ s.pending.count p := by
  induction fuel generalizing n s with
  | zero =>
    obtain ⟨next, rest, hp, hd⟩ := frontDue_iff.mp hdue
    have := numDue_handle ht hp hd none
    omega
  | succ fuel ih =>
    obtain ⟨next, rest, hp, hd⟩ := frontDue_iff.mp hdue
    have hnum := numDue_handle ht hp hd (h n next)
    have hcount : ∀ p, p.id < s.scheduled →
        (({ s with pending := rest }.callBack (h n next)).pending).count p = rest.count p :=
      fun p hid => pending_callBack (s := { s with pending := rest }) hid
    have hmore := scheduled_callBack { s with pending := rest } (h n next)
    rw [drain, hp]
    simp only
    generalize hs1 : ({ s with pending := rest }.callBack (h n next)) = s1 at *
    have ht1 : s1.totalTicks.toInt + maxAhead < 2 ^ 31 := by
      rw [← hs1, totalTicks_callBack]
      exact ht
    by_cases hf : s1.frontDue = true
    · obtain ⟨ds, s', hds, hend, hlen, hle⟩ := ih ht1 (n + 1) hf (by omega)
      refine ⟨next :: ds, s', by rw [if_pos hf, hds]; rfl,
        hend, by simp only [List.length_cons]; omega, fun p hid => ?_⟩
      have h1 := hle p (lt_of_lt_of_le hid hmore)
      rw [hcount p hid] at h1
      rw [List.count_cons, List.count_cons]
      omega
    · refine ⟨[next], s1, if_neg hf, by simpa using hf, by simp only [List.length_singleton]; omega,
        fun p _ => ?_⟩
      rw [List.count_cons, List.count_cons, List.count_nil]
      omega

/-- The device that schedules the same again in every round. -/
def always (r : Reschedule) : Handlers := fun _ _ => some r

/-- Where the sum wraps, the new interrupt is due. -/
theorem toInt_wrapped {t : BitVec 32} {r : Reschedule} (ht : 2 ^ 31 ≤ t.toInt + r.fromNow) :
    (t + BitVec.ofInt 32 r.fromNow).toInt < t.toInt := by
  have h1 := BitVec.toInt_lt (x := t)
  have h2 := r.pos
  have h3 := r.le
  unfold maxAhead at h3
  rw [BitVec.toInt_add, r.toInt_fromNow, Int.bmod_def]
  omega

/-- An interrupt that is due goes to the front, or the front is due already. -/
theorem frontDue_insert {p : PendingTick} (hp : s.due p = true) (l : List PendingTick) :
    ∃ q rest, SortedList.insert pendingCompare p l = q :: rest ∧ s.due q = true := by
  cases l with
  | nil => exact ⟨p, [], rfl, hp⟩
  | cons x l =>
    unfold SortedList.insert
    split_ifs with hc
    · exact ⟨p, x :: l, rfl, hp⟩
    · refine ⟨x, _, rfl, ?_⟩
      unfold pendingCompare at hc
      simp only [due, decide_eq_true_eq] at hp ⊢
      split_ifs at hc <;> omega

/-- A device whose time wraps and that schedules itself again in every round
is called for ever. -/
theorem drain_none {r : Reschedule} (ht : 2 ^ 31 ≤ s.totalTicks.toInt + r.fromNow) (fuel n : ℕ) :
    drain (always r) n fuel s = none := by
  induction fuel generalizing n s with
  | zero => rfl
  | succ fuel ih =>
    rw [drain]
    cases hp : s.pending with
    | nil => rfl
    | cons next rest =>
      simp only
      have hlt := toInt_wrapped ht
      have hf : ({ s with pending := rest }.callBack (always r n next)).frontDue = true := by
        apply frontDue_iff.mpr
        refine frontDue_insert (s := s) ?_ rest
        simp only [due, decide_eq_true_eq]
        omega
      rw [if_pos hf, ih (by rw [totalTicks_callBack]; exact ht)]
      rfl

/-- **When the loop ends.** With something due, the loop ends after finitely
many deliveries whatever the handlers do, each pending interrupt delivered at
most once, exactly if the clock is at least `maxAhead` ticks and one from the
end of its range. -/
theorem loop_ends_iff (s : Ticks) (hdue : s.frontDue = true) (hobj : s.Objects) :
    (∀ h : Handlers, ∃ fuel ds s', drain h 0 fuel s = some (ds, s') ∧
      ∀ p ∈ s.pending, ds.count p ≤ 1) ↔
      s.totalTicks.toInt + maxAhead < 2 ^ 31 := by
  constructor
  · intro hends
    by_contra hlt
    let longest : Reschedule := ⟨0, maxAhead, .timerInt, by decide, le_refl _⟩
    obtain ⟨fuel, ds, s', hds, -⟩ := hends (always longest)
    rw [drain_none (r := longest) (by simp only [longest]; omega)] at hds
    cases hds
  · intro ht h
    obtain ⟨ds, s', hds, -, -, hle⟩ := drain_some (h := h) ht s.numDue 0 hdue (le_refl _)
    refine ⟨s.numDue, ds, s', hds, fun p hp => ?_⟩
    calc ds.count p ≤ s.pending.count p := hle p (hobj.old p hp)
      _ ≤ 1 := List.nodup_iff_count_le_one.mp hobj.nodup p

/-- The timer alone, at the last value of the clock that is safe. -/
theorem loop_ends_iff_timer :
    let s : Ticks := ⟨2147483447#32, [⟨1, 2147483440#32, .timerInt, 0⟩], 1⟩
    s.frontDue = true ∧ s.Objects ∧ ∀ h : Handlers, ∃ fuel ds s', drain h 0 fuel s = some (ds, s') ∧
      ∀ p ∈ s.pending, ds.count p ≤ 1 := by
  intro s
  have hobj : s.Objects := ⟨by decide, by decide⟩
  exact ⟨by decide, hobj, (loop_ends_iff s (by decide) hobj).mpr (by decide)⟩

/-- The timer, which is due at the largest value of the clock and asks for 100
ticks again each time: the loop does not end. -/
theorem timer_never_ends :
    let s : Ticks := ⟨2147483647#32, [⟨1, 2147483647#32, .timerInt, 0⟩], 1⟩
    let h : Handlers := fun _ _ => some ⟨1, 100, .timerInt, by decide, by decide⟩
    s.frontDue = true ∧ s.Objects ∧ ¬ ∃ fuel r, drain h 0 fuel s = some r := by
  intro s h
  refine ⟨by decide, ⟨by decide, by decide⟩, ?_⟩
  rintro ⟨fuel, r, hr⟩
  have hnone : drain (always ⟨1, 100, .timerInt, by decide, by decide⟩) 0 fuel s = none :=
    drain_none (by decide) fuel 0
  rw [show drain h 0 fuel s = none from hnone] at hr
  cases hr

end Ticks
end Nachos
