/-
# Simulated interrupts (`machine/interrupt.cc`)

A device schedules an interrupt some ticks ahead; it waits in a list sorted
by its time until the clock has reached it. The clock moves when interrupts
are enabled again, when a user instruction is executed, and, with nothing to
run, straight to the next interrupt. `CheckIfDue` then calls the handlers of
all interrupts that are due, and a handler may schedule more from inside that
loop.

Every operation is a sequence of four moves (`Move`): the clock advances, an
interrupt is scheduled ahead of the clock, the front of the list is delivered
when it is due, or only flags change. What each move keeps, every run keeps
(`inv_reach`), and the loop runs until nothing is due (`drain_spec`,
`drain_total`).

* `deliveries_ordered`: over every run each scheduled interrupt is pending or
  has been delivered, once, not before its time, and the deliveries are in
  the order of their times, ties in the order of scheduling.

Key definitions: `Interrupt.schedule`, `Interrupt.checkIfDue`,
`Interrupt.oneTick`, `Interrupt.idle`, `Interrupt.step`, `Interrupt.Move`.
Key theorems: `Interrupt.step_moves`, `Interrupt.inv_reach`,
`Interrupt.deliveries_ordered`.
-/
import Mathlib
import Nachos.Base.Runs
import Nachos.Lib.SortedList

namespace Nachos

/-- `enum IntStatus`. -/
inductive IntStatus
  | off
  | on
  deriving DecidableEq

/-- `enum MachineStatus`. -/
inductive MachineStatus
  | idleMode
  | systemMode
  | userMode
  deriving DecidableEq

/-- `enum IntType`. -/
inductive IntType
  | timerInt
  | diskInt
  | consoleWriteInt
  | consoleReadInt
  | networkSendInt
  | networkRecvInt
  deriving DecidableEq

/-- The clock of `class Statistics`. -/
structure Statistics where
  totalTicks : ℤ
  idleTicks : ℤ
  systemTicks : ℤ
  userTicks : ℤ
  deriving DecidableEq

/-- `UserTick` of `machine/stats.h`. -/
def userTick : ℤ := 1

/-- `SystemTick` of `machine/stats.h`. -/
def systemTick : ℤ := 10

/-- `class PendingInterrupt`. The object to call is known by a number, and
`id` tells the object itself from the others: the calls of `Schedule` before
its own. -/
structure PendingInterrupt where
  callOnInterrupt : ℕ
  «when» : ℤ
  type : IntType
  id : ℕ
  deriving DecidableEq

/-- `PendingCompare`. -/
def pendingCompare (x y : PendingInterrupt) : ℤ :=
  if x.when < y.when then -1 else if x.when > y.when then 1 else 0

/-- `class Interrupt`, the kernel's statistics, and the history of the run. -/
structure Interrupt where
  level : IntStatus
  pending : List PendingInterrupt
  inHandler : Bool
  yieldOnReturn : Bool
  status : MachineStatus
  stats : Statistics
  /-- the interrupts scheduled so far -/
  scheduled : List PendingInterrupt
  /-- the handlers called so far, with the clock at the call -/
  delivered : List (PendingInterrupt × ℤ)

namespace Interrupt

/-! ### The code -/

/-- `Interrupt::Interrupt`, with `Statistics::Statistics`. -/
def initial : Interrupt :=
  { level := .off, pending := [], inHandler := false, yieldOnReturn := false, status := .systemMode,
    stats := ⟨0, 0, 0, 0⟩, scheduled := [], delivered := [] }

/-- `Interrupt::Schedule`. -/
def schedule (s : Interrupt) (toCall : ℕ) (fromNow : ℤ) (type : IntType) : Option Interrupt :=
  let toOccur : PendingInterrupt := ⟨toCall, s.stats.totalTicks + fromNow, type, s.scheduled.length⟩
  if fromNow > 0 then
    some { s with
      pending := SortedList.insert pendingCompare toOccur s.pending
      scheduled := s.scheduled ++ [toOccur] }
  else none

/-- What a handler does to the interrupt hardware. -/
inductive HandlerCall
  | schedule (toCall : ℕ) (fromNow : ℤ) (type : IntType)
  | yieldOnReturn
  | setLevel (now : IntStatus)

/-- One call from a handler. `SetLevel` asserts that a handler does not enable
interrupts, so there it only writes the level. -/
def handlerCall (s : Interrupt) : HandlerCall → Option Interrupt
  | .schedule toCall fromNow type => s.schedule toCall fromNow type
  | .yieldOnReturn => if s.inHandler then some { s with yieldOnReturn := true } else none
  | .setLevel now => if now = .off ∨ s.inHandler = false then some { s with level := now } else none

/-- `callOnInterrupt->CallBack()`: the calls of the handler, in turn. -/
def callBack (s : Interrupt) : List HandlerCall → Option Interrupt
  | [] => some s
  | c :: cs => (s.handlerCall c).bind fun s' => s'.callBack cs

/-- The handlers: what each interrupt's handler calls. -/
abbrev Handlers := PendingInterrupt → List HandlerCall

/-- The front of the list, if any, is due: the test of the loop. -/
def frontDue (s : Interrupt) : Bool := s.pending.head?.any fun p => p.when ≤ s.stats.totalTicks

/-- The loop of `CheckIfDue`: remove the front, call its handler, and again
while the front is due. -/
def drain (h : Handlers) : ℕ → Interrupt → Option Interrupt
  | 0, _ => none
  | fuel + 1, s =>
    match s.pending with
    | [] => none
    | next :: rest =>
      ({ s with pending := rest, delivered := s.delivered ++ [(next, s.stats.totalTicks)] }.callBack
        (h next)).bind fun s' => if s'.frontDue then drain h fuel s' else some s'

/-- `CheckIfDue` from `inHandler = TRUE` on. The loop runs once for each
interrupt that is due, so the length of the list is fuel enough. -/
def fire (h : Handlers) (s : Interrupt) : Option (Interrupt × Bool) :=
  (drain h s.pending.length { s with inHandler := true }).map fun s' =>
    ({ s' with inHandler := false }, true)

/-- `CheckIfDue` advances the clock to the next interrupt, at `time`. -/
def advanceTo (s : Interrupt) (time : ℤ) : Interrupt :=
  { s with stats := { s.stats with
      idleTicks := s.stats.idleTicks + (time - s.stats.totalTicks)
      totalTicks := time } }

/-- `Interrupt::CheckIfDue`. -/
def checkIfDue (h : Handlers) (advanceClock : Bool) (s : Interrupt) : Option (Interrupt × Bool) :=
  if s.level = .off then
    match s.pending with
    | [] => some (s, false)
    | next :: _ =>
      if next.when > s.stats.totalTicks then
        if advanceClock then fire h (s.advanceTo next.when) else some (s, false)
      else fire h s
  else none

/-- The clock of `OneTick`. -/
def advance (status : MachineStatus) (stats : Statistics) : Statistics :=
  if status = .systemMode then
    { stats with
      totalTicks := stats.totalTicks + systemTick, systemTicks := stats.systemTicks + systemTick }
  else
    { stats with
      totalTicks := stats.totalTicks + userTick, userTicks := stats.userTicks + userTick }

/-- `Interrupt::OneTick`, to the call of `Yield`: the other threads run from
there, and the status is restored by a later `setStatus`. -/
def oneTick (h : Handlers) (s : Interrupt) : Option Interrupt :=
  (checkIfDue h false { s with stats := advance s.status s.stats, level := .off }).map fun r =>
    if r.1.yieldOnReturn then
      { r.1 with level := .on, yieldOnReturn := false, status := .systemMode }
    else { r.1 with level := .on }

/-- `Interrupt::SetLevel`. -/
def setLevel (h : Handlers) (now : IntStatus) (s : Interrupt) : Option Interrupt :=
  if now = .off ∨ s.inHandler = false then
    if now = .on ∧ s.level = .off then oneTick h { s with level := now }
    else some { s with level := now }
  else none

/-- `Interrupt::Idle`. With nothing pending the machine halts. -/
def idle (h : Handlers) (s : Interrupt) : Option Interrupt :=
  (checkIfDue h true { s with status := .idleMode }).bind fun r =>
    if r.2 then some { r.1 with status := .systemMode } else none

/-- The calls of a run, each with what the handlers do during it. `setStatus`
is the kernel's own assignment to `status`. -/
inductive Label
  | setLevel (now : IntStatus) (h : Handlers)
  | oneTick (h : Handlers)
  | idle (h : Handlers)
  | schedule (toCall : ℕ) (fromNow : ℤ) (type : IntType)
  | setStatus (status : MachineStatus)

def step (s : Interrupt) : Label → Option Interrupt
  | .setLevel now h => s.setLevel h now
  | .oneTick h => s.oneTick h
  | .idle h => s.idle h
  | .schedule toCall fromNow type => s.schedule toCall fromNow type
  | .setStatus status => some { s with status := status }

/-- The states of the runs. -/
abbrev Reach : Interrupt → Prop := Runs.Reach step (· = initial) Runs.anyStep

/-! ### Moves -/

/-- What an operation is made of. -/
inductive Move : Interrupt → Interrupt → Prop
  /-- the flags change, the clock, the list and the history do not -/
  | flags {s s' : Interrupt} (hp : s'.pending = s.pending) (ht : s'.stats = s.stats)
      (hs : s'.scheduled = s.scheduled) (hd : s'.delivered = s.delivered) : Move s s'
  /-- the clock advances, and the kind of tick with it -/
  | clock {s : Interrupt} (stats : Statistics) (hle : s.stats.totalTicks ≤ stats.totalTicks)
      (hsum : stats.totalTicks - (stats.idleTicks + stats.systemTicks + stats.userTicks) =
        s.stats.totalTicks - (s.stats.idleTicks + s.stats.systemTicks + s.stats.userTicks)) :
      Move s { s with stats := stats }
  /-- an interrupt is scheduled ahead of the clock -/
  | insert {s : Interrupt} (p : PendingInterrupt) (hw : s.stats.totalTicks < p.when)
      (hid : p.id = s.scheduled.length) :
      Move s { s with
        pending := SortedList.insert pendingCompare p s.pending, scheduled := s.scheduled ++ [p] }
  /-- the front is delivered, when it is due -/
  | deliver {s : Interrupt} (p : PendingInterrupt) (rest : List PendingInterrupt)
      (hp : s.pending = p :: rest)
      (hw : p.when ≤ s.stats.totalTicks) :
      Move s { s with pending := rest, delivered := s.delivered ++ [(p, s.stats.totalTicks)] }

/-- Any number of moves. -/
abbrev Moves : Interrupt → Interrupt → Prop := Relation.ReflTransGen Move

variable {s s' : Interrupt} {h : Handlers}

theorem schedule_move {toCall : ℕ} {fromNow : ℤ} {type : IntType}
    (hs : s.schedule toCall fromNow type = some s') : Move s s' := by
  unfold schedule at hs
  split_ifs at hs with hf
  cases hs
  refine Move.insert _ ?_ rfl
  simp only
  omega

theorem handlerCall_move {c : HandlerCall} (hs : s.handlerCall c = some s') : Move s s' := by
  cases c with
  | schedule toCall fromNow type => exact schedule_move hs
  | yieldOnReturn =>
    simp only [handlerCall] at hs
    split_ifs at hs
    cases hs
    exact Move.flags rfl rfl rfl rfl
  | setLevel now =>
    simp only [handlerCall] at hs
    split_ifs at hs
    cases hs
    exact Move.flags rfl rfl rfl rfl

theorem callBack_moves (cs : List HandlerCall) (hs : s.callBack cs = some s') : Moves s s' := by
  induction cs generalizing s with
  | nil =>
    cases hs
    exact Relation.ReflTransGen.refl
  | cons c cs ih =>
    obtain ⟨s1, h1, h2⟩ := Option.bind_eq_some_iff.mp hs
    exact Relation.ReflTransGen.head (handlerCall_move h1) (ih h2)

theorem frontDue_cases (hf : s.frontDue = true) :
    ∃ p rest, s.pending = p :: rest ∧ p.when ≤ s.stats.totalTicks := by
  unfold frontDue at hf
  cases hp : s.pending with
  | nil => simp [hp] at hf
  | cons p rest => exact ⟨p, rest, rfl, by simpa [hp] using hf⟩

/-- The loop delivers and lets handlers run until the front is not due. -/
theorem drain_spec (fuel : ℕ) (hdue : s.frontDue = true) (hs : drain h fuel s = some s') :
    Moves s s' ∧ s'.frontDue = false := by
  induction fuel generalizing s with
  | zero => cases hs
  | succ fuel ih =>
    obtain ⟨next, rest, hp, hw⟩ := frontDue_cases hdue
    unfold drain at hs
    simp only [hp] at hs
    obtain ⟨s1, h1, h2⟩ := Option.bind_eq_some_iff.mp hs
    have hmoves := Relation.ReflTransGen.head (Move.deliver next rest hp hw) (callBack_moves _ h1)
    split_ifs at h2 with hf
    · obtain ⟨h3, h4⟩ := ih hf h2
      exact ⟨hmoves.trans h3, h4⟩
    · cases h2
      exact ⟨hmoves, Bool.not_eq_true _ ▸ hf⟩

theorem fire_spec {r : Interrupt × Bool} (hdue : s.frontDue = true) (hs : fire h s = some r) :
    Moves s r.1 ∧ r.1.frontDue = false := by
  obtain ⟨s1, h1, rfl⟩ := Option.map_eq_some_iff.mp hs
  obtain ⟨h2, h3⟩ := drain_spec (s := { s with inHandler := true }) _ hdue h1
  have hin : Move s { s with inHandler := true } := Move.flags rfl rfl rfl rfl
  have hout : Move s1 { s1 with inHandler := false } := Move.flags rfl rfl rfl rfl
  exact ⟨(Relation.ReflTransGen.head hin h2).tail hout, h3⟩

/-- `CheckIfDue` leaves nothing due at the front. -/
theorem checkIfDue_spec {adv : Bool} {r : Interrupt × Bool} (hs : checkIfDue h adv s = some r) :
    Moves s r.1 ∧ r.1.frontDue = false := by
  unfold checkIfDue at hs
  by_cases hl : s.level = .off
  swap
  · rw [if_neg hl] at hs
    cases hs
  rw [if_pos hl] at hs
  rcases hp : s.pending with _ | ⟨next, rest⟩
  · simp only [hp, Option.some.injEq] at hs
    subst hs
    exact ⟨Relation.ReflTransGen.refl, by simp [frontDue, hp]⟩
  · rw [hp] at hs
    by_cases hw : next.when > s.stats.totalTicks
    · simp only [if_pos hw] at hs
      by_cases ha : adv = true
      · -- the clock jumps to the front
        rw [if_pos ha] at hs
        have hdue : (s.advanceTo next.when).frontDue = true := by simp [frontDue, advanceTo, hp]
        obtain ⟨h1, h2⟩ := fire_spec hdue hs
        refine ⟨Relation.ReflTransGen.head (Move.clock _ ?_ ?_) h1, h2⟩
        · simp only
          omega
        · simp only
          ring
      · rw [if_neg ha] at hs
        cases hs
        exact ⟨Relation.ReflTransGen.refl, by simpa [frontDue, hp] using hw⟩
    · simp only [if_neg hw] at hs
      exact fire_spec (by simpa [frontDue, hp] using hw) hs

theorem oneTick_spec (hs : oneTick h s = some s') : Moves s s' ∧ s'.frontDue = false := by
  obtain ⟨r, hr, rfl⟩ := Option.map_eq_some_iff.mp hs
  obtain ⟨h1, h2⟩ := checkIfDue_spec hr
  have hclock : Move s { s with stats := advance s.status s.stats } := by
    refine Move.clock _ ?_ ?_ <;> unfold advance systemTick userTick <;> split_ifs <;>
      simp only <;> omega
  have hoff : Move { s with stats := advance s.status s.stats }
      { s with stats := advance s.status s.stats, level := .off } := Move.flags rfl rfl rfl rfl
  have hm := Relation.ReflTransGen.head hclock (Relation.ReflTransGen.head hoff h1)
  split_ifs
  · exact ⟨hm.tail (Move.flags rfl rfl rfl rfl), h2⟩
  · exact ⟨hm.tail (Move.flags rfl rfl rfl rfl), h2⟩

theorem idle_spec (hs : idle h s = some s') : Moves s s' ∧ s'.frontDue = false := by
  obtain ⟨r, hr, h2⟩ := Option.bind_eq_some_iff.mp hs
  split_ifs at h2
  cases h2
  obtain ⟨h3, h4⟩ := checkIfDue_spec hr
  have hin : Move s { s with status := .idleMode } := Move.flags rfl rfl rfl rfl
  exact ⟨(Relation.ReflTransGen.head hin h3).tail (Move.flags rfl rfl rfl rfl), h4⟩

/-- Every step of a run is made of moves. -/
theorem step_moves (l : Label) (hs : s.step l = some s') : Moves s s' := by
  cases l with
  | setLevel now h =>
    simp only [step, setLevel] at hs
    split_ifs at hs
    · have hin : Move s { s with level := now } := Move.flags rfl rfl rfl rfl
      exact Relation.ReflTransGen.head hin (oneTick_spec hs).1
    · cases hs
      exact Relation.ReflTransGen.single (Move.flags rfl rfl rfl rfl)
  | oneTick h => exact (oneTick_spec hs).1
  | idle h => exact (idle_spec hs).1
  | schedule toCall fromNow type => exact Relation.ReflTransGen.single (schedule_move hs)
  | setStatus status =>
    cases hs
    exact Relation.ReflTransGen.single (Move.flags rfl rfl rfl rfl)

/-! ### What every run keeps -/

/-- The order of delivery: by time, ties by the order of scheduling. -/
def Before (a b : PendingInterrupt) : Prop := a.when < b.when ∨ a.when = b.when ∧ a.id < b.id

theorem Before.trans {a b c : PendingInterrupt} (hab : Before a b) (hbc : Before b c) :
    Before a c := by
  unfold Before at *
  omega

theorem Before.ne {a b : PendingInterrupt} (hab : Before a b) : a ≠ b := by
  intro he
  subst he
  unfold Before at hab
  omega

/-- The delivered interrupts and the pending ones, in this order, are all
those scheduled, in the order of delivery. -/
structure Inv (s : Interrupt) : Prop where
  sum : s.stats.totalTicks = s.stats.idleTicks + s.stats.systemTicks + s.stats.userTicks
  ids : s.scheduled.map (·.id) = List.range s.scheduled.length
  kept : (s.delivered.map Prod.fst ++ s.pending).Perm s.scheduled
  sorted : (s.delivered.map Prod.fst ++ s.pending).Pairwise Before
  due : ∀ d ∈ s.delivered, d.1.when ≤ d.2 ∧ d.2 ≤ s.stats.totalTicks

theorem inv_initial : Inv initial := by
  refine
    { sum := rfl, ids := rfl, kept := List.Perm.refl _, sorted := List.Pairwise.nil, due := ?_ }
  simp [initial]

theorem id_lt (hI : Inv s) {p : PendingInterrupt} (hp : p ∈ s.scheduled) :
    p.id < s.scheduled.length := by
  have hmem : p.id ∈ s.scheduled.map (·.id) := List.mem_map.mpr ⟨p, hp, rfl⟩
  rw [hI.ids] at hmem
  exact List.mem_range.mp hmem

/-- An interrupt scheduled ahead of the clock goes behind those delivered, and
among those pending behind the ones of its own time. -/
theorem sorted_insert (hI : Inv s) {p : PendingInterrupt} (hw : s.stats.totalTicks < p.when)
    (hid : p.id = s.scheduled.length) :
    (s.delivered.map Prod.fst ++ SortedList.insert pendingCompare p s.pending).Pairwise Before := by
  obtain ⟨hd, hp, hdp⟩ := List.pairwise_append.mp hI.sorted
  refine List.pairwise_append.mpr ⟨hd, ?_, fun x hx y hy => ?_⟩
  · refine SortedList.pairwise_insert (fun x y z hxy hyz => Before.trans hxy hyz) (fun x _ hc => ?_)
      (fun x hx hc => ?_) hp
    · left
      unfold pendingCompare at hc
      split_ifs at hc with h1 h2
      · exact h1
      · omega
      · omega
    · have hlt := id_lt hI (hI.kept.mem_iff.mp (List.mem_append_right _ hx))
      unfold pendingCompare at hc
      unfold Before
      split_ifs at hc <;> omega
  · rcases SortedList.mem_insert.mp hy with rfl | hy
    · obtain ⟨d, hmem, rfl⟩ := List.mem_map.mp hx
      have hdue := hI.due d hmem
      left
      omega
    · exact hdp x hx y hy

theorem inv_move (hI : Inv s) (hm : Move s s') : Inv s' := by
  cases hm with
  | flags hp ht hs hd =>
    refine { sum := ?_, ids := ?_, kept := ?_, sorted := ?_, due := ?_ }
    · rw [ht]; exact hI.sum
    · rw [hs]; exact hI.ids
    · rw [hp, hs, hd]; exact hI.kept
    · rw [hp, hd]; exact hI.sorted
    · rw [ht, hd]; exact hI.due
  | clock stats hle hsum =>
    refine { sum := ?_, ids := hI.ids, kept := hI.kept, sorted := hI.sorted, due := fun d hd => ?_ }
    · have := hI.sum
      simp only
      omega
    · have := hI.due d hd
      simp only
      omega
  | insert p hw hid =>
    refine
      { sum := hI.sum, ids := ?_, kept := ?_, sorted := sorted_insert hI hw hid, due := hI.due }
    · simp only [List.map_append, List.map_cons, List.map_nil, List.length_append,
        List.length_singleton]
      rw [hI.ids, hid, List.range_succ]
    · calc s.delivered.map Prod.fst ++ SortedList.insert pendingCompare p s.pending
          |>.Perm (s.delivered.map Prod.fst ++ p :: s.pending) :=
            (SortedList.insert_perm pendingCompare p s.pending).append_left _
        _ |>.Perm (p :: (s.delivered.map Prod.fst ++ s.pending)) := List.perm_middle
        _ |>.Perm (p :: s.scheduled) := hI.kept.cons p
        _ |>.Perm (s.scheduled ++ [p]) := (List.perm_append_singleton p s.scheduled).symm
  | deliver p rest hp hw =>
    have hlist : (s.delivered ++ [(p, s.stats.totalTicks)]).map Prod.fst ++ rest =
        s.delivered.map Prod.fst ++ s.pending := by simp [hp]
    refine { sum := hI.sum, ids := hI.ids, kept := ?_, sorted := ?_, due := fun d hd => ?_ }
    · rw [hlist]; exact hI.kept
    · rw [hlist]; exact hI.sorted
    · rcases List.mem_append.mp hd with hd | hd
      · exact hI.due d hd
      · rw [List.mem_singleton.mp hd]
        exact ⟨hw, le_rfl⟩

theorem inv_moves (hI : Inv s) (hm : Moves s s') : Inv s' := by
  induction hm with
  | refl => exact hI
  | tail _ hm ih => exact inv_move ih hm

theorem inv_reach (hr : Reach s) : Inv s := by
  refine hr.inv Inv ?_ fun s l s' _ hI _ hs => inv_moves hI (step_moves l hs)
  intro s hs
  rw [hs]
  exact inv_initial

/-- `s'` comes after `s`: the clock and the history have only grown. -/
structure After (s s' : Interrupt) : Prop where
  clock : s.stats.totalTicks ≤ s'.stats.totalTicks
  scheduled : s.scheduled <+: s'.scheduled
  delivered : s.delivered <+: s'.delivered

theorem After.refl (s : Interrupt) : After s s := ⟨le_rfl, List.prefix_rfl, List.prefix_rfl⟩

theorem After.trans {s1 s2 s3 : Interrupt} (h12 : After s1 s2) (h23 : After s2 s3) : After s1 s3 :=
  ⟨h12.clock.trans h23.clock, h12.scheduled.trans h23.scheduled, h12.delivered.trans h23.delivered⟩

theorem after_move (hm : Move s s') : After s s' := by
  cases hm with
  | flags hp ht hs hd => exact ⟨by rw [ht], by rw [hs], by rw [hd]⟩
  | clock stats hle hsum => exact ⟨hle, List.prefix_rfl, List.prefix_rfl⟩
  | insert p hw hid => exact ⟨le_rfl, List.prefix_append _ _, List.prefix_rfl⟩
  | deliver p rest hp hw => exact ⟨le_rfl, List.prefix_rfl, List.prefix_append _ _⟩

theorem after_moves (hm : Moves s s') : After s s' := by
  induction hm with
  | refl => exact After.refl _
  | tail _ hm ih => exact ih.trans (after_move hm)

theorem after_exec (ls : List Label) (he : Runs.exec step s ls = some s') : After s s' := by
  induction ls generalizing s with
  | nil =>
    cases he
    exact After.refl _
  | cons l ls ih =>
    obtain ⟨s1, h1, h2⟩ := Option.bind_eq_some_iff.mp he
    exact (after_moves (step_moves l h1)).trans (ih h2)

/-- No pending interrupt is due. -/
def NothingDue (s : Interrupt) : Prop := ∀ p ∈ s.pending, s.stats.totalTicks < p.when

/-- The list is sorted, so it is enough that the front is not due. -/
theorem nothingDue_of_front (hI : Inv s) (hf : s.frontDue = false) : NothingDue s := by
  intro p hp
  have hsorted := (List.pairwise_append.mp hI.sorted).2.1
  unfold frontDue at hf
  cases hlist : s.pending with
  | nil =>
    rw [hlist] at hp
    cases hp
  | cons q rest =>
    rw [hlist] at hp hsorted
    simp only [hlist, List.head?_cons, Option.any_some, decide_eq_false_iff_not, not_le] at hf
    rcases List.mem_cons.mp hp with rfl | hp
    · exact hf
    · have := (List.pairwise_cons.mp hsorted).1 p hp
      unfold Before at this
      omega

/-! ### The loop ends -/

/-- The calls that pass the `ASSERT`s of `Schedule` and `SetLevel`. -/
def HandlerCall.Allowed : HandlerCall → Prop
  | .schedule _ fromNow _ => fromNow > 0
  | .yieldOnReturn => True
  | .setLevel now => now = .off

/-- The number of interrupts that are due. -/
def dueCount (s : Interrupt) : ℕ := s.pending.countP fun p => p.when ≤ s.stats.totalTicks

/-- A call from a handler schedules nothing that is due. -/
theorem handlerCall_total {c : HandlerCall} (hin : s.inHandler = true) (hc : c.Allowed) :
    ∃ s', s.handlerCall c = some s' ∧ s'.inHandler = true ∧ s'.dueCount = s.dueCount := by
  cases c with
  | schedule toCall fromNow type =>
    have hpos : fromNow > 0 := hc
    refine ⟨_, if_pos hpos, hin, ?_⟩
    unfold dueCount
    simp only
    rw [(SortedList.insert_perm pendingCompare _ s.pending).countP_eq, List.countP_cons_of_neg]
    simp only [decide_eq_true_eq]
    omega
  | yieldOnReturn => exact ⟨_, if_pos hin, hin, rfl⟩
  | setLevel now =>
    have hoff : now = .off := hc
    exact ⟨_, if_pos (Or.inl hoff), hin, rfl⟩

theorem callBack_total (cs : List HandlerCall) (hin : s.inHandler = true)
    (hc : ∀ c ∈ cs, c.Allowed) :
    ∃ s', s.callBack cs = some s' ∧ s'.inHandler = true ∧ s'.dueCount = s.dueCount := by
  induction cs generalizing s with
  | nil => exact ⟨s, rfl, hin, rfl⟩
  | cons c cs ih =>
    obtain ⟨s1, h1, hin1, hd1⟩ := handlerCall_total hin (hc c List.mem_cons_self)
    obtain ⟨s2, h2, hin2, hd2⟩ := ih hin1 fun c' hc' => hc c' (List.mem_cons_of_mem _ hc')
    refine ⟨s2, ?_, hin2, hd2.trans hd1⟩
    unfold callBack
    rw [h1]
    exact h2

theorem dueCount_front (hf : s.frontDue = true) :
    ∃ p rest, s.pending = p :: rest ∧
    s.dueCount = rest.countP (fun q => q.when ≤ s.stats.totalTicks) + 1 := by
  obtain ⟨p, rest, hp, hw⟩ := frontDue_cases hf
  refine ⟨p, rest, hp, ?_⟩
  unfold dueCount
  rw [hp]
  exact List.countP_cons_of_pos (decide_eq_true hw)

/-- Fuel for the interrupts that are due is enough: each pass delivers one of
them and the handlers bring no new one. -/
theorem drain_total (hh : ∀ p, ∀ c ∈ h p, c.Allowed) (fuel : ℕ) (hin : s.inHandler = true)
    (hf : s.frontDue = true) (hfuel : s.dueCount ≤ fuel) : (drain h fuel s).isSome := by
  induction fuel generalizing s with
  | zero =>
    obtain ⟨p, rest, -, hcount⟩ := dueCount_front hf
    omega
  | succ fuel ih =>
    obtain ⟨next, rest, hp, hcount⟩ := dueCount_front hf
    obtain ⟨s1, h1, hin1, hd1⟩ := callBack_total
      (s := { s with pending := rest, delivered := s.delivered ++ [(next, s.stats.totalTicks)] })
      (h next) hin (hh next)
    unfold drain
    simp only [hp, h1, Option.bind_some]
    split_ifs with hf1
    · refine ih hin1 hf1 ?_
      rw [hd1]
      unfold dueCount at hcount hfuel ⊢
      simp only
      omega
    · rfl

theorem fire_total (hh : ∀ p, ∀ c ∈ h p, c.Allowed) (hf : s.frontDue = true) :
    (fire h s).isSome := by
  have hlen : s.dueCount ≤ s.pending.length := List.countP_le_length
  have := drain_total (s := { s with inHandler := true }) hh s.pending.length rfl hf hlen
  unfold fire
  rw [Option.isSome_map]
  exact this

/-- `CheckIfDue` returns. -/
theorem checkIfDue_total (hh : ∀ p, ∀ c ∈ h p, c.Allowed) (adv : Bool) (hl : s.level = .off) :
    (checkIfDue h adv s).isSome := by
  unfold checkIfDue
  rw [if_pos hl]
  rcases hp : s.pending with _ | ⟨next, rest⟩
  · rfl
  · simp only
    by_cases hw : next.when > s.stats.totalTicks
    · rw [if_pos hw]
      by_cases ha : adv = true
      · rw [if_pos ha]
        exact fire_total hh (by simp [frontDue, advanceTo, hp])
      · rw [if_neg ha]
        rfl
    · rw [if_neg hw]
      exact fire_total hh (by simpa [frontDue, hp] using hw)

/-! ### Every run -/

/-- **Simulated interrupts.** In every state of every run the clock is the sum
of its parts; the scheduled interrupts, numbered in the order of scheduling,
are each pending or delivered and never both or twice; each was delivered at
its time or later, in the order of times, ties in the order of scheduling.
From there on the clock does not go back and the history only grows, and each
of `CheckIfDue`, `OneTick` and `Idle` leaves nothing due. `CheckIfDue` returns
when its handlers schedule ahead of the clock. -/
theorem deliveries_ordered {s : Interrupt} (hr : Reach s) :
    s.stats.totalTicks = s.stats.idleTicks + s.stats.systemTicks + s.stats.userTicks ∧
      s.scheduled.map (·.id) = List.range s.scheduled.length ∧
      (s.delivered.map Prod.fst ++ s.pending).Nodup ∧
      (s.delivered.map Prod.fst ++ s.pending).Perm s.scheduled ∧
      (∀ d ∈ s.delivered, d.1.when ≤ d.2) ∧
      (s.delivered.map Prod.fst).Pairwise Before ∧
      (∀ ls s', Runs.exec step s ls = some s' → After s s') ∧
      (∀ h adv s' fired, checkIfDue h adv s = some (s', fired) → NothingDue s') ∧
      (∀ h s', oneTick h s = some s' ∨ idle h s = some s' → NothingDue s') ∧
      (∀ h adv, (∀ p, ∀ c ∈ h p, c.Allowed) → s.level = .off → (checkIfDue h adv s).isSome) := by
  have hI := inv_reach hr
  have hsorted := List.pairwise_append.mp hI.sorted
  refine ⟨hI.sum, hI.ids, hI.sorted.imp Before.ne, hI.kept, fun d hd => (hI.due d hd).1, hsorted.1,
    fun ls s' => after_exec ls, fun h adv s' fired hs => ?_, fun h s' hs =>
    ?_, fun h adv hh hl => ?_⟩
  · obtain ⟨hm, hf⟩ := checkIfDue_spec hs
    exact nothingDue_of_front (inv_moves hI hm) hf
  · obtain ⟨hm, hf⟩ := hs.elim oneTick_spec idle_spec
    exact nothingDue_of_front (inv_moves hI hm) hf
  · exact checkIfDue_total hh adv hl

/-- Two interrupts of one time and a handler that schedules a third: the clock
passes the first two in one tick and jumps to the third when idle. -/
theorem deliveries_ordered_handler :
    ∃ s, Reach s ∧ s.delivered.map (fun d => (d.1.id, d.1.when, d.2)) =
      [(0, 5, 10), (1, 5, 10), (2, 17, 17)] ∧ (s.delivered.map Prod.fst).Pairwise Before := by
  obtain ⟨s, hs, ht⟩ := Runs.Reach.of_exec step (· = initial) rfl
    [.schedule 1 5 .diskInt, .schedule 2 5 .consoleReadInt,
      .setLevel .on fun p => if p.id = 0 then [.schedule 3 7 .timerInt, .yieldOnReturn] else [],
      .setLevel .off fun _ => [], .idle fun _ => []] (Runs.along_any _ _)
    (fun s => s.delivered.map (fun d => (d.1.id, d.1.when, d.2)) =
      [(0, 5, 10), (1, 5, 10), (2, 17, 17)])
    (by decide)
  exact ⟨s, hs, of_decide_eq_true ht, (deliveries_ordered hs).2.2.2.2.2.1⟩

end Interrupt
end Nachos
