/-
# Synchronous calls of an asynchronous device

`SynchDisk`, `SynchConsoleOutput` and `PostOfficeOutput` have one shape: a
device takes a request, returns at once and interrupts later; the call holds a
lock over the request and waits on a semaphore for the interrupt, whose handler
does `V`. `SynchDevice` is that shape, over any `Device`, for any number of
threads; an interrupt that is scheduled may come at any later step.

* `Stage`: the lock and the semaphore make four stages of it, from the request
  over the interrupt and the `P` to the `Release`, with one call at a time.
* `synchronous`: no `ASSERT` fails, the interrupts come in the order of the
  requests, each lets one call go on and that is the call of its request, and
  the answers are those of the requests made one after the other.

Key definitions: `Device.after`, `Device.Sequential`, `SynchDevice.step`,
`SynchDevice.Stage`.
Key theorems: `SynchDevice.step_cases`, `SynchDevice.stage_turn`,
`SynchDevice.synchronous`.
-/
import Mathlib
import Nachos.Threads.Monitor

namespace Nachos

/-- A device with one kind of interrupt. -/
structure Device (δ ρ α : Type) where
  /-- the `ASSERT`s of a request -/
  ok : δ → ρ → Bool
  /-- what a request does at once, and what it gives the caller -/
  request : δ → ρ → δ × α
  /-- the device's part of the interrupt handler -/
  callBack : δ → δ

namespace Device

variable {δ ρ α : Type} (d : Device δ ρ α) (x : δ)

/-- The device after the requests `rs`, each with its interrupt. -/
def after (rs : List ρ) : δ := rs.foldl (fun x r => d.callBack (d.request x r).1) x

/-- The answers are those of the requests made one after the other. -/
def Sequential (h : List (ρ × α)) : Prop :=
  ∀ pre r a post, h = pre ++ (r, a) :: post → a = (d.request (d.after x (pre.map Prod.fst)) r).2

theorem after_concat (rs : List ρ) (r : ρ) :
    d.after x (rs ++ [r]) = d.callBack (d.request (d.after x rs) r).1 := by
  simp [after]

theorem sequential_nil : d.Sequential x [] := by
  intro pre r a post h
  exact absurd h (by simp)

theorem Sequential.concat {h : List (ρ × α)} (hs : d.Sequential x h) (r : ρ) :
    d.Sequential x (h ++ [(r, (d.request (d.after x (h.map Prod.fst)) r).2)]) := by
  intro pre r' a post he
  rcases List.eq_nil_or_concat post with rfl | ⟨post', last, rfl⟩
  · obtain ⟨rfl, hlast⟩ := List.append_inj' he rfl
    obtain ⟨rfl, rfl⟩ := Prod.mk.inj (List.cons.inj hlast).1
    rfl
  · rw [List.concat_eq_append, ← List.cons_append, ← List.append_assoc] at he
    obtain ⟨rfl, -⟩ := List.append_inj' he rfl
    exact hs pre r' a post' rfl

end Device

namespace SynchDevice

/-- Where a thread is. -/
inductive Pc (ρ α : Type)
  | out
  /-- in the call, the request not yet made -/
  | call (r : ρ)
  /-- in the `P` of the semaphore: request `k` was made, with the answer `a` -/
  | waiting (k : ℕ) (a : α)
  /-- before `Release` -/
  | done (k : ℕ) (a : α)
  deriving DecidableEq

/-- Between the request and the `Release`. -/
def Pc.requested {ρ α : Type} : Pc ρ α → Bool
  | .out | .call _ => false
  | .waiting _ _ | .done _ _ => true

end SynchDevice

/-- The lock, the semaphore, the device, the callers, and the history. -/
structure SynchDevice (δ ρ α : Type) where
  /-- `lock`; there is no condition -/
  mon : Monitor
  semaphore : Semaphore
  dev : δ
  pc : Tid → SynchDevice.Pc ρ α
  /-- the requests whose interrupt is still to come -/
  scheduled : List ℕ
  /-- an `ASSERT` of a request or of the semaphore's queue has failed -/
  aborted : Bool
  /-- the requests in order, with their answers -/
  issued : List (ρ × α)
  /-- the requests whose interrupt has come, in order -/
  delivered : List ℕ
  /-- the requests whose call is past its `P`, in order -/
  released : List ℕ
  /-- the requests whose call has returned, with what it returned -/
  returned : List (ℕ × α)

namespace SynchDevice

variable {δ ρ α : Type}

/-! ### The code -/

/-- The request, by the thread with the lock. -/
def issue (d : Device δ ρ α) (s : SynchDevice δ ρ α) (t : Tid) (r : ρ) : SynchDevice δ ρ α :=
  { s with
    aborted := s.aborted || !d.ok s.dev r
    dev := (d.request s.dev r).1
    scheduled := s.scheduled ++ [s.issued.length]
    issued := s.issued ++ [(r, (d.request s.dev r).2)]
    pc := Function.update s.pc t (.waiting s.issued.length (d.request s.dev r).2) }

/-- A pass of the loop of `semaphore->P()` that succeeds. -/
def passP (s : SynchDevice δ ρ α) (t : Tid) (k : ℕ) (a : α) : SynchDevice δ ρ α :=
  { s with
    semaphore := (s.semaphore.pTest t).1
    released := s.released ++ [k]
    pc := Function.update s.pc t (.done k a) }

/-- One that does not, with the `ASSERT` of `List::Append`. -/
def sleepP (s : SynchDevice δ ρ α) (t : Tid) : SynchDevice δ ρ α :=
  { s with
    aborted := s.aborted || decide (t ∈ s.semaphore.queue)
    semaphore := (s.semaphore.pTest t).1 }

/-- The interrupt of request `k`: the device's handler, then `semaphore->V()`. -/
def callBack (d : Device δ ρ α) (s : SynchDevice δ ρ α) (k : ℕ) : SynchDevice δ ρ α :=
  { s with
    dev := d.callBack s.dev
    semaphore := s.semaphore.v.1
    scheduled := s.scheduled.erase k
    delivered := s.delivered ++ [k] }

/-- A call by a thread, `run` for a thread in one, and the interrupts. -/
inductive Label (ρ : Type)
  | call (t : Tid) (r : ρ)
  | run (t : Tid)
  | interrupt (k : ℕ)

def runStep (d : Device δ ρ α) (s : SynchDevice δ ρ α) (t : Tid) : Option (SynchDevice δ ρ α) :=
  match s.pc t with
  | .out => none
  | .call r =>
    if s.mon.pc t = .inside then some (s.issue d t r)
    else (s.mon.step (.run t)).map fun m => { s with mon := m }
  | .waiting k a =>
    if t ∈ s.semaphore.queue then none
    else if (s.semaphore.pTest t).2 then some (s.passP t k a)
    else some (s.sleepP t)
  | .done k a =>
    (s.mon.step (.release t)).map fun m =>
      { s with mon := m, pc := Function.update s.pc t .out, returned := s.returned ++ [(k, a)] }

def step (d : Device δ ρ α) (s : SynchDevice δ ρ α) : Label ρ → Option (SynchDevice δ ρ α)
  | .call t r =>
    match s.pc t with
    | .out =>
      (s.mon.step (.acquire t)).map fun m =>
        { s with mon := m, pc := Function.update s.pc t (.call r) }
    | _ => none
  | .run t => s.runStep d t
  | .interrupt k => if k ∈ s.scheduled then some (s.callBack d k) else none

/-- A new lock and a new semaphore, for the device `x`. -/
def initial (x : δ) : SynchDevice δ ρ α where
  mon := Monitor.initial
  semaphore := Semaphore.new 0
  dev := x
  pc := fun _ => .out
  scheduled := []
  aborted := false
  issued := []
  delivered := []
  released := []
  returned := []

/-- The calls make requests of the kind `P`. -/
def Calls (P : ρ → Prop) (_ : SynchDevice δ ρ α) : Label ρ → Prop
  | .call _ r => P r
  | .run _ => True
  | .interrupt _ => True

instance (P : ρ → Prop) [DecidablePred P] (s : SynchDevice δ ρ α) :
    (l : Label ρ) → Decidable (Calls P s l)
  | .call _ r => inferInstanceAs (Decidable (P r))
  | .run _ => inferInstanceAs (Decidable True)
  | .interrupt _ => inferInstanceAs (Decidable True)

/-- The states of the runs with such calls. -/
abbrev Reach (d : Device δ ρ α) (x : δ) (P : ρ → Prop) : SynchDevice δ ρ α → Prop :=
  Runs.Reach (step d) (· = initial x) (Calls P)

/-! ### What a step does -/

variable {d : Device δ ρ α} {x : δ} {P : ρ → Prop} {s s' : SynchDevice δ ρ α} {t u : Tid}
  {l : Label ρ}

/-- What a step does: of a thread, or of the device (`none`). -/
inductive Turn (d : Device δ ρ α) (P : ρ → Prop) (s : SynchDevice δ ρ α) :
    Option Tid → SynchDevice δ ρ α → Prop
  | call (t : Tid) (r : ρ) (hpc : s.pc t = .out) (hr : P r) : Turn d P s (some t)
      { s with mon := s.mon.lockP t .acquired .acquiring, pc := Function.update s.pc t (.call r) }
  | inner (t : Tid) (r : ρ) (m : Monitor) (hpc : s.pc t = .call r) (hm : s.mon.pc t ≠ .inside)
      (hs : s.mon.runStep t = some m) : Turn d P s (some t) { s with mon := m }
  | issue (t : Tid) (r : ρ) (hpc : s.pc t = .call r) (hm : s.mon.pc t = .inside) :
      Turn d P s (some t) (s.issue d t r)
  | pass (t : Tid) (k : ℕ) (a : α) (hpc : s.pc t = .waiting k a) (hv : s.semaphore.value ≠ 0) :
      Turn d P s (some t) (s.passP t k a)
  | asleep (t : Tid) (k : ℕ) (a : α) (hpc : s.pc t = .waiting k a) (hq : t ∉ s.semaphore.queue)
      (hv : s.semaphore.value = 0) : Turn d P s (some t) (s.sleepP t)
  | leave (t : Tid) (k : ℕ) (a : α) (hpc : s.pc t = .done k a) : Turn d P s (some t)
      { s with
        mon := s.mon.release t .out
        pc := Function.update s.pc t .out
        returned := s.returned ++ [(k, a)] }
  | interrupt (k : ℕ) (hk : k ∈ s.scheduled) : Turn d P s none (s.callBack d k)

/-- The thread of a label. -/
def Label.thread : Label ρ → Option Tid
  | .call t _ => some t
  | .run t => some t
  | .interrupt _ => none

/-- Where the place of a thread in its call allows it to be in the monitor. -/
def Fits : Pc ρ α → Monitor.Pc → Prop
  | .out, p => p = .out
  | .call _, p => p = .acquiring ∨ p = .acquired ∨ p = .inside
  | .waiting _ _, p => p = .inside
  | .done _ _, p => p = .inside

theorem fits_out {k : Pc ρ α} {p : Monitor.Pc} (hf : Fits k p) (hk : k = .out) : p = .out := by
  subst hk
  exact hf

theorem fits_requested {k : Pc ρ α} {p : Monitor.Pc} (hf : Fits k p) (hk : k.requested = true) :
    p = .inside := by
  cases k with
  | out | call => cases hk
  | waiting | done => exact hf

theorem turn_run (hf : Fits (s.pc t) (s.mon.pc t)) (hs : s.runStep d t = some s') :
    Turn d P s (some t) s' := by
  unfold runStep at hs
  cases hpc : s.pc t with
  | out =>
    rw [hpc] at hs
    cases hs
  | call r =>
    simp only [hpc] at hs
    split_ifs at hs with hm
    · exact Option.some.inj hs ▸ Turn.issue t r hpc hm
    · obtain ⟨m, hm', rfl⟩ := Option.map_eq_some_iff.mp hs
      exact Turn.inner t r m hpc hm hm'
  | waiting k a =>
    simp only [hpc, Semaphore.pTest] at hs
    by_cases hv : s.semaphore.value = 0
    · simp only [hv, ↓reduceIte, Bool.false_eq_true] at hs
      split_ifs at hs with hq
      exact Option.some.inj hs ▸ Turn.asleep t k a hpc hq hv
    · simp only [hv, ↓reduceIte] at hs
      split_ifs at hs with hq
      exact Option.some.inj hs ▸ Turn.pass t k a hpc hv
  | done k a =>
    have hm : s.mon.pc t = .inside := fits_requested hf (by rw [hpc]; rfl)
    have hrel : s.mon.step (.release t) = some (s.mon.release t .out) := if_pos (Or.inr hm)
    simp only [hpc, hrel, Option.map_some, Option.some.injEq] at hs
    exact hs ▸ Turn.leave t k a hpc

theorem step_cases (hf : ∀ t, Fits (s.pc t) (s.mon.pc t)) (hc : Calls P s l)
    (hs : s.step d l = some s') :
    Turn d P s l.thread s' := by
  cases l with
  | call t r =>
    unfold step at hs
    cases hpc : s.pc t with
    | out =>
      have hout : s.mon.pc t = .out := fits_out (hf t) hpc
      have hacq : s.mon.step (.acquire t) = some (s.mon.lockP t .acquired .acquiring) := if_pos hout
      simp only [hpc, hacq, Option.map_some, Option.some.injEq] at hs
      exact hs ▸ Turn.call t r hpc hc
    | call | waiting | done =>
      simp only [hpc] at hs
      cases hs
  | run t => exact turn_run (hf t) hs
  | interrupt k =>
    simp only [step] at hs
    split_ifs at hs with hk
    exact Option.some.inj hs ▸ Turn.interrupt k hk

/-- A request is made and the device goes on with it, or neither changes but for
an interrupt. -/
theorem step_dev (hs : s.step d l = some s') :
    s'.issued = s.issued ∧ (s'.dev = s.dev ∨ s'.dev = d.callBack s.dev) ∨
      ∃ r, s'.issued = s.issued ++ [(r, (d.request s.dev r).2)] ∧
      s'.dev = (d.request s.dev r).1 := by
  cases l with
  | call t r =>
    simp only [step] at hs
    split at hs
    · obtain ⟨m, -, rfl⟩ := Option.map_eq_some_iff.mp hs
      exact Or.inl ⟨rfl, Or.inl rfl⟩
    · cases hs
  | run t =>
    simp only [step, runStep] at hs
    split at hs
    · cases hs
    · split_ifs at hs
      · cases hs
        exact Or.inr ⟨_, rfl, rfl⟩
      · obtain ⟨m, -, rfl⟩ := Option.map_eq_some_iff.mp hs
        exact Or.inl ⟨rfl, Or.inl rfl⟩
    · split_ifs at hs
      · cases hs
        exact Or.inl ⟨rfl, Or.inl rfl⟩
      · cases hs
        exact Or.inl ⟨rfl, Or.inl rfl⟩
    · obtain ⟨m, -, rfl⟩ := Option.map_eq_some_iff.mp hs
      exact Or.inl ⟨rfl, Or.inl rfl⟩
  | interrupt k =>
    simp only [step] at hs
    split_ifs at hs
    cases hs
    exact Or.inl ⟨rfl, Or.inr rfl⟩

/-! ### The lock -/

/-- What the turn is for the lock: nothing, or one of its steps, made with
discipline. -/
theorem Turn.monitor {o : Option Tid} (hf : ∀ t, Fits (s.pc t) (s.mon.pc t))
    (ht : Turn d P s o s') :
    s'.mon = s.mon ∨ ∃ l, some l.thread = o ∧ Monitor.Disciplined s.mon l ∧
    s.mon.step l = some s'.mon := by
  cases ht with
  | call t r hpc =>
    have hout : s.mon.pc t = .out := fits_out (hf t) hpc
    exact Or.inr ⟨.acquire t, rfl, trivial, if_pos hout⟩
  | inner t r m hpc hm hs => exact Or.inr ⟨.run t, rfl, trivial, hs⟩
  | leave t k a hpc =>
    have hm : s.mon.pc t = .inside := fits_requested (hf t) (by rw [hpc]; rfl)
    exact Or.inr ⟨.release t, rfl, hm, if_pos (Or.inr hm)⟩
  | issue | pass | asleep | interrupt => exact Or.inl rfl

theorem Turn.other_mon {o : Option Tid} (hf : ∀ t, Fits (s.pc t) (s.mon.pc t))
    (ht : Turn d P s o s') (hu : o ≠ some u) : s'.mon.pc u = s.mon.pc u := by
  rcases ht.monitor hf with h | ⟨l, hl, hd, hs⟩
  · rw [h]
  · refine Monitor.turn_other (Monitor.step_cases hd hs) fun he => hu ?_
    rw [he, hl]

theorem Turn.other {o : Option Tid} (ht : Turn d P s o s') (hu : o ≠ some u) :
    s'.pc u = s.pc u := by
  have hne : ∀ t, some t ≠ some u → u ≠ t := fun t h he => h (by rw [he])
  cases ht with
  | inner | asleep | interrupt => rfl
  | call t | issue t | pass t | leave t => exact Function.update_of_ne (hne t hu) _ _

theorem fits_turn {o : Option Tid} (hf : ∀ t, Fits (s.pc t) (s.mon.pc t))
    (ht : Turn d P s o s') (u : Tid) :
    Fits (s'.pc u) (s'.mon.pc u) := by
  by_cases hu : o = some u
  · cases ht with
    | call t r hpc =>
      cases hu
      simp only [Function.update_self]
      exact Monitor.lockP_entering s.mon u
    | inner t r m hpc hm hs =>
      cases hu
      have hfu := hf u
      simp only [hpc] at hfu ⊢
      exact Monitor.run_entering hfu hm hs
    | issue t r hpc hm =>
      cases hu
      simp only [issue, Function.update_self]
      exact hm
    | pass t k a hpc hv =>
      cases hu
      simp only [passP, Function.update_self]
      exact fits_requested (hf u) (by rw [hpc]; rfl)
    | asleep t k a hpc hq hv => exact hf u
    | leave t k a hpc =>
      cases hu
      simp only [Function.update_self]
      exact Function.update_self _ _ _
    | interrupt k hk => cases hu
  · rw [ht.other hu, ht.other_mon hf hu]
    exact hf u

theorem fits_reach (hr : Reach d x P s) (t : Tid) : Fits (s.pc t) (s.mon.pc t) := by
  refine hr.inv (fun s => ∀ t, Fits (s.pc t) (s.mon.pc t)) ?_ (fun s l s' _ hf hc hs => ?_) t
  · intro s hs t
    rw [hs]
    exact rfl
  · exact fits_turn hf (step_cases hf hc hs)

/-- The lock is used with discipline. -/
theorem monitor_reach (hr : Reach d x P s) : Monitor.Reach s.mon := by
  refine hr.map SynchDevice.mon (fun s hs => by rw [hs]; rfl) fun s l s' hr hc hs => ?_
  have hf := fits_reach hr
  rcases (step_cases hf hc hs).monitor hf with h | ⟨l', -, hd', hs'⟩
  · exact Or.inl h
  · exact Or.inr ⟨l', hd', hs'⟩

/-- One thread at most has the lock. -/
theorem inside_unique (hr : Reach d x P s) (ht : s.mon.pc t = .inside) (hu : s.mon.pc u = .inside) :
    t = u :=
  (Monitor.inv_reach (monitor_reach hr)).lock.excl t u (by rw [ht]; rfl) (by rw [hu]; rfl)

/-! ### The stages of a call -/

/-- The last request was `r`, with the number `k` and the answer `a`. -/
def Last (s : SynchDevice δ ρ α) (k : ℕ) (r : ρ) (a : α) : Prop :=
  ∃ pre, s.issued = pre ++ [(r, a)] ∧ pre.length = k

/-- The device has answered every request and interrupted for it. -/
def AtRest (d : Device δ ρ α) (x : δ) (s : SynchDevice δ ρ α) : Prop :=
  s.scheduled = [] ∧ s.dev = d.after x (s.issued.map Prod.fst)

/-- How far the call that has made the last request is. -/
inductive Stage (d : Device δ ρ α) (x : δ) (s : SynchDevice δ ρ α) : Prop
  /-- nobody is between a request and the `Release` -/
  | idle (hpc : ∀ t, (s.pc t).requested = false) (hsem : s.semaphore = Semaphore.new 0)
      (hdev : AtRest d x s) (hrel : s.released = s.delivered)
      (hret : s.returned.map Prod.fst = s.released)
  /-- the interrupt is still to come -/
  | busy (t : Tid) (k : ℕ) (r : ρ) (a : α) (pre : List (ρ × α)) (hpc : s.pc t = .waiting k a)
      (hlast : s.issued = pre ++ [(r, a)]) (hk : pre.length = k) (hv : s.semaphore.value = 0)
      (hq : s.semaphore.queue = [] ∨ s.semaphore.queue = [t]) (hsch : s.scheduled = [k])
      (hdev : s.dev = (d.request (d.after x (pre.map Prod.fst)) r).1)
      (hrel : s.released = s.delivered)
      (hret : s.returned.map Prod.fst = s.released)
  /-- the interrupt has come -/
  | ready (t : Tid) (k : ℕ) (r : ρ) (a : α) (hpc : s.pc t = .waiting k a) (hlast : Last s k r a)
      (hsem : s.semaphore = ⟨1, []⟩) (hdev : AtRest d x s) (hrel : s.delivered = s.released ++ [k])
      (hret : s.returned.map Prod.fst = s.released)
  /-- the call is past its `P` -/
  | done (t : Tid) (k : ℕ) (r : ρ) (a : α) (hpc : s.pc t = .done k a) (hlast : Last s k r a)
      (hsem : s.semaphore = Semaphore.new 0) (hdev : AtRest d x s) (hrel : s.released = s.delivered)
      (hret : s.released = s.returned.map Prod.fst ++ [k])

/-- The stage is read from the semaphore, the device, the history and the place
of the thread between request and `Release`. -/
theorem Stage.frame (h : Stage d x s) (hpc : ∀ u, (s'.pc u).requested = (s.pc u).requested ∧
    ((s.pc u).requested = true → s'.pc u = s.pc u)) (hsem : s'.semaphore = s.semaphore)
    (hdev : s'.dev = s.dev) (hsch : s'.scheduled = s.scheduled) (hiss : s'.issued = s.issued)
    (hdel : s'.delivered = s.delivered) (hrel : s'.released = s.released)
    (hret : s'.returned = s.returned) : Stage d x s' := by
  have hrest : AtRest d x s → AtRest d x s' := fun h => by
    unfold AtRest
    rw [hsch, hdev, hiss]
    exact h
  have hlast : ∀ k r a, Last s k r a → Last s' k r a := fun k r a h => by
    unfold Last
    rw [hiss]
    exact h
  have hsame : ∀ u p, s.pc u = p → p.requested = true → s'.pc u = p := fun u p h1 h2 => by
    rw [(hpc u).2 (by rw [h1]; exact h2), h1]
  cases h with
  | idle h1 h2 h3 h4 h5 =>
    exact Stage.idle (fun t => (hpc t).1.trans (h1 t)) (hsem ▸ h2) (hrest h3)
      (by rw [hrel, hdel, h4])
      (by rw [hret, hrel, h5])
  | busy t k r a pre h1 h2 h3 h4 h5 h6 h7 h8 h9 =>
    exact Stage.busy t k r a pre (hsame t _ h1 rfl) (hiss ▸ h2) h3 (hsem ▸ h4) (hsem ▸ h5)
      (hsch ▸ h6) (hdev ▸ h7)
      (by rw [hrel, hdel, h8]) (by rw [hret, hrel, h9])
  | ready t k r a h1 h2 h3 h4 h5 h6 =>
    exact Stage.ready t k r a (hsame t _ h1 rfl) (hlast k r a h2) (hsem ▸ h3) (hrest h4)
      (by rw [hrel, hdel, h5])
      (by rw [hret, hrel, h6])
  | done t k r a h1 h2 h3 h4 h5 h6 =>
    exact Stage.done t k r a (hsame t _ h1 rfl) (hlast k r a h2) (hsem ▸ h3) (hrest h4)
      (by rw [hrel, hdel, h5])
      (by rw [hret, hrel, h6])

/-- A thread about to make its request, with the lock: nobody is between a
request and the `Release`. -/
theorem Stage.of_call (h : Stage d x s) {r : ρ} (hpc : s.pc t = .call r)
    (hx : ∀ u, (s.pc u).requested = true → u = t) :
    s.semaphore = Semaphore.new 0 ∧ AtRest d x s ∧ s.released = s.delivered ∧
      s.returned.map Prod.fst = s.released := by
  have hno : ∀ u p, s.pc u = p → p.requested = true → False := fun u p h1 h2 => by
    have hut := hx u (by rw [h1]; exact h2)
    rw [hut, hpc] at h1
    rw [← h1] at h2
    cases h2
  cases h with
  | idle _ hsem hdev hrel hret => exact ⟨hsem, hdev, hrel, hret⟩
  | busy u k r a pre h1 => exact (hno u _ h1 rfl).elim
  | ready u k r a h1 => exact (hno u _ h1 rfl).elim
  | done u k r a h1 => exact (hno u _ h1 rfl).elim

/-- A thread at its `P`: the interrupt is still to come, or it has come. -/
theorem Stage.of_waiting (h : Stage d x s) {k : ℕ} {a : α} (hpc : s.pc t = .waiting k a)
    (hx : ∀ u, (s.pc u).requested = true → u = t) :
    (∃ r pre, s.issued = pre ++ [(r, a)] ∧ pre.length = k ∧ s.semaphore.value = 0 ∧
      (s.semaphore.queue = [] ∨ s.semaphore.queue = [t]) ∧ s.scheduled = [k] ∧
      s.dev = (d.request (d.after x (pre.map Prod.fst)) r).1 ∧ s.released = s.delivered ∧
      s.returned.map Prod.fst = s.released) ∨
    ∃ r, Last s k r a ∧ s.semaphore = ⟨1, []⟩ ∧ AtRest d x s ∧ s.delivered = s.released ++ [k] ∧
      s.returned.map Prod.fst = s.released := by
  cases h with
  | idle h1 =>
    have := h1 t
    rw [hpc] at this
    cases this
  | busy u k' r a' pre h1 hlast hk hv hq hsch hdev hrel hret =>
    have hut := hx u (by rw [h1]; rfl)
    subst hut
    obtain ⟨rfl, rfl⟩ := Pc.waiting.inj (hpc.symm.trans h1)
    exact Or.inl ⟨r, pre, hlast, hk, hv, hq, hsch, hdev, hrel, hret⟩
  | ready u k' r a' h1 hlast hsem hdev hrel hret =>
    have hut := hx u (by rw [h1]; rfl)
    subst hut
    obtain ⟨rfl, rfl⟩ := Pc.waiting.inj (hpc.symm.trans h1)
    exact Or.inr ⟨r, hlast, hsem, hdev, hrel, hret⟩
  | done u k' r a' h1 =>
    have hut := hx u (by rw [h1]; rfl)
    rw [hut, hpc] at h1
    cases h1

/-- A thread past its `P`: it has made the last request. -/
theorem Stage.of_done (h : Stage d x s) {k : ℕ} {a : α} (hpc : s.pc t = .done k a)
    (hx : ∀ u, (s.pc u).requested = true → u = t) :
    ∃ r, Last s k r a ∧ s.semaphore = Semaphore.new 0 ∧ AtRest d x s ∧ s.released = s.delivered ∧
      s.released = s.returned.map Prod.fst ++ [k] := by
  have hno : ∀ u p, s.pc u = p → p.requested = true → p ≠ .done k a →
      False := fun u p h1 h2 h3 => by
    have hut := hx u (by rw [h1]; exact h2)
    rw [hut, hpc] at h1
    exact h3 h1.symm
  cases h with
  | idle h1 =>
    have := h1 t
    rw [hpc] at this
    cases this
  | busy u k r a pre h1 => exact (hno u _ h1 rfl (fun h => by cases h)).elim
  | ready u k r a h1 => exact (hno u _ h1 rfl (fun h => by cases h)).elim
  | done u k' r a' h1 hlast hsem hdev hrel hret =>
    have hut := hx u (by rw [h1]; rfl)
    rw [hut, hpc] at h1
    obtain ⟨rfl, rfl⟩ := Pc.done.inj h1
    exact ⟨r, hlast, hsem, hdev, hrel, hret⟩

/-- An interrupt that is scheduled is the only one, and its call is at its `P`. -/
theorem Stage.of_scheduled (h : Stage d x s) {k : ℕ} (hk : k ∈ s.scheduled) :
    ∃ t r a pre, s.pc t = .waiting k a ∧ s.issued = pre ++ [(r, a)] ∧ pre.length = k ∧
    s.semaphore.value = 0 ∧
      (s.semaphore.queue = [] ∨ s.semaphore.queue = [t]) ∧ s.scheduled = [k] ∧
      s.dev = (d.request (d.after x (pre.map Prod.fst)) r).1 ∧ s.released = s.delivered ∧
      s.returned.map Prod.fst = s.released := by
  have hno : s.scheduled = [] → False := fun he => by
    rw [he] at hk
    cases hk
  cases h with
  | idle h1 hsem hdev => exact (hno hdev.1).elim
  | busy t k' r a pre h1 hlast hk' hv hq hsch hdev hrel hret =>
    rw [hsch] at hk
    obtain rfl := List.mem_singleton.mp hk
    exact ⟨t, r, a, pre, h1, hlast, hk', hv, hq, hsch, hdev, hrel, hret⟩
  | ready t k' r a h1 hlast hsem hdev => exact (hno hdev.1).elim
  | done t k' r a h1 hlast hsem hdev => exact (hno hdev.1).elim

theorem stage_issue (h : Stage d x s) {r : ρ} (hpc : s.pc t = .call r)
    (hx : ∀ u, (s.pc u).requested = true → u = t) : Stage d x (s.issue d t r) := by
  obtain ⟨hsem, ⟨hsch, hdev⟩, hrel, hret⟩ := h.of_call hpc hx
  refine Stage.busy t s.issued.length r (d.request s.dev r).2 s.issued ?_ rfl rfl ?_ (Or.inl ?_)
    ?_ ?_ hrel hret
  · exact Function.update_self _ _ _
  · simp [issue, hsem, Semaphore.new]
  · simp [issue, hsem, Semaphore.new]
  · simp [issue, hsch]
  · simp [issue, hdev]

/-- A `P` that succeeds: the interrupt has come. -/
theorem stage_pass (h : Stage d x s) {k : ℕ} {a : α} (hpc : s.pc t = .waiting k a)
    (hv : s.semaphore.value ≠ 0) (hx : ∀ u, (s.pc u).requested = true → u = t) :
    Stage d x (s.passP t k a) := by
  rcases h.of_waiting hpc hx with ⟨_, _, _, _, hv0, -⟩ | ⟨r, hlast, hsem, hdev, hrel, hret⟩
  · exact absurd hv0 hv
  · refine Stage.done t k r a ?_ hlast ?_ hdev hrel.symm ?_
    · exact Function.update_self _ _ _
    · simp [passP, Semaphore.pTest, hsem, Semaphore.new]
    · simp only [passP]
      rw [hret]

/-- A `P` that finds the value 0: the interrupt is still to come. -/
theorem stage_asleep (h : Stage d x s) {k : ℕ} {a : α} (hpc : s.pc t = .waiting k a)
    (hq : t ∉ s.semaphore.queue) (hv : s.semaphore.value = 0)
    (hx : ∀ u, (s.pc u).requested = true → u = t) : Stage d x (s.sleepP t) := by
  rcases h.of_waiting hpc hx with ⟨r, pre, hlast, hk, _, hq', hsch, hdev, hrel, hret⟩ |
    ⟨r, hlast, hsem, -⟩
  · have hempty : s.semaphore.queue = [] :=
      hq'.resolve_right fun he => hq (by rw [he]; exact List.mem_singleton_self _)
    refine Stage.busy t k r a pre hpc hlast hk ?_ (Or.inr ?_) hsch hdev hrel hret
    · simp [sleepP, Semaphore.pTest, hv]
    · simp [sleepP, Semaphore.pTest, hv, hempty]
  · rw [hsem] at hv
    cases hv

/-- The interrupt finds the call that made the request. -/
theorem stage_interrupt (h : Stage d x s) {k : ℕ} (hk : k ∈ s.scheduled) :
    Stage d x (s.callBack d k) := by
  obtain ⟨t, r, a, pre, hpc, hlast, hk', hv, hq, hsch, hdev, hrel, hret⟩ := h.of_scheduled hk
  refine Stage.ready t k r a hpc ⟨pre, hlast, hk'⟩ ?_ ⟨?_, ?_⟩ ?_ hret
  · rcases hq with hq | hq <;> simp [callBack, Semaphore.v, hv, hq]
  · simp [callBack, hsch]
  · simp only [callBack]
    rw [hlast, List.map_append, List.map_singleton, d.after_concat, hdev]
  · simp only [callBack]
    rw [hrel]

theorem stage_leave (h : Stage d x s) {k : ℕ} {a : α} (hpc : s.pc t = .done k a)
    (hx : ∀ u, (s.pc u).requested = true → u = t) :
    Stage d x
      { s with
        mon := s.mon.release t .out
        pc := Function.update s.pc t .out
        returned := s.returned ++ [(k, a)] } := by
  have hidle : ∀ u, (Function.update s.pc t .out u).requested = false := fun u => by
    by_cases hu : u = t
    · rw [hu, Function.update_self]
      rfl
    · rw [Function.update_of_ne hu]
      by_contra hne
      exact hu (hx u (by simpa using hne))
  obtain ⟨r, hlast, hsem, hdev, hrel, hret⟩ := h.of_done hpc hx
  refine Stage.idle hidle hsem hdev hrel ?_
  simp only [List.map_append, List.map_singleton]
  exact hret.symm

theorem stage_turn {o : Option Tid} (h : Stage d x s) (hf : ∀ t, Fits (s.pc t) (s.mon.pc t))
    (hx : ∀ t u, s.mon.pc t = .inside → s.mon.pc u = .inside → t = u) (ht : Turn d P s o s') :
    Stage d x s' := by
  have hown : ∀ t, s.mon.pc t = .inside → ∀ u, (s.pc u).requested = true → u = t := fun t hm u hu =>
    hx u t (fits_requested (hf u) hu) hm
  have hat : ∀ t p, s.pc t = p → p.requested = true → ∀ u, (s.pc u).requested = true →
      u = t := fun t p hp hr =>
    hown t (fits_requested (hf t) (by rw [hp]; exact hr))
  cases ht with
  | call t r hpc =>
    refine h.frame (fun u => ?_) rfl rfl rfl rfl rfl rfl rfl
    by_cases hu : u = t
    · simp only [hu, Function.update_self, hpc]
      exact ⟨rfl, fun h => by cases h⟩
    · simp only [Function.update_of_ne hu]
      exact ⟨trivial, fun _ => trivial⟩
  | inner t r m hpc hm hs =>
    exact h.frame (fun u => ⟨rfl, fun _ => rfl⟩) rfl rfl rfl rfl rfl rfl rfl
  | issue t r hpc hm => exact stage_issue h hpc (hown t hm)
  | pass t k a hpc hv => exact stage_pass h hpc hv (hat t _ hpc rfl)
  | asleep t k a hpc hq hv => exact stage_asleep h hpc hq hv (hat t _ hpc rfl)
  | leave t k a hpc => exact stage_leave h hpc (hat t _ hpc rfl)
  | interrupt k hk => exact stage_interrupt h hk

theorem stage_reach (hr : Reach d x P s) : Stage d x s := by
  refine hr.inv (Stage d x) ?_ fun s l s' hr h hc hs => ?_
  · intro s hs
    rw [hs]
    exact Stage.idle (fun _ => rfl) rfl ⟨rfl, rfl⟩ rfl rfl
  · have hf := fits_reach hr
    exact stage_turn h hf (fun t u => inside_unique hr) (step_cases hf hc hs)

/-! ### Every run -/

/-- What the history says of the requests. -/
structure History (d : Device δ ρ α) (x : δ) (P : ρ → Prop) (s : SynchDevice δ ρ α) : Prop where
  account : s.delivered ++ s.scheduled = List.range s.issued.length
  sequential : d.Sequential x s.issued
  valid : ∀ p ∈ s.issued, P p.1
  asked : ∀ t r, s.pc t = .call r → P r
  /-- a call returns the answer to its request -/
  returned : ∀ p ∈ s.returned, ∃ r, s.issued[p.1]? = some (r, p.2)
  aborted : s.aborted = false

theorem history_initial : History d x P (initial x) where
  account := rfl
  sequential := d.sequential_nil x
  valid _ h := absurd h List.not_mem_nil
  asked _ _ h := by cases h
  returned _ h := absurd h List.not_mem_nil
  aborted := rfl

theorem asked_update {q : Pc ρ α} (h : ∀ t r, s.pc t = .call r → P r)
    (hq : ∀ r, q = .call r → P r) :
    ∀ u r, Function.update s.pc t q u = .call r → P r := by
  intro u r hu
  by_cases hut : u = t
  · rw [hut, Function.update_self] at hu
    exact hq r hu
  · rw [Function.update_of_ne hut] at hu
    exact h u r hu

theorem history_issue (h : History d x P s) (hst : Stage d x s) {r : ρ} (hpc : s.pc t = .call r)
    (hx : ∀ u, (s.pc u).requested = true → u = t)
    (hok : ∀ rs r, (∀ r' ∈ rs, P r') → P r → d.ok (d.after x rs) r = true) :
    History d x P (s.issue d t r) := by
  have hdev : s.dev = d.after x (s.issued.map Prod.fst) := (hst.of_call hpc hx).2.1.2
  have hr : P r := h.asked t r hpc
  refine
    { account := ?_
      sequential := ?_
      valid := fun p hp => ?_
      asked := asked_update h.asked fun r' he => by cases he
      returned := fun p hp => ?_
      aborted := ?_ }
  · simp only [issue]
    rw [← List.append_assoc, h.account, List.length_append, List.length_singleton, List.range_succ]
  · simp only [issue]
    rw [hdev]
    exact h.sequential.concat d x r
  · rcases List.mem_append.mp hp with hp | hp
    · exact h.valid p hp
    · rw [List.mem_singleton.mp hp]
      exact hr
  · obtain ⟨r', hr'⟩ := h.returned p hp
    exact ⟨r', by
      simp only [issue]; rw [List.getElem?_append_left (List.getElem?_eq_some_iff.mp hr').1, hr']⟩
  · simp only [issue, h.aborted, Bool.false_or, Bool.not_eq_false']
    rw [hdev]
    refine hok _ r (fun r' hr' => ?_) hr
    obtain ⟨p, hp, rfl⟩ := List.mem_map.mp hr'
    exact h.valid p hp

/-- A call returns with the answer to the last request. -/
theorem answer_done (hst : Stage d x s) {k : ℕ} {a : α} (hpc : s.pc t = .done k a)
    (hx : ∀ u, (s.pc u).requested = true → u = t) : ∃ r, s.issued[k]? = some (r, a) := by
  obtain ⟨r, ⟨pre, hpre, hlen⟩, -⟩ := hst.of_done hpc hx
  refine ⟨r, ?_⟩
  rw [hpre, ← hlen, List.getElem?_append_right le_rfl, Nat.sub_self]
  rfl

theorem history_interrupt (h : History d x P s) (hst : Stage d x s) {k : ℕ} (hk : k ∈ s.scheduled) :
    History d x P (s.callBack d k) := by
  obtain ⟨_, _, _, _, -, -, -, -, -, hsch, -⟩ := hst.of_scheduled hk
  refine { h with account := ?_ }
  have := h.account
  simp only [callBack, hsch, List.erase_cons_head, List.append_nil] at this ⊢
  exact this

theorem history_turn {o : Option Tid} (h : History d x P s) (hst : Stage d x s)
    (hf : ∀ t, Fits (s.pc t) (s.mon.pc t))
    (hx : ∀ t u, s.mon.pc t = .inside → s.mon.pc u = .inside → t = u)
    (hok : ∀ rs r, (∀ r' ∈ rs, P r') → P r → d.ok (d.after x rs) r = true) (ht : Turn d P s o s') :
    History d x P s' := by
  have hown : ∀ t, s.mon.pc t = .inside → ∀ u, (s.pc u).requested = true → u = t := fun t hm u hu =>
    hx u t (fits_requested (hf u) hu) hm
  cases ht with
  | call t r hpc hr =>
    refine { h with asked := asked_update h.asked fun r' he => ?_ }
    cases he
    exact hr
  | inner t r m hpc hm hs => exact { h with }
  | issue t r hpc hm => exact history_issue h hst hpc (hown t hm) hok
  | pass t k a hpc hv => exact { h with asked := asked_update h.asked fun r' he => by cases he }
  | asleep t k a hpc hq hv =>
    refine { h with aborted := ?_ }
    simp [sleepP, h.aborted, hq]
  | leave t k a hpc =>
    have hm : s.mon.pc t = .inside := fits_requested (hf t) (by rw [hpc]; rfl)
    refine
      { h with
        asked := asked_update h.asked fun r' he => by cases he
        returned := fun p hp => ?_ }
    rcases List.mem_append.mp hp with hp | hp
    · exact h.returned p hp
    · rw [List.mem_singleton.mp hp]
      exact answer_done hst hpc (hown t hm)
  | interrupt k hk => exact history_interrupt h hst hk

theorem history_reach (hok : ∀ rs r, (∀ r' ∈ rs, P r') → P r → d.ok (d.after x rs) r = true)
    (hr : Reach d x P s) :
    History d x P s := by
  refine hr.inv (History d x P) ?_ fun s l s' hr h hc hs => ?_
  · intro s hs
    rw [hs]
    exact history_initial
  · have hf := fits_reach hr
    exact history_turn h (stage_reach hr) hf (fun t u => inside_unique hr) hok (step_cases hf hc hs)

/-- What the callers of a device see. -/
structure Synchronous (d : Device δ ρ α) (x : δ) (s : SynchDevice δ ρ α) : Prop where
  aborted : s.aborted = false ∧ s.mon.aborted = false
  /-- the interrupts come in the order of the requests, one for each -/
  interrupts : s.delivered ++ s.scheduled = List.range s.issued.length
  /-- the calls go on in the order of the interrupts, one for each -/
  released : s.released <+: s.delivered
  /-- the call an interrupt has not let go on yet is at its `P`, which it will pass -/
  next : ∀ k ∈ s.delivered, k ∉ s.released → s.semaphore = ⟨1, []⟩ ∧ ∃ t a, s.pc t = .waiting k a
  /-- a call returns once, after its `P`, with the answer to its request -/
  returned : s.returned.map Prod.fst <+: s.released
  answer : ∀ p ∈ s.returned, ∃ r, s.issued[p.1]? = some (r, p.2)
  sequential : d.Sequential x s.issued

theorem synchronous (hok : ∀ rs r, (∀ r' ∈ rs, P r') → P r → d.ok (d.after x rs) r = true)
    (hr : Reach d x P s) :
    Synchronous d x s := by
  have hst := stage_reach hr
  have hh := history_reach hok hr
  refine
    { aborted := ⟨hh.aborted, (Monitor.inv_reach (monitor_reach hr)).aborted⟩
      interrupts := hh.account
      released := ?_
      next := fun k hk hnot => ?_
      returned := ?_
      answer := hh.returned
      sequential := hh.sequential }
  · cases hst with
    | idle _ _ _ hrel => exact hrel ▸ List.prefix_rfl
    | busy _ _ _ _ _ _ _ _ _ _ _ _ hrel => exact hrel ▸ List.prefix_rfl
    | ready _ _ _ _ _ _ _ _ hrel => exact ⟨_, hrel.symm⟩
    | done _ _ _ _ _ _ _ _ hrel => exact hrel ▸ List.prefix_rfl
  · cases hst with
    | idle _ _ _ hrel => exact absurd (hrel ▸ hk) hnot
    | busy _ _ _ _ _ _ _ _ _ _ _ _ hrel => exact absurd (hrel ▸ hk) hnot
    | ready t k' r a h1 hlast hsem hdev hrel =>
      rw [hrel] at hk
      have hkk : k = k' := List.mem_singleton.mp ((List.mem_append.mp hk).resolve_left hnot)
      exact ⟨hsem, t, a, hkk ▸ h1⟩
    | done _ _ _ _ _ _ _ _ hrel => exact absurd (hrel ▸ hk) hnot
  · cases hst with
    | idle _ _ _ _ hret => exact hret ▸ List.prefix_rfl
    | busy _ _ _ _ _ _ _ _ _ _ _ _ _ hret => exact hret ▸ List.prefix_rfl
    | ready _ _ _ _ _ _ _ _ _ hret => exact hret ▸ List.prefix_rfl
    | done _ _ _ _ _ _ _ _ _ hret => exact ⟨_, hret.symm⟩

end SynchDevice
end Nachos
