/-
# Synchronized lists (`threads/synchlist.cc`)

A `SynchList` is a list with a lock and a condition: `Append` puts an item at
the end and signals once, `RemoveFront` waits while the list is empty. Its
lock and condition are a `Monitor`, and the threads' places in `Append` and
`RemoveFront` say which of the monitor's operations they call.

* `monitor_reach`: the monitor of a list is used with discipline, so it is a
  Mesa monitor.
* `Stock`: while somebody waits, the items are at most the waiters signalled
  that have not the lock again yet, and one more while the thread with the
  lock has still to signal or to look at the list.
* `fifo_channel`: items leave in the order they came, none twice, and no
  consumer is left waiting for an item nobody is on the way to.

Key definitions: `SynchList.step`, `SynchList.signalled`.
Key theorems: `SynchList.step_cases`, `SynchList.monitor_reach`,
`SynchList.fifo_channel`.
-/
import Mathlib
import Nachos.Threads.Monitor

namespace Nachos
namespace SynchList

/-- Where a thread is. -/
inductive Pc (α : Type)
  | out
  /-- in `Append`, the item not yet on the list -/
  | append (item : α)
  /-- in `Append`, before `Signal` -/
  | appended
  /-- in `Append`, before `Release` -/
  | signalled
  /-- in `RemoveFront`, at the loop or in its `Wait` -/
  | remove
  /-- in `RemoveFront`, before `Release` -/
  | removed (item : α)
  deriving DecidableEq

end SynchList

/-- `class SynchList<T>`, its users, and the history. -/
structure SynchList (α : Type) where
  /-- `lock` and `listEmpty`, which is condition 0 -/
  mon : Monitor
  list : List α
  pc : Tid → SynchList.Pc α
  /-- an `ASSERT` of the list has failed -/
  aborted : Bool
  /-- the items passed to `Append` -/
  offered : List α
  /-- the items put on the list, and those taken from it, in order -/
  appended : List α
  removed : List α
  /-- the items returned by `RemoveFront` -/
  returned : List α

namespace SynchList

variable {α : Type} [DecidableEq α]

/-! ### The code -/

/-- `list->Append(item)`, with its `ASSERT`. -/
def listAppend (s : SynchList α) (t : Tid) (item : α) : SynchList α :=
  { s with
    aborted := s.aborted || decide (item ∈ s.list)
    list := s.list ++ [item]
    appended := s.appended ++ [item]
    pc := Function.update s.pc t .appended }

/-- `list->RemoveFront()` of a list that is not empty. -/
def listRemoveFront (s : SynchList α) (t : Tid) (item : α) (rest : List α) : SynchList α :=
  { s with
    list := rest
    removed := s.removed ++ [item]
    pc := Function.update s.pc t (.removed item) }

/-- A step of `Append` or `RemoveFront` by a thread that has the lock. -/
def insideStep (s : SynchList α) (t : Tid) : Option (SynchList α) :=
  match s.pc t with
  | .out => none
  | .append item => some (s.listAppend t item)
  | .appended =>
    (s.mon.step (.signal t 0)).map fun m =>
      { s with mon := m, pc := Function.update s.pc t .signalled }
  | .signalled =>
    (s.mon.step (.release t)).map fun m => { s with mon := m, pc := Function.update s.pc t .out }
  | .remove =>
    match s.list with
    | [] => (s.mon.step (.wait t 0)).map fun m => { s with mon := m }
    | item :: rest => some (s.listRemoveFront t item rest)
  | .removed item =>
    (s.mon.step (.release t)).map fun m =>
      { s with mon := m, pc := Function.update s.pc t .out, returned := s.returned ++ [item] }

/-- The calls of the threads, and `run` for a thread inside one of them. -/
inductive Label (α : Type)
  | append (t : Tid) (item : α)
  | removeFront (t : Tid)
  | run (t : Tid)

def step (s : SynchList α) : Label α → Option (SynchList α)
  | .append t item =>
    if s.pc t = .out then
      (s.mon.step (.acquire t)).map fun m =>
        { s with
          mon := m, pc := Function.update s.pc t (.append item), offered := s.offered ++ [item] }
    else none
  | .removeFront t =>
    if s.pc t = .out then
      (s.mon.step (.acquire t)).map fun m =>
        { s with mon := m, pc := Function.update s.pc t .remove }
    else none
  | .run t =>
    if s.mon.pc t = .inside then s.insideStep t
    else (s.mon.step (.run t)).map fun m => { s with mon := m }

/-- A new list. -/
def initial : SynchList α where
  mon := Monitor.initial
  list := []
  pc := fun _ => .out
  aborted := false
  offered := []
  appended := []
  removed := []
  returned := []

/-- The items passed to `Append` are pairwise distinct. -/
def Distinct (s : SynchList α) : Label α → Prop
  | .append _ item => item ∉ s.offered
  | .removeFront _ => True
  | .run _ => True

instance (s : SynchList α) : (l : Label α) → Decidable (Distinct s l)
  | .append _ item => inferInstanceAs (Decidable (item ∉ s.offered))
  | .removeFront _ => inferInstanceAs (Decidable True)
  | .run _ => inferInstanceAs (Decidable True)

/-- The states of the runs with distinct items. -/
abbrev Reach : SynchList α → Prop := Runs.Reach step (· = initial) Distinct

/-- The waiters a signal has removed from `listEmpty` whose threads have not
taken the lock again. -/
def signalled (m : Monitor) : ℕ :=
  (m.removed 0).countP fun w => m.pc (m.owner w) = .waiting 0 w ∨
    m.pc (m.owner w) = .reacquiring 0 w

/-! ### What a step does -/

/-- Where the place of a thread in `Append` or `RemoveFront` allows it to be in
the monitor. -/
def Fits : Pc α → Monitor.Pc → Prop
  | .out, p => p = .out
  | .append _, p => p = .acquiring ∨ p = .acquired ∨ p = .inside
  | .appended, p => p = .inside
  | .signalled, p => p = .inside
  | .remove, p => p = .acquiring ∨ p = .acquired ∨ p = .inside ∨
      ∃ w, p = .waiting 0 w ∨ p = .reacquiring 0 w ∨ p = .reacquired 0 w
  | .removed _, p => p = .inside

/-- What a step of thread `t` does. -/
inductive Turn (s : SynchList α) (t : Tid) : SynchList α → Prop
  | append (item : α) (hpc : s.pc t = .out) (hnew : item ∉ s.offered) : Turn s t
      { s with
        mon := s.mon.lockP t .acquired .acquiring
        pc := Function.update s.pc t (.append item)
        offered := s.offered ++ [item] }
  | removeFront (hpc : s.pc t = .out) : Turn s t
      { s with mon := s.mon.lockP t .acquired .acquiring, pc := Function.update s.pc t .remove }
  | inner (m : Monitor) (hm : s.mon.pc t ≠ .inside) (hs : s.mon.runStep t = some m) :
      Turn s t { s with mon := m }
  | put (item : α) (hm : s.mon.pc t = .inside) (hpc : s.pc t = .append item) :
      Turn s t (s.listAppend t item)
  | signal (hm : s.mon.pc t = .inside) (hpc : s.pc t = .appended) : Turn s t
      { s with mon := s.mon.signal t 0, pc := Function.update s.pc t .signalled }
  | leave (hm : s.mon.pc t = .inside) (hpc : s.pc t = .signalled) : Turn s t
      { s with mon := s.mon.release t .out, pc := Function.update s.pc t .out }
  | wait (hm : s.mon.pc t = .inside) (hpc : s.pc t = .remove) (hl : s.list = []) : Turn s t
      { s with mon := s.mon.wait t 0 }
  | take (item : α) (rest : List α) (hm : s.mon.pc t = .inside) (hpc : s.pc t = .remove)
      (hl : s.list = item :: rest) :
      Turn s t (s.listRemoveFront t item rest)
  | ret (item : α) (hm : s.mon.pc t = .inside) (hpc : s.pc t = .removed item) : Turn s t
      { s with
        mon := s.mon.release t .out
        pc := Function.update s.pc t .out
        returned := s.returned ++ [item] }

variable {s s' : SynchList α} {t u : Tid} {l : Label α}

/-- The thread of a label. -/
def Label.thread : Label α → Tid
  | .append t _ => t
  | .removeFront t => t
  | .run t => t

theorem turn_inside (hm : s.mon.pc t = .inside) (hs : s.insideStep t = some s') : Turn s t s' := by
  have hsig : s.mon.step (.signal t 0) = some (s.mon.signal t 0) := if_pos (Or.inr hm)
  have hrel : s.mon.step (.release t) = some (s.mon.release t .out) := if_pos (Or.inr hm)
  have hwait : s.mon.step (.wait t 0) = some (s.mon.wait t 0) := if_pos (Or.inr hm)
  unfold insideStep at hs
  cases hpc : s.pc t with
  | out =>
    rw [hpc] at hs
    cases hs
  | append item =>
    simp only [hpc, Option.some.injEq] at hs
    exact hs ▸ Turn.put item hm hpc
  | appended =>
    simp only [hpc, hsig, Option.map_some, Option.some.injEq] at hs
    exact hs ▸ Turn.signal hm hpc
  | signalled =>
    simp only [hpc, hrel, Option.map_some, Option.some.injEq] at hs
    exact hs ▸ Turn.leave hm hpc
  | remove =>
    simp only [hpc] at hs
    cases hl : s.list with
    | nil =>
      simp only [hl, hwait, Option.map_some, Option.some.injEq] at hs
      exact hs ▸ hl ▸ Turn.wait hm hpc hl
    | cons item rest =>
      simp only [hl, Option.some.injEq] at hs
      exact hs ▸ Turn.take item rest hm hpc hl
  | removed item =>
    simp only [hpc, hrel, Option.map_some, Option.some.injEq] at hs
    exact hs ▸ Turn.ret item hm hpc

theorem step_cases (hf : ∀ t, Fits (s.pc t) (s.mon.pc t)) (hd : Distinct s l)
    (hs : s.step l = some s') :
    Turn s l.thread s' := by
  have hacq : ∀ t, s.pc t = .out →
      s.mon.step (.acquire t) = some (s.mon.lockP t .acquired .acquiring) := fun t ht => by
    have hout : s.mon.pc t = .out := by
      have := hf t
      rw [ht] at this
      exact this
    exact if_pos hout
  cases l with
  | append t item =>
    simp only [step] at hs
    split_ifs at hs with hpc
    rw [hacq t hpc, Option.map_some, Option.some.injEq] at hs
    exact hs ▸ Turn.append item hpc hd
  | removeFront t =>
    simp only [step] at hs
    split_ifs at hs with hpc
    rw [hacq t hpc, Option.map_some, Option.some.injEq] at hs
    exact hs ▸ Turn.removeFront hpc
  | run t =>
    simp only [step] at hs
    split_ifs at hs with hm
    · exact turn_inside hm hs
    · obtain ⟨m, hm', rfl⟩ := Option.map_eq_some_iff.mp hs
      exact Turn.inner m hm hm'

omit [DecidableEq α] in
/-- Where a thread inside an operation of the monitor can be. -/
theorem fits_places {k : Pc α} {p : Monitor.Pc} (hf : Fits k p) (hm : p ≠ .inside) :
    p = .out ∨ p = .acquiring ∨ p = .acquired ∨ k = .remove ∧
      ∃ w, p = .waiting 0 w ∨ p = .reacquiring 0 w ∨ p = .reacquired 0 w := by
  cases k with
  | out => exact Or.inl hf
  | append item =>
    rcases hf with h | h | h
    · exact Or.inr (Or.inl h)
    · exact Or.inr (Or.inr (Or.inl h))
    · exact absurd h hm
  | remove =>
    rcases hf with h | h | h | h
    · exact Or.inr (Or.inl h)
    · exact Or.inr (Or.inr (Or.inl h))
    · exact absurd h hm
    · exact Or.inr (Or.inr (Or.inr ⟨rfl, h⟩))
  | appended | signalled | removed => exact absurd hf hm

omit [DecidableEq α] in
/-- A thread inside an operation of the monitor stays where its place in the
list's operation allows it to be. -/
theorem fits_run {k : Pc α} {m m' : Monitor} (hf : Fits k (m.pc t)) (hm : m.pc t ≠ .inside)
    (hs : m.runStep t = some m') : Fits k (m'.pc t) := by
  have hplaces := fits_places hf hm
  have hk : ∀ p, m.pc t = .acquiring ∨ m.pc t = .acquired → p = .acquiring ∨ p = .acquired ∨
      p = .inside → Fits k p := by
    intro p h1 h2
    cases k with
    | append item => exact h2
    | remove => exact h2.imp_right (Or.imp_right Or.inl)
    | out | appended | signalled | removed =>
      simp only [Fits] at hf
      rw [hf] at h1
      simp at h1
  rcases hplaces with hp | hp | hp | ⟨rfl, w, hp | hp | hp⟩
  · simp [Monitor.runStep, hp] at hs
  · exact hk _ (Or.inl hp) (Monitor.run_entering (Or.inl hp) hm hs)
  · exact hk _ (Or.inr hp) (Monitor.run_entering (Or.inr (Or.inl hp)) hm hs)
  · simp only [Monitor.runStep, hp] at hs
    split_ifs at hs
    cases hs
    rcases Monitor.waiterP_pc m t 0 w with h | h <;> rw [h] <;> simp [Fits]
  · simp only [Monitor.runStep, hp] at hs
    split_ifs at hs
    cases hs
    rcases Monitor.lockP_pc m t (.reacquired 0 w) (.reacquiring 0 w) with h | h <;>
      rw [h] <;> simp [Fits]
  · simp only [Monitor.runStep, hp, Option.some.injEq] at hs
    rw [← hs]
    exact Or.inr (Or.inr (Or.inl (Function.update_self _ _ _)))

/-- What the turn is for the monitor: nothing, or one of its steps, made with
discipline. -/
theorem Turn.monitor (hf : Fits (s.pc t) (s.mon.pc t)) (ht : Turn s t s') :
    s'.mon = s.mon ∨ ∃ l, l.thread = t ∧ Monitor.Disciplined s.mon l ∧
    s.mon.step l = some s'.mon := by
  cases ht with
  | append item hpc | removeFront hpc =>
    have hout : s.mon.pc t = .out := by
      rw [hpc] at hf
      exact hf
    exact Or.inr ⟨.acquire t, rfl, trivial, if_pos hout⟩
  | inner m hm hs => exact Or.inr ⟨.run t, rfl, trivial, hs⟩
  | put | take => exact Or.inl rfl
  | signal hm => exact Or.inr ⟨.signal t 0, rfl, hm, if_pos (Or.inr hm)⟩
  | leave hm => exact Or.inr ⟨.release t, rfl, hm, if_pos (Or.inr hm)⟩
  | wait hm => exact Or.inr ⟨.wait t 0, rfl, hm, if_pos (Or.inr hm)⟩
  | ret item hm => exact Or.inr ⟨.release t, rfl, hm, if_pos (Or.inr hm)⟩

theorem Turn.other_mon (hf : Fits (s.pc t) (s.mon.pc t)) (ht : Turn s t s') (hu : u ≠ t) :
    s'.mon.pc u = s.mon.pc u := by
  rcases ht.monitor hf with h | ⟨l, rfl, hd, hs⟩
  · rw [h]
  · exact Monitor.turn_other (Monitor.step_cases hd hs) hu

theorem Turn.other (ht : Turn s t s') (hu : u ≠ t) : s'.pc u = s.pc u := by
  cases ht with
  | inner | wait => rfl
  | append | removeFront | put | signal | leave | take | ret => exact Function.update_of_ne hu _ _

theorem signal_pc (m : Monitor) (t : Tid) (c : ℕ) : (m.signal t c).pc = m.pc := by
  unfold Monitor.signal
  split <;> rfl

theorem fits_turn (hf : ∀ t, Fits (s.pc t) (s.mon.pc t)) (ht : Turn s t s') (u : Tid) :
    Fits (s'.pc u) (s'.mon.pc u) := by
  by_cases hu : u = t
  · subst hu
    have hself : ∀ k : Pc α, Function.update s.pc u k u = k := fun k => Function.update_self _ _ _
    cases ht with
    | append item hpc =>
      simp only [hself]
      exact (Monitor.lockP_pc s.mon u .acquired .acquiring).elim (fun h => Or.inr (Or.inl h)) Or.inl
    | removeFront hpc =>
      simp only [hself]
      exact (Monitor.lockP_pc s.mon u .acquired .acquiring).elim (fun h => Or.inr (Or.inl h)) Or.inl
    | inner m hm hs => exact fits_run (hf u) hm hs
    | put item hm hpc =>
      simp only [listAppend, hself]
      exact hm
    | signal hm hpc =>
      simp only [hself, signal_pc]
      exact hm
    | leave hm hpc =>
      simp only [hself]
      exact Function.update_self _ _ _
    | wait hm hpc hl =>
      simp only [hpc]
      exact Or.inr (Or.inr (Or.inr ⟨s.mon.nwaiters, Or.inl (Function.update_self _ _ _)⟩))
    | take item rest hm hpc hl =>
      simp only [listRemoveFront, hself]
      exact hm
    | ret item hm hpc =>
      simp only [hself]
      exact Function.update_self _ _ _
  · rw [ht.other hu, ht.other_mon (hf t) hu]
    exact hf u

theorem fits_reach (hr : Reach s) (t : Tid) : Fits (s.pc t) (s.mon.pc t) := by
  refine hr.inv (fun s => ∀ t, Fits (s.pc t) (s.mon.pc t)) ?_ (fun s l s' _ hf hd hs => ?_) t
  · intro s hs t
    rw [hs]
    exact rfl
  · exact fits_turn hf (step_cases hf hd hs)

/-- The monitor of a list is used with discipline. -/
theorem monitor_reach (hr : Reach s) : Monitor.Reach s.mon := by
  refine hr.map SynchList.mon (fun s hs => by rw [hs]; rfl) fun s l s' hr hd hs => ?_
  have hf := fits_reach hr
  rcases (step_cases hf hd hs).monitor (hf _) with h | ⟨l', -, hd', hs'⟩
  · exact Or.inl h
  · exact Or.inr ⟨l', hd', hs'⟩

/-! ### Items -/

/-- Items are taken in the order they came; an item is offered once, and is in
the hand of one thread at most. -/
structure Items (s : SynchList α) : Prop where
  fifo : s.appended = s.removed ++ s.list
  nodup : s.appended.Nodup
  offered : ∀ x ∈ s.appended, x ∈ s.offered
  append : ∀ t x, s.pc t = .append x → x ∈ s.offered ∧ x ∉ s.appended
  unique : ∀ t u x, s.pc t = .append x → s.pc u = .append x → t = u
  returned : ∀ x ∈ s.returned, x ∈ s.removed
  returnedNodup : s.returned.Nodup
  removed : ∀ t x, s.pc t = .removed x → x ∈ s.removed ∧ x ∉ s.returned
  aborted : s.aborted = false

omit [DecidableEq α] in
theorem items_initial : Items (initial : SynchList α) where
  fifo := rfl
  nodup := List.nodup_nil
  offered _ h := absurd h List.not_mem_nil
  append _ _ h := by cases h
  unique _ _ _ h := by cases h
  returned _ h := absurd h List.not_mem_nil
  returnedNodup := List.nodup_nil
  removed _ _ h := by cases h
  aborted := rfl

omit [DecidableEq α] in
/-- The thread goes on to a place where it has no item in hand. -/
theorem Items.move (h : Items s) {k : Pc α} (hk : ∀ x, k ≠ .append x ∧ k ≠ .removed x)
    (hpc : s'.pc = Function.update s.pc t k) (ha : s'.appended = s.appended)
    (hr : s'.removed = s.removed) (hl : s'.list = s.list) (ho : s'.offered = s.offered)
    (hret : s'.returned = s.returned) (hab : s'.aborted = s.aborted) : Items s' := by
  have hold : ∀ u x, s'.pc u = .append x ∨ s'.pc u = .removed x →
      s'.pc u = s.pc u := fun u x hu => by
    rw [hpc] at hu ⊢
    by_cases hut : u = t
    · rw [hut, Function.update_self] at hu
      exact absurd hu (by simp [hk x])
    · exact Function.update_of_ne hut _ _
  refine
    { fifo := by rw [ha, hr, hl]; exact h.fifo
      nodup := by rw [ha]; exact h.nodup
      offered := fun x hx => by rw [ha] at hx; rw [ho]; exact h.offered x hx
      append := fun u x hu => ?_
      unique := fun u v x hu hv => ?_
      returned := fun x hx => by rw [hret] at hx; rw [hr]; exact h.returned x hx
      returnedNodup := by rw [hret]; exact h.returnedNodup
      removed := fun u x hu => ?_
      aborted := hab.trans h.aborted }
  · rw [hold u x (Or.inl hu)] at hu
    rw [ho, ha]
    exact h.append u x hu
  · rw [hold u x (Or.inl hu)] at hu
    rw [hold v x (Or.inl hv)] at hv
    exact h.unique u v x hu hv
  · rw [hold u x (Or.inr hu)] at hu
    rw [hr, hret]
    exact h.removed u x hu

omit [DecidableEq α] in
/-- An item that was never offered is offered. -/
theorem Items.offer (h : Items s) {item : α} (hnew : item ∉ s.offered) (m : Monitor) :
    Items { s with
      mon := m
      pc := Function.update s.pc t (.append item)
      offered := s.offered ++ [item] } := by
  have hout : item ∉ s.appended := fun hx => hnew (h.offered item hx)
  -- a thread with an item to append is `t`, or had it before
  have hold : ∀ u x, Function.update s.pc t (.append item) u = .append x →
      (u = t ∧ x = item) ∨ (s.pc u = .append x ∧ x ≠ item) := by
    intro u x hu
    by_cases hx : x = item
    · by_cases hut : u = t
      · exact Or.inl ⟨hut, hx⟩
      · rw [Function.update_of_ne hut, hx] at hu
        exact absurd (h.append u item hu).1 hnew
    · exact Or.inr ⟨(Runs.of_update hu (fun he => hx (Pc.append.inj he).symm)).2, hx⟩
  refine
    { fifo := h.fifo
      nodup := h.nodup
      offered := fun x hx => List.mem_append_left _ (h.offered x hx)
      append := fun u x hu => ?_
      unique := fun u v x hu hv => ?_
      returned := h.returned
      returnedNodup := h.returnedNodup
      removed := fun u x hu => h.removed u x (Runs.of_update hu (by simp)).2
      aborted := h.aborted }
  · rcases hold u x hu with ⟨-, rfl⟩ | ⟨hu, -⟩
    · exact ⟨by simp, hout⟩
    · obtain ⟨h1, h2⟩ := h.append u x hu
      exact ⟨List.mem_append_left _ h1, h2⟩
  · rcases hold u x hu with ⟨hut, hx⟩ | ⟨hu, hx⟩ <;> rcases hold v x hv with ⟨hvt, hx'⟩ | ⟨hv, hx'⟩
    · exact hut.trans hvt.symm
    · exact absurd hx hx'
    · exact absurd hx' hx
    · exact h.unique u v x hu hv

/-- The item of a thread is put on the list. -/
theorem Items.put (h : Items s) {item : α} (hpc : s.pc t = .append item) :
    Items (s.listAppend t item) := by
  obtain ⟨hoff, hnew⟩ := h.append t item hpc
  have hlist : item ∉ s.list := fun hx => hnew (by rw [h.fifo]; exact List.mem_append_right _ hx)
  have hold : ∀ u x, Function.update s.pc t .appended u = .append x → u ≠ t ∧ s.pc u = .append x :=
    fun u x hu => Runs.of_update hu (by simp)
  refine
    { fifo := by simp [listAppend, h.fifo]
      nodup := h.nodup.append (List.nodup_singleton item) (List.disjoint_singleton.mpr hnew)
      offered := fun x hx => ?_
      append := fun u x hu => ?_
      unique := fun u v x hu hv => h.unique u v x (hold u x hu).2 (hold v x hv).2
      returned := h.returned
      returnedNodup := h.returnedNodup
      removed := fun u x hu => h.removed u x (Runs.of_update hu (by simp)).2
      aborted := by simp [listAppend, h.aborted, hlist] }
  · rcases List.mem_append.mp hx with hx | hx
    · exact h.offered x hx
    · rw [List.mem_singleton.mp hx]
      exact hoff
  · obtain ⟨hut, hux⟩ := hold u x hu
    obtain ⟨h1, h2⟩ := h.append u x hux
    refine ⟨h1, fun hx => ?_⟩
    rcases List.mem_append.mp hx with hx | hx
    · exact h2 hx
    · rw [List.mem_singleton.mp hx] at hux
      exact hut (h.unique u t item hux hpc)

omit [DecidableEq α] in
/-- The front of the list is taken. -/
theorem Items.take (h : Items s) {item : α} {rest : List α} (hl : s.list = item :: rest) :
    Items (s.listRemoveFront t item rest) := by
  have hnodup := h.nodup
  rw [h.fifo, hl] at hnodup
  have hnew : item ∉ s.removed :=
    fun hx => (List.nodup_append.mp hnodup).2.2 item hx item List.mem_cons_self rfl
  have hold : ∀ u x, Function.update s.pc t (.removed item) u = .append x → s.pc u = .append x :=
    fun u x hu => (Runs.of_update hu (by simp)).2
  refine
    { fifo := by simp [listRemoveFront, h.fifo, hl]
      nodup := h.nodup
      offered := h.offered
      append := fun u x hu => h.append u x (hold u x hu)
      unique := fun u v x hu hv => h.unique u v x (hold u x hu) (hold v x hv)
      returned := fun x hx => List.mem_append_left _ (h.returned x hx)
      returnedNodup := h.returnedNodup
      removed := fun u x hu => ?_
      aborted := h.aborted }
  by_cases hx : x = item
  · subst hx
    exact ⟨by simp [listRemoveFront], fun hx => hnew (h.returned _ hx)⟩
  · obtain ⟨h1, h2⟩ := h.removed u x (Runs.of_update hu (fun he => hx (Pc.removed.inj he).symm)).2
    exact ⟨List.mem_append_left _ h1, h2⟩

omit [DecidableEq α] in
/-- A thread returns with its item, when nobody else has one in hand. -/
theorem Items.ret (h : Items s) {item : α} (hpc : s.pc t = .removed item)
    (hothers : ∀ u x, s.pc u = .removed x → u = t) (m : Monitor) :
    Items { s with
      mon := m
      pc := Function.update s.pc t .out
      returned := s.returned ++ [item] } := by
  obtain ⟨hrem, hnew⟩ := h.removed t item hpc
  have hmoved : Items { s with pc := Function.update s.pc t .out } :=
    h.move (t := t) (k := .out) (fun x => by simp) rfl rfl rfl rfl rfl rfl rfl
  refine
    { fifo := h.fifo
      nodup := h.nodup
      offered := h.offered
      append := hmoved.append
      unique := hmoved.unique
      returned := fun x hx => ?_
      returnedNodup :=
        h.returnedNodup.append (List.nodup_singleton item) (List.disjoint_singleton.mpr hnew)
      removed := fun u x hu => ?_
      aborted := h.aborted }
  · rcases List.mem_append.mp hx with hx | hx
    · exact h.returned x hx
    · rw [List.mem_singleton.mp hx]
      exact hrem
  · obtain ⟨hut, hu⟩ := Runs.of_update hu (by simp)
    exact absurd (hothers u x hu) hut

theorem items_turn (h : Items s) (hex : ∀ u, s.mon.pc u = .inside → s.mon.pc t = .inside → u = t)
    (hf : ∀ t, Fits (s.pc t) (s.mon.pc t)) (ht : Turn s t s') : Items s' := by
  cases ht with
  | append item hpc hnew => exact h.offer hnew _
  | removeFront hpc =>
    exact h.move (t := t) (k := .remove) (fun x => by simp) rfl rfl rfl rfl rfl rfl rfl
  | inner m hm hs =>
    exact ⟨h.fifo, h.nodup, h.offered, h.append, h.unique, h.returned, h.returnedNodup,
      h.removed, h.aborted⟩
  | put item hm hpc => exact h.put hpc
  | signal hm hpc =>
    exact h.move (t := t) (k := .signalled) (fun x => by simp) rfl rfl rfl rfl rfl rfl rfl
  | leave hm hpc => exact h.move (t := t) (k := .out) (fun x => by simp) rfl rfl rfl rfl rfl rfl rfl
  | wait hm hpc hl =>
    exact ⟨h.fifo, h.nodup, h.offered, h.append, h.unique, h.returned, h.returnedNodup,
      h.removed, h.aborted⟩
  | take item rest hm hpc hl => exact h.take hl
  | ret item hm hpc =>
    -- a thread with an item in hand has the lock
    refine h.ret hpc (fun u x hu => ?_) _
    have hin := hf u
    rw [hu] at hin
    exact hex u hin hm

/-! ### No consumer is stuck -/

/-- The thread has still to signal for an item, or to look at the list. -/
def Pc.hot : Pc α → Bool
  | .appended => true
  | .remove => true
  | _ => false

/-- While somebody waits, the items are at most the waiters on their way; one
more is allowed while the thread with the lock is going to see to it. -/
def Stock (s : SynchList α) : Prop :=
  s.mon.waitQueue 0 ≠ [] → s.list.length ≤ signalled s.mon ∨
    s.list.length ≤ signalled s.mon + 1 ∧ ∃ t, (s.mon.pc t).critical = true ∧ (s.pc t).hot = true

/-- The waiter `w` is on its way to the lock. -/
def onWay (m : Monitor) (w : ℕ) : Bool :=
  m.pc (m.owner w) = .waiting 0 w ∨ m.pc (m.owner w) = .reacquiring 0 w

theorem signalled_eq (m : Monitor) : signalled m = (m.removed 0).countP (onWay m) := rfl

/-- Nobody on the way is lost while no thread takes the lock. -/
theorem signalled_mono {m m' : Monitor} (hr : m'.removed 0 = m.removed 0)
    (hw : ∀ w ∈ m.removed 0, onWay m w = true → onWay m' w = true) :
    signalled m ≤ signalled m' := by
  rw [signalled_eq, signalled_eq, hr]
  exact List.countP_mono_left hw

/-- A thread that takes the lock is one less on the way. -/
theorem signalled_succ {m m' : Monitor} {w : ℕ} (hn : (m.removed 0).Nodup)
    (hr : m'.removed 0 = m.removed 0)
    (hw : ∀ w' ∈ m.removed 0, w' ≠ w → onWay m w' = true → onWay m' w' = true) :
    signalled m ≤ signalled m' + 1 := by
  have herase : (m.removed 0).countP (onWay m) ≤ ((m.removed 0).erase w).countP (onWay m) + 1 := by
    rw [List.countP_erase]
    split_ifs <;> omega
  calc signalled m = (m.removed 0).countP (onWay m) := rfl
    _ ≤ ((m.removed 0).erase w).countP (onWay m) + 1 := herase
    _ ≤ ((m.removed 0).erase w).countP (onWay m') + 1 := by
        refine Nat.add_le_add_right (List.countP_mono_left fun w' hm h => ?_) 1
        obtain ⟨hne, hmem⟩ := hn.mem_erase_iff.mp hm
        exact hw w' hmem hne h
    _ ≤ (m.removed 0).countP (onWay m') + 1 := Nat.add_le_add_right (List.erase_sublist.countP_le) 1
    _ = signalled m' + 1 := by rw [signalled_eq, hr]

section

omit [DecidableEq α]

/-- A thread on the way stays on it while its place does not change, or from
the `P` of its waiter to the one of the lock. -/
theorem onWay_of {m m' : Monitor} (ho : m'.owner = m.owner) (hother : ∀ u, u ≠ t → m'.pc u = m.pc u)
    (hself : ∀ w, m.pc t = .waiting 0 w ∨ m.pc t = .reacquiring 0 w →
      m'.pc t = .waiting 0 w ∨ m'.pc t = .reacquiring 0 w) (w : ℕ) (h : onWay m w = true) :
      onWay m' w = true := by
  unfold onWay at *
  rw [ho]
  by_cases hu : m.owner w = t
  · rw [hu] at h ⊢
    exact decide_eq_true (hself w (of_decide_eq_true h))
  · rw [hother _ hu]
    exact h

theorem Stock.frame (h : Stock s) (hl : s'.list = s.list)
    (hq : s'.mon.waitQueue 0 = s.mon.waitQueue 0) (hs : signalled s.mon ≤ signalled s'.mon)
    (hhot : ∀ u, (s.mon.pc u).critical = true → (s.pc u).hot = true →
      (s'.mon.pc u).critical = true ∧ (s'.pc u).hot = true) : Stock s' := by
  intro hne
  rw [hq] at hne
  rw [hl]
  rcases h hne with h1 | ⟨h1, u, hu1, hu2⟩
  · exact Or.inl (h1.trans hs)
  · exact Or.inr ⟨h1.trans (Nat.add_le_add_right hs 1), u, hhot u hu1 hu2⟩

theorem lockP_owner (m : Monitor) (t : Tid) (p q : Monitor.Pc) :
    (m.lockP t p q).owner = m.owner := by
  unfold Monitor.lockP
  split_ifs <;> rfl

theorem lockP_removed (m : Monitor) (t : Tid) (p q : Monitor.Pc) :
    (m.lockP t p q).removed = m.removed := by
  unfold Monitor.lockP
  split_ifs <;> rfl

theorem lockP_waitQueue (m : Monitor) (t : Tid) (p q : Monitor.Pc) :
    (m.lockP t p q).waitQueue = m.waitQueue := by
  unfold Monitor.lockP
  split_ifs <;> rfl

theorem lockP_other (m : Monitor) (p q : Monitor.Pc) (hu : u ≠ t) :
    (m.lockP t p q).pc u = m.pc u := by
  unfold Monitor.lockP
  split_ifs <;> exact Function.update_of_ne hu _ _

/-- A thread goes for the lock from a place that does not count. -/
theorem stock_lockP (h : Stock s) {p q : Monitor.Pc} (hcrit : (s.mon.pc t).critical = false)
    (hway : ∀ w, s.mon.pc t ≠ .waiting 0 w ∧ s.mon.pc t ≠ .reacquiring 0 w) (hl : s'.list = s.list)
    (hm : s'.mon = s.mon.lockP t p q) (hpc : ∀ u, u ≠ t → s'.pc u = s.pc u) : Stock s' := by
  refine h.frame hl (by rw [hm, lockP_waitQueue])
    (signalled_mono (by rw [hm, lockP_removed]) fun w _ => ?_)
    fun u hu1 hu2 => ?_
  · rw [hm]
    refine onWay_of (lockP_owner s.mon t p q) (fun u hu => lockP_other s.mon p q hu)
      (fun w hw => ?_) w
    exact absurd hw (by simp [hway w])
  · have hut : u ≠ t := fun he => by
      rw [he, hcrit] at hu1
      cases hu1
    rw [hm, lockP_other s.mon p q hut, hpc u hut]
    exact ⟨hu1, hu2⟩

/-- The thread writes `lockHolder`: it was past the `P`. -/
theorem stock_setHolder (h : Stock s) (hcrit : (s.mon.pc t).critical = true) (m : Monitor)
    (hm : m.pc = (s.mon.setHolder t).pc) (ho : m.owner = s.mon.owner)
    (hr : m.removed = s.mon.removed) (hq : m.waitQueue = s.mon.waitQueue) :
    Stock { s with mon := m } := by
  have hpc : ∀ u, u ≠ t → m.pc u = s.mon.pc u := fun u hu => by
    rw [hm]
    exact Function.update_of_ne hu _ _
  have hself : m.pc t = .inside := by
    rw [hm]
    exact Function.update_self _ _ _
  refine h.frame rfl (by rw [hq]) (signalled_mono (by rw [hr]) fun w _ => ?_)
    fun u hu1 hu2 => ⟨?_, hu2⟩
  · refine onWay_of ho hpc (fun w hw => ?_) w
    rcases hw with hw | hw <;> rw [hw] at hcrit <;> cases hcrit
  · by_cases hut : u = t
    · rw [hut, hself]
      rfl
    · rw [hpc u hut]
      exact hu1

/-- A waiter that was signalled takes the lock again: it is no longer on the
way, and is going to look at the list. -/
theorem stock_reacquire (h : Stock s) (hI : Monitor.Inv s.mon) {w : ℕ}
    (hp : s.mon.pc t = .reacquiring 0 w) (hk : s.pc t = .remove) :
    Stock { s with mon := s.mon.lockP t (.reacquired 0 w) (.reacquiring 0 w) } := by
  set m := s.mon.lockP t (.reacquired 0 w) (.reacquiring 0 w) with hm
  have hnocrit : (s.mon.pc t).critical = false := by rw [hp]; rfl
  have hother : ∀ u, u ≠ t → m.pc u = s.mon.pc u := fun u hu => lockP_other s.mon _ _ hu
  have hown : m.owner = s.mon.owner := lockP_owner s.mon t _ _
  have hrem : m.removed = s.mon.removed := lockP_removed s.mon t _ _
  by_cases hv : s.mon.sem.value = 0
  · have hself : m.pc t = .reacquiring 0 w := by
      simp [hm, Monitor.lockP, Semaphore.pTest, hv, Monitor.setPc]
    refine h.frame rfl (by rw [hm, lockP_waitQueue]) (signalled_mono (by rw [hrem]) fun w' _ => ?_)
      fun u hu1 hu2 => ⟨?_, hu2⟩
    · refine onWay_of hown hother (fun w'' hw => ?_) w'
      rw [hp] at hw
      rw [hself]
      exact hw
    · have hut : u ≠ t := fun he => by
        rw [he, hnocrit] at hu1
        cases hu1
      rw [hother u hut]
      exact hu1
  · have hself : m.pc t = .reacquired 0 w := by
      simp [hm, Monitor.lockP, Semaphore.pTest, hv, Monitor.setPc]
    intro hne
    have hq : s.mon.waitQueue 0 ≠ [] := by
      rw [← lockP_waitQueue s.mon t (.reacquired 0 w) (.reacquiring 0 w)]
      exact hne
    have hless : signalled s.mon ≤ signalled m + 1 := by
      have hnodup : (s.mon.removed 0).Nodup := by
        have := hI.cond.nodup 0
        rw [hI.cond.fifo 0] at this
        exact (List.nodup_append.mp this).1
      refine signalled_succ (w := w) hnodup (by rw [hrem]) fun w' _ hww hw' => ?_
      have hut : s.mon.owner w' ≠ t := fun he => by
        unfold onWay at hw'
        rw [he, hp] at hw'
        simp only [reduceCtorEq, Monitor.Pc.reacquiring.injEq, true_and, false_or,
          decide_eq_true_eq] at hw'
        exact hww hw'.symm
      unfold onWay at hw' ⊢
      rw [hown, hother _ hut]
      exact hw'
    rcases h hq with h1 | ⟨-, u, hu, -⟩
    · refine Or.inr ⟨h1.trans hless, t, ?_, ?_⟩
      · rw [show ({ s with mon := m } : SynchList α).mon = m from rfl, hself]
        rfl
      · rw [show ({ s with mon := m } : SynchList α).pc = s.pc from rfl, hk]
        rfl
    · exact absurd (hI.lock.busy u hu) hv

theorem stock_inner (h : Stock s) (hI : Monitor.Inv s.mon) (hf : Fits (s.pc t) (s.mon.pc t))
    {m : Monitor} (hm : s.mon.pc t ≠ .inside) (hs : s.mon.runStep t = some m) :
    Stock { s with mon := m } := by
  have hplaces : s.mon.pc t = .out ∨ s.mon.pc t = .acquiring ∨ s.mon.pc t = .acquired ∨
      s.pc t = .remove ∧
      ∃ w, s.mon.pc t = .waiting 0 w ∨ s.mon.pc t = .reacquiring 0 w ∨
        s.mon.pc t = .reacquired 0 w :=
    fits_places hf hm
  rcases hplaces with hp | hp | hp | ⟨hk, w, hp | hp | hp⟩
  · simp [Monitor.runStep, hp] at hs
  · simp only [Monitor.runStep, hp] at hs
    split_ifs at hs
    cases hs
    exact stock_lockP (t := t) h (by rw [hp]; rfl) (fun w => by rw [hp]; simp)
      rfl rfl fun _ _ => rfl
  · simp only [Monitor.runStep, hp, Option.some.injEq] at hs
    subst hs
    exact stock_setHolder (t := t) h (by rw [hp]; rfl) _ rfl rfl rfl rfl
  · simp only [Monitor.runStep, hp] at hs
    split_ifs at hs
    cases hs
    have hown : (s.mon.waiterP t 0 w).owner = s.mon.owner := by
      unfold Monitor.waiterP; split_ifs <;> rfl
    have hrem : (s.mon.waiterP t 0 w).removed = s.mon.removed := by
      unfold Monitor.waiterP; split_ifs <;> rfl
    have hq : (s.mon.waiterP t 0 w).waitQueue = s.mon.waitQueue := by
      unfold Monitor.waiterP; split_ifs <;> rfl
    have hother : ∀ u, u ≠ t → (s.mon.waiterP t 0 w).pc u = s.mon.pc u := fun u hu => by
      unfold Monitor.waiterP
      split_ifs <;> exact Function.update_of_ne hu _ _
    refine h.frame rfl (by rw [hq]) (signalled_mono (by rw [hrem]) fun w' _ => ?_)
      fun u hu1 hu2 => ⟨?_, hu2⟩
    · refine onWay_of hown hother (fun w'' hw => ?_) w'
      have hww : w = w'' := by
        rw [hp] at hw
        simpa using hw
      rw [← hww]
      exact (Monitor.waiterP_pc s.mon t 0 w).symm
    · have hut : u ≠ t := fun he => by
        rw [he, hp] at hu1
        cases hu1
      rw [hother u hut]
      exact hu1
  · simp only [Monitor.runStep, hp] at hs
    split_ifs at hs
    cases hs
    exact stock_reacquire h hI hp hk
  · simp only [Monitor.runStep, hp, Option.some.injEq] at hs
    subst hs
    exact stock_setHolder (t := t) h (by rw [hp]; rfl) _ rfl rfl rfl rfl

/-- The lock goes from a thread that has seen to the list. -/
theorem stock_release (h : Stock s) (hI : Monitor.Inv s.mon) (hm : s.mon.pc t = .inside)
    (hcold : (s.pc t).hot = false) (hl : s'.list = s.list) (hmon : s'.mon = s.mon.release t .out) :
    Stock s' := by
  intro hne
  have hq : s.mon.waitQueue 0 ≠ [] := by
    rw [hmon] at hne
    exact hne
  have hmono : signalled s.mon ≤ signalled s'.mon := by
    rw [hmon]
    have hother : ∀ u, u ≠ t → (s.mon.release t .out).pc u = s.mon.pc u :=
      fun u hu => Function.update_of_ne hu _ _
    have hown : (s.mon.release t .out).owner = s.mon.owner := rfl
    refine signalled_mono rfl fun w _ => onWay_of hown hother (fun w hw => ?_) w
    rw [hm] at hw
    simp at hw
  rw [hl]
  rcases h hq with h1 | ⟨-, u, hu1, hu2⟩
  · exact Or.inl (h1.trans hmono)
  · have hut : u = t := hI.lock.excl u t hu1 (by rw [hm]; rfl)
    rw [hut, hcold] at hu2
    cases hu2

end

/-- A signal that finds waiters puts one more on the way. -/
theorem signalled_signal {m : Monitor} (hc : Monitor.CondInv m) {w : ℕ} {ws : List ℕ}
    (hq : m.waitQueue 0 = w :: ws) :
    signalled (m.signal t 0) = signalled m + 1 := by
  obtain ⟨hpc, -, hrem, -⟩ := Monitor.enables_signal hc t 0 w ws hq
  have hway : onWay (m.signal t 0) = onWay m := by
    funext w'
    unfold onWay
    rw [signal_pc, show (m.signal t 0).owner = m.owner by unfold Monitor.signal; split <;> rfl]
  have hw : onWay m w = true := decide_eq_true (Or.inl hpc)
  rw [signalled_eq, signalled_eq, hrem, hway, Function.update_self, List.countP_append,
    List.countP_singleton, hw]
  rfl

theorem stock_turn (h : Stock s) (hI : Monitor.Inv s.mon) (hf : Fits (s.pc t) (s.mon.pc t))
    (ht : Turn s t s') :
    Stock s' := by
  cases ht with
  | append item hpc hnew =>
    have hout : s.mon.pc t = .out := by rw [hpc] at hf; exact hf
    exact stock_lockP (t := t) h (by rw [hout]; rfl) (fun w => by rw [hout]; simp) rfl rfl
      fun u hu => Function.update_of_ne hu _ _
  | removeFront hpc =>
    have hout : s.mon.pc t = .out := by rw [hpc] at hf; exact hf
    exact stock_lockP (t := t) h (by rw [hout]; rfl) (fun w => by rw [hout]; simp) rfl rfl
      fun u hu => Function.update_of_ne hu _ _
  | inner m hm hs => exact stock_inner h hI hf hm hs
  | put item hm hpc =>
    intro hne
    refine Or.inr ⟨?_, t, ?_, ?_⟩
    · rcases h hne with h1 | ⟨-, u, hu1, hu2⟩
      · simpa [listAppend] using h1
      · have hut : u = t := hI.lock.excl u t hu1 (by rw [hm]; rfl)
        rw [hut, hpc] at hu2
        cases hu2
    · rw [show (s.listAppend t item).mon = s.mon from rfl, hm]
      rfl
    · simp [listAppend, Pc.hot]
  | signal hm hpc =>
    intro hne
    cases hq : s.mon.waitQueue 0 with
    | nil =>
      refine absurd ?_ hne
      simp only [Monitor.signal, hq]
      exact hq
    | cons w ws =>
      have hcount := signalled_signal (t := t) hI.cond hq
      have hbound : s.list.length ≤ signalled s.mon + 1 := by
        rcases h (by rw [hq]; exact List.cons_ne_nil _ _) with h1 | ⟨h1, -⟩ <;> omega
      exact Or.inl (hbound.trans hcount.ge)
  | leave hm hpc => exact stock_release (t := t) h hI hm (by rw [hpc]; rfl) rfl rfl
  | wait hm hpc hl =>
    intro _
    exact Or.inl (by simp [hl])
  | take item rest hm hpc hl =>
    intro hne
    have hq : s.mon.waitQueue 0 ≠ [] := hne
    refine Or.inl ?_
    have hbound : s.list.length ≤ signalled s.mon + 1 := by
      rcases h hq with h1 | ⟨h1, -⟩ <;> omega
    rw [hl] at hbound
    simpa [listRemoveFront] using hbound
  | ret item hm hpc => exact stock_release (t := t) h hI hm (by rw [hpc]; rfl) rfl rfl

/-! ### What a step does to the items -/

/-- No item is offered or put on the list. -/
structure Quiet (s s' : SynchList α) : Prop where
  offered : s'.offered = s.offered
  appended : s'.appended = s.appended
  append : ∀ u x, s'.pc u = .append x ↔ s.pc u = .append x

theorem step_append {item : α} (hs : s.step (.append t item) = some s') :
    s'.offered = s.offered ++ [item] ∧ s'.appended = s.appended ∧
    s'.pc = Function.update s.pc t (.append item) ∧
      s'.returned = s.returned := by
  simp only [step] at hs
  split_ifs at hs
  obtain ⟨m, -, rfl⟩ := Option.map_eq_some_iff.mp hs
  exact ⟨rfl, rfl, rfl, rfl⟩

theorem step_removeFront (hs : s.step (.removeFront t) = some s') :
    Quiet s s' ∧ s'.pc t = .remove ∧ s'.returned = s.returned := by
  simp only [step] at hs
  split_ifs at hs with hpc
  obtain ⟨m, -, rfl⟩ := Option.map_eq_some_iff.mp hs
  have hold : ∀ x, s.pc t ≠ .append x := fun x => by rw [hpc]; simp
  exact ⟨⟨rfl, rfl, fun u x => Runs.update_eq_iff (hold x) (by simp)⟩,
    Function.update_self _ _ _, rfl⟩

/-- A thread in `Append` puts its item on the list, or no item moves there. -/
theorem step_run_append (hs : s.step (.run t) = some s') :
    (∃ item, s.pc t = .append item ∧ s'.offered = s.offered ∧ s'.appended = s.appended ++ [item] ∧
      s'.pc = Function.update s.pc t .appended) ∨ Quiet s s' := by
  simp only [step] at hs
  split_ifs at hs with hm
  · have ht := turn_inside hm hs
    cases ht with
    | append item hpc => simp [insideStep, hpc] at hs
    | removeFront hpc => simp [insideStep, hpc] at hs
    | inner m hm' => exact absurd hm hm'
    | put item hm' hpc => exact Or.inl ⟨item, hpc, rfl, rfl, rfl⟩
    | wait hm' hpc => exact Or.inr ⟨rfl, rfl, fun _ _ => Iff.rfl⟩
    | signal hm' hpc | leave hm' hpc | take item rest hm' hpc | ret item hm' hpc =>
      have hold : ∀ x, s.pc t ≠ .append x := fun x => by rw [hpc]; simp
      exact Or.inr ⟨rfl, rfl, fun u x => Runs.update_eq_iff (hold x) (by simp)⟩
  · obtain ⟨m, -, rfl⟩ := Option.map_eq_some_iff.mp hs
    exact Or.inr ⟨rfl, rfl, fun _ _ => Iff.rfl⟩

/-- A thread in `RemoveFront` returns the item it has taken. -/
theorem step_run_returned (hf : Fits (s.pc t) (s.mon.pc t)) (hs : s.step (.run t) = some s') :
    (∃ item, s.pc t = .removed item ∧ s'.returned = s.returned ++ [item]) ∨
      (∀ item, s.pc t ≠ .removed item) ∧ s'.returned = s.returned := by
  simp only [step] at hs
  split_ifs at hs with hm
  · have ht := turn_inside hm hs
    cases ht with
    | append item hpc => simp [insideStep, hpc] at hs
    | removeFront hpc => simp [insideStep, hpc] at hs
    | inner m hm' => exact absurd hm hm'
    | ret item hm' hpc => exact Or.inl ⟨item, hpc, rfl⟩
    | put item hm' hpc | wait hm' hpc | signal hm' hpc | leave hm' hpc | take item rest hm' hpc =>
      exact Or.inr ⟨fun x => by rw [hpc]; simp, rfl⟩
  · obtain ⟨m, -, rfl⟩ := Option.map_eq_some_iff.mp hs
    refine Or.inr ⟨fun item hpc => ?_, rfl⟩
    rw [hpc] at hf
    exact hm hf

/-- The item a thread has taken was at the front of the list. -/
theorem Turn.removed (ht : Turn s t s') {x : α} (h : s'.pc u = .removed x) :
    s.pc u = .removed x ∨ ∃ rest, s.list = x :: rest := by
  cases ht with
  | inner | wait => exact Or.inl h
  | append | removeFront | put | signal | leave | ret => exact Or.inl (Runs.of_update h (by simp)).2
  | take item rest hm hpc hl =>
    by_cases hu : u = t
    · rw [hu] at h
      simp only [listRemoveFront, Function.update_self, Pc.removed.injEq] at h
      exact Or.inr ⟨rest, h ▸ hl⟩
    · simp only [listRemoveFront, Function.update_of_ne hu] at h
      exact Or.inl h

/-! ### Every run -/

theorem items_reach (hr : Reach s) : Items s := by
  refine hr.inv Items ?_ fun s l s' hr hI hd hs => ?_
  · intro s hs
    rw [hs]
    exact items_initial
  · have hf := fits_reach hr
    have hmon := Monitor.inv_reach (monitor_reach hr)
    refine items_turn hI (fun u hu ht => ?_) hf (step_cases hf hd hs)
    exact hmon.lock.excl u _ (by rw [hu]; rfl) (by rw [ht]; rfl)

theorem stock_reach (hr : Reach s) : Stock s := by
  refine hr.inv Stock ?_ fun s l s' hr hI hd hs => ?_
  · intro s hs hne
    rw [hs] at hne
    exact absurd rfl hne
  · have hf := fits_reach hr
    exact stock_turn hI (Monitor.inv_reach (monitor_reach hr)) (hf _) (step_cases hf hd hs)

/-- **A FIFO channel.** In every run with distinct items, the items taken from
the list are the first of those put on it, in the same order; an item is
returned once, and only after it was put on the list; no `ASSERT` fails; and
whenever the lock is free while a consumer waits, there are at most as many
items as consumers signalled that have not taken the lock again. -/
theorem fifo_channel {s : SynchList α} (hr : Reach s) :
    s.appended = s.removed ++ s.list ∧ s.appended.Nodup ∧
      (∀ x ∈ s.returned, x ∈ s.removed) ∧ s.returned.Nodup ∧
      s.aborted = false ∧ s.mon.aborted = false ∧
      (s.mon.sem.value = 1 → s.mon.waitQueue 0 ≠ [] → s.list.length ≤ signalled s.mon) := by
  have hI := items_reach hr
  have hmon := Monitor.inv_reach (monitor_reach hr)
  refine ⟨hI.fifo, hI.nodup, hI.returned, hI.returnedNodup, hI.aborted, hmon.aborted,
    fun hfree hne => ?_⟩
  rcases stock_reach hr hne with h | ⟨-, u, hu, -⟩
  · exact h
  · have := hmon.lock.busy u hu
    omega

/-- Consumer 1 waits; producer 2 appends and signals; consumer 3 comes in
before consumer 1 has the lock again and takes the item; consumer 1 waits
again. -/
theorem fifo_channel_barging :
    ∃ s : SynchList ℕ, Reach s ∧ s.returned = [5] ∧ s.mon.waitQueue 0 = [1] ∧
    s.appended = s.removed ++ s.list := by
  obtain ⟨s, hs, ht⟩ := Runs.Reach.of_exec step (· = (initial : SynchList ℕ)) rfl
    [.removeFront 1, .run 1, .run 1, .append 2 5, .run 2, .run 2, .run 2, .run 2, .removeFront 3,
      .run 3, .run 3, .run 3, .run 1, .run 1, .run 1, .run 1]
    (Runs.Along.of_along (c := fun s l => Distinct s l) (fun _ _ h => of_decide_eq_true h) _ _
      (by decide))
    (fun s => s.returned = [5] ∧ s.mon.waitQueue 0 = [1]) (by decide)
  simp only [decide_eq_true_eq] at ht
  exact ⟨s, hs, ht.1, ht.2, (fifo_channel hs).1⟩

end SynchList
end Nachos
