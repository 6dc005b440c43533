/-
# The programs' semaphores are those of the kernel

`World` keeps a value for each name. The kernel has a table of ten slots, each
with a value and a queue of sleeping threads; a thread that is woken tests the
value again. Every run of the table is a run of the values: a pass of `P` that
puts its thread to sleep is one where the `Wait` of the world blocks, any other
step is the call of the world, or changes no value.

Key definitions: `World.Of`, `World.semStep`.
Key theorems: `sems_turn`, `semaphores_refine`.
-/
import Mathlib
import Nachos.Base.Runs
import Nachos.Threads.UserSemaphore
import Nachos.Test.Programs

namespace Nachos

open Programs (Outcome)

namespace Items

/-- The values of the semaphores in the table. -/
def World.Of (w : World) (T : STable) : Prop := ∀ name, w.sems name = (T.lookup name).map (·.value)

/-- The calls on semaphores. -/
inductive SemCall
  | create (name : CString) (value : ℤ)
  | wait (p : Party) (name : CString)
  | signal (p : Party) (name : CString)

/-- A call that returns 0. -/
def World.semStep (w : World) : SemCall → Option World
  | .create name value =>
    if w.sems name = none then some { w with sems := Function.update w.sems name (some value) }
    else none
  | .wait p name => (w.wait p name).toOption.bind fun r => if r.2 = 0 then some r.1 else none
  | .signal p name => (w.signal p name).toOption.bind fun r => if r.2 = 0 then some r.1 else none

variable {w : World} {T T' : STable} {name : CString} {sem sem' : Semaphore}

theorem World.Of.update (h : w.Of T) (hmap : T'.lookup = Function.update T.lookup name (some sem'))
    {w' : World} (hw : w'.sems = Function.update w.sems name (some sem'.value)) : w'.Of T' := by
  intro n
  rw [hw, hmap, Function.update_apply, Function.update_apply]
  split_ifs
  · rfl
  · exact h n

/-- An entry changes in its queue only. -/
theorem World.Of.queue (h : w.Of T) (hsem : T.lookup name = some sem)
    (hmap : T'.lookup = Function.update T.lookup name (some sem')) (hv : sem'.value = sem.value) :
    w.Of T' := by
  refine h.update hmap (Function.update_eq_self_iff.mpr ?_).symm
  rw [h, hsem, hv]
  rfl

/-- The world `w` at a state of the kernel, if `p` makes all the calls. -/
structure Mirrors (p : Party) (w : World) (s : SemSys) : Prop where
  sems : w.Of s.tab
  held : ∀ name, w.held p name = s.waits name - s.signals name

variable {s s' : SemSys} {p : Party}

/-- The value of one name changes, and what `p` holds of it by as much. -/
theorem Mirrors.setSem (h : Mirrors p w s)
    (hmap : s'.tab.lookup = Function.update s.tab.lookup name (some sem')) (change : ℤ)
    (hcount : ∀ n, (s'.waits n : ℤ) - s'.signals n = s.waits n - s.signals n + if n = name then
      change else 0) :
    Mirrors p (w.setSem p name sem'.value change) s' := by
  refine { sems := h.sems.update hmap rfl, held := fun n => ?_ }
  rw [hcount, ← h.held]
  simp only [World.setSem, Function.update_self, Function.update_apply]
  split_ifs with hn
  · rw [hn]
  · exact (add_zero _).symm

theorem bump_count (f : CString → ℕ) (name n : CString) :
    ((SemSys.bump f name true n : ℕ) : ℤ) = f n + if n = name then 1 else 0 := by
  by_cases hn : n = name
  · rw [if_pos hn, hn, SemSys.bump_same]
    rfl
  · rw [if_neg hn, SemSys.bump_other _ _ hn]
    exact (add_zero _).symm

theorem mirrors_pass (hc : SemSys.Counted s) (hw : Mirrors p w s) {t : Tid}
    (hsem : s.tab.lookup name = some sem)
    (hmap : s'.tab.lookup = Function.update s.tab.lookup name (some (sem.pTest t).1.int))
    (hwaits : s'.waits = SemSys.bump s.waits name (sem.pTest t).2) (hsig : s'.signals = s.signals) :
    Mirrors p w s' ∨ ∃ w', w.semStep (.wait p name) = some w' ∧ Mirrors p w' s' := by
  obtain ⟨-, h0, hlt⟩ := hc.value name sem hsem
  obtain ⟨hvalue, -⟩ := SemSys.pTest_int sem t h0 hlt
  by_cases hz : sem.value = 0
  · -- the thread sleeps: only the queue is longer
    have hret : (sem.pTest t).2 = false := by simp [Semaphore.pTest, hz]
    rw [hret] at hvalue hwaits
    refine Or.inl
      { sems := hw.sems.queue hsem hmap (hvalue.trans (sub_zero _)), held := fun n => ?_ }
    rw [hwaits, hsig]
    exact hw.held n
  · have hret : (sem.pTest t).2 = true := by simp [Semaphore.pTest, hz]
    rw [hret] at hvalue hwaits
    have hsems : w.sems name = some sem.value := by
      rw [hw.sems, hsem]
      rfl
    refine Or.inr ⟨w.setSem p name (sem.value - 1)
      1, by simp [World.semStep, World.wait, hsems, hz, Outcome.toOption], ?_⟩
    rw [show sem.value - 1 = (sem.pTest t).1.int.value from hvalue.symm]
    refine hw.setSem hmap 1 fun n => ?_
    rw [hwaits, hsig, bump_count]
    ring

theorem mirrors_signal (hI : SemSys.Inv s) (hc : SemSys.Counted s) (hw : Mirrors p w s)
    {name : UserString} (hl : SemSys.Allowed s (.signal name))
    (hsem : s.tab.lookup name.1 = some sem)
    (hmap : s'.tab.lookup = Function.update s.tab.lookup name.1 (some sem.v.1.int))
    (hwaits : s'.waits = s.waits) (hsig : s'.signals = SemSys.bump s.signals name.1 true) :
    ∃ w', w.semStep (.signal p name.1) = some w' ∧ Mirrors p w' s' := by
  obtain ⟨-, h0, hlt⟩ := hc.value name.1 sem hsem
  have hmax : sem.value ≠ 2 ^ 31 - 1 := by
    obtain ⟨i, hi, he⟩ := (SemSys.lookup_iff hI.tab name.1 sem).mp hsem
    exact hl i hi _ he rfl
  have hvalue := SemSys.v_int sem h0 (by omega)
  have hsems : w.sems name.1 = some sem.value := by
    rw [hw.sems, hsem]
    rfl
  refine ⟨w.setSem p name.1 (sem.value + 1)
    (-1), by simp [World.semStep, World.signal, hsems, Outcome.toOption], ?_⟩
  rw [← hvalue]
  refine hw.setSem hmap (-1) fun n => ?_
  rw [hwaits, hsig, bump_count]
  split_ifs <;> ring

/-- A step of the table, in the world: a call that returns 0, or nothing. -/
theorem sems_turn {l : SemSys.Label} (hI : SemSys.Inv s) (hc : SemSys.Counted s)
    (hl : SemSys.Allowed s l) (h : s.step l = some s') (hw : Mirrors p w s) :
    Mirrors p w s' ∨ ∃ c w', w.semStep c = some w' ∧ Mirrors p w' s' := by
  obtain ⟨-, hturn⟩ := SemSys.step_cases hI l h
  cases hturn with
  | created name v _ hnew _ hmap _ hwaits hsig =>
    have hnone : w.sems name.1 = none := by
      rw [hw.sems, hnew]
      rfl
    refine Or.inr ⟨.create name.1 v.toInt, _, if_pos hnone,
      { sems := hw.sems.update hmap rfl, held := fun n => ?_ }⟩
    rw [hwaits, hsig]
    exact hw.held n
  | none htab _ hwaits hsig =>
    refine Or.inl { sems := htab ▸ hw.sems, held := fun n => ?_ }
    rw [hwaits, hsig]
    exact hw.held n
  | pass name t sem hsem hmap _ hwaits hsig =>
    exact (mirrors_pass hc hw hsem hmap hwaits hsig).imp_right fun ⟨w', h, h'⟩ => ⟨_, w', h, h'⟩
  | v name he sem hsem hmap _ hwaits hsig =>
    obtain ⟨w', h, h'⟩ := mirrors_signal hI hc hw (he ▸ hl) hsem hmap hwaits hsig
    exact Or.inr ⟨_, w', h, h'⟩

/-- **The values are those of the kernel.** Each run of the table whose calls are
allowed has a run of the world with the same values, and in it `p`, which makes
all the calls, holds the `Wait`s that have returned 0 less the `Signal`s. -/
theorem semaphores_refine {w₀ : World} (hnone : ∀ name, w₀.sems name = none)
    (hheld : ∀ name, w₀.held p name = 0)
    (hr : Runs.Reach SemSys.step (· = SemSys.initial) SemSys.Allowed s) :
    ∃ w, Runs.Reach World.semStep (· = w₀) Runs.anyStep w ∧ Mirrors p w s := by
  induction hr with
  | init hs =>
    subst hs
    refine ⟨w₀, .init rfl, { sems := fun name => ?_, held := fun name => hheld name }⟩
    rw [hnone, SemSys.lookup_initial]
    rfl
  | step l hr hl h ih =>
    obtain ⟨w, hreach, hw⟩ := ih
    rcases sems_turn (SemSys.inv_reach hr) (SemSys.counted_reach hr) hl h hw with
      h' | ⟨c, w', hc, h'⟩
    · exact ⟨w, hreach, h'⟩
    · exact ⟨w', hreach.step c trivial hc, h'⟩

/-- A world with no semaphore. -/
def noSems : World := ⟨⟨fun _ => none, ∅⟩, [], fun _ => none, fun _ _ => 0⟩

/-- Thread 1 sleeps, is woken, and finds that thread 2 has taken the unit: the
world has seen one `Signal` and one `Wait`, and the value is 0. -/
theorem semaphores_refine_overtaken : ∃ w, Runs.Reach World.semStep (· = noSems) Runs.anyStep w ∧
    w.sems (SemSys.letter 0).1 = some 0 ∧ w.held .producer (SemSys.letter 0).1 = 0 := by
  obtain ⟨s, hs, ht⟩ := Runs.Reach.of_exec SemSys.step (· = SemSys.initial) rfl
    [.sysCreate (SemSys.letter 0) 0, .wait 1 (SemSys.letter 0), .signal (SemSys.letter 0),
      .wait 2 (SemSys.letter 0), .resume 1]
    (Runs.Along.of_along (c := fun s l => SemSys.Allowed s l) (fun _ _ h => of_decide_eq_true h) _ _
      (by decide))
    (fun s => (s.waits (SemSys.letter 0).1, s.signals (SemSys.letter 0).1) = (1, 1) ∧
      (s.tab.lookup (SemSys.letter 0).1).map (·.value) = some 0) (by decide)
  simp only [decide_eq_true_eq, Prod.mk.injEq] at ht
  have hsim : ∃ w, Runs.Reach World.semStep (· = noSems) Runs.anyStep w ∧ Mirrors .producer w s :=
    semaphores_refine (fun _ => rfl) (fun _ => rfl) hs
  obtain ⟨w, hw, hm⟩ := hsim
  refine ⟨w, hw, (hm.sems _).trans ht.2, ?_⟩
  rw [hm.held, ht.1.1, ht.1.2]
  rfl

end Items

end Nachos
