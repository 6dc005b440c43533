/-
# Processes and their semaphores

Any number of threads create semaphores, wait and signal, in any order. A
thread in `Wait` is at the loop of `P` of the semaphore it found: it sleeps in
the queue, and once `Signal` has taken it out it makes another pass.

* `operations_refine_map`: in every state of every run the table is the map of
  names to semaphores that `SemMap` describes.
* `semaphore_safe`: in a run that adds no semaphore with a negative value
  and makes no `Signal` at the greatest `int`, the value is never negative and
  the `Wait`s that have returned are at most the initial value and the
  `Signal`s. `P` tests `value == 0`, so a negative value lets every `Wait`
  through (`semaphore_safe_negative`); neither is checked.

Key definitions: `SemSys.step`, `SemSys.RefinesMap`, `STable.Adds`, `SemSys.Allowed`.
Key theorems: `SemSys.step_cases`, `SemSys.operations_refine_map`,
`SemSys.semaphore_safe`.
-/
import Mathlib
import Nachos.Threads.STable

namespace Nachos

open STable (Op Out)

/-- A `Create` of the name adds a semaphore: no other has it, and a slot is free. -/
def STable.Adds (T : STable) (name : CString) : Prop :=
  T.lookup name = none ∧ T.names.length < maxSemaphore

instance (T : STable) (name : CString) : Decidable (T.Adds name) :=
  inferInstanceAs (Decidable (_ ∧ _))

/-- A string `User2System(virtAddr, MaxFileLength)` can return. -/
def UserString := { name : CString // name.length ≤ 32 ∧ 0 ∉ name }

/-- The table, the threads in `Wait`, and the history of the calls. -/
structure SemSys where
  tab : STable
  /-- the `Wait` a thread is in: the name it passed and the slot it found -/
  inWait : Tid → Option (CString × ℕ)
  /-- the value passed to the last `Create` of the name while it was new -/
  semval : CString → ℤ
  /-- the `Wait`s that have returned 0 -/
  waits : CString → ℕ
  /-- the `Signal`s that returned 0 -/
  signals : CString → ℕ

namespace SemSys

/-- No semaphore, no call. -/
def initial : SemSys := ⟨STable.new, fun _ => none, fun _ => 0, fun _ => 0, fun _ => 0⟩

/-- The steps of a schedule: `STable::Create` and the system call on top of
it, `Wait` to its first pass, a later pass of its loop, `Signal`. -/
inductive Label
  | create (name : UserString) (value : BitVec 32)
  | sysCreate (name : UserString) (semval : BitVec 32)
  | wait (t : Tid) (name : UserString)
  | resume (t : Tid)
  | signal (name : UserString)

/-- One call more, if `b`. -/
def bump (f : CString → ℕ) (name : CString) (b : Bool) : CString → ℕ :=
  if b then Function.update f name (f name + 1) else f

def afterCreate (s : SemSys) (T : STable) (name : CString) (value : BitVec 32) : SemSys :=
  { s with
    tab := T
    semval :=
      if s.tab.lookup name = none then Function.update s.semval name value.toInt else s.semval }

/-- After a pass of `P`: `Wait` has returned `ret`, or the thread sleeps in
the slot it found. -/
def afterPass (s : SemSys) (T : STable) (t : Tid) (name : CString) (slot : Option ℕ)
    (ret : Option ℤ) : SemSys :=
  { s with
    tab := T
    inWait := Function.update s.inWait t (if ret = none then slot.map fun i => (name, i) else none)
    waits := bump s.waits name (decide (ret = some 0)) }

def step (s : SemSys) : Label → Option SemSys
  | .create name value =>
    (s.tab.apply (.create name.1 value)).map fun r => s.afterCreate r.1 name.1 value
  | .sysCreate name semval =>
    (s.tab.sysCreateSemaphore name.1 semval).map fun r => s.afterCreate r.1 name.1 semval
  | .wait t name =>
    if s.inWait t = none then
      (s.tab.apply (.wait t name.1)).map fun r =>
        s.afterPass r.1 t name.1 (s.tab.find name.1).join r.2.ret
    else none
  | .resume t =>
    (s.inWait t).bind fun w =>
      (s.tab.semTab w.2).bind fun e =>
        if t ∈ e.sem.queue then none
        else (s.tab.pass t w.2).map fun r => s.afterPass r.1 t w.1 (some w.2) r.2
  | .signal name =>
    (s.tab.apply (.signal name.1)).map fun (r : STable × Out) =>
      { s with tab := r.1, signals := bump s.signals name.1 (decide (r.2.ret = some 0)) }

/-- The states of all schedules. -/
abbrev Reach : SemSys → Prop := Runs.Reach step (· = initial) Runs.anyStep

/-! ### What a step does to the map -/

/-- The table is well formed and a thread in `Wait` is at the slot of the
name it passed. -/
structure Inv (s : SemSys) : Prop where
  tab : s.tab.Inv
  slot : ∀ t name i, s.inWait t = some (name, i) → ∃ e, s.tab.semTab i = some e ∧ e.name = name

/-- What a step can do to the map and the counts. -/
inductive Turn (s : SemSys) (l : Label) (s' : SemSys) : Prop
  /-- a semaphore is created -/
  | created (name : UserString) (v : BitVec 32)
      (hl : l = .create name v ∨ l = .sysCreate name v ∧ name.1.length ≠ 0)
      (hnew : s.tab.lookup name.1 = none) (hroom : s.tab.names.length < maxSemaphore)
      (hmap : s'.tab.lookup = Function.update s.tab.lookup name.1 (some (Semaphore.new v.toInt)))
      (hval : s'.semval = Function.update s.semval name.1 v.toInt) (hw : s'.waits = s.waits)
      (hs : s'.signals = s.signals)
  /-- a call that returns -1 -/
  | none (htab : s'.tab = s.tab)
      (hval : ∀ name, s.tab.lookup name ≠ none → s'.semval name = s.semval name)
      (hw : s'.waits = s.waits) (hs : s'.signals = s.signals)
  /-- a pass of `P` -/
  | pass (name : CString) (t : Tid) (sem : Semaphore) (hsem : s.tab.lookup name = some sem)
      (hmap : s'.tab.lookup = Function.update s.tab.lookup name (some (sem.pTest t).1.int))
      (hval : s'.semval = s.semval) (hw : s'.waits = bump s.waits name (sem.pTest t).2)
      (hs : s'.signals = s.signals)
  /-- a `V` -/
  | v (name : UserString) (hl : l = .signal name) (sem : Semaphore)
      (hsem : s.tab.lookup name.1 = some sem)
      (hmap : s'.tab.lookup = Function.update s.tab.lookup name.1 (some sem.v.1.int))
      (hval : s'.semval = s.semval) (hw : s'.waits = s.waits)
      (hs : s'.signals = bump s.signals name.1 true)

variable {s s' : SemSys} {name : CString}

theorem short (name : UserString) : name.1.length < 50 := by
  have := name.2.1
  omega

theorem inv_initial : Inv initial := by
  refine { tab := STable.inv_new, slot := fun t name i h => ?_ }
  cases h

/-- No operation takes an entry away or renames it. -/
def Keeps (T T' : STable) : Prop :=
  ∀ i e, T.semTab i = some e → ∃ e', T'.semTab i = some e' ∧ e'.name = e.name

theorem Keeps.refl (T : STable) : Keeps T T := fun _ e he => ⟨e, he, rfl⟩

theorem keeps_setSem {T : STable} {i : ℕ} {e : STable.Sem} (he : T.semTab i = some e)
    (sem : Semaphore) :
    Keeps T (T.setSem i e sem) := by
  intro j e' he'
  by_cases hj : j = i
  · subst hj
    rw [he, Option.some.injEq] at he'
    exact ⟨{ e with sem := sem }, by simp [STable.setSem], by rw [he']⟩
  · exact ⟨e', by simp [STable.setSem, hj, he'], rfl⟩

theorem keeps_create {T T' : STable} {v : ℤ} {r : ℤ} (hI : T.Inv)
    (h : T.create name v = some (T', r)) :
    Keeps T T' := by
  unfold STable.create at h
  rw [STable.find_eq hI, Option.bind_some] at h
  cases hs : T.slotOf name with
  | some i =>
    rw [hs] at h
    cases h
    exact Keeps.refl T
  | none =>
    rw [hs] at h
    simp only at h
    rcases Bitmap.findAndSet_cases T.bm with ⟨i, hfs, hib, hi, -⟩ | ⟨hfs, hfull⟩
    · rw [hfs, if_neg (by simp)] at h
      obtain ⟨e, -, he⟩ := Option.map_eq_some_iff.mp h
      cases he
      intro j e' he'
      have hne : j ≠ i := fun hji => by
        rw [hI.bits i, ← hji, he'] at hi
        cases hi
      exact ⟨e', by simp [hne, he'], rfl⟩
    · rw [hfs, if_pos (by simp)] at h
      cases h
      exact Keeps.refl T

theorem inv_of_keeps (hI : Inv s) (hI' : s'.tab.Inv) (hk : Keeps s.tab s'.tab)
    (hw : s'.inWait = s.inWait) :
    Inv s' := by
  refine { tab := hI', slot := fun t name i h => ?_ }
  rw [hw] at h
  obtain ⟨e, he, hname⟩ := hI.slot t name i h
  obtain ⟨e', he', hname'⟩ := hk i e he
  exact ⟨e', he', hname'.trans hname⟩

/-- A name in the table keeps the value it was created with. -/
theorem afterCreate_semval (T : STable) (v : BitVec 32) {n : CString} (hn : s.tab.lookup n ≠ none) :
    (s.afterCreate T name v).semval n = s.semval n := by
  unfold afterCreate
  by_cases hnew : s.tab.lookup name = none
  · have hne : n ≠ name := fun he => hn (he ▸ hnew)
    simp [hnew, hne]
  · simp [hnew]

/-- A `Create`, from the table or through the system call. -/
theorem create_turn (hI : Inv s) {l : Label} (name : UserString) (v : BitVec 32)
    (hl : l = .create name v ∨ l = .sysCreate name v ∧ name.1.length ≠ 0) {T : STable} {r : ℤ}
    (h : s.tab.create name.1 v.toInt = some (T, r)) :
    Inv (s.afterCreate T name.1 v) ∧ Turn s l (s.afterCreate T name.1 v) := by
  have happly : s.tab.apply (.create name.1 v) = some (T, ⟨some r, none⟩) := by
    simp [STable.apply, h]
  obtain ⟨T', out, h1, hIT, habs, hfail⟩ := STable.create_refines hI.tab (short name) v
  rw [happly, Option.some.injEq, Prod.mk.injEq] at h1
  obtain ⟨rfl, rfl⟩ := h1
  have hinv : Inv (s.afterCreate T name.1 v) := inv_of_keeps hI hIT (keeps_create hI.tab h) rfl
  refine ⟨hinv, ?_⟩
  by_cases hok : s.tab.abs.get name.1 = none ∧ s.tab.abs.size < maxSemaphore
  · rw [SemMap.create_ok v hok.1 hok.2, Prod.mk.injEq] at habs
    have hnew : s.tab.lookup name.1 = none := hok.1
    refine Turn.created name v hl hnew hok.2 ?_ (if_pos hnew) rfl rfl
    exact congrArg SemMap.get habs.1
  · rw [SemMap.create_fails v hok, Prod.mk.injEq] at habs
    have hT : T = s.tab := hfail (by rw [habs.2])
    exact Turn.none hT (fun n hn => afterCreate_semval T v hn) rfl rfl

/-- A pass of `P` in slot `i`. -/
theorem pass_turn (hI : Inv s) (l : Label) {t : Tid} {i : ℕ} {e : STable.Sem}
    (he : s.tab.semTab i = some e) {T : STable} {ret : Option ℤ}
    (h : s.tab.pass t i = some (T, ret)) :
    Inv (s.afterPass T t e.name (some i) ret) ∧ Turn s l (s.afterPass T t e.name (some i) ret) := by
  unfold STable.pass at h
  rw [he, Option.map_some, Option.some.injEq, Prod.mk.injEq] at h
  obtain ⟨rfl, hret⟩ := h
  have hlookup := STable.lookup_of_mem hI.tab he
  have hk := keeps_setSem he (e.sem.pTest t).1.int
  refine ⟨{ tab := STable.inv_setSem hI.tab he _, slot := fun u name j hu => ?_ }, ?_⟩
  · simp only [afterPass] at hu
    by_cases hut : u = t
    · rw [hut, Function.update_self] at hu
      split_ifs at hu
      simp only [Option.map_some, Option.some.injEq, Prod.mk.injEq] at hu
      obtain ⟨rfl, rfl⟩ := hu
      exact hk i e he
    · rw [Function.update_of_ne hut] at hu
      obtain ⟨e', he', hname⟩ := hI.slot u name j hu
      obtain ⟨e'', he'', hname'⟩ := hk j e' he'
      exact ⟨e'', he'', hname'.trans hname⟩
  · refine Turn.pass e.name t e.sem hlookup ?_ rfl ?_ rfl
    · exact congrArg SemMap.get (STable.abs_setSem hI.tab he _)
    · simp only [afterPass, ← hret]
      cases (e.sem.pTest t).2 <;> simp

theorem wait_turn (hI : Inv s) (l : Label) {t : Tid} (name : CString) (hout : s.inWait t = none)
    {r : STable × Out} (h : s.tab.apply (.wait t name) = some r) :
    Inv (s.afterPass r.1 t name (s.tab.find name).join r.2.ret) ∧
      Turn s l (s.afterPass r.1 t name (s.tab.find name).join r.2.ret) := by
  simp only [STable.apply, STable.wait, STable.find_eq hI.tab, Option.bind_some] at h ⊢
  obtain ⟨q, hq, rfl⟩ := Option.map_eq_some_iff.mp h
  rcases STable.slotOf_cases hI.tab name with ⟨i, e, he, rfl, hslot⟩ | ⟨hno, hslot⟩
  · rw [hslot] at hq ⊢
    exact pass_turn hI l he hq
  · rw [hslot] at hq ⊢
    cases hq
    have hback : s.afterPass s.tab t name none (some (-1)) = s := by
      simp [afterPass, bump, ← hout]
    simp only [Option.join_some]
    rw [hback]
    exact ⟨hI, Turn.none rfl (fun _ _ => rfl) rfl rfl⟩

theorem resume_turn (hI : Inv s) {t : Tid} (h : s.step (.resume t) = some s') :
    Inv s' ∧ Turn s (.resume t) s' := by
  obtain ⟨⟨name, i⟩, hw, h⟩ := Option.bind_eq_some_iff.mp h
  obtain ⟨e, he, h⟩ := Option.bind_eq_some_iff.mp h
  split_ifs at h
  obtain ⟨⟨T, ret⟩, hr, rfl⟩ := Option.map_eq_some_iff.mp h
  obtain ⟨e', he', rfl⟩ := hI.slot t name i hw
  exact pass_turn hI _ he' hr

theorem signal_turn (hI : Inv s) (name : UserString) {r : STable × Out}
    (h : s.tab.apply (.signal name.1) = some r)
    (hs' : s' =
      { s with tab := r.1, signals := bump s.signals name.1 (decide (r.2.ret = some 0)) }) :
    Inv s' ∧ Turn s (.signal name) s' := by
  simp only [STable.apply, STable.signal, STable.find_eq hI.tab, Option.bind_some] at h
  obtain ⟨q, hq, rfl⟩ := Option.map_eq_some_iff.mp h
  rcases STable.slotOf_cases hI.tab name.1 with ⟨i, e, he, hname, hslot⟩ | ⟨hno, hslot⟩
  · rw [hslot] at hq
    simp only [he, Option.map_some, Option.some.injEq] at hq
    subst hq hs'
    refine ⟨inv_of_keeps hI (STable.inv_setSem hI.tab he _) (keeps_setSem he _) rfl, ?_⟩
    refine Turn.v name rfl e.sem (hname ▸ STable.lookup_of_mem hI.tab he) ?_ rfl rfl rfl
    rw [← hname]
    exact congrArg SemMap.get (STable.abs_setSem hI.tab he _)
  · rw [hslot] at hq
    cases hq
    have hback : s' = s := by
      rw [hs']
      simp [bump]
    rw [hback]
    exact ⟨hI, Turn.none rfl (fun _ _ => rfl) rfl rfl⟩

/-- Every step is one of the turns. -/
theorem step_cases (hI : Inv s) (l : Label) (h : s.step l = some s') : Inv s' ∧ Turn s l s' := by
  cases l with
  | create name v =>
    obtain ⟨r, hr, rfl⟩ := Option.map_eq_some_iff.mp h
    obtain ⟨q, hq, rfl⟩ := Option.map_eq_some_iff.mp hr
    exact create_turn hI name v (Or.inl rfl) hq
  | sysCreate name v =>
    obtain ⟨r, hr, rfl⟩ := Option.map_eq_some_iff.mp h
    unfold STable.sysCreateSemaphore at hr
    split_ifs at hr with hempty
    · cases hr
      exact ⟨inv_of_keeps hI hI.tab (Keeps.refl _) rfl,
        Turn.none rfl (fun n hn => afterCreate_semval _ v hn) rfl rfl⟩
    · obtain ⟨q, hq, rfl⟩ := Option.map_eq_some_iff.mp hr
      exact create_turn hI name v (Or.inr ⟨rfl, hempty⟩) hq
  | wait t name =>
    simp only [step] at h
    split_ifs at h with hout
    obtain ⟨r, hr, rfl⟩ := Option.map_eq_some_iff.mp h
    exact wait_turn hI _ name.1 hout hr
  | resume t => exact resume_turn hI h
  | signal name =>
    obtain ⟨r, hr, rfl⟩ := Option.map_eq_some_iff.mp h
    exact signal_turn hI name hr rfl

theorem inv_reach {C : SemSys → Label → Prop} (hr : Runs.Reach step (· = initial) C s) : Inv s := by
  refine hr.inv Inv ?_ fun s l s' _ hI _ hs => (step_cases hI l hs).1
  intro s hs
  rw [hs]
  exact inv_initial

/-! ### The table is a map in every run -/

/-- The table `T` behaves as a map from names to semaphores with room for
`maxSemaphore`. -/
structure RefinesMap (T : STable) : Prop where
  bits : ∀ i < maxSemaphore, T.bm.test i = true ↔ T.semTab i ≠ none
  distinct : T.names.Nodup
  lookup : ∀ name sem, T.lookup name = some sem ↔ ∃ i < maxSemaphore, T.semTab i = some ⟨name, sem⟩
  create : ∀ (name : UserString) (v : BitVec 32), ∃ T' ret, T.create name.1 v.toInt =
    some (T', ret) ∧
    (ret = 0 ↔ T.lookup name.1 = none ∧ T.names.length < maxSemaphore) ∧
    (ret = 0 → T'.lookup = Function.update T.lookup name.1 (some (Semaphore.new v.toInt))) ∧
    (ret ≠ 0 → ret = -1 ∧ T' = T)
  wait : ∀ (t : Tid) (name : UserString), ∃ T' ret, T.wait t name.1 = some (T', ret) ∧
    (ret = some (-1) ↔ T.lookup name.1 = none) ∧ (ret = some (-1) → T' = T) ∧
    ∀ sem, T.lookup name.1 = some sem → ret = (if (sem.pTest t).2 then some 0 else none) ∧
      T'.lookup = Function.update T.lookup name.1 (some (sem.pTest t).1.int)
  signal : ∀ name : UserString, ∃ T' ret woken, T.signal name.1 = some (T', ret, woken) ∧
    (ret = -1 ↔ T.lookup name.1 = none) ∧ (ret = -1 → T' = T) ∧
    ∀ sem, T.lookup name.1 = some sem → ret = 0 ∧ woken = sem.v.2 ∧
      T'.lookup = Function.update T.lookup name.1 (some sem.v.1.int)

theorem lookup_iff {T : STable} (hI : T.Inv) (name : CString) (sem : Semaphore) :
    T.lookup name = some sem ↔ ∃ i < maxSemaphore, T.semTab i = some ⟨name, sem⟩ := by
  constructor
  · intro h
    rcases STable.slotOf_cases hI name with ⟨i, e, he, rfl, -⟩ | ⟨-, hslot⟩
    · rw [STable.lookup_of_mem hI he, Option.some.injEq] at h
      subst h
      exact ⟨i, hI.bound i e he, he⟩
    · rw [STable.lookup_eq_none hslot] at h
      cases h
  · intro h
    obtain ⟨i, -, hi⟩ := h
    exact STable.lookup_of_mem hI hi

theorem refinesMap_create {T : STable} (hI : T.Inv) (name : UserString) (v : BitVec 32) :
    ∃ T' ret, T.create name.1 v.toInt = some (T', ret) ∧
      (ret = 0 ↔ T.lookup name.1 = none ∧ T.names.length < maxSemaphore) ∧
      (ret = 0 → T'.lookup = Function.update T.lookup name.1 (some (Semaphore.new v.toInt))) ∧
      (ret ≠ 0 → ret = -1 ∧ T' = T) := by
  obtain ⟨T', out, h, -, habs, hfail⟩ := STable.create_refines hI (short name) v
  obtain ⟨⟨T1, ret⟩, hc, hr⟩ := Option.map_eq_some_iff.mp h
  simp only [Prod.mk.injEq] at hr
  obtain ⟨rfl, rfl⟩ := hr
  refine ⟨T1, ret, hc, ?_⟩
  by_cases hok : T.abs.get name.1 = none ∧ T.abs.size < maxSemaphore
  · rw [SemMap.create_ok v hok.1 hok.2] at habs
    simp only [Prod.mk.injEq, STable.Out.mk.injEq, Option.some.injEq, and_true] at habs
    obtain ⟨hmap, rfl⟩ := habs
    exact ⟨iff_of_true rfl hok, fun _ => congrArg SemMap.get hmap, fun h => absurd rfl h⟩
  · rw [SemMap.create_fails v hok] at habs
    simp only [Prod.mk.injEq, STable.Out.mk.injEq, Option.some.injEq, and_true] at habs
    obtain ⟨hmap, rfl⟩ := habs
    exact ⟨iff_of_false (by decide) hok, fun h => absurd h (by decide), fun _ => ⟨rfl, hfail rfl⟩⟩

theorem refinesMap_wait {T : STable} (hI : T.Inv) (t : Tid) (name : CString) :
    ∃ T' ret, T.wait t name = some (T', ret) ∧ (ret = some (-1) ↔ T.lookup name = none) ∧
      (ret = some (-1) → T' = T) ∧
      ∀ sem, T.lookup name = some sem → ret = (if (sem.pTest t).2 then some 0 else none) ∧
        T'.lookup = Function.update T.lookup name (some (sem.pTest t).1.int) := by
  obtain ⟨T', out, h, -, habs, hfail⟩ := STable.wait_refines hI t name
  obtain ⟨⟨T1, ret⟩, hc, hr⟩ := Option.map_eq_some_iff.mp h
  simp only [Prod.mk.injEq] at hr
  obtain ⟨rfl, rfl⟩ := hr
  refine ⟨T1, ret, hc, ?_, hfail, fun sem hsem => ?_⟩
  · cases hg : T.lookup name with
    | none =>
      rw [SemMap.wait_absent t hg] at habs
      simp only [Prod.mk.injEq, STable.Out.mk.injEq] at habs
      exact iff_of_true habs.2.1 rfl
    | some sem =>
      rw [SemMap.wait_present t hg] at habs
      simp only [Prod.mk.injEq, STable.Out.mk.injEq] at habs
      refine iff_of_false ?_ (Option.some_ne_none _)
      rw [habs.2.1]
      split_ifs <;> simp
  · rw [SemMap.wait_present t hsem] at habs
    simp only [Prod.mk.injEq, STable.Out.mk.injEq] at habs
    exact ⟨habs.2.1, congrArg SemMap.get habs.1⟩

theorem refinesMap_signal {T : STable} (hI : T.Inv) (name : CString) :
    ∃ T' ret woken, T.signal name = some (T', ret, woken) ∧ (ret = -1 ↔ T.lookup name = none) ∧
      (ret = -1 → T' = T) ∧
      ∀ sem, T.lookup name = some sem → ret = 0 ∧ woken = sem.v.2 ∧
        T'.lookup = Function.update T.lookup name (some sem.v.1.int) := by
  obtain ⟨T', out, h, -, habs, hfail⟩ := STable.signal_refines hI name
  obtain ⟨⟨T1, ret, woken⟩, hc, hr⟩ := Option.map_eq_some_iff.mp h
  simp only [Prod.mk.injEq] at hr
  obtain ⟨rfl, rfl⟩ := hr
  refine ⟨T1, ret, woken, hc, ?_, fun hret => hfail (by rw [hret]), fun sem hsem => ?_⟩
  · cases hg : T.lookup name with
    | none =>
      rw [SemMap.signal_absent hg] at habs
      simp only [Prod.mk.injEq, STable.Out.mk.injEq, Option.some.injEq] at habs
      exact iff_of_true habs.2.1 rfl
    | some sem =>
      rw [SemMap.signal_present hg] at habs
      simp only [Prod.mk.injEq, STable.Out.mk.injEq, Option.some.injEq] at habs
      refine iff_of_false ?_ (Option.some_ne_none _)
      rw [habs.2.1]
      decide
  · rw [SemMap.signal_present hsem] at habs
    simp only [Prod.mk.injEq, STable.Out.mk.injEq, Option.some.injEq] at habs
    exact ⟨habs.2.1, habs.2.2, congrArg SemMap.get habs.1⟩

theorem refinesMap {T : STable} (hI : T.Inv) : RefinesMap T where
  bits i _ := by
    rw [hI.bits i]
    exact Option.isSome_iff_ne_none
  distinct := STable.names_nodup hI
  lookup := lookup_iff hI
  create := refinesMap_create hI
  wait t name := refinesMap_wait hI t name.1
  signal name := refinesMap_signal hI name.1

/-- **The semaphore table is a map.** In every state of every run the table
behaves as a map from names to semaphores; a later pass of a `Wait` is again on
the semaphore of the name it was called with and on no other; and two
operations on different names commute, save when both would create a name and
there is room for one. -/
theorem operations_refine_map {s : SemSys} (hr : Reach s) :
    RefinesMap s.tab ∧
      (∀ t name i s', s.inWait t = some (name, i) → s.step (.resume t) = some s' →
        ∃ sem, s.tab.lookup name = some sem ∧
          s'.tab.lookup = Function.update s.tab.lookup name (some (sem.pTest t).1.int)) ∧
      ∀ a b : Op, a.name.length ≤ 32 → b.name.length ≤ 32 → a.name ≠ b.name →
        ¬ s.tab.abs.LastSlot a b → s.tab.Commute a b := by
  have hI := inv_reach hr
  refine ⟨refinesMap hI.tab, fun t name i s' hw h => ?_, fun a b ha hb hne hlast => ?_⟩
  · obtain ⟨e, he, rfl⟩ := hI.slot t name i hw
    simp only [step, hw, he, Option.bind_some] at h
    split_ifs at h
    obtain ⟨r, hr, rfl⟩ := Option.map_eq_some_iff.mp h
    rw [STable.pass, he, Option.map_some, Option.some.injEq] at hr
    subst hr
    exact ⟨e.sem, STable.lookup_of_mem hI.tab he,
      congrArg SemMap.get (STable.abs_setSem hI.tab he _)⟩
  · exact STable.commute hI.tab (by omega) (by omega) hne hlast

/-- A name of one character. -/
def letter (c : Fin 255) : UserString := ⟨[BitVec.ofNat 8 (c + 1)], by simp, by
  have := c.2
  simp only [List.mem_singleton]
  intro h
  have := congrArg BitVec.toNat h
  simp only [BitVec.toNat_ofNat, BitVec.ofNat_eq_ofNat] at this
  omega⟩

/-- Thread 1 sleeps on a semaphore created with 0, and operations on another
name commute with its wakeup. -/
theorem operations_refine_map_asleep : ∃ s, Reach s ∧ s.inWait 1 = some ((letter 0).1, 0) ∧
    s.tab.Commute (.signal (letter 0).1) (.create (letter 1).1 3) := by
  obtain ⟨s, hs, ht⟩ := Runs.Reach.of_exec step (· = initial) rfl
    [.sysCreate (letter 0) 0, .wait 1 (letter 0)] (Runs.along_any _ _)
    (fun s => s.inWait 1 = some ((letter 0).1, 0) ∧ s.tab.names.length = 1) (by decide)
  simp only [decide_eq_true_eq] at ht
  refine ⟨s, hs, ht.1, (operations_refine_map hs).2.2 _ _ (by decide) (by decide) (by decide)
    fun h => ?_⟩
  have hsize : s.tab.names.length + 1 = 10 := h.1
  omega

/-- With nine names in the table, of two new ones the first is created and the
second is not, in either order. -/
theorem operations_commute_fails :
    ¬ ∀ s, Reach s → ∀ a b : Op, a.name.length ≤ 32 → b.name.length ≤ 32 →
    a.name ≠ b.name → s.tab.Commute a b := by
  intro h
  have hC : ∀ c : Fin 255, (letter c).1.length ≤ 32 := fun c => (letter c).2.1
  obtain ⟨s, hs, ht⟩ := Runs.Reach.of_exec step (· = initial) rfl
    [.create (letter 0) 1, .create (letter 1) 1, .create (letter 2) 1, .create (letter 3) 1,
      .create (letter 4) 1, .create (letter 5) 1, .create (letter 6) 1, .create (letter 7)
      1, .create (letter 8) 1] (Runs.along_any _ _)
    (fun s => (s.tab.applyTwo (.create (letter 9).1 1) (.create (letter 10).1 1)).map (·.2) =
        some (⟨some 0, none⟩, ⟨some (-1), none⟩) ∧
      (s.tab.applyTwo (.create (letter 10).1 1) (.create (letter 9).1 1)).map (·.2) =
        some (⟨some 0, none⟩, ⟨some (-1), none⟩)) (by decide)
  simp only [decide_eq_true_eq] at ht
  obtain ⟨T1, T2, outa, outb, h1, h2, -⟩ :=
    h s hs (.create (letter 9).1 1) (.create (letter 10).1 1) (hC 9) (hC 10) (by decide)
  rw [h1, h2] at ht
  simp only [Option.map_some, Option.some.injEq, Prod.mk.injEq] at ht
  rw [ht.1.1] at ht
  exact absurd ht.2.2 (by decide)

/-! ### No more waits return than were signalled -/

/-- The calls that keep the value an `int` that is not negative: a `Create`
that adds a semaphore gives it a value that is not, and no `Signal` is made
while the value is the greatest `int`. -/
def Allowed (s : SemSys) : Label → Prop
  | .create name value => s.tab.Adds name.1 → 0 ≤ value.toInt
  | .sysCreate name semval => name.1.length ≠ 0 → s.tab.Adds name.1 → 0 ≤ semval.toInt
  | .signal name =>
    ∀ i < maxSemaphore, ∀ e ∈ s.tab.semTab i, e.name = name.1 → e.sem.value ≠ 2 ^ 31 - 1
  | .wait _ _ => True
  | .resume _ => True

instance (s : SemSys) : (l : Label) → Decidable (Allowed s l)
  | .create name value => inferInstanceAs (Decidable (s.tab.Adds name.1 → 0 ≤ value.toInt))
  | .sysCreate name semval =>
    inferInstanceAs (Decidable (name.1.length ≠ 0 → s.tab.Adds name.1 → 0 ≤ semval.toInt))
  | .signal name => inferInstanceAs
      (Decidable (∀ i < maxSemaphore, ∀ e ∈ s.tab.semTab i, e.name = name.1 →
        e.sem.value ≠ 2 ^ 31 - 1))
  | .wait _ _ => inferInstanceAs (Decidable True)
  | .resume _ => inferInstanceAs (Decidable True)

/-- The value is what the counts say, and a count is of a name in the table. -/
structure Counted (s : SemSys) : Prop where
  value : ∀ name sem, s.tab.lookup name = some sem →
    sem.value = s.semval name + s.signals name - s.waits name ∧ 0 ≤ sem.value ∧ sem.value < 2 ^ 31
  absent : ∀ name, s.tab.lookup name = none → s.signals name = 0 ∧ s.waits name = 0
  semval : ∀ name, s.tab.lookup name ≠ none → 0 ≤ s.semval name

theorem bump_same (f : CString → ℕ) (name : CString) (b : Bool) :
    bump f name b name = f name + if b then 1 else 0 := by
  unfold bump
  cases b <;> simp

theorem bump_other (f : CString → ℕ) {name n : CString} (b : Bool) (h : n ≠ name) :
    bump f name b n = f n := by
  unfold bump
  cases b <;> simp [h]

/-- A pass of `P` on a value that is not negative: it returns just when it
takes one. -/
theorem pTest_int (sem : Semaphore) (t : Tid) (h0 : 0 ≤ sem.value) (h1 : sem.value < 2 ^ 31) :
    (sem.pTest t).1.int.value = sem.value - (if (sem.pTest t).2 then 1 else 0) ∧
    0 ≤ (sem.pTest t).1.int.value := by
  rw [Semaphore.int_pTest t h0 h1]
  unfold Semaphore.pTest
  by_cases hz : sem.value = 0
  · simp only [hz, ↓reduceIte, Bool.false_eq_true]
    omega
  · rw [if_neg hz]
    refine ⟨rfl, ?_⟩
    simp only
    omega

theorem v_int (sem : Semaphore) (h0 : 0 ≤ sem.value) (h1 : sem.value < 2 ^ 31 - 1) :
    sem.v.1.int.value = sem.value + 1 := by
  rw [Semaphore.int_v h0 h1]
  rfl

theorem lookup_initial (name : CString) : initial.tab.lookup name = none := by
  refine STable.lookup_eq_none ?_
  exact List.find?_eq_none.mpr fun i _ => by simp [initial, STable.new]

theorem counted_initial : Counted initial := by
  refine
    { value := fun name sem h => ?_, absent := fun name _ => ⟨rfl, rfl⟩,
      semval := fun name _ => le_rfl }
  rw [lookup_initial name] at h
  cases h

/-- A step that changes the semaphore of one name, from `sem` to `sem'`, and
the counts of that name accordingly. -/
theorem counted_update (hc : Counted s) {sem sem' : Semaphore} (hsem : s.tab.lookup name = some sem)
    (hmap : s'.tab.lookup = Function.update s.tab.lookup name (some sem'))
    (hval : s'.semval = s.semval) (hw : ∀ n ≠ name, s'.waits n = s.waits n)
    (hs : ∀ n ≠ name, s'.signals n = s.signals n) (hnew : sem'.value - s'.signals name +
      s'.waits name = sem.value - s.signals name + s.waits name)
    (h0 : 0 ≤ sem'.value) (h1 : sem'.value < 2 ^ 31) : Counted s' := by
  refine { value := fun n q hq => ?_, absent := fun n hq => ?_, semval := fun n hq => ?_ }
  · rw [hmap] at hq
    by_cases hn : n = name
    · rw [hn, Function.update_self, Option.some.injEq] at hq
      obtain ⟨hv, -, -⟩ := hc.value name sem hsem
      rw [hn, hval, ← hq]
      exact ⟨by omega, h0, h1⟩
    · rw [Function.update_of_ne hn] at hq
      rw [hval, hw n hn, hs n hn]
      exact hc.value n q hq
  · rw [hmap] at hq
    by_cases hn : n = name
    · rw [hn, Function.update_self] at hq
      cases hq
    · rw [Function.update_of_ne hn] at hq
      rw [hw n hn, hs n hn]
      exact hc.absent n hq
  · rw [hmap] at hq
    rw [hval]
    by_cases hn : n = name
    · exact hc.semval n (by rw [hn, hsem]; exact Option.some_ne_none _)
    · rw [Function.update_of_ne hn] at hq
      exact hc.semval n hq

theorem counted_created (hc : Counted s) {v : BitVec 32} (h0 : 0 ≤ v.toInt)
    (hnew : s.tab.lookup name = none)
    (hmap : s'.tab.lookup = Function.update s.tab.lookup name (some (Semaphore.new v.toInt)))
    (hval : s'.semval = Function.update s.semval name v.toInt) (hw : s'.waits = s.waits)
    (hs : s'.signals = s.signals) : Counted s' := by
  have hlt := v.toInt_lt
  obtain ⟨hs0, hw0⟩ := hc.absent name hnew
  refine { value := fun n q hq => ?_, absent := fun n hq => ?_, semval := fun n hq => ?_ }
  · rw [hmap] at hq
    rw [hval, hw, hs]
    by_cases hn : n = name
    · rw [hn, Function.update_self, Option.some.injEq] at hq
      rw [hn, Function.update_self, hs0, hw0, ← hq]
      simp only [Semaphore.new]
      omega
    · rw [Function.update_of_ne hn] at hq ⊢
      exact hc.value n q hq
  · rw [hmap] at hq
    rw [hw, hs]
    by_cases hn : n = name
    · rw [hn]; exact ⟨hs0, hw0⟩
    · rw [Function.update_of_ne hn] at hq
      exact hc.absent n hq
  · rw [hmap] at hq
    rw [hval]
    by_cases hn : n = name
    · rw [hn, Function.update_self]; exact h0
    · rw [Function.update_of_ne hn] at hq ⊢
      exact hc.semval n hq

theorem counted_step (hI : Inv s) (hc : Counted s) {l : Label} (hl : Allowed s l)
    (h : s.step l = some s') :
    Counted s' := by
  rcases (step_cases hI l h).2 with
    ⟨name, v, he, hnew, hroom, hmap, hval, hw, hs⟩ | ⟨htab, hval, hw, hs⟩ |
    ⟨name, t, sem, hsem, hmap, hval, hw, hs⟩ |
    ⟨name, he, sem, hsem, hmap, hval, hw, hs⟩
  · refine counted_created hc ?_ hnew hmap hval hw hs
    rcases he with rfl | ⟨rfl, hempty⟩
    · exact hl ⟨hnew, hroom⟩
    · exact hl hempty ⟨hnew, hroom⟩
  · refine { value := fun n q hq => ?_, absent := fun n hq => ?_, semval := fun n hq => ?_ }
    · rw [htab] at hq
      rw [hw, hs, hval n (by rw [hq]; exact Option.some_ne_none _)]
      exact hc.value n q hq
    · rw [htab] at hq
      rw [hw, hs]
      exact hc.absent n hq
    · rw [htab] at hq
      rw [hval n hq]
      exact hc.semval n hq
  · obtain ⟨-, h0, h1⟩ := hc.value name sem hsem
    obtain ⟨hv, hv0⟩ := pTest_int sem t h0 h1
    have hcount := bump_same s.waits name (sem.pTest t).2
    refine counted_update hc hsem hmap hval (fun n hn => by rw [hw, bump_other _ _ hn])
      (fun n _ => by rw [hs]) ?_ hv0 ?_
    · rw [hw, hs, hcount, hv]
      push_cast
      ring
    · rw [hv]
      split_ifs <;> omega
  · obtain ⟨-, h0, h1⟩ := hc.value name.1 sem hsem
    have hmax : sem.value ≠ 2 ^ 31 - 1 := by
      obtain ⟨i, hlt, hi⟩ := (lookup_iff hI.tab name.1 sem).mp hsem
      rw [he] at hl
      exact hl i hlt _ hi rfl
    have hv := v_int sem h0 (by omega)
    have hcount : bump s.signals name.1 true name.1 = s.signals name.1 + 1 :=
      bump_same s.signals name.1 true
    refine counted_update hc hsem hmap hval (fun n _ => by rw [hw])
      (fun n hn => by rw [hs, bump_other _ _ hn]) ?_ ?_ ?_
    · rw [hw, hs, hcount, hv]
      push_cast
      ring
    · omega
    · omega

theorem counted_reach (hr : Runs.Reach step (· = initial) Allowed s) : Counted s := by
  refine hr.inv Counted ?_ fun s l s' hr hc hl hs => counted_step (inv_reach hr) hc hl hs
  intro s hs
  rw [hs]
  exact counted_initial

/-- **Semaphore safety.** In every run whose calls are all allowed, at every
moment and for every semaphore of the table, the `Wait`s that have returned are
at most the initial value and the `Signal`s, and the value is not negative. -/
theorem semaphore_safe {s : SemSys} (hr : Runs.Reach step (· = initial) Allowed s) {i : ℕ}
    {e : STable.Sem} (he : s.tab.semTab i = some e) :
    (s.waits e.name : ℤ) ≤ max (s.semval e.name) 0 + s.signals e.name ∧ 0 ≤ e.sem.value := by
  have hlookup := STable.lookup_of_mem (inv_reach hr).tab he
  obtain ⟨hv, h0, -⟩ := (counted_reach hr).value e.name e.sem hlookup
  refine ⟨?_, h0⟩
  have := le_max_left (s.semval e.name) 0
  omega

/-- Thread 1 waits, thread 2 signals and takes the unit first: one `Wait` has
returned. -/
theorem semaphore_safe_overtaken : ∃ s, Runs.Reach step (· = initial) Allowed s ∧
    (s.waits (letter 0).1, s.signals (letter 0).1) = (1, 1) ∧
    ∃ e, s.tab.semTab 0 = some e ∧ e.sem.queue = [1] ∧ 0 ≤ e.sem.value := by
  obtain ⟨s, hs, ht⟩ := Runs.Reach.of_exec step (· = initial) rfl
    [.sysCreate (letter 0) 0, .wait 1 (letter 0), .signal (letter 0), .wait 2 (letter 0), .resume 1]
    (Runs.Along.of_along (c := fun s l => Allowed s l) (fun _ _ h => of_decide_eq_true h) _ _
      (by decide))
    (fun s => (s.waits (letter 0).1, s.signals (letter 0).1) = (1, 1) ∧
      (s.tab.semTab 0).map (·.sem.queue) = some [1]) (by decide)
  simp only [decide_eq_true_eq] at ht
  obtain ⟨e, he, hq⟩ := Option.map_eq_some_iff.mp ht.2
  exact ⟨s, hs, ht.1, e, he, hq, (semaphore_safe hs he).2⟩

/-- A semaphore created with -1 lets a `Wait` through that nobody signalled,
and its value is negative. -/
theorem semaphore_safe_negative : ¬ ∀ s, Reach s → ∀ i e, s.tab.semTab i = some e →
    (s.waits e.name : ℤ) ≤ max (s.semval e.name) 0 + s.signals e.name ∧ 0 ≤ e.sem.value := by
  intro h
  obtain ⟨s, hs, ht⟩ := Runs.Reach.of_exec step (· = initial) rfl
    [.sysCreate (letter 0) (-1), .wait 1 (letter 0)] (Runs.along_any _ _)
    (fun s => s.waits (letter 0).1 = 1 ∧ s.signals (letter 0).1 = 0 ∧ s.semval (letter 0).1 = -1 ∧
      (s.tab.semTab 0).map (·.name) = some (letter 0).1) (by decide)
  simp only [decide_eq_true_eq] at ht
  obtain ⟨hw, hsig, hval, hname⟩ := ht
  obtain ⟨e, he, hn⟩ := Option.map_eq_some_iff.mp hname
  have hbound := (h s hs 0 e he).1
  rw [hn, hw, hsig, hval] at hbound
  exact absurd hbound (by decide)

end SemSys
end Nachos
