/-
# Who is running, and whose child it is

A process finds its own slot by its name (`GetCurrentThreadId`), and a parent
is on record by its slot (`parentID`).

* `Named`: when no program is started under the name of a live process or
  under `main`, no slot below a live process's own carries its name, so the
  lookup finds the process itself (`Named.lookup_eq`), unless it meets a PCB
  without a name on the way.
* `Parented`: when moreover no program gets a slot that is on record as a
  parent's, the slot in `parentID` is that of no live process but the creator
  of the PCB.

Key definitions: `ProcTable.FreshName`, `ProcTable.Named`, `ProcTable.FreshSlot`,
`ProcTable.Parented`.
Key theorems: `ProcTable.named_step`, `ProcTable.Named.lookup_eq`, `ProcTable.parented_step`.
-/
import Mathlib
import Nachos.Threads.ProcTable

namespace Nachos

/-! ### The search -/

/-- The search comes to the slot with the name, or to a PCB without one. -/
theorem searchSlots_cases {pcb : ℕ → Option Ptr} (file : Ptr → Option CString) {name : CString}
    {slot : ℕ} {q : Ptr} (hq : pcb slot = some q) (hfile : file q = some name) (l : List ℕ)
    (hsort : l.Pairwise (· < ·)) (hmem : slot ∈ l)
    (hbelow : ∀ j ∈ l, j < slot → ∀ q', pcb j = some q' → file q' ≠ some name) :
    (searchSlots pcb file name l = some (slot : ℤ) ∧ ∀ j ∈ l, j < slot → ∀ q', pcb j = some q' →
      file q' ≠ none) ∨
      (searchSlots pcb file name l = none ∧ ∃ j ∈ l, j < slot ∧ ∃ q', pcb j = some q' ∧
        file q' = none) := by
  induction l with
  | nil => cases hmem
  | cons i l ih =>
    obtain ⟨hhead, htail⟩ := List.pairwise_cons.mp hsort
    unfold searchSlots
    rcases List.mem_cons.mp hmem with rfl | hmem
    · refine Or.inl ⟨by simp [hq, hfile], fun j hj hlt => ?_⟩
      rcases List.mem_cons.mp hj with rfl | hj
      · exact absurd hlt (lt_irrefl _)
      · exact absurd hlt (lt_asymm (hhead j hj))
    · have hlt := hhead slot hmem
      have hrest := ih htail hmem fun j hj => hbelow j (List.mem_cons_of_mem _ hj)
      -- what the rest of the search does, with the head passed over
      have hpass : (∀ q', pcb i = some q' → file q' ≠ none) →
          (searchSlots pcb file name l = some (slot : ℤ) ∧
            ∀ j ∈ i :: l, j < slot → ∀ q', pcb j = some q' → file q' ≠ none) ∨
          (searchSlots pcb file name l = none ∧ ∃ j ∈ i :: l, j < slot ∧ ∃ q', pcb j = some q' ∧
            file q' = none) := by
        intro hi
        rcases hrest with ⟨h, hnamed⟩ | ⟨h, j, hj, h'⟩
        · refine Or.inl ⟨h, fun j hj hlt => ?_⟩
          rcases List.mem_cons.mp hj with rfl | hj
          · exact hi
          · exact hnamed j hj hlt
        · exact Or.inr ⟨h, j, List.mem_cons_of_mem _ hj, h'⟩
      cases hi : pcb i with
      | none => exact hpass (by simp [hi])
      | some q' =>
        cases hf : file q' with
        | none => exact Or.inr ⟨by simp [hf], i, List.mem_cons_self, hlt, q', hi, hf⟩
        | some n =>
          have hne : n ≠ name := fun h => hbelow i List.mem_cons_self hlt q' hi (h ▸ hf)
          simpa only [hf, hne, if_false] using hpass (by simp [hi, hf])

namespace ProcTable

variable {v v' : ProcTable} {t u : Tid} {pr pr' : Proc}

/-! ### Names -/

/-- No program is started under `main` or under the name of a live process
other than the first. -/
def FreshName (v : ProcTable) : Act → Prop
  | .alloc _ _ _ name => name ≠ mainName ∧ ∀ u pr, v.Live u pr → u ≠ 0 → pr.name ≠ name
  | _ => True

/-- No slot below a process's own carries its name. -/
structure Named (v : ProcTable) : Prop where
  notMain : ∀ t pr, v.threads t = some pr → t ≠ 0 → pr.name ≠ mainName
  below : ∀ t pr, v.Live t pr → t ≠ 0 → ∀ j q, 0 < j → j < pr.slot → v.pcb j = some q →
    (v.info q).file ≠ some pr.name
  pending : ∀ t p f name, v.stage t = .alloc p f name → name ≠ mainName ∧
    (∀ u pr, v.Live u pr → u ≠ 0 → pr.name ≠ name) ∧
    ∀ j q, 0 < j → j < f → v.pcb j = some q → (v.info q).file ≠ some name

/-- What a lookup by name finds. -/
theorem Named.lookup_cases (hB : Base v) (hN : Named v) (hl : v.Live t pr) :
    (v.lookup pr.name = some (pr.slot : ℤ) ∧
        ∀ j q, 0 < j → j < pr.slot → v.pcb j = some q → (v.info q).file ≠ none) ∨
      (v.lookup pr.name = none ∧ ∃ j q, 0 < j ∧ j < pr.slot ∧ v.pcb j = some q ∧
        (v.info q).file = none) := by
  unfold lookup currentThreadId
  by_cases h0 : t = 0
  · obtain ⟨pr0, hl0, hn, hs⟩ := hB.staged.first
    have hpr := hl.1
    rw [h0, hl0.1] at hpr
    cases hpr
    rw [if_pos hn, hs]
    exact Or.inl ⟨rfl, fun j q hj hlt => absurd hlt (by omega)⟩
  · rw [if_neg (hN.notMain t pr hl.1 h0)]
    have hpos := hB.slot_pos h0 hl
    obtain ⟨-, -, -, hmax, hfile⟩ := hB.static.own t pr hl.1
    have hmem : pr.slot ∈ List.range' 1 (maxProcess - 1) := by
      rw [List.mem_range'_1]
      unfold maxProcess at hmax ⊢
      omega
    rcases searchSlots_cases (fun q => (v.info q).file) (hB.staged.live t pr hl).2 (hfile h0) _
      List.pairwise_lt_range' hmem fun j hj hlt q hq =>
        hN.below t pr hl h0 j q (by rw [List.mem_range'_1] at hj; omega) hlt hq with
          ⟨h, hnamed⟩ | ⟨h, j, hj, hlt, q, hq⟩
    · refine Or.inl ⟨h, fun j q hj hlt => hnamed j ?_ hlt q⟩
      rw [List.mem_range'_1]
      unfold maxProcess at hmax ⊢
      omega
    · exact Or.inr ⟨h, j, q, by rw [List.mem_range'_1] at hj; omega, hlt, hq⟩

/-- A lookup that returns, returns the slot. -/
theorem Named.lookup_eq (hB : Base v) (hN : Named v) (hl : v.Live t pr) {i : ℤ}
    (h : v.lookup pr.name = some i) :
    i = pr.slot := by
  rcases hN.lookup_cases hB hl with ⟨h1, -⟩ | ⟨h1, -⟩
  · rw [h1] at h
    exact (Option.some.inj h).symm
  · rw [h1] at h; cases h

/-- Nothing is allocated or created, and processes at most die. -/
structure Quiet (v v' : ProcTable) : Prop where
  threads : v'.threads = v.threads
  pcb : v'.pcb = v.pcb
  info : v'.info = v.info
  live : ∀ u pr, v'.Live u pr → v.Live u pr
  alloc : ∀ u p f name, v'.stage u = .alloc p f name → v.stage u = .alloc p f name

theorem Quiet.of_stage {st : Stage} (h1 : v.stage t ≠ .dead) (h2 : ∀ p f name, st ≠ .alloc p f name)
    (hs : v'.stage = Function.update v.stage t st) (ht : v'.threads = v.threads)
    (hp : v'.pcb = v.pcb) (hi : v'.info = v.info) : Quiet v v' := by
  refine ⟨ht, hp, hi, fun u pr hl => ⟨ht ▸ hl.1, ?_⟩, fun u p f name h => ?_⟩
  · have hd := hl.2
    rw [hs, stage_update] at hd
    split_ifs at hd with hu
    · exact hu ▸ h1
    · exact hd
  · rw [hs, stage_update] at h
    split_ifs at h with hu
    · exact absurd h (h2 p f name)
    · exact h

theorem Named.quiet (hN : Named v) (hq : Quiet v v') : Named v' := by
  refine ⟨fun u pr h => hN.notMain u pr (hq.threads ▸ h), fun u pr h => ?_, fun u p f name h => ?_⟩
  · rw [hq.pcb, hq.info]
    exact hN.below u pr (hq.live u pr h)
  · rw [hq.pcb, hq.info]
    obtain ⟨h1, h2, h3⟩ := hN.pending u p f name (hq.alloc u p f name h)
    exact ⟨h1, fun w pr' hw => h2 w pr' (hq.live w pr' hw), h3⟩

theorem Named.alloc (hB : Base v) (hN : Named v) {cur f : ℕ} {name : CString}
    (hst : v.stage t = .crit) (hmin : ∀ j < f, v.bm.test j = true)
    (hC : FreshName v (.alloc t cur f name)) :
    Named { v with
      bm := v.bm.mark f
      pcb := Function.update v.pcb f (some v.npcbs)
      npcbs := v.npcbs + 1
      info := Function.update v.info v.npcbs ⟨none, none, f, cur, t⟩
      stage := Function.update v.stage t (.alloc v.npcbs f name) } := by
  have hin : (v.stage t).InExec := by rw [hst]; trivial
  have hlive : ∀ u pr, v.threads u = some pr →
      Function.update v.stage t (.alloc v.npcbs f name) u ≠ .dead →
      v.Live u pr := fun u pr h1 h2 => ⟨h1, (live_update (by rw [hst]; simp) (by simp)).mp h2⟩
  -- the new entry has no name; the others are as they were
  have hentry : ∀ j q n, Function.update v.pcb f (some v.npcbs) j = some q →
      (Function.update v.info v.npcbs ⟨none, none, f, cur, t⟩ q).file = some n →
      v.pcb j = some q ∧ (v.info q).file = some n := by
    intro j q n hq hn
    rw [Function.update_apply] at hq
    split_ifs at hq with hj
    · cases hq
      simp at hn
    · have := (hB.static.entry j q hq).1
      rw [Function.update_of_ne (Nat.ne_of_lt this)] at hn
      exact ⟨hq, hn⟩
  refine ⟨hN.notMain, fun u pr hl h0 j q hj hlt hq hn => ?_, fun u p f' name' h => ?_⟩
  · obtain ⟨h1, h2⟩ := hentry j q _ hq hn
    exact hN.below u pr (hlive u pr hl.1 hl.2) h0 j q hj hlt h1 h2
  · simp only [stage_update] at h
    split_ifs at h with hu
    · cases h
      refine ⟨hC.1, fun w pr hl => hC.2 w pr (hlive w pr hl.1 hl.2), fun j q hj hlt hq hn => ?_⟩
      obtain ⟨h1, h2⟩ := hentry j q _ hq hn
      -- the slots below are taken, and by live processes
      rcases hB.staged.bit j (hmin j hlt) with ⟨w, pr, hl, hs⟩ | ⟨w, p', n', hw⟩
      · have hw0 : w ≠ 0 := by
          rintro rfl
          obtain ⟨pr0, hl0, -, hs0⟩ := hB.staged.first
          have := hl.1
          rw [hl0.1] at this
          cases this
          omega
        obtain ⟨-, h3⟩ := hB.staged.live w pr hl
        rw [hs, h1] at h3
        obtain ⟨-, -, -, -, h4⟩ := hB.static.own w pr hl.1
        rw [← Option.some.inj h3, h2] at h4
        exact hC.2 w pr hl hw0 (Option.some.inj (h4 hw0)).symm
      · have hwt := hB.staged.unique w t (by rw [hw]; trivial) hin
        rw [hwt, hst] at hw; cases hw
    · have hut := hB.staged.unique u t (by rw [h]; trivial) hin
      exact absurd hut hu

theorem Named.fork (hB : Base v) (hN : Named v) {p : Ptr} {f : ℕ} {name : CString}
    (hst : v.stage t = .alloc p f name) :
    Named { v with
      info :=
  Function.update v.info p { v.info p with pid := f, file := some name, thread := some v.nthreads }
      threads := Function.update v.threads v.nthreads (some ⟨name, f, p⟩)
      nthreads := v.nthreads + 1
      stage := Function.update v.stage t (.named p f) } := by
  have hin : (v.stage t).InExec := by rw [hst]; trivial
  obtain ⟨hmain, hfresh, hbelow⟩ := hN.pending t p f name hst
  obtain ⟨hp, h0, -, -, hpcb, -, hpid⟩ := hB.staged.alloc t p f name hst
  have hfile : ∀ q n, (Function.update v.info p
      { v.info p with pid := f, file := some name, thread := some v.nthreads } q).file = some n →
      q = p ∧ n = name ∨ q ≠ p ∧ (v.info q).file = some n := by
    intro q n h
    rw [Function.update_apply] at h
    split_ifs at h with hq
    · simp only [Option.some.injEq] at h
      exact Or.inl ⟨hq, h.symm⟩
    · exact Or.inr ⟨hq, h⟩
  have hthr : ∀ u pr, Function.update v.threads v.nthreads (some ⟨name, f, p⟩) u = some pr →
      u = v.nthreads ∧ pr = ⟨name, f, p⟩ ∨ v.threads u = some pr := by
    intro u pr h
    rw [Function.update_apply] at h
    split_ifs at h with hu
    · exact Or.inl ⟨hu, (Option.some.inj h).symm⟩
    · exact Or.inr h
  have hlive : ∀ u, Function.update v.stage t (.named p f) u ≠ .dead → v.stage u ≠ .dead :=
    fun u => (live_update (by rw [hst]; simp) (by simp)).mp
  refine ⟨fun u pr hu hu0 => ?_, fun u pr hl hu0 j q hj hlt hq hn => ?_, fun u p' f' name' h => ?_⟩
  · rcases hthr u pr hu with ⟨-, rfl⟩ | hu
    · exact hmain
    · exact hN.notMain u pr hu hu0
  · rcases hthr u pr hl.1 with ⟨-, rfl⟩ | hu
    · -- the new process: its own slot is the only one that changed
      rcases hfile q _ hn with ⟨rfl, -⟩ | ⟨-, hn⟩
      · have := (hB.static.entry j q hq).2
        rw [hpid] at this
        exact absurd this (Nat.ne_of_gt hlt)
      · exact hbelow j q hj hlt hq hn
    · rcases hfile q _ hn with ⟨-, hn⟩ | ⟨-, hn⟩
      · exact hfresh u pr ⟨hu, hlive u hl.2⟩ hu0 hn
      · exact hN.below u pr ⟨hu, hlive u hl.2⟩ hu0 j q hj hlt hq hn
  · simp only [stage_update] at h
    split_ifs at h with hu
    exact absurd (hB.staged.unique u t (by rw [h]; trivial) hin) hu

theorem named_step {a : Act} (hB : Base v) (hN : Named v) (hC : FreshName v a) (h : Step v a v') :
    Named v' := by
  cases h with
  | alloc hpr hst hcur hlt hf hmin => exact hN.alloc hB hst hmin hC
  | fork hst => exact hN.fork hB hst
  | lock ht hst hs => exact hN.quiet (.of_stage (by rw [hst]; simp) (by simp) rfl rfl rfl rfl)
  | unlock hst => exact hN.quiet (.of_stage (by rw [hst]; simp) (by simp) rfl rfl rfl rfl)
  | done hst => exact hN.quiet (.of_stage (by rw [hst]; simp) (by simp) rfl rfl rfl rfl)
  | remove hst h0 hq hthr =>
    exact hN.quiet (.of_stage (by rw [hst]; simp) (by simp) rfl rfl rfl rfl)

/-! ### Parents -/

/-- No program gets a slot that another entry of the table has as its parent's. -/
def FreshSlot (v : ProcTable) : Act → Prop
  | .alloc _ _ f _ => ∀ i q, i ≠ f → v.pcb i = some q → (v.info q).parentID ≠ f
  | _ => True

/-- A live process in the slot of an entry's `parentID` is its creator. -/
structure Parented (v : ProcTable) : Prop where
  parent : ∀ i q, v.pcb i = some q → ∀ t pr, v.Live t pr → (v.info q).parentID = pr.slot →
    (v.info q).creator = t
  pending : ∀ t p f name, v.stage t = .alloc p f name → ∀ i q, v.pcb i = some q →
    (v.info q).parentID ≠ f

theorem Parented.quiet (hP : Parented v) (hq : Quiet v v') : Parented v' := by
  refine ⟨fun i q h u pr hl => ?_, fun u p f name h i q hi => ?_⟩
  · rw [hq.pcb] at h
    rw [hq.info]
    exact hP.parent i q h u pr (hq.live u pr hl)
  · rw [hq.pcb] at hi
    rw [hq.info]
    exact hP.pending u p f name (hq.alloc u p f name h) i q hi

theorem parented_step {a : Act} (hB : Base v) (hN : Named v) (hP : Parented v) (hC : FreshSlot v a)
    (h : Step v a v') : Parented v' := by
  cases h with
  | lock ht hst hs => exact hP.quiet (.of_stage (by rw [hst]; simp) (by simp) rfl rfl rfl rfl)
  | unlock hst => exact hP.quiet (.of_stage (by rw [hst]; simp) (by simp) rfl rfl rfl rfl)
  | done hst => exact hP.quiet (.of_stage (by rw [hst]; simp) (by simp) rfl rfl rfl rfl)
  | remove hst h0 hq hthr =>
    exact hP.quiet (.of_stage (by rw [hst]; simp) (by simp) rfl rfl rfl rfl)
  | @alloc t pr cur f name hpr hst hcur hlt hf hmin =>
    have hlt' : v.Live t pr := ⟨hpr, by rw [hst]; simp⟩
    have hcur' : (cur : ℤ) = pr.slot := hN.lookup_eq hB hlt' hcur
    have hne : pr.slot ≠ f := by
      intro he
      have := (hB.staged.live t pr hlt').1
      rw [he, hf] at this; cases this
    have hlive : ∀ u pr, v.threads u = some pr →
        Function.update v.stage t (.alloc v.npcbs f name) u ≠ .dead →
        v.Live u pr := fun u pr h1 h2 => ⟨h1, (live_update (by rw [hst]; simp) (by simp)).mp h2⟩
    -- the new entry, or one of before
    have hentry : ∀ i q, Function.update v.pcb f (some v.npcbs) i = some q →
        q = v.npcbs ∨ i ≠ f ∧ v.pcb i = some q ∧
          Function.update v.info v.npcbs ⟨none, none, f, cur, t⟩ q = v.info q := by
      intro i q hq
      rw [Function.update_apply] at hq
      split_ifs at hq with hi
      · exact Or.inl (Option.some.inj hq).symm
      · exact Or.inr ⟨hi, hq, Function.update_of_ne (Nat.ne_of_lt (hB.static.entry i q hq).1) _ _⟩
    refine ⟨fun i q hq u pr' hl hpar => ?_, fun u p f' name' h i q hq => ?_⟩
    · rcases hentry i q hq with rfl | ⟨-, hq, hinfo⟩
      · simp only [Function.update_self] at hpar ⊢
        apply hB.slot_inj hlt' (hlive u pr' hl.1 hl.2)
        rw [hcur'] at hpar
        exact_mod_cast hpar
      · simp only [hinfo] at hpar ⊢
        exact hP.parent i q hq u pr' (hlive u pr' hl.1 hl.2) hpar
    · have hf' : f' = f := by
        simp only [stage_update] at h
        split_ifs at h with hu
        · cases h; rfl
        · have hut := hB.staged.unique u t (by rw [h]; trivial) (by rw [hst]; trivial)
          exact absurd hut hu
      rw [hf']
      rcases hentry i q hq with rfl | ⟨hi, hq, hinfo⟩
      · simp only [Function.update_self]
        rw [hcur']
        exact_mod_cast hne
      · simp only [hinfo]
        exact hC i q hi hq
  | @fork t p f name hst =>
    have hpend := hP.pending t p f name hst
    have hinfo : ∀ q, (Function.update v.info p
        { v.info p with pid := f, file := some name, thread := some v.nthreads } q).parentID =
          (v.info q).parentID ∧
        (Function.update v.info p
          { v.info p with pid := f, file := some name, thread := some v.nthreads } q).creator =
            (v.info q).creator := by
      intro q
      rw [Function.update_apply]
      split_ifs with hq
      · rw [hq]; exact ⟨rfl, rfl⟩
      · exact ⟨rfl, rfl⟩
    refine ⟨fun i q hq u pr' hl hpar => ?_, fun u p' f' name' h i q hq => ?_⟩
    · simp only [(hinfo q).1, (hinfo q).2] at hpar ⊢
      have hd : v.stage u ≠ .dead := (live_update (by rw [hst]; simp) (by simp)).mp hl.2
      have h1 := hl.1
      simp only [Function.update_apply] at h1
      split_ifs at h1 with hu
      · cases h1
        exact absurd hpar (hpend i q hq)
      · exact hP.parent i q hq u pr' ⟨h1, hd⟩ hpar
    · simp only [stage_update] at h
      split_ifs at h with hu
      exact absurd (hB.staged.unique u t (by rw [h]; trivial) (by rw [hst]; trivial)) hu

end ProcTable
end Nachos
