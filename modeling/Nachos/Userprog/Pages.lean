/-
# Physical pages over whole runs

`Load` takes its pages from `gPhysPageBitMap` on the child's thread. On the
way from `ExitUpdate` over the destructor of the PCB, `Finish` and
`CheckToBeDestroyed` to the destructor of the thread nothing deletes the
address space, so no page ever comes back: in every run the clear bits and
the pages of all address spaces ever loaded add up to `NumPhysPages`
(`accounted_reach`). So the pages of the processes that are still there do
only when no process with pages has been destroyed (`pages_conserved_iff`).

Key definitions: `Kernel.Accounted`, `Kernel.Conserved`.
Key theorems: `Kernel.accounted_step`, `Kernel.pages_conserved_iff`.
-/
import Mathlib
import Nachos.Threads.Processes

namespace Nachos

/-- The thread has not come to the end of its `Load`. -/
def Pc.isUnloaded : Pc → Bool
  | .at_ .begin_ => true
  | .inP (.loadLocked _ _) => true
  | .at_ (.loadLocked _ _) => true
  | _ => false

theorem Pc.isUnloaded_inP {k : Cont} {x : SemId} (hx : k.sem = some x) :
    (Pc.inP k).isUnloaded = (Pc.at_ k).isUnloaded := by
  cases k <;> cases hx <;> rfl

/-- `numPages` of a thread's address space. -/
def Thread.numPages (th : Thread) : ℕ := th.space.elim 0 fun sp => sp.pageTable.length

namespace Kernel

open Runs (Reach anyStep)

/-- The pages of a thread's address space; 0 while there is none. -/
def pages (s : Kernel) (t : Tid) : ℕ := (s.threads t).elim 0 Thread.numPages

/-- The pages of the address spaces that are loaded and whose thread the
scheduler has not destroyed. -/
def pagesInUse (s : Kernel) : ℕ :=
  ∑ t ∈ Finset.range s.nthreads, (s.threads t).elim 0 fun th => if th.destroyed then 0
    else th.numPages

/-- The clear bits are the pages that are not in use. -/
def Conserved (s : Kernel) : Prop := s.gPhysPageBitMap.numClear + s.pagesInUse = numPhysPages

/-- Every page is clear or belongs to an address space that was loaded. -/
structure Accounted (s : Kernel) : Prop where
  sum : s.gPhysPageBitMap.numClear + ∑ t ∈ Finset.range s.nthreads, s.pages t = numPhysPages
  unloaded : ∀ t th, s.threads t = some th → th.pc.isUnloaded = true → th.space = none

variable {s s' : Kernel} {t u : Tid} {th th' : Thread} {l : Label}

/-! ### The parts of a step -/

/-- The thread goes on with its address space. -/
structure Keeps (th th' : Thread) : Prop where
  space : th'.space = th.space
  unloaded : th'.pc.isUnloaded = true → th.pc.isUnloaded = true

theorem Keeps.pc {pc : Pc} (h : pc.isUnloaded = true → th.pc.isUnloaded = true) :
    Keeps th { th with pc := pc } :=
  ⟨rfl, h⟩

/-- One thread goes on, and the memory is as it was. -/
theorem Accounted.goes (hA : Accounted s) (hth : s.threads t = some th)
    (hbm : s'.gPhysPageBitMap = s.gPhysPageBitMap) (hn : s'.nthreads = s.nthreads)
    (ht : s'.threads = Function.update s.threads t (some th')) (hk : Keeps th th') :
    Accounted s' := by
  refine ⟨?_, fun u thu hu hun => ?_⟩
  · have hp : ∀ u, s'.pages u = s.pages u := by
      intro u
      simp only [pages, ht, Function.update_apply]
      split_ifs with hut
      · rw [hut, hth]
        simp [Thread.numPages, hk.space]
      · rfl
    simp only [hbm, hn, hp]
    exact hA.sum
  · rw [ht, Function.update_apply] at hu
    split_ifs at hu with hut
    · cases hu
      rw [hk.space]
      exact hA.unloaded t th hth (hk.unloaded hun)
    · exact hA.unloaded u thu hu hun

/-- A new thread has no pages. -/
theorem Accounted.execPcb (hA : Accounted s) (hnone : s.threads s.nthreads = none)
    (hth : s.threads t = some th) {p : Ptr} {f : ℕ} {name : CString} :
    Accounted (s.execPcb t th p f name) := by
  have hmid : Accounted (s.setThread t { th with pc := .at_ (.execForked p f) }) :=
    hA.goes hth rfl rfl rfl (.pc (by simp [Pc.isUnloaded]))
  have htn : s.nthreads ≠ t := by
    rintro rfl
    rw [hnone] at hth; cases hth
  have hpages : ∀ u ≠ s.nthreads, (s.execPcb t th p f name).pages u =
      (s.setThread t { th with pc := .at_ (.execForked p f) }).pages u := by
    intro u hu
    simp only [pages, Kernel.execPcb, setThread, Function.update_of_ne hu]
  refine ⟨?_, fun u thu hu hun => ?_⟩
  · show s.gPhysPageBitMap.numClear + ∑ u ∈ Finset.range (s.nthreads + 1), _ = _
    rw [Finset.sum_range_succ, Finset.sum_congr rfl fun u hu => hpages u
      (Nat.ne_of_lt (Finset.mem_range.mp hu))]
    have hnew : (s.execPcb t th p f name).pages s.nthreads = 0 := by
      simp [pages, Kernel.execPcb, Thread.new, Thread.numPages]
    rw [hnew, Nat.add_zero]
    exact hmid.sum
  · by_cases hun' : u = s.nthreads
    · simp only [Kernel.execPcb, hun', Function.update_self, Option.some.injEq] at hu
      rw [← hu]
      rfl
    · simp only [Kernel.execPcb, Function.update_of_ne hun'] at hu
      exact hmid.unloaded u thu hu hun

/-- `Load` takes from the bitmap what the address space gets. -/
theorem Accounted.loaded (hA : Accounted s) (hB : s.table.Base) (hth : s.threads t = some th)
    {h : NoffHeader} {file : List Bytes.Byte} {sp : AddrSpace} {bm : Bitmap} {mem : Bytes.Store}
    (hpc : th.pc = .at_ (.loadLocked h file))
    (hload : Nachos.loadLocked h file s.gPhysPageBitMap s.mainMemory = .ok sp bm mem) :
    Accounted ({ s.setThread t { th with pc := .at_ (.loadRet true), space := some sp } with
      gPhysPageBitMap := bm, mainMemory := mem }.v .addrLock) := by
  have hnone := hA.unloaded t th hth (by rw [hpc]; rfl)
  obtain ⟨m, hspec⟩ := (loadLocked_ok hload).alloc
  have hmem : t ∈ Finset.range s.nthreads :=
    Finset.mem_range.mpr (hB.static.fresh t _ (table_threads hth))
  set r : Kernel := { s.setThread t { th with pc := .at_ (.loadRet true), space := some sp } with
    gPhysPageBitMap := bm, mainMemory := mem } with hr
  have hpages : ∀ u, r.pages u = Function.update s.pages t h.numPages u := by
    intro u
    simp only [pages, hr, setThread, Function.update_apply]
    split_ifs with hut
    · exact hspec.length
    · rfl
  have hzero : s.pages t = 0 := by simp [pages, hth, Thread.numPages, hnone]
  refine ⟨?_, fun u thu hu hun => ?_⟩
  · -- the thread had no pages and has what the bitmap lost
    have hsum := hA.sum
    have hclear : bm.numClear + h.numPages = s.gPhysPageBitMap.numClear := hspec.numClear
    rw [← Finset.add_sum_erase _ _ hmem, hzero] at hsum
    show bm.numClear + ∑ u ∈ Finset.range s.nthreads, r.pages u = numPhysPages
    rw [Finset.sum_congr rfl fun u _ => hpages u, Finset.sum_update_of_mem hmem,
      Finset.sdiff_singleton_eq_erase]
    omega
  · simp only [Kernel.v, hr, setThread, Function.update_apply] at hu
    split_ifs at hu with hut
    · cases hu
      cases hun
    · exact hA.unloaded u thu hu hun

theorem Accounted.dispatch (hA : Accounted s) (u : Tid) : Accounted (s.dispatch u) := by
  obtain ⟨x, h⟩ | ⟨d, th, ht, h⟩ := dispatch_cases s u
  · rw [h]
    exact ⟨hA.sum, hA.unloaded⟩
  · rw [h]
    exact hA.goes ht rfl rfl rfl ⟨rfl, id⟩

/-! ### Every step -/

theorem accounted_turn (hA : Accounted s) (hB : s.table.Base) (hth : s.threads t = some th)
    (h : Turn s t th l s') :
    Accounted s' := by
  cases h with
  | pass hpc hx =>
    refine hA.goes hth rfl rfl rfl (.pc fun hun => ?_)
    rw [hpc]
    split_ifs at hun
    · rw [Pc.isUnloaded_inP hx]
      exact hun
    · exact hun
  | begin_ hpc => exact hA.goes hth rfl rfl rfl (.pc fun _ => by rw [hpc]; rfl)
  | loaded hpc hload => exact hA.loaded hB hth hpc hload
  | fork => exact hA.execPcb (Base.next_none hB) hth
  | refuseJoin => exact hA
  | _ => exact hA.goes hth rfl rfl rfl ⟨rfl, by simp [Pc.isUnloaded]⟩

theorem accounted_step (hA : Accounted s) (hB : s.table.Base) (h : s.step l = some s') :
    Accounted s' := by
  rcases step_cases h with ⟨k, -, h⟩ | ⟨t, th, -, hth, h⟩
  · have hready : ∀ r, Accounted { s with readyList := r } := fun r => ⟨hA.sum, hA.unloaded⟩
    obtain ⟨u, -, ⟨-, rfl⟩ | ⟨t, -, -, rfl⟩⟩ := switch_cases h
    · exact (hready _).dispatch u
    · exact (hready _).dispatch u
  · exact accounted_turn hA hB hth h

theorem accounted_initial (name : CString) : Accounted (initial name) := by
  refine ⟨?_, fun t th h _ => ?_⟩
  · have hmark : (initial name).gPhysPageBitMap.marked = ∅ := Bitmap.marked_new _
    have hclear := (initial name).gPhysPageBitMap.numClear_add_card
    rw [hmark, Finset.card_empty, Nat.add_zero] at hclear
    rw [hclear, show (initial name).nthreads = 1 from rfl, Finset.sum_range_one]
    simp [initial, pages, Thread.new, Thread.numPages]
  · simp only [initial] at h
    split_ifs at h
    cases h
    rfl

theorem accounted_reach {C : Kernel → Label → Prop} (h : Reach step IsInitial C s) :
    Accounted s := by
  refine h.inv Accounted ?_ fun s l s' hr hA _ hs => accounted_step hA (base_reach hr).1 hs
  rintro s ⟨name, rfl⟩
  exact accounted_initial name

/-! ### Conservation -/

/-- In every run the clear bits are the pages not in use just as long as no
process with pages has been destroyed. -/
theorem pages_conserved_iff (h : Reach step IsInitial anyStep s) : s.Conserved ↔
    ∀ t th, s.threads t = some th → th.destroyed = true → th.numPages = 0 := by
  have hsum := (accounted_reach h).sum
  have hB := (base_reach h).1
  have hle : ∀ t ∈ Finset.range s.nthreads,
      ((s.threads t).elim 0 fun th => if th.destroyed then 0 else th.numPages) ≤ s.pages t := by
    intro t _
    unfold pages
    cases s.threads t with
    | none => exact le_rfl
    | some th =>
      simp only [Option.elim_some]
      split_ifs
      · exact Nat.zero_le _
      · exact le_rfl
  have heq : s.Conserved ↔ s.pagesInUse = ∑ t ∈ Finset.range s.nthreads, s.pages t := by
    unfold Conserved
    omega
  rw [heq, pagesInUse, Finset.sum_eq_sum_iff_of_le hle]
  constructor
  · intro hall t th hth hd
    have := hall t (Finset.mem_range.mpr (hB.static.fresh t _ (table_threads hth)))
    simp only [pages, hth, hd, Option.elim_some, if_true] at this
    exact this.symm
  · intro hall t _
    unfold pages
    cases hth : s.threads t with
    | none => rfl
    | some th =>
      simp only [Option.elim_some]
      split_ifs with hd
      · exact (hall t th hth hd).symm
      · rfl

set_option maxRecDepth 20000 in
/-- Two loaded processes and no page lost. -/
theorem pages_conserved_iff_loaded :
    ∃ s, Reach step IsInitial anyStep s ∧ s.gPhysPageBitMap.numClear = 110 ∧
    s.Conserved := by
  have hrun := Runs.Reach.of_exec (C := anyStep) step IsInitial (isInitial_initial [115])
    (startLabels ++ [Label.switch 0] ++ loadLabels) (Runs.along_any _ _)
    (fun s => decide (s.gPhysPageBitMap.numClear = 110) && (List.range s.nthreads).all fun u =>
      (s.threads u).all fun th => !th.destroyed) (by decide)
  obtain ⟨s, h, ht⟩ := hrun
  simp only [Bool.and_eq_true, decide_eq_true_eq, List.all_eq_true, List.mem_range] at ht
  refine ⟨s, h, ht.1, (pages_conserved_iff h).mpr fun t th hth hd => ?_⟩
  have := ht.2 t ((base_reach h).1.static.fresh t _ (table_threads hth))
  rw [hth] at this
  simp [hd] at this

set_option maxRecDepth 20000 in
/-- A process is started, exits and is joined; the 9 pages it got are lost. -/
theorem joined_process_keeps_pages : ∃ s, Reach step IsInitial anyStep s ∧
    (s.threads 0).any (fun th => decide (th.joins = [(1, some 1, 7)])) = true ∧
    (s.threads 1).any (fun th => th.destroyed) = true ∧
    s.gPhysPageBitMap.numClear = 110 ∧ s.pagesInUse = 9 ∧ ¬ s.Conserved := by
  have hrun :=
    Runs.Reach.of_exec (C := anyStep) step IsInitial (isInitial_initial [115]) joinedLabels
    (Runs.along_any _ _)
      (fun s => ((s.threads 0).any fun th => decide (th.joins = [(1, some 1, 7)])) &&
      ((s.threads 1).any fun th => th.destroyed) && decide (s.gPhysPageBitMap.numClear = 110) &&
      decide (s.pagesInUse = 9)) (by decide)
  obtain ⟨s, h, ht⟩ := hrun
  simp only [Bool.and_eq_true, decide_eq_true_eq] at ht
  obtain ⟨⟨⟨h1, h2⟩, h3⟩, h4⟩ := ht
  refine ⟨s, h, h1, h2, h3, h4, fun hc => ?_⟩
  rw [Conserved, h3, h4] at hc
  cases hc

end Kernel
end Nachos
