/-
# The process table, abstractly

What `ExecUpdate` and `Remove` do to the process table, one atomic action at
a time and without the scheduler: `bmsem` is taken and given back, a slot and
a PCB are allocated, the PCB gets its name and its thread, `psize` grows, a
process ends and its bit is cleared. `Kernel.table` maps a kernel to such a
table, and every kernel step is one of these actions or none
(`Kernel.table_step`).

* `Base`: what every sequence of actions keeps, under any names: a live
  process has its slot, its bit and its PCB, a bit belongs to a live process
  or to an `ExecUpdate` in progress, and only one of those is in progress.
* `Counted`: `psize` counts the processes ever created, so bitmap, pointers,
  processes and `psize` agree just as long as no process has finished
  (`repInv_iff`).

Key definitions: `ProcTable`, `ProcTable.Step`, `ProcTable.Base`, `ProcTable.Counted`,
`ProcTable.RepInv`.
Key theorems: `ProcTable.base_step`, `ProcTable.counted_step`, `ProcTable.repInv_iff`.
-/
import Mathlib
import Nachos.Lib.Bitmap
import Nachos.Threads.Kernel

namespace Nachos

/-- A PCB without its counters. -/
structure Info where
  thread : Option Tid
  file : Option CString
  pid : ℕ
  parentID : ℤ
  creator : Tid

/-- A process: its name, its slot and its PCB. -/
structure Proc where
  name : CString
  slot : ℕ
  own : Ptr

/-- How far a thread is in `ExecUpdate`, or whether it is at its end. -/
inductive Stage
  | out
  /-- `bmsem` is held, no slot is taken -/
  | crit
  /-- PCB `p` in slot `f` has no name and no thread yet -/
  | alloc (p : Ptr) (f : ℕ) (name : CString)
  /-- it has both, and is not counted yet -/
  | named (p : Ptr) (f : ℕ)
  | dead

/-- The stages in which `bmsem` is held. -/
def Stage.InExec : Stage → Prop
  | .crit => True
  | .alloc _ _ _ => True
  | .named _ _ => True
  | _ => False

def Stage.isDead : Stage → Bool
  | .dead => true
  | _ => false

theorem Stage.isDead_iff {st : Stage} : st.isDead = true ↔ st = .dead := by
  cases st <;> simp [Stage.isDead]

/-- The process table and the processes. -/
structure ProcTable where
  bm : Bitmap
  pcb : ℕ → Option Ptr
  psize : ℤ
  npcbs : ℕ
  info : Ptr → Info
  bmsem : ℤ
  nthreads : ℕ
  threads : Tid → Option Proc
  stage : Tid → Stage

namespace ProcTable

/-- `GetCurrentThreadId` in a process called `name`. -/
def lookup (v : ProcTable) (name : CString) : Option ℤ :=
  currentThreadId v.pcb (fun q => (v.info q).file) name

/-- The process has been created and has not finished. -/
def Live (v : ProcTable) (t : Tid) (pr : Proc) : Prop := v.threads t = some pr ∧ v.stage t ≠ .dead

inductive Act
  | lock (t : Tid)
  | unlock (t : Tid)
  | alloc (t : Tid) (cur f : ℕ) (name : CString)
  | fork (t : Tid) (p : Ptr) (f : ℕ) (name : CString)
  | done (t : Tid)
  | remove (t : Tid) (cur : ℕ)

/-- The actions. -/
inductive Step (v : ProcTable) : Act → ProcTable → Prop
  | lock {t : Tid} (ht : (v.threads t).isSome) (hst : v.stage t = .out) (hs : v.bmsem ≠ 0) :
      Step v (.lock t) { v with bmsem := v.bmsem - 1, stage := Function.update v.stage t .crit }
  | unlock {t : Tid} (hst : v.stage t = .crit) :
      Step v (.unlock t) { v with bmsem := v.bmsem + 1, stage := Function.update v.stage t .out }
  | alloc {t : Tid} {pr : Proc} {cur f : ℕ} {name : CString} (hpr : v.threads t = some pr)
      (hst : v.stage t = .crit) (hcur : v.lookup pr.name = some (cur : ℤ)) (hlt : f < v.bm.numBits)
      (hf : v.bm.test f = false) (hmin : ∀ j < f, v.bm.test j = true) :
      Step v (.alloc t cur f name) { v with
        bm := v.bm.mark f
        pcb := Function.update v.pcb f (some v.npcbs)
        npcbs := v.npcbs + 1
        info := Function.update v.info v.npcbs ⟨none, none, f, cur, t⟩
        stage := Function.update v.stage t (.alloc v.npcbs f name) }
  | fork {t : Tid} {p : Ptr} {f : ℕ} {name : CString} (hst : v.stage t = .alloc p f name) :
      Step v (.fork t p f name) { v with
        info := Function.update v.info p
          { v.info p with pid := f, file := some name, thread := some v.nthreads }
        threads := Function.update v.threads v.nthreads (some ⟨name, f, p⟩)
        nthreads := v.nthreads + 1
        stage := Function.update v.stage t (.named p f) }
  | done {t : Tid} {p : Ptr} {f : ℕ} (hst : v.stage t = .named p f) :
      Step v (.done t) { v with
        psize := v.psize + 1
        bmsem := v.bmsem + 1
        stage := Function.update v.stage t .out }
  | remove {t : Tid} {cur : ℕ} {q : Ptr} (hst : v.stage t = .out) (h0 : 0 < cur)
      (hq : v.pcb cur = some q)
      (hthr : (v.info q).thread = some t) :
      Step v (.remove t cur) { v with
        bm := v.bm.clear cur
        stage := Function.update v.stage t .dead }

/-! ### The base invariant -/

/-- Processes and PCBs match. -/
structure Static (v : ProcTable) : Prop where
  numBits : v.bm.numBits = maxProcess
  fresh : ∀ t pr, v.threads t = some pr → t < v.nthreads
  own : ∀ t pr, v.threads t = some pr → pr.own < v.npcbs ∧ (v.info pr.own).thread = some t ∧
    (v.info pr.own).pid = pr.slot ∧ pr.slot < maxProcess ∧
    (t ≠ 0 → (v.info pr.own).file = some pr.name)
  thread : ∀ p t, p < v.npcbs → (v.info p).thread = some t →
    ∃ pr, v.threads t = some pr ∧ pr.own = p
  entry : ∀ i q, v.pcb i = some q → q < v.npcbs ∧ (v.info q).pid = i

/-- Live processes, bits and stages match. -/
structure Staged (v : ProcTable) : Prop where
  first : ∃ pr, v.Live 0 pr ∧ pr.name = mainName ∧ pr.slot = 0
  idle : ∀ t, v.threads t = none → v.stage t = .out
  live : ∀ t pr, v.Live t pr → v.bm.test pr.slot = true ∧ v.pcb pr.slot = some pr.own
  bit : ∀ i, v.bm.test i = true → (∃ t pr, v.Live t pr ∧ pr.slot = i) ∨
    ∃ t p name, v.stage t = .alloc p i name
  alloc : ∀ t p f name, v.stage t = .alloc p f name → p < v.npcbs ∧ 0 < f ∧ f < maxProcess ∧
    v.bm.test f = true ∧ v.pcb f = some p ∧ (v.info p).thread = none ∧ (v.info p).pid = f
  named : ∀ t p f, v.stage t = .named p f → v.pcb f = some p ∧ (v.info p).thread.isSome
  pending : ∀ p < v.npcbs, (v.info p).thread = none ∨ (v.info p).file = none →
    ∃ t f name, v.stage t = .alloc p f name
  mutex : ∀ t, (v.stage t).InExec → v.bmsem = 0
  unique : ∀ t u, (v.stage t).InExec → (v.stage u).InExec → t = u
  free : (∀ t, ¬ (v.stage t).InExec) → v.bmsem = 1

/-- What every sequence of actions keeps. -/
structure Base (v : ProcTable) : Prop where
  static : Static v
  staged : Staged v

variable {v v' : ProcTable} {t u : Tid} {pr pr' : Proc}

theorem stage_update (v : ProcTable) (t u : Tid) (st : Stage) :
    Function.update v.stage t st u = if u = t then st else v.stage u :=
  Function.update_apply _ _ _ _

/-- Two live processes have two slots. -/
theorem Base.slot_inj (hB : Base v) (ht : v.Live t pr) (hu : v.Live u pr')
    (h : pr.slot = pr'.slot) : t = u := by
  have h1 := (hB.staged.live t pr ht).2
  have h2 := (hB.staged.live u pr' hu).2
  rw [h, h2] at h1
  have h3 := (hB.static.own t pr ht.1).2.1
  have h4 := (hB.static.own u pr' hu.1).2.1
  rw [Option.some.inj h1, h3] at h4
  exact Option.some.inj h4

/-- A process has one PCB. -/
theorem Base.own_inj (hB : Base v) (ht : v.threads t = some pr) (hu : v.threads u = some pr')
    (h : pr.own = pr'.own) : t = u := by
  have h3 := (hB.static.own t pr ht).2.1
  have h4 := (hB.static.own u pr' hu).2.1
  rw [h, h4] at h3
  exact (Option.some.inj h3).symm

/-- Only the first process has slot 0. -/
theorem Base.slot_pos (hB : Base v) (h : t ≠ 0) (hl : v.Live t pr) : 0 < pr.slot := by
  obtain ⟨pr0, hl0, -, hs0⟩ := hB.staged.first
  by_contra hc
  exact h (hB.slot_inj hl hl0 (by omega))

theorem Static.next_none (hS : Static v) : v.threads v.nthreads = none := by
  by_contra hc
  obtain ⟨pr, h⟩ := Option.ne_none_iff_exists'.mp hc
  exact absurd (hS.fresh _ pr h) (lt_irrefl _)

/-- While one thread is in `ExecUpdate` no other is. -/
theorem Base.alone (hB : Base v) (ht : (v.stage t).InExec) (hu : u ≠ t) : ¬ (v.stage u).InExec :=
  fun h => hu (hB.staged.unique u t h ht)

theorem Base.not_named (hB : Base v) (ht : (v.stage t).InExec) (h : ∀ p f, v.stage t ≠ .named p f)
    (u : Tid) (p : Ptr) (f : ℕ) : v.stage u ≠ .named p f := by
  intro hu
  have hut := hB.staged.unique u t (by rw [hu]; trivial) ht
  exact h p f (hut ▸ hu)

theorem Base.created (hB : Base v) (h : v.stage t ≠ .out) : ∃ pr, v.threads t = some pr := by
  cases ht : v.threads t with
  | none => exact absurd (hB.staged.idle t ht) h
  | some pr => exact ⟨pr, rfl⟩

/-- A stage changes and no process dies. -/
theorem live_update {st : Stage} (h1 : v.stage t ≠ .dead) (h2 : st ≠ .dead) :
    (Function.update v.stage t st u ≠ .dead) ↔ v.stage u ≠ .dead := by
  rw [stage_update]
  split_ifs with h
  · rw [h]; exact ⟨fun _ => h1, fun _ => h2⟩
  · exact Iff.rfl

/-- `bmsem` is taken, or given back outside the window between the allocation
and the thread. -/
theorem Base.restage (hB : Base v) {st : Stage} {m ps : ℤ} (ht : (v.threads t).isSome)
    (h1 : v.stage t ≠ .dead) (h2 : ∀ p f name, v.stage t ≠ .alloc p f name)
    (hst : (st = .crit ∧ m = 0 ∧ ∀ u, ¬ (v.stage u).InExec) ∨
      (st = .out ∧ m = 1 ∧ (v.stage t).InExec)) :
    Base { v with psize := ps, bmsem := m, stage := Function.update v.stage t st } := by
  have hdead : st ≠ .dead := by rcases hst with ⟨rfl, -⟩ | ⟨rfl, -⟩ <;> simp
  have halloc : ∀ u p f name, Function.update v.stage t st u = .alloc p f name →
      v.stage u = .alloc p f name := by
    intro u p f name h
    rw [stage_update] at h
    split_ifs at h with hu
    · rcases hst with ⟨rfl, -⟩ | ⟨rfl, -⟩ <;> cases h
    · exact h
  have halloc' : ∀ u p f name, v.stage u = .alloc p f name →
      Function.update v.stage t st u = .alloc p f name := by
    intro u p f name h
    rw [stage_update, if_neg, h]
    rintro rfl
    exact h2 p f name h
  have hlive : ∀ u pr, Live
      { v with psize := ps, bmsem := m, stage := Function.update v.stage t st } u pr ↔
      v.Live u pr := fun u pr => and_congr Iff.rfl (live_update h1 hdead)
  obtain ⟨hS, hG⟩ := hB
  refine ⟨⟨hS.numBits, hS.fresh, hS.own, hS.thread, hS.entry⟩, ?_⟩
  refine
    { first := ?_
      idle := fun u hu => ?_
      live := fun u pr hl => hG.live u pr ((hlive u pr).mp hl)
      bit := fun i hi => ?_
      alloc := fun u p f name h => hG.alloc u p f name (halloc u p f name h)
      named := fun u p f h => ?_
      pending := fun p hp h => ?_
      mutex := fun u h => ?_
      unique := fun u w hu hw => ?_
      free := fun h => ?_ }
  · obtain ⟨pr, hl, h⟩ := hG.first
    exact ⟨pr, (hlive 0 pr).mpr hl, h⟩
  · show Function.update v.stage t st u = .out
    rw [stage_update, if_neg, hG.idle u hu]
    rintro rfl
    rw [hu] at ht; cases ht
  · rcases hG.bit i hi with ⟨u, pr, hl, h⟩ | ⟨u, p, name, h⟩
    · exact Or.inl ⟨u, pr, (hlive u pr).mpr hl, h⟩
    · exact Or.inr ⟨u, p, name, halloc' u p i name h⟩
  · simp only [stage_update] at h
    split_ifs at h with hu
    · rcases hst with ⟨rfl, -⟩ | ⟨rfl, -⟩ <;> cases h
    · exact hG.named u p f h
  · obtain ⟨u, f, name, h⟩ := hG.pending p hp h
    exact ⟨u, f, name, halloc' u p f name h⟩
  all_goals simp only [stage_update] at *
  · rcases hst with ⟨rfl, hm, hno⟩ | ⟨rfl, hm, hin⟩
    · exact hm
    · split_ifs at h with hu
      · exact absurd h (by simp [Stage.InExec])
      · exact absurd (hG.unique u t h hin) hu
  · rcases hst with ⟨rfl, hm, hno⟩ | ⟨rfl, hm, hin⟩
    · split_ifs at hu hw with h3 h4 h4
      · exact h3.trans h4.symm
      · exact absurd hw (hno w)
      · exact absurd hu (hno u)
      · exact absurd hu (hno u)
    · split_ifs at hu hw with h3 h4 h4
      · exact h3.trans h4.symm
      · exact absurd hu (by simp [Stage.InExec])
      · exact absurd hw (by simp [Stage.InExec])
      · exact hG.unique u w hu hw
  · rcases hst with ⟨rfl, hm, hno⟩ | ⟨rfl, hm, hin⟩
    · exact absurd (h t) (by simp [Stage.InExec])
    · exact hm

/-- In `ExecUpdate` the stage of one thread moves on, and the others stay out. -/
theorem Base.exec_update (hB : Base v) (hin : (v.stage t).InExec) {st : Stage}
    (h : (Function.update v.stage t st u).InExec) : u = t := by
  by_contra hu
  rw [Function.update_of_ne hu] at h
  exact hB.alone hin hu h

/-- The parts of the invariant that are about `bmsem`. -/
theorem Base.still_exec (hB : Base v) (hin : (v.stage t).InExec) (st : Stage) (hst : st.InExec) :
    (∀ u, (Function.update v.stage t st u).InExec → v.bmsem = 0) ∧
    (∀ u w, (Function.update v.stage t st u).InExec → (Function.update v.stage t st w).InExec →
      u = w) ∧
    ((∀ u, ¬ (Function.update v.stage t st u).InExec) → v.bmsem = 1) := by
  refine ⟨fun _ _ => hB.staged.mutex t hin, fun u w hu hw => ?_, fun h => absurd ?_ (h t)⟩
  · exact (hB.exec_update hin hu).trans (hB.exec_update hin hw).symm
  · rwa [Function.update_self]

/-- A thread that has not been created stays as it is. -/
theorem Base.idle_update (hB : Base v) (hst : v.stage t ≠ .out) {st : Stage}
    (hu : v.threads u = none) :
    Function.update v.stage t st u = .out := by
  rw [Function.update_of_ne, hB.staged.idle u hu]
  rintro rfl
  exact hst (hB.staged.idle u hu)

/-- The table after a slot and a PCB are allocated. -/
def allocated (v : ProcTable) (t : Tid) (cur f : ℕ) (name : CString) : ProcTable :=
  { v with
    bm := v.bm.mark f
    pcb := Function.update v.pcb f (some v.npcbs)
    npcbs := v.npcbs + 1
    info := Function.update v.info v.npcbs ⟨none, none, f, cur, t⟩
    stage := Function.update v.stage t (.alloc v.npcbs f name) }

theorem Static.alloc (hS : Static v) {cur f : ℕ} {name : CString} :
    Static (v.allocated t cur f name) := by
  have hinfo : ∀ q < v.npcbs, Function.update v.info v.npcbs ⟨none, none, f, cur, t⟩ q = v.info q :=
    fun q hq => Function.update_of_ne (Nat.ne_of_lt hq) _ _
  refine
    { numBits := hS.numBits
      fresh := hS.fresh
      own := fun u pr hu => ?_
      thread := fun p u hp h => ?_
      entry := fun i q h => ?_ }
  · obtain ⟨h1, h2⟩ := hS.own u pr hu
    exact ⟨Nat.lt_succ_of_lt h1, by simpa only [allocated, hinfo _ h1] using h2⟩
  · rcases Nat.lt_succ_iff_lt_or_eq.mp hp with hp | rfl
    · simp only [allocated, hinfo p hp] at h
      exact hS.thread p u hp h
    · simp [allocated] at h
  · simp only [allocated, Function.update_apply] at h
    split_ifs at h with hi
    · cases h
      exact ⟨Nat.lt_succ_self _, by simp [allocated, hi]⟩
    · obtain ⟨h1, h2⟩ := hS.entry i q h
      exact ⟨Nat.lt_succ_of_lt h1, by simpa only [allocated, hinfo q h1] using h2⟩

/-- A slot and a PCB are allocated. -/
theorem Base.alloc (hB : Base v) {cur f : ℕ} {name : CString} (hst : v.stage t = .crit)
    (hlt : f < v.bm.numBits) (hf : v.bm.test f = false) : Base (v.allocated t cur f name) := by
  have hin : (v.stage t).InExec := by rw [hst]; trivial
  have hdead : ∀ u, Function.update v.stage t (.alloc v.npcbs f name) u ≠ .dead ↔
      v.stage u ≠ .dead :=
    fun u => live_update (by rw [hst]; simp) (by simp)
  have hself : (v.allocated t cur f name).stage t = .alloc v.npcbs f name :=
    Function.update_self _ _ _
  -- nobody else is between the allocation and the thread
  have hnone : ∀ u p f' name', v.stage u ≠ .alloc p f' name' := by
    intro u p f' name' h
    have hu : u = t := hB.staged.unique u t (by rw [h]; trivial) hin
    rw [hu, hst] at h
    cases h
  have hne : ∀ u pr, v.Live u pr → pr.slot ≠ f := by
    intro u pr hl he
    have := (hB.staged.live u pr hl).1
    rw [he, hf] at this
    cases this
  obtain ⟨hmutex, hunique, hfree⟩ := hB.still_exec hin (.alloc v.npcbs f name) trivial
  have hG := hB.staged
  refine ⟨hB.static.alloc, ?_⟩
  refine
    { first := ?_
      idle := fun u hu => hB.idle_update (by rw [hst]; simp) hu
      live := fun u pr hl => ?_
      bit := fun i hi => ?_
      alloc := fun u p f' name' h => ?_
      named := fun u p f' h => ?_
      pending := fun p hp h => ?_
      mutex := hmutex
      unique := hunique
      free := hfree }
  · obtain ⟨pr, hl, h⟩ := hG.first
    exact ⟨pr, ⟨hl.1, (hdead 0).mpr hl.2⟩, h⟩
  · have hl' : v.Live u pr := ⟨hl.1, (hdead u).mp hl.2⟩
    obtain ⟨h1, h2⟩ := hG.live u pr hl'
    refine ⟨?_, ?_⟩
    · simp only [allocated, Bitmap.test_mark hlt, h1, Bool.or_true]
    · show Function.update v.pcb f (some v.npcbs) pr.slot = some pr.own
      rw [Function.update_of_ne (hne u pr hl'), h2]
  · simp only [allocated, Bitmap.test_mark hlt, Bool.or_eq_true, decide_eq_true_eq] at hi
    rcases hi with rfl | hi
    · exact Or.inr ⟨t, v.npcbs, name, hself⟩
    · rcases hG.bit i hi with ⟨u, pr, hl, h⟩ | ⟨u, p, name', h⟩
      · exact Or.inl ⟨u, pr, ⟨hl.1, (hdead u).mpr hl.2⟩, h⟩
      · exact absurd h (hnone u p i name')
  · obtain rfl : u = t :=
      hB.exec_update hin (by rw [show Function.update _ _ _ u = _ from h]; trivial)
    cases hself.symm.trans h
    have h0 : 0 < f := by
      rcases Nat.eq_zero_or_pos f with rfl | h0
      · obtain ⟨pr, hl, -, hs⟩ := hG.first
        exact absurd hs (hne 0 pr hl)
      · exact h0
    refine ⟨Nat.lt_succ_self _, h0, hB.static.numBits ▸ hlt, ?_, ?_, ?_, ?_⟩
    · simp [allocated, Bitmap.test_mark hlt]
    all_goals simp [allocated]
  · obtain rfl : u = t :=
      hB.exec_update hin (by rw [show Function.update _ _ _ u = _ from h]; trivial)
    cases hself.symm.trans h
  · rcases Nat.lt_succ_iff_lt_or_eq.mp hp with hp | rfl
    · simp only [allocated, Function.update_of_ne (Nat.ne_of_lt hp)] at h
      obtain ⟨u, f', name', h⟩ := hG.pending p hp h
      exact absurd h (hnone u p f' name')
    · exact ⟨t, f, name, hself⟩

/-- The table after the PCB gets its name and its thread. -/
def forked (v : ProcTable) (t : Tid) (p : Ptr) (f : ℕ) (name : CString) : ProcTable :=
  { v with
    info := Function.update v.info p
      { v.info p with pid := f, file := some name, thread := some v.nthreads }
    threads := Function.update v.threads v.nthreads (some ⟨name, f, p⟩)
    nthreads := v.nthreads + 1
    stage := Function.update v.stage t (.named p f) }

theorem threads_forked (v : ProcTable) (t : Tid) (p : Ptr) (f : ℕ) (name : CString) (u : Tid) :
    (v.forked t p f name).threads u = if u = v.nthreads then some ⟨name, f, p⟩ else v.threads u :=
  Function.update_apply _ _ _ _

/-- A PCB without a thread is not that of a process. -/
theorem Static.own_ne (hS : Static v) {p : Ptr} (hthr : (v.info p).thread = none)
    (h : v.threads u = some pr) :
    u ≠ v.nthreads ∧ pr.own ≠ p := by
  refine ⟨fun hu => ?_, fun he => ?_⟩
  · rw [hu, hS.next_none] at h; cases h
  · have := (hS.own u pr h).2.1
    rw [he, hthr] at this; cases this

theorem Static.fork (hS : Static v) {p : Ptr} {f : ℕ} {name : CString} (hp : p < v.npcbs)
    (hmax : f < maxProcess) (hthr : (v.info p).thread = none) (hpid : (v.info p).pid = f) :
    Static (v.forked t p f name) := by
  have hne : ∀ u pr, v.threads u = some pr → u ≠ v.nthreads ∧ pr.own ≠ p :=
    fun u pr h => hS.own_ne hthr h
  have hinfo : ∀ q ≠ p, (v.forked t p f name).info q = v.info q :=
    fun q hq => Function.update_of_ne hq _ _
  refine
    { numBits := hS.numBits
      fresh := fun u pr hu => ?_
      own := fun u pr hu => ?_
      thread := fun q u hq h => ?_
      entry := fun i q h => ?_ }
  · rw [threads_forked] at hu
    split_ifs at hu with h
    · exact h ▸ Nat.lt_succ_self _
    · exact Nat.lt_succ_of_lt (hS.fresh u pr hu)
  · rw [threads_forked] at hu
    split_ifs at hu with h
    · cases hu
      exact ⟨hp, by simp [forked, h], by simp [forked], hmax, fun _ => by simp [forked]⟩
    · rw [hinfo _ (hne u pr hu).2]
      exact hS.own u pr hu
  · by_cases hqp : q = p
    · rw [hqp] at h
      simp only [forked, Function.update_self, Option.some.injEq] at h
      exact ⟨⟨name, f, p⟩, by simp [threads_forked, ← h], hqp.symm⟩
    · rw [hinfo q hqp] at h
      obtain ⟨pr, hpr, ho⟩ := hS.thread q u hq h
      exact ⟨pr, by simp only [threads_forked, (hne u pr hpr).1, if_false, hpr], ho⟩
  · obtain ⟨h1, h2⟩ := hS.entry i q h
    refine ⟨h1, ?_⟩
    by_cases hqp : q = p
    · rw [hqp]
      simp only [forked, Function.update_self]
      rw [← h2, hqp, hpid]
    · rw [hinfo q hqp]
      exact h2

/-- The PCB gets its name and its thread. -/
theorem Base.fork (hB : Base v) {p : Ptr} {f : ℕ} {name : CString}
    (hst : v.stage t = .alloc p f name) :
    Base (v.forked t p f name) := by
  have hin : (v.stage t).InExec := by rw [hst]; trivial
  have hG := hB.staged
  obtain ⟨hp, h0, hmax, hbit, hpcb, hthr, hpid⟩ := hG.alloc t p f name hst
  have hne : ∀ u pr, v.threads u = some pr → u ≠ v.nthreads :=
    fun u pr h => (hB.static.own_ne hthr h).1
  have hdead : ∀ u, Function.update v.stage t (.named p f) u ≠ .dead ↔ v.stage u ≠ .dead :=
    fun u => live_update (by rw [hst]; simp) (by simp)
  have hself : (v.forked t p f name).stage t = .named p f := Function.update_self _ _ _
  -- the only PCB between the allocation and the thread is this one
  have honly : ∀ u p' f' name', v.stage u = .alloc p' f' name' → p' = p ∧ f' = f := by
    intro u p' f' name' h
    have hu : u = t := hG.unique u t (by rw [h]; trivial) hin
    rw [hu, hst] at h
    cases h
    exact ⟨rfl, rfl⟩
  obtain ⟨hmutex, hunique, hfree⟩ := hB.still_exec hin (.named p f) trivial
  refine ⟨hB.static.fork hp hmax hthr hpid, ?_⟩
  refine
    { first := ?_
      idle := fun u hu => ?_
      live := fun u pr hl => ?_
      bit := fun i hi => ?_
      alloc := fun u p' f' name' h => ?_
      named := fun u p' f' h => ?_
      pending := fun q hq h => ?_
      mutex := hmutex
      unique := hunique
      free := hfree }
  · obtain ⟨pr, hl, h⟩ := hG.first
    refine ⟨pr, ⟨?_, (hdead 0).mpr hl.2⟩, h⟩
    simp only [threads_forked, hne 0 pr hl.1, if_false, hl.1]
  · rw [threads_forked] at hu
    split_ifs at hu with h
    exact hB.idle_update (by rw [hst]; simp) hu
  · obtain ⟨h1, h2⟩ := hl
    rw [threads_forked] at h1
    split_ifs at h1 with h
    · cases h1
      exact ⟨hbit, hpcb⟩
    · exact hG.live u pr ⟨h1, (hdead u).mp h2⟩
  · rcases hG.bit i hi with ⟨u, pr, hl, h⟩ | ⟨u, p', name', h⟩
    · refine Or.inl ⟨u, pr, ⟨?_, (hdead u).mpr hl.2⟩, h⟩
      simp only [threads_forked, hne u pr hl.1, if_false, hl.1]
    · -- the slot of the new process
      obtain ⟨-, rfl⟩ := honly u p' i name' h
      refine Or.inl ⟨v.nthreads, ⟨name, i, p⟩, ⟨by rw [threads_forked, if_pos rfl], ?_⟩, rfl⟩
      apply (hdead _).mpr
      rw [hG.idle _ hB.static.next_none]
      simp
  · obtain rfl : u = t :=
      hB.exec_update hin (by rw [show Function.update _ _ _ u = _ from h]; trivial)
    cases hself.symm.trans h
  · obtain rfl : u = t :=
      hB.exec_update hin (by rw [show Function.update _ _ _ u = _ from h]; trivial)
    cases hself.symm.trans h
    exact ⟨hpcb, by simp [forked]⟩
  · by_cases hqp : q = p
    · rw [hqp] at h
      simp [forked] at h
    · simp only [forked, Function.update_of_ne hqp] at h
      obtain ⟨u, f', name', h⟩ := hG.pending q hq h
      exact absurd (honly u q f' name' h).1 hqp

/-- The process a `Remove` ends: the one in the slot, and not the first. -/
theorem Base.removed_slot (hB : Base v) {cur : ℕ} {q : Ptr} (h0 : 0 < cur) (hq : v.pcb cur = some q)
    (hthr : (v.info q).thread = some t) :
    t ≠ 0 ∧ ∃ pr, v.threads t = some pr ∧ pr.own = q ∧ pr.slot = cur := by
  obtain ⟨hlt, hpid⟩ := hB.static.entry cur q hq
  obtain ⟨pr, hpr, ho⟩ := hB.static.thread q t hlt hthr
  have hs : pr.slot = cur := by rw [← (hB.static.own t pr hpr).2.2.1, ho, hpid]
  refine ⟨fun ht => ?_, pr, hpr, ho, hs⟩
  obtain ⟨pr0, hl0, -, hs0⟩ := hB.staged.first
  rw [ht, hl0.1] at hpr
  cases hpr
  omega

/-- A process ends and its bit is cleared. -/
theorem Base.remove (hB : Base v) {cur : ℕ} {q : Ptr} (hst : v.stage t = .out) (h0 : 0 < cur)
    (hq : v.pcb cur = some q) (hthr : (v.info q).thread = some t) : Base { v with
      bm := v.bm.clear cur
      stage := Function.update v.stage t .dead } := by
  obtain ⟨ht0, pr0, hpr0, ho0, hs0⟩ := hB.removed_slot h0 hq hthr
  have hl0 : v.Live t pr0 := ⟨hpr0, by rw [hst]; simp⟩
  have hlt : cur < v.bm.numBits := by
    rw [hB.static.numBits, ← hs0]
    exact (hB.static.own t pr0 hpr0).2.2.2.1
  have hstage : ∀ u, Function.update v.stage t .dead u = if u = t then .dead else v.stage u :=
    fun u => stage_update v t u _
  have hexec : ∀ u, (Function.update v.stage t .dead u).InExec → (v.stage u).InExec := by
    intro u h
    rw [hstage] at h
    split_ifs at h
    · exact absurd h (by simp [Stage.InExec])
    · exact h
  have hsame : ∀ u st, st ≠ .out → v.stage u = st → Function.update v.stage t .dead u = st := by
    intro u st h1 h2
    rw [hstage, if_neg, h2]
    rintro rfl
    exact h1 (h2.symm.trans hst)
  have hother : ∀ u pr, v.threads u = some pr → Function.update v.stage t .dead u ≠ .dead →
      u ≠ t ∧ v.Live u pr := by
    intro u pr h1 h2
    rw [hstage] at h2
    split_ifs at h2 with hu
    · exact absurd rfl h2
    · exact ⟨hu, h1, h2⟩
  have hslot : ∀ u pr, v.Live u pr → u ≠ t → pr.slot ≠ cur :=
    fun u pr hl hu he => hu (hB.slot_inj hl hl0 (he.trans hs0.symm))
  obtain ⟨hS, hG⟩ := hB
  refine ⟨⟨hS.numBits, hS.fresh, hS.own, hS.thread, hS.entry⟩, ?_⟩
  refine
    { first := ?_
      idle := fun u hu => ?_
      live := fun u pr hl => ?_
      bit := fun i hi => ?_
      alloc := fun u p f name h => ?_
      named := fun u p f h => ?_
      pending := fun p hp h => ?_
      mutex := fun u h => hG.mutex u (hexec u h)
      unique := fun u w hu hw => hG.unique u w (hexec u hu) (hexec w hw)
      free := fun h => hG.free fun u hu => h u ?_ }
  · obtain ⟨pr, hl, h⟩ := hG.first
    refine ⟨pr, ⟨hl.1, ?_⟩, h⟩
    simp only [hstage, ht0.symm, if_false]
    exact hl.2
  · show Function.update v.stage t .dead u = .out
    rw [hstage, if_neg, hG.idle u hu]
    rintro rfl
    rw [hpr0] at hu; cases hu
  · obtain ⟨hu, hl'⟩ := hother u pr hl.1 hl.2
    obtain ⟨h1, h2⟩ := hG.live u pr hl'
    refine ⟨?_, h2⟩
    simp only [Bitmap.test_clear hlt, h1, hslot u pr hl' hu, decide_false, Bool.not_false,
      Bool.and_true]
  · simp only [Bitmap.test_clear hlt, Bool.and_eq_true, Bool.not_eq_true',
      decide_eq_false_iff_not] at hi
    rcases hG.bit i hi.2 with ⟨u, pr, hl, h⟩ | ⟨u, p, name, h⟩
    · have hu : u ≠ t := by
        rintro rfl
        have := hl.1
        rw [hpr0] at this
        cases this
        exact hi.1 (h.symm.trans hs0)
      refine Or.inl ⟨u, pr, ⟨hl.1, ?_⟩, h⟩
      simp only [hstage, hu, if_false]
      exact hl.2
    · exact Or.inr ⟨u, p, name, hsame u _ (by simp) h⟩
  · simp only [hstage] at h
    split_ifs at h
    obtain ⟨h1, h2, h3, h4, h5, h6, h7⟩ := hG.alloc u p f name h
    refine ⟨h1, h2, h3, ?_, h5, h6, h7⟩
    have hf : f ≠ cur := by
      rintro rfl
      rw [hq] at h5
      cases h5
      rw [hthr] at h6; cases h6
    simp only [Bitmap.test_clear hlt, h4, hf, decide_false, Bool.not_false, Bool.and_true]
  · simp only [hstage] at h
    split_ifs at h
    exact hG.named u p f h
  · obtain ⟨u, f, name, h⟩ := hG.pending p hp h
    exact ⟨u, f, name, hsame u _ (by simp) h⟩
  · show (Function.update v.stage t .dead u).InExec
    rw [hsame u (v.stage u) (fun h => by rw [h] at hu; exact hu) rfl]
    exact hu

theorem base_step {a : Act} (hB : Base v) (h : Step v a v') : Base v' := by
  cases h with
  | lock ht hst hs =>
    have hno : ∀ u, ¬ (v.stage u).InExec := fun u hu => hs (hB.staged.mutex u hu)
    have hm := hB.staged.free hno
    exact hB.restage ht (by rw [hst]; simp) (by rw [hst]; simp) (Or.inl ⟨rfl, by omega, hno⟩)
  | @unlock t hst =>
    have hin : (v.stage t).InExec := by rw [hst]; trivial
    have hm := hB.staged.mutex _ hin
    obtain ⟨pr, hpr⟩ := hB.created (t := t) (by rw [hst]; simp)
    exact hB.restage (by rw [hpr]; rfl) (by rw [hst]; simp) (by rw [hst]; simp)
      (Or.inr ⟨rfl, by omega, hin⟩)
  | alloc hpr hst hcur hlt hf hmin => exact hB.alloc hst hlt hf
  | fork hst => exact hB.fork hst
  | @done t _ _ hst =>
    have hin : (v.stage t).InExec := by rw [hst]; trivial
    have hm := hB.staged.mutex _ hin
    obtain ⟨pr, hpr⟩ := hB.created (t := t) (by rw [hst]; simp)
    exact hB.restage (by rw [hpr]; rfl) (by rw [hst]; simp) (by rw [hst]; simp)
      (Or.inr ⟨rfl, by omega, hin⟩)
  | remove hst h0 hq hthr => exact hB.remove hst h0 hq hthr

/-! ### Counting -/

/-- `psize` counts the processes ever created, but for one whose `ExecUpdate`
has not got to `psize++`. -/
structure Counted (v : ProcTable) : Prop where
  all : ∀ t < v.nthreads, (v.threads t).isSome
  counted : (∀ t p f, v.stage t ≠ .named p f) → v.psize = v.nthreads
  uncounted : ∀ t p f, v.stage t = .named p f → v.psize + 1 = v.nthreads

/-- A stage other than this one changes. -/
theorem not_named_update {st : Stage} (hnn : ∀ u p f, v.stage u ≠ .named p f)
    (hst : ∀ p f, st ≠ .named p f) (u : Tid) (p : Ptr) (f : ℕ) :
    Function.update v.stage t st u ≠ .named p f := by
  rw [stage_update]
  split_ifs
  · exact hst p f
  · exact hnn u p f

theorem counted_step {a : Act} (hB : Base v) (hC : Counted v) (h : Step v a v') : Counted v' := by
  cases h with
  | @lock t ht hst hs =>
    have hnn : ∀ u p f, v.stage u ≠ .named p f :=
      fun u p f h => hs (hB.staged.mutex u (by rw [h]; trivial))
    exact ⟨hC.all, fun _ => hC.counted hnn,
      fun u p f h => absurd h (not_named_update hnn (by simp) u p f)⟩
  | @unlock t hst =>
    have hnn := hB.not_named (t := t) (by rw [hst]; trivial) (by rw [hst]; simp)
    exact ⟨hC.all, fun _ => hC.counted hnn,
      fun u p f h => absurd h (not_named_update hnn (by simp) u p f)⟩
  | @alloc t pr cur f name hpr hst hcur hlt hf hmin =>
    have hnn := hB.not_named (t := t) (by rw [hst]; trivial) (by rw [hst]; simp)
    exact ⟨hC.all, fun _ => hC.counted hnn,
      fun u p f h => absurd h (not_named_update hnn (by simp) u p f)⟩
  | @fork t p f name hst =>
    have hnn := hB.not_named (t := t) (by rw [hst]; trivial) (by rw [hst]; simp)
    have hps := hC.counted hnn
    refine ⟨fun u hu => ?_, fun h => ?_, fun u p' f' h => ?_⟩
    · simp only [Function.update_apply]
      split_ifs with hun
      · rfl
      · exact hC.all u (lt_of_le_of_ne (Nat.lt_succ_iff.mp hu) hun)
    · have := h t p f
      simp at this
    · show v.psize + 1 = ((v.nthreads + 1 : ℕ) : ℤ)
      push_cast; omega
  | @done t p f hst =>
    have hin : (v.stage t).InExec := by rw [hst]; trivial
    have hps := hC.uncounted t p f hst
    refine ⟨hC.all, fun _ => ?_, fun u p' f' h => ?_⟩
    · show v.psize + 1 = _
      omega
    · simp only [stage_update] at h
      split_ifs at h with hu
      exact absurd (hB.staged.unique u t (by rw [h]; trivial) hin) hu
  | @remove t cur q hst h0 hq hthr =>
    refine ⟨hC.all, fun h => hC.counted fun u p f hu => ?_, fun u p f h => ?_⟩
    · apply h u p f
      simp only [stage_update]
      rw [if_neg, hu]
      rintro rfl
      rw [hst] at hu; cases hu
    · simp only [stage_update] at h
      split_ifs at h
      exact hC.uncounted u p f h

/-! ### The representation invariant -/

/-- A process with pid `i` has been created and has not finished. -/
def Occupied (v : ProcTable) (i : ℕ) : Prop := ∃ t pr, v.Live t pr ∧ pr.slot = i

open Classical in
/-- The slots with a process. -/
noncomputable def occupiedSlots (v : ProcTable) : Finset ℕ :=
  (Finset.range maxProcess).filter v.Occupied

/-- Bitmap, pointers and processes agree slot by slot, and `psize` counts them. -/
def RepInv (v : ProcTable) : Prop :=
  (∀ i < maxProcess, (v.bm.test i = true ↔ (v.pcb i).isSome) ∧ ((v.pcb i).isSome ↔ v.Occupied i)) ∧
    v.psize = v.occupiedSlots.card

/-- The processes that have finished. -/
def deadThreads (v : ProcTable) : Finset Tid :=
  (Finset.range v.nthreads).filter fun t => (v.stage t).isDead

theorem mem_deadThreads : t ∈ v.deadThreads ↔ t < v.nthreads ∧ v.stage t = .dead := by
  rw [deadThreads, Finset.mem_filter, Finset.mem_range, Stage.isDead_iff]

/-- The processes that have not finished have a slot each. -/
theorem card_occupiedSlots (hB : Base v) (hC : Counted v) :
    v.occupiedSlots.card + v.deadThreads.card = v.nthreads := by
  classical
  set live := (Finset.range v.nthreads).filter fun t => ¬ (v.stage t).isDead = true with hlive
  have hmem : ∀ t ∈ live, ∃ pr, v.Live t pr := by
    intro t ht
    rw [hlive, Finset.mem_filter, Finset.mem_range, Stage.isDead_iff] at ht
    obtain ⟨pr, hpr⟩ := Option.isSome_iff_exists.mp (hC.all t ht.1)
    exact ⟨pr, hpr, ht.2⟩
  have hcard : live.card = v.occupiedSlots.card := by
    refine Finset.card_bij (fun t _ => ((v.threads t).map Proc.slot).getD 0) ?_ ?_ ?_
    · intro t ht
      obtain ⟨pr, hl⟩ := hmem t ht
      rw [hl.1, occupiedSlots, Finset.mem_filter, Finset.mem_range]
      exact ⟨(hB.static.own t pr hl.1).2.2.2.1, t, pr, hl, rfl⟩
    · intro t ht u hu h
      obtain ⟨pr, hl⟩ := hmem t ht
      obtain ⟨pr', hl'⟩ := hmem u hu
      rw [hl.1, hl'.1] at h
      exact hB.slot_inj hl hl' h
    · intro i hi
      rw [occupiedSlots, Finset.mem_filter] at hi
      obtain ⟨-, t, pr, hl, hs⟩ := hi
      refine ⟨t, ?_, by rw [hl.1]; exact hs⟩
      rw [hlive, Finset.mem_filter, Finset.mem_range, Stage.isDead_iff]
      exact ⟨hB.static.fresh t pr hl.1, hl.2⟩
  have hsplit := Finset.card_filter_add_card_filter_not (s := Finset.range v.nthreads)
    fun t => (v.stage t).isDead = true
  rw [Finset.card_range] at hsplit
  rw [← hcard, deadThreads, add_comm]
  exact hsplit

/-- A slot of the table has a process, dead or alive, unless its `ExecUpdate`
has not come to the thread. -/
theorem Base.entry_proc (hB : Base v) (ha : ∀ t p f name, v.stage t ≠ .alloc p f name)
    {i : ℕ} {q : Ptr} (hq : v.pcb i = some q) :
    ∃ t pr, v.threads t = some pr ∧ pr.own = q ∧ pr.slot = i := by
  obtain ⟨hlt, hpid⟩ := hB.static.entry i q hq
  cases hthr : (v.info q).thread with
  | none =>
    obtain ⟨t, f, name, h⟩ := hB.staged.pending q hlt (Or.inl hthr)
    exact absurd h (ha t q f name)
  | some t =>
    obtain ⟨pr, hpr, ho⟩ := hB.static.thread q t hlt hthr
    exact ⟨t, pr, hpr, ho, by rw [← (hB.static.own t pr hpr).2.2.1, ho, hpid]⟩

theorem Base.entry_lt (hB : Base v) {i : ℕ} {q : Ptr} (hq : v.pcb i = some q) : i < maxProcess := by
  obtain ⟨hlt, hpid⟩ := hB.static.entry i q hq
  cases hthr : (v.info q).thread with
  | none =>
    obtain ⟨t, f, name, h⟩ := hB.staged.pending q hlt (Or.inl hthr)
    obtain ⟨-, -, hf, -, -, -, hpid'⟩ := hB.staged.alloc t q f name h
    rw [← hpid, hpid']
    exact hf
  | some t =>
    obtain ⟨pr, hpr, rfl⟩ := hB.static.thread q t hlt hthr
    obtain ⟨-, -, h1, h2, -⟩ := hB.static.own t pr hpr
    rw [← hpid, h1]
    exact h2

/-- With no PCB still without a thread, bits and processes agree, and a process
has its PCB: what may be wrong are entries left behind, and `psize`. -/
theorem repInv_iff_entries (hB : Base v) (ha : ∀ t p f name, v.stage t ≠ .alloc p f name) :
    RepInv v ↔ (∀ i < maxProcess, (v.pcb i).isSome → v.bm.test i = true) ∧
    v.psize = v.occupiedSlots.card := by
  have hocc : ∀ i, v.bm.test i = true → v.Occupied i := by
    intro i hbit
    rcases hB.staged.bit i hbit with h | ⟨t, p, name, h⟩
    · exact h
    · exact absurd h (ha t p i name)
  have hsome : ∀ i, v.Occupied i → (v.pcb i).isSome := by
    rintro _ ⟨t, pr, hl, rfl⟩
    rw [(hB.staged.live t pr hl).2]
    rfl
  constructor
  · intro h
    exact ⟨fun i hi => (h.1 i hi).1.mpr, h.2⟩
  · rintro ⟨hbit, hps⟩
    exact ⟨fun i hi =>
      ⟨⟨fun h => hsome i (hocc i h), hbit i hi⟩, fun h => hocc i (hbit i hi h), hsome i⟩, hps⟩

/-- While a PCB has no thread its slot has no process. -/
theorem RepInv.not_alloc (hB : Base v) (h : RepInv v) (t : Tid) (p : Ptr) (f : ℕ) (name : CString) :
    v.stage t ≠ .alloc p f name := by
  intro hst
  obtain ⟨-, -, hlt, -, hpcb, hthr, -⟩ := hB.staged.alloc t p f name hst
  obtain ⟨u, pr, hl, rfl⟩ := (h.1 f hlt).2.mp (by rw [hpcb]; rfl)
  have h1 := (hB.staged.live u pr hl).2
  rw [hpcb] at h1
  rw [Option.some.inj h1, (hB.static.own u pr hl.1).2.1] at hthr
  cases hthr

/-- The representation invariant holds with no `ExecUpdate` between
`GetFreeSlot` and `psize++` and no process finished, or while the `psize++`
that is still to come makes up for the one process that has finished, the new
one having taken its slot. -/
theorem repInv_iff (hB : Base v) (hC : Counted v) :
    RepInv v ↔ (∀ t p f name, v.stage t ≠ .alloc p f name) ∧
    (((∀ t p f, v.stage t ≠ .named p f) ∧ v.deadThreads.card = 0) ∨
      ((∃ t p f, v.stage t = .named p f) ∧ v.deadThreads.card = 1 ∧
        ∀ i < maxProcess, (v.pcb i).isSome → v.bm.test i = true)) := by
  have hcard := card_occupiedSlots hB hC
  constructor
  · intro h
    have ha := h.not_alloc hB
    refine ⟨ha, ?_⟩
    obtain ⟨hbit, hps⟩ := (repInv_iff_entries hB ha).mp h
    by_cases hn : ∃ t p f, v.stage t = .named p f
    · obtain ⟨t, p, f, hst⟩ := hn
      have := hC.uncounted t p f hst
      exact Or.inr ⟨⟨t, p, f, hst⟩, by omega, hbit⟩
    · push Not at hn
      have := hC.counted hn
      exact Or.inl ⟨hn, by omega⟩
  · rintro ⟨ha, ⟨hn, h0⟩ | ⟨⟨t, p, f, hst⟩, h1, hbit⟩⟩
    · refine (repInv_iff_entries hB ha).mpr ⟨fun i _ hi => ?_, ?_⟩
      · obtain ⟨q, hq⟩ := Option.isSome_iff_exists.mp hi
        obtain ⟨t, pr, hpr, -, rfl⟩ := hB.entry_proc ha hq
        refine (hB.staged.live t pr ⟨hpr, fun hd => ?_⟩).1
        refine Finset.notMem_empty t (Finset.card_eq_zero.mp h0 ▸ ?_)
        exact mem_deadThreads.mpr ⟨hB.static.fresh t pr hpr, hd⟩
      · have := hC.counted hn
        omega
    · refine (repInv_iff_entries hB ha).mpr ⟨hbit, ?_⟩
      have := hC.uncounted t p f hst
      omega

end ProcTable
end Nachos
