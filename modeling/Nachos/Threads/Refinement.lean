/-
# The kernel refines its views

`Kernel.joinView` forgets the scheduler, the memory, and where a thread
stands in between two actions. Every step of the kernel, under any schedule,
leaves the view as it is or is one action of it (`Kernel.joinView_step`), and
an allocation of the view is an `ExecUpdate` of the kernel that got its slot
(`Kernel.allocating`). So what the actions keep, every run of the kernel
keeps.

Key definitions: `Kernel.table`, `Kernel.joinView`, `Kernel.allocating`, `Kernel.Sim`.
Key theorems: `Kernel.joinView_step`, `Kernel.table_step`.
-/
import Mathlib
import Nachos.Threads.JoinProtocol
import Nachos.Threads.Turn

namespace Nachos

/-! ### The views -/

def PCB.info (b : PCB) : Info := ⟨b.thread, b.file, b.pid, b.parentID, b.creator⟩

def Thread.proc (th : Thread) : Proc := ⟨th.name, th.slot, th.own⟩

def Pc.stage : Pc → Stage
  | .at_ (.execLocked _) => .crit
  | .inP (.execPcb p f name) => .alloc p f name
  | .at_ (.execPcb p f name) => .alloc p f name
  | .at_ (.execForked p f) => .named p f
  | .at_ (.execDone p f) => .named p f
  | .finished => .dead
  | _ => .out

def Cont.phase : Cont → JPhase
  | .incNumWait _ id _ => .joining id
  | .joinWait _ id => .joining id
  | .joinDec _ id _ => .joined id
  | .decNumWait id _ => .joined id
  | .exitRelease id => .joined id
  | .joinRet id => .joined id
  | .exitWait cur => .exiting cur
  | .exitRemove cur _ => .exiting cur
  | _ => .none

def Pc.phase : Pc → JPhase
  | .inP (.joinDec _ id q) => .waiting id q
  | .inP k => k.phase
  | .at_ k => k.phase
  | .finished => .gone

/-- What a view keeps of each thread. -/
def stageOf (o : Option Thread) : Stage := o.elim .out fun th => th.pc.stage

def phaseOf (o : Option Thread) : JPhase := o.elim .none fun th => th.pc.phase

def kidsOf (o : Option Thread) : List (ℕ × Tid) := o.elim [] Thread.kids

def joinsOf (o : Option Thread) : List (ℕ × Option Tid × ℤ) := o.elim [] Thread.joins

/-- Only `bmsem` and the `joinsem`s show. -/
def SemId.Hidden : SemId → Prop
  | .bmsem => False
  | .joinsem _ => False
  | _ => True

namespace Kernel

/-- The process table of a kernel. -/
def table (s : Kernel) : ProcTable where
  bm := s.bm
  pcb := s.pcb
  psize := s.psize
  npcbs := s.npcbs
  info := PCB.info ∘ s.pcbs
  bmsem := (s.sem .bmsem).value
  nthreads := s.nthreads
  threads := Option.map Thread.proc ∘ s.threads
  stage := stageOf ∘ s.threads

/-- With what exit and join use. -/
def joinView (s : Kernel) : JoinView where
  table := s.table
  phase := phaseOf ∘ s.threads
  exitcode := PCB.exitcode ∘ s.pcbs
  joinsem := fun q => (s.sem (.joinsem q)).value
  status := (fun o => o.bind Thread.status) ∘ s.threads
  kids := kidsOf ∘ s.threads
  joins := joinsOf ∘ s.threads

/-- The step is an `ExecUpdate` that gets a slot: who calls it, the index it
found for itself, the slot, the name. -/
def allocating (s : Kernel) : Label → Option (Tid × ℕ × ℕ × CString)
  | .locked found => s.current.bind fun t => (s.threads t).bind fun th =>
    match th.pc with
    | .at_ (.execLocked name) => (s.execChecks th name found).bind fun
      | .refuse => none
      | .alloc cur f n => some (t, cur, f, n)
    | _ => none
  | _ => none

/-- The step from `s` by `l` to `s'` shows as nothing or as one action. -/
def Sim (s : Kernel) (l : Label) (s' : Kernel) : Prop :=
  s'.joinView = s.joinView ∨ ∃ a, s.joinView.Step a s'.joinView ∧
    ∀ t cur f name, a = some (.alloc t cur f name) → s.allocating l = some (t, cur, f, name)

variable {s s' : Kernel} {t : Tid} {th : Thread} {l : Label}

/-! ### How the kernel's updates show -/

theorem table_threads (h : s.threads t = some th) : s.table.threads t = some th.proc := by
  simp [table, h]

theorem table_stage {pc : Pc} (h : s.threads t = some th) (hpc : th.pc = pc) :
    s.table.stage t = pc.stage := by
  simp [table, stageOf, h, hpc]

theorem joinView_phase {pc : Pc} (h : s.threads t = some th) (hpc : th.pc = pc) :
    s.joinView.phase t = pc.phase := by
  simp [joinView, phaseOf, h, hpc]

theorem joinView_status (h : s.threads t = some th) : s.joinView.status t = th.status := by
  simp [joinView, h]

theorem joinView_kids (h : s.threads t = some th) : s.joinView.kids t = th.kids := by
  simp [joinView, kidsOf, h]

theorem joinView_joins (h : s.threads t = some th) : s.joinView.joins t = th.joins := by
  simp [joinView, joinsOf, h]

/-- The thread has gone on, with no other change that shows. -/
structure Goes (th th' : Thread) : Prop where
  proc : th'.proc = th.proc
  status : th'.status = th.status
  kids : th'.kids = th.kids
  joins : th'.joins = th.joins

theorem Goes.pc (th : Thread) (pc : Pc) : Goes th { th with pc := pc } := ⟨rfl, rfl, rfl, rfl⟩

theorem Goes.load (th : Thread) (pc : Pc) (sp : AddrSpace) :
    Goes th { th with pc := pc, space := some sp } :=
  ⟨rfl, rfl, rfl, rfl⟩

theorem Goes.destroyed (th : Thread) : Goes th { th with destroyed := true } := ⟨rfl, rfl, rfl, rfl⟩

/-- A function of the threads, when one of them changes in what it does not read. -/
theorem comp_update_self {α : Type*} (g : Option Thread → α) {th' : Thread}
    (h : s.threads t = some th) (hg : g (some th') = g (some th)) :
    g ∘ Function.update s.threads t (some th') = g ∘ s.threads := by
  rw [Function.comp_update, hg, ← h]
  exact Function.update_eq_self t _

/-- A thread changes, and not its process. -/
theorem joinView_setThread_proc (h : s.threads t = some th) (th' : Thread)
    (hp : th'.proc = th.proc) :
    (s.setThread t th').joinView = { JoinView.setPhase { s.joinView with
        table := { s.table with stage := Function.update s.table.stage t th'.pc.stage } }
    t th'.pc.phase with
      status := Function.update s.joinView.status t th'.status
      kids := Function.update s.joinView.kids t th'.kids
      joins := Function.update s.joinView.joins t th'.joins } := by
  have h1 : Option.map Thread.proc ∘ Function.update s.threads t (some th') =
      Option.map Thread.proc ∘ s.threads :=
    comp_update_self _ h (congrArg some hp)
  simp only [joinView, table, setThread, JoinView.setPhase, h1, Function.comp_update]
  rfl

theorem joinView_setThread (h : s.threads t = some th) {th' : Thread} (hg : Goes th th') :
    (s.setThread t th').joinView =
      JoinView.setPhase { s.joinView with
        table := { s.table with stage := Function.update s.table.stage t th'.pc.stage } }
    t th'.pc.phase := by
  rw [joinView_setThread_proc h th' hg.proc, hg.status, hg.kids, hg.joins, ← joinView_status h,
    ← joinView_kids h, ← joinView_joins h]
  simp only [Function.update_eq_self]
  rfl

theorem joinView_setThread_stage (h : s.threads t = some th) {th' : Thread} (hg : Goes th th')
    (hph : th'.pc.phase = th.pc.phase) : (s.setThread t th').joinView = { s.joinView with
      table := { s.table with stage := Function.update s.table.stage t th'.pc.stage } } := by
  rw [joinView_setThread h hg, hph, ← joinView_phase h rfl]
  simp only [JoinView.setPhase, Function.update_eq_self]

theorem joinView_setThread_phase (h : s.threads t = some th) {th' : Thread} (hg : Goes th th')
    (hst : th'.pc.stage = th.pc.stage) :
    (s.setThread t th').joinView = s.joinView.setPhase t th'.pc.phase := by
  rw [joinView_setThread h hg, hst, ← table_stage h rfl, Function.update_eq_self]
  rfl

/-- A thread goes on between two actions. -/
theorem joinView_setThread_self (h : s.threads t = some th) {th' : Thread} (hg : Goes th th')
    (hst : th'.pc.stage = th.pc.stage) (hph : th'.pc.phase = th.pc.phase) :
    (s.setThread t th').joinView = s.joinView := by
  rw [joinView_setThread_phase h hg hst, hph, ← joinView_phase h rfl]
  simp only [JoinView.setPhase, Function.update_eq_self]

/-- A semaphore and the lists of the scheduler change. -/
def setSem (s : Kernel) (x : SemId) (y : Semaphore) (c : Option Tid) (l : List Tid) : Kernel :=
  { s with sem := Function.update s.sem x y, current := c, readyList := l }

theorem joinView_setSem (s : Kernel) {x : SemId} {y : Semaphore} (c : Option Tid) (l : List Tid)
    (h : y.value = (s.sem x).value ∨ x.Hidden) : (s.setSem x y c l).joinView = s.joinView := by
  have hsem : ∀ z, ¬ z.Hidden → (Function.update s.sem x y z).value = (s.sem z).value := by
    intro z hz
    rw [Function.update_apply]
    split_ifs with hzx
    · rcases h with h | h
      · rw [h, hzx]
      · exact absurd (hzx ▸ h) hz
    · rfl
  simp only [joinView, table, setSem, hsem .bmsem not_false, hsem (.joinsem _) not_false]

theorem joinView_setSem_bmsem (s : Kernel) (y : Semaphore) (c : Option Tid) (l : List Tid) :
    (s.setSem .bmsem y c l).joinView =
      { s.joinView with table := { s.joinView.table with bmsem := y.value } } := by
  simp [joinView, table, setSem]

theorem joinView_setSem_joinsem (s : Kernel) (q : Ptr) (y : Semaphore) (c : Option Tid)
    (l : List Tid) :
    (s.setSem (.joinsem q) y c l).joinView =
      { s.joinView with joinsem := Function.update s.joinView.joinsem q y.value } := by
  have hsem : (fun q' => (Function.update s.sem (.joinsem q) y (.joinsem q')).value) =
      Function.update (fun q' => (s.sem (.joinsem q')).value) q y.value := by
    funext q'
    by_cases hq : q' = q
    · simp [hq]
    · simp [hq]
  simp only [joinView, table, setSem, hsem]
  simp

theorem v_eq (s : Kernel) (x : SemId) :
    s.v x = s.setSem x (s.sem x).v.1 s.current (s.readyList ++ (s.sem x).v.2.toList) := rfl

/-- `V` of a semaphore that does not show. -/
theorem joinView_v (s : Kernel) (x : SemId) (h : x.Hidden) : (s.v x).joinView = s.joinView :=
  joinView_setSem s _ _ (Or.inr h)

/-- A PCB changes in its counter of waiting threads. -/
theorem joinView_setPcb (s : Kernel) (m : Ptr) {b : PCB} (hi : b.info = (s.pcbs m).info)
    (he : b.exitcode = (s.pcbs m).exitcode) : (s.setPcb m b).joinView = s.joinView := by
  have h1 : PCB.info ∘ Function.update s.pcbs m b = PCB.info ∘ s.pcbs := by
    rw [Function.comp_update, hi]
    exact Function.update_eq_self m (PCB.info ∘ s.pcbs)
  have h2 : PCB.exitcode ∘ Function.update s.pcbs m b = PCB.exitcode ∘ s.pcbs := by
    rw [Function.comp_update, he]
    exact Function.update_eq_self m (PCB.exitcode ∘ s.pcbs)
  simp only [joinView, table, setPcb, h1, h2]

/-- A thread is created. -/
theorem joinView_fork (s : Kernel) (p : Ptr) (b : PCB) (name : CString) (f : ℕ) (l : List Tid)
    (hn : s.threads s.nthreads = none) (he : b.exitcode = (s.pcbs p).exitcode) : joinView { s with
      pcbs := Function.update s.pcbs p b
      threads := Function.update s.threads s.nthreads (some (Thread.new name f p))
      nthreads := s.nthreads + 1
      readyList := l } = { s.joinView with
        table := { s.joinView.table with
          info := Function.update s.joinView.table.info p b.info
          threads := Function.update s.joinView.table.threads s.nthreads (some ⟨name, f, p⟩)
          nthreads := s.nthreads + 1 } } := by
  have hg : ∀ {α : Type} (g : Option Thread → α), g (some (Thread.new name f p)) = g none →
      g ∘ Function.update s.threads s.nthreads (some (Thread.new name f p)) = g ∘ s.threads := by
    intro α g hg
    rw [Function.comp_update, hg, ← hn]
    exact Function.update_eq_self _ (g ∘ s.threads)
  have h1 : PCB.exitcode ∘ Function.update s.pcbs p b = PCB.exitcode ∘ s.pcbs := by
    rw [Function.comp_update, he]
    exact Function.update_eq_self p (PCB.exitcode ∘ s.pcbs)
  simp only [joinView, table, h1, hg stageOf rfl, hg phaseOf rfl, hg kidsOf rfl, hg joinsOf rfl,
    hg (fun o => o.bind Thread.status) rfl, Function.comp_update]
  rfl

/-! ### Steps between actions, and the actions -/

theorem Sim.of_eq (h : s'.joinView = s.joinView) : Sim s l s' := Or.inl h

/-- An action other than an allocation. -/
theorem Sim.of_step {a : Option ProcTable.Act} (h : s.joinView.Step a s'.joinView)
    (ha : ∀ t cur f name, a ≠ some (.alloc t cur f name)) : Sim s l s' :=
  Or.inr ⟨a, h, fun t cur f name he => absurd he (ha t cur f name)⟩

theorem p_eq (s : Kernel) (t : Tid) (th : Thread) (x : SemId) (k : Cont) :
    s.p t th x k =
      (s.setThread t { th with pc := if ((s.sem x).pTest t).2 then .at_ k else .inP k }).setSem x
      ((s.sem x).pTest t).1 (if ((s.sem x).pTest t).2 then s.current else none) s.readyList := rfl

theorem sim_p_wait {k : Cont} {x : SemId} (h : s.threads t = some th) (hpc : th.pc = .inP k)
    (hv : (s.sem x).value = 0) : Sim s l (s.p t th x k) := by
  apply Sim.of_eq
  have hr : ((s.sem x).pTest t).2 = false ∧ ((s.sem x).pTest t).1.value = (s.sem x).value := by
    simp [Semaphore.pTest, hv]
  rw [p_eq, joinView_setSem (s.setThread t _) _ _ (Or.inl hr.2), hr.1]
  exact joinView_setThread_self h (.pc th _) (by simp [hpc]) (by simp [hpc])

/-- `P` returns. -/
theorem sim_p_pass {k : Cont} {x : SemId} (h : s.threads t = some th) (hpc : th.pc = .inP k)
    (hx : k.sem = some x) (hv : (s.sem x).value ≠ 0) : Sim s l (s.p t th x k) := by
  have hr : (s.sem x).pTest t = ({ s.sem x with value := (s.sem x).value - 1 }, true) := by
    rw [Semaphore.pTest, if_neg hv]
  have hp : (s.p t th x k).joinView = ((s.setThread t { th with pc := .at_ k }).setSem x
      { s.sem x with value := (s.sem x).value - 1 } s.current s.readyList).joinView := by
    rw [p_eq, hr]
    rfl
  -- all but two of the semaphores do not show
  have hquiet : x.Hidden → (Pc.at_ k).stage = th.pc.stage → (Pc.at_ k).phase = th.pc.phase →
      Sim s l (s.p t th x k) := by
    intro hh hst hph
    apply Sim.of_eq
    rw [hp, joinView_setSem _ _ _ (Or.inr hh)]
    exact joinView_setThread_self h (.pc th _) hst hph
  cases k <;> cases hx
  case loadLocked => exact hquiet trivial (by rw [hpc]; rfl) (by rw [hpc]; rfl)
  case execPcb => exact hquiet trivial (by rw [hpc]; rfl) (by rw [hpc]; rfl)
  case incNumWait => exact hquiet trivial (by rw [hpc]; rfl) (by rw [hpc]; rfl)
  case decNumWait => exact hquiet trivial (by rw [hpc]; rfl) (by rw [hpc]; rfl)
  case exitRemove => exact hquiet trivial (by rw [hpc]; rfl) (by rw [hpc]; rfl)
  case execLocked name =>
    refine .of_step (a := some (.lock t)) ?_ (by simp)
    rw [hp, joinView_setSem_bmsem, joinView_setThread_stage h (.pc th _) (by rw [hpc]; rfl)]
    exact .lock (.lock (Option.isSome_of_eq_some (table_threads h)) (table_stage h hpc) hv)
  case joinDec cur id q =>
    refine .of_step (a := none) ?_ (by simp)
    rw [hp, joinView_setSem_joinsem, joinView_setThread_phase h (.pc th _) (by rw [hpc]; rfl)]
    exact .pass (joinView_phase h hpc) hv

/-- The thread goes on in between, with a `V` of `x`. -/
theorem sim_v {x : SemId} {th' : Thread} (hx : x.Hidden) (h : s.threads t = some th)
    (hg : Goes th th') (hst : th'.pc.stage = th.pc.stage) (hph : th'.pc.phase = th.pc.phase) :
    Sim s l ((s.setThread t th').v x) := by
  apply Sim.of_eq
  rw [joinView_v _ x hx]
  exact joinView_setThread_self h hg hst hph

theorem sim_goes {th' : Thread} (h : s.threads t = some th) (hg : Goes th th')
    (hst : th'.pc.stage = th.pc.stage) (hph : th'.pc.phase = th.pc.phase) :
    Sim s l (s.setThread t th') :=
  .of_eq (joinView_setThread_self h hg hst hph)

/-- A counter of waiting threads changes. -/
theorem sim_numwait {m : Ptr} {n : ℤ} {pc : Pc} (h : s.threads t = some th)
    (hst : pc.stage = th.pc.stage) (hph : pc.phase = th.pc.phase) :
    Sim s l (((s.setPcb m { s.pcbs m with numwait := n }).setThread t
      { th with pc := pc }).v (.mutex m)) := by
  apply Sim.of_eq
  rw [joinView_v _ (.mutex m) trivial, joinView_setThread_self (s := s.setPcb m _) h
    (.pc th pc) hst hph]
  exact joinView_setPcb s m rfl rfl

theorem sim_execPcb {p : Ptr} {f : ℕ} {name : CString} (hn : s.threads s.nthreads = none)
    (h : s.threads t = some th) (hpc : th.pc = .at_ (.execPcb p f name)) :
    Sim s l (s.execPcb t th p f name) := by
  refine .of_step (a := some (.fork t p f name)) ?_ (by simp)
  have htn : s.nthreads ≠ t := by
    rintro rfl
    rw [hn] at h; cases h
  have hn' : (s.setThread t { th with pc := .at_ (.execForked p f) }).threads
      s.nthreads = none := by
    simp only [setThread, Function.update_of_ne htn, hn]
  have hview := joinView_fork (s.setThread t { th with pc := .at_ (.execForked p f) }) p
    { s.pcbs p with pid := f, file := some name, thread := some s.nthreads } name f
    (s.readyList ++ [s.nthreads])
    hn' rfl
  rw [joinView_setThread_stage h (.pc th _) (by rw [hpc]; rfl)] at hview
  rw [show (s.execPcb t th p f name).joinView = _ from hview]
  exact .fork (.fork (table_stage h hpc))

theorem sim_execDone {p : Ptr} {f : ℕ} (h : s.threads t = some th)
    (hpc : th.pc = .at_ (.execDone p f)) :
    Sim s l (s.execDone t th p f) := by
  refine .of_step (a := some (.done t)) ?_ (by simp)
  set th' : Thread := { th with
    pc := .at_ .user
    kids := ((s.pcbs p).thread.map fun c => (f, c)).toList ++ th.kids } with hth
  have hview : (s.execDone t th p f).joinView = { (s.setThread t th').joinView with
      table := { (s.setThread t th').joinView.table with
        psize := s.psize + 1, bmsem := s.table.bmsem + 1 } } := by
    rw [execDone, v_eq, joinView_setSem_bmsem]
    rfl
  rw [hview, joinView_setThread_proc h th' rfl]
  have hph : Function.update s.joinView.phase t th'.pc.phase = s.joinView.phase := by
    rw [Function.update_eq_self_iff, joinView_phase h hpc]
    rfl
  have hs : Function.update s.joinView.status t th'.status = s.joinView.status := by
    rw [Function.update_eq_self_iff, joinView_status h]
  have hj : Function.update s.joinView.joins t th'.joins = s.joinView.joins := by
    rw [Function.update_eq_self_iff, joinView_joins h]
  simp only [JoinView.setPhase, hph, hs, hj]
  rw [hth, ← joinView_kids h]
  exact .done (.done (table_stage h hpc)) (table_stage h hpc)

theorem sim_joinRet {id : ℕ} {q : Ptr} (h : s.threads t = some th)
    (hpc : th.pc = .at_ (.joinRet id)) (hq : s.pcb id = some q) : Sim s l (s.setThread t { th with
      pc := .at_ .user
      joins := (id, th.kids.lookup id, (s.pcbs q).exitcode) :: th.joins }) := by
  refine .of_step (a := none) ?_ (by simp)
  set th' : Thread := { th with
    pc := .at_ .user
    joins := (id, th.kids.lookup id, (s.pcbs q).exitcode) :: th.joins } with hth
  rw [joinView_setThread_proc h th' rfl]
  have hst : Function.update s.table.stage t th'.pc.stage = s.table.stage := by
    rw [Function.update_eq_self_iff, table_stage h hpc]
    rfl
  have hs : Function.update s.joinView.status t th'.status = s.joinView.status := by
    rw [Function.update_eq_self_iff, joinView_status h]
  have hk : Function.update s.joinView.kids t th'.kids = s.joinView.kids := by
    rw [Function.update_eq_self_iff, joinView_kids h]
  rw [hst, hs, hk, hth, ← joinView_kids h, ← joinView_joins h]
  exact .ret (joinView_phase h hpc) hq

theorem sim_exit {e : ℤ} {cur : ℕ+} {q : Ptr} (h : s.threads t = some th) (hpc : th.pc = .at_ .user)
    (hcur : s.getCurrentThreadId th = some ((cur : ℕ) : ℤ)) (hq : s.pcb cur = some q) :
    Sim s l (((s.setPcb q { s.pcbs q with exitcode := e }).setThread t
      { th with pc := .at_ (.exitWait cur), status := some e }).v (.joinsem q)) := by
  refine .of_step (a := none) ?_ (by simp)
  set th' : Thread := { th with pc := .at_ (.exitWait cur), status := some e } with hth
  have hpcb : (s.setPcb q { s.pcbs q with exitcode := e }).joinView =
      { s.joinView with exitcode := Function.update s.joinView.exitcode q e } := by
    have hi : PCB.info ∘ Function.update s.pcbs q { s.pcbs q with exitcode := e } = PCB.info ∘
        s.pcbs := by
      rw [Function.comp_update]
      exact Function.update_eq_self q (PCB.info ∘ s.pcbs)
    simp only [joinView, table, setPcb, hi, Function.comp_update]
  have ht : (s.setPcb q { s.pcbs q with exitcode := e }).table = s.table :=
    congrArg JoinView.table hpcb
  rw [v_eq, joinView_setSem_joinsem, joinView_setThread_proc (s := s.setPcb q _) h th' rfl, ht,
    hpcb]
  have hst : Function.update s.table.stage t th'.pc.stage = s.table.stage := by
    rw [Function.update_eq_self_iff, table_stage h hpc]
    rfl
  have hj : Function.update s.joinView.joins t th'.joins = s.joinView.joins := by
    rw [Function.update_eq_self_iff, joinView_joins h]
  have hk : Function.update s.joinView.kids t th'.kids = s.joinView.kids := by
    rw [Function.update_eq_self_iff, joinView_kids h]
  rw [hst, hj, hk]
  exact .exit (table_threads h) (table_stage h hpc) (joinView_phase h hpc) hcur hq

theorem sim_finish {cur : ℕ+} {q q' : Ptr} (h : s.threads t = some th)
    (hpc : th.pc = .at_ (.exitRemove cur q)) (hq : s.pcb cur = some q')
    (hthread : (s.pcbs q').thread = some t) : Sim s l
      { s.setThread t { th with pc := .finished } with
        bm := s.bm.clear cur, current := none, toBeDestroyed := some t } := by
  refine .of_step (a := some (.remove t cur)) ?_ (by simp)
  have hview : ∀ r : Kernel, joinView
      { r with bm := s.bm.clear cur, current := none, toBeDestroyed := some t } =
        { r.joinView with table := { r.joinView.table with bm := s.bm.clear cur } } := fun r => rfl
  rw [hview, joinView_setThread h (.pc th _)]
  exact .remove (.remove (table_stage h hpc) cur.pos hq hthread)

theorem sim_alloc {name : Option CString} {found : Bool} {cur f : ℕ} {n : CString}
    (hcur : s.current = some t) (h : s.threads t = some th) (hpc : th.pc = .at_ (.execLocked name))
    (hd : s.execChecks th name found = some (.alloc cur f n)) : Sim s (.locked found)
      { s with
        bm := s.bm.findAndSet.1
        pcb := Function.update s.pcb f (some s.npcbs)
        pcbs := Function.update s.pcbs s.npcbs { PCB.new f t with parentID := cur }
        npcbs := s.npcbs + 1
        sem := newSems s.sem s.npcbs
        threads :=
          Function.update s.threads t (some { th with pc := .inP (.execPcb s.npcbs f n) }) } := by
  obtain ⟨hid, hlt, hclear, hmin, hmark⟩ := execChecks_alloc hd
  refine Or.inr ⟨some (.alloc t cur f n), ?_, ?_⟩
  · have hbm : (newSems s.sem s.npcbs .bmsem).value = (s.sem .bmsem).value := by simp [newSems]
    have hjs : (fun q => (newSems s.sem s.npcbs (.joinsem q)).value) =
        Function.update (fun q => (s.sem (.joinsem q)).value) s.npcbs 0 := by
      funext q
      by_cases hq : q = s.npcbs
      · simp [hq, newSems, Semaphore.new]
      · simp [hq, newSems]
    have hstep : s.table.Step (.alloc t cur f n) _ :=
      .alloc (table_threads h) (table_stage h hpc) hid hlt hclear hmin
    convert JoinView.Step.alloc (w := s.joinView) hstep using 1
    calc _ = { (s.setThread t { th with pc := .inP (.execPcb s.npcbs f n) }).joinView with
        table := { (s.setThread t { th with pc := .inP (.execPcb s.npcbs f n) }).joinView.table with
          bm := s.bm.mark f
          pcb := Function.update s.pcb f (some s.npcbs)
          npcbs := s.npcbs + 1
          info := Function.update s.table.info s.npcbs ⟨none, none, f, cur, t⟩ }
        exitcode := Function.update s.joinView.exitcode s.npcbs 0
        joinsem := Function.update s.joinView.joinsem s.npcbs 0 } := by
          simp only [joinView, table, setThread, hbm, hjs, hmark, Function.comp_update]
          rfl
      _ = _ := by
          rw [joinView_setThread_stage h (.pc th _) (by rw [hpc]; rfl)]
          rfl
  · intro u cur' f' n' he
    cases he
    simp [allocating, hcur, h, hpc, hd]

/-! ### Every step -/

/-- A turn of the current thread shows as nothing or as one action. -/
theorem sim_turn (hn : s.threads s.nthreads = none) (hcur : s.current = some t)
    (h : s.threads t = some th) (hs : Turn s t th l s') : Sim s l s' := by
  cases hs with
  | @pass k x hpc hx =>
    by_cases hv : (s.sem x).value = 0
    · exact sim_p_wait h hpc hv
    · exact sim_p_pass h hpc hx hv
  | begin_ hpc | start hpc | exec hpc | joinDec hpc | exitWait hpc =>
    exact sim_goes h (.pc th _) (by rw [hpc]; rfl) (by rw [hpc]; rfl)
  | noMemory hpc | forked hpc | exitRelease hpc =>
    exact sim_v trivial h (.pc th _) (by rw [hpc]; rfl) (by rw [hpc]; rfl)
  | incNumWait hpc | decNumWait hpc => exact sim_numwait h (by rw [hpc]; rfl) (by rw [hpc]; rfl)
  | loaded hpc =>
    apply Sim.of_eq
    rw [joinView_v _ .addrLock trivial]
    exact joinView_setThread_self h (.load th _ _) (by rw [hpc]; rfl) (by rw [hpc]; rfl)
  | refuse hpc =>
    refine .of_step (a := some (.unlock t)) ?_ (by simp)
    rw [v_eq, joinView_setSem_bmsem, joinView_setThread_stage h (.pc th _) (by rw [hpc]; rfl)]
    exact .unlock (.unlock (table_stage h hpc))
  | alloc hpc hd => exact sim_alloc hcur h hpc hd
  | fork hpc => exact sim_execPcb hn h hpc
  | execDone hpc => exact sim_execDone h hpc
  | refuseJoin => exact .of_eq rfl
  | join hpc hid hq hpar =>
    refine .of_step (a := none) ?_ (by simp)
    rw [joinView_setThread_phase h (.pc th _) (by rw [hpc]; rfl)]
    exact .join (table_threads h) (table_stage h hpc) (joinView_phase h hpc) hid hq hpar
  | joinWait hpc hq =>
    refine .of_step (a := none) ?_ (by simp)
    rw [joinView_setThread_phase h (.pc th _) (by rw [hpc]; rfl)]
    exact .wait (joinView_phase h hpc) hq
  | joinRet hpc hq => exact sim_joinRet h hpc hq
  | exit hpc hid hq => exact sim_exit h hpc hid hq
  | unremoved hpc hnone =>
    refine .of_step (a := none) ?_ (by simp)
    rw [joinView_setThread_phase h (.pc th _) (by rw [hpc]; rfl)]
    exact .unexit (joinView_phase h hpc) hnone
  | finish hpc hq hthread => exact sim_finish h hpc hq hthread

theorem joinView_dispatch (s : Kernel) (u : Tid) : (s.dispatch u).joinView = s.joinView := by
  obtain ⟨x, h⟩ | ⟨d, th, ht, h⟩ := dispatch_cases s u
  · rw [h]
    rfl
  · rw [h]
    exact joinView_setThread_self ht (Goes.destroyed th) rfl rfl

theorem joinView_step (hn : s.threads s.nthreads = none) (h : s.step l = some s') : Sim s l s' := by
  rcases step_cases h with ⟨k, -, h⟩ | ⟨t, th, hcur, ht, h⟩
  · obtain ⟨u, -, ⟨-, rfl⟩ | ⟨t, -, -, rfl⟩⟩ := switch_cases h
    · exact .of_eq (joinView_dispatch _ u)
    · exact .of_eq (joinView_dispatch _ u)
  · exact sim_turn hn hcur ht h

/-- What shows of a step in the table alone. -/
theorem table_step (hn : s.threads s.nthreads = none) (h : s.step l = some s') :
    s'.table = s.table ∨
    ∃ a, s.table.Step a s'.table ∧
      ∀ t cur f name, a = .alloc t cur f name → s.allocating l = some (t, cur, f, name) := by
  rcases joinView_step hn h with h | ⟨a, hstep, ha⟩
  · exact Or.inl (congrArg JoinView.table h)
  · rcases hstep.table with h | ⟨x, rfl, hx⟩
    · exact Or.inl h
    · exact Or.inr ⟨x, hx, fun t cur f name he => ha t cur f name (congrArg some he)⟩

theorem Base.next_none (hB : s.table.Base) : s.threads s.nthreads = none := by
  have := hB.static.next_none
  simpa [table] using this

/-! ### The start -/

section Initial

variable (name : CString)

theorem initial_threads : (initial name).table.threads t = if t = 0 then some ⟨mainName, 0, 0⟩
    else none := by
  simp only [table, initial, Function.comp_apply]
  split_ifs <;> rfl

theorem initial_stage : (initial name).table.stage t = .out := by
  simp only [table, initial, stageOf, Function.comp_apply]
  split_ifs <;> rfl

theorem initial_phase : (initial name).joinView.phase t = .none := by
  simp only [joinView, initial, phaseOf, Function.comp_apply]
  split_ifs <;> rfl

theorem initial_test (i : ℕ) : (initial name).table.bm.test i = decide (i = 0) := by
  simp [table, initial, Bitmap.test_mark, maxProcess]

theorem initial_pcb {i : ℕ} {q : Ptr} (h : (initial name).table.pcb i = some q) :
    i = 0 ∧ q = 0 := by
  simp only [table, initial] at h
  split_ifs at h with hi
  exact ⟨hi, (Option.some.inj h).symm⟩

theorem initial_proc {pr : Proc} (h : (initial name).table.threads t = some pr) :
    t = 0 ∧ pr = ⟨mainName, 0, 0⟩ := by
  rw [initial_threads] at h
  split_ifs at h with ht
  exact ⟨ht, (Option.some.inj h).symm⟩

theorem base_initial : (initial name).table.Base := by
  have hexec : ∀ t, ¬ ((initial name).table.stage t).InExec := fun t h => by
    rw [initial_stage] at h
    exact h
  refine ⟨⟨by simp [table, initial], fun t pr h => ?_, fun t pr h => ?_, fun p t hp h => ?_,
    fun i q h => ?_⟩, ?_⟩
  · obtain ⟨rfl, -⟩ := initial_proc name h
    exact Nat.zero_lt_one
  · obtain ⟨rfl, rfl⟩ := initial_proc name h
    exact ⟨Nat.zero_lt_one, rfl, rfl, by decide, fun h => absurd rfl h⟩
  · obtain rfl : p = 0 := Nat.lt_one_iff.mp hp
    cases h
    exact ⟨_, initial_threads name, rfl⟩
  · obtain ⟨rfl, rfl⟩ := initial_pcb name h
    exact ⟨Nat.zero_lt_one, rfl⟩
  · have hlive : (initial name).table.Live 0 ⟨mainName, 0, 0⟩ :=
      ⟨initial_threads name, by rw [initial_stage]; simp⟩
    refine
      { first := ⟨_, hlive, rfl, rfl⟩
        idle := fun t _ => initial_stage name
        live := fun t pr h => ?_
        bit := fun i hi => Or.inl ⟨0, _, hlive, ?_⟩
        alloc := fun t p f n h => ?_
        named := fun t p f h => ?_
        pending := fun p hp h => ?_
        mutex := fun t h => absurd h (hexec t)
        unique := fun t u h => absurd h (hexec t)
        free := fun _ => rfl }
    · obtain ⟨rfl, rfl⟩ := initial_proc name h.1
      exact ⟨by rw [initial_test]; rfl, rfl⟩
    · rw [initial_test] at hi
      exact (of_decide_eq_true hi).symm
    · rw [initial_stage] at h; cases h
    · rw [initial_stage] at h; cases h
    · rcases h with h | h <;> cases h

theorem counted_initial : (initial name).table.Counted := by
  refine ⟨fun t ht => ?_, fun _ => rfl, fun t p f h => ?_⟩
  · rw [Nat.lt_one_iff.mp ht, initial_threads]
    rfl
  · rw [initial_stage] at h; cases h

theorem named_initial : (initial name).table.Named := by
  refine ⟨fun t pr h h0 => ?_, fun t pr h h0 => ?_, fun t p f n h => ?_⟩
  · exact absurd (initial_proc name h).1 h0
  · exact absurd (initial_proc name h.1).1 h0
  · rw [initial_stage] at h; cases h

theorem parented_initial : (initial name).table.Parented := by
  refine ⟨fun i q h t pr hl hpar => ?_, fun t p f n h => ?_⟩
  · obtain ⟨rfl, rfl⟩ := initial_proc name hl.1
    cases hpar
  · rw [initial_stage] at h; cases h

theorem jinv_initial : (initial name).joinView.JInv := by
  have hstatus : ∀ t, (initial name).joinView.status t = none := fun t => by
    simp only [joinView, initial, Function.comp_apply]
    split_ifs <;> rfl
  have hkids : ∀ t, (initial name).joinView.kids t = [] := fun t => by
    simp only [joinView, initial, kidsOf, Function.comp_apply]
    split_ifs <;> rfl
  have hjoins : ∀ t, (initial name).joinView.joins t = [] := fun t => by
    simp only [joinView, initial, joinsOf, Function.comp_apply]
    split_ifs <;> rfl
  refine
    { exitcode := fun c pr e _ h => ?_
      ended := fun c h => ?_
      uncreated := fun t _ => ⟨hstatus t, hkids t⟩
      here := fun t cur h => ?_
      sem := fun p _ h => absurd rfl h
      kid := fun t pr _ id c h => ?_
      joining := fun t id _ c h => ?_
      waiting := fun t id q h => ?_
      joined := fun t id h => ?_
      result := fun t id c e h => ?_ }
  · rw [hstatus] at h; cases h
  · rw [hstatus] at h; cases h
  · rw [initial_phase] at h; cases h
  · rw [hkids] at h; cases h
  · rw [hkids] at h; cases h
  · rw [initial_phase] at h; cases h
  · rw [initial_phase] at h; cases h
  · rw [hjoins] at h; cases h

end Initial

end Kernel
end Nachos
