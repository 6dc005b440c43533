/-
# A whole `ExecUpdate` (`threads/ptable.cc`, `threads/pcb.cc`)

The call from the pass of `bmsem->P()` that succeeds to its return, with no
other thread in between. `PCB::Exec` also has an end of its own for a thread
that could not be created, which the kernel's steps leave out: `new` gives a
thread or throws. Here it is an outcome of the call (`created`), and the call
follows it: the PCB is deleted, its entry is NULL again and `bmsem` is given
back; the bit of the slot stays set.

* `execUpdate_steps`: with the thread created, the call is the kernel's own
  steps, one after another.
* `execOk_iff`: a call leaves the table as it should (`ExecOk`) exactly if it
  comes back, and if its checks let it pass, the thread is created and
  `GetCurrentThreadId` gives the caller's own slot.

Key definitions: `Kernel.execNoThread`, `Kernel.execUpdate`, `Kernel.ExecOk`.
Key theorems: `Kernel.execUpdate_steps`, `Kernel.execOk_iff`.
-/
import Mathlib
import Nachos.Base.Runs
import Nachos.Threads.Kernel
import Nachos.Threads.Processes

namespace Nachos
namespace Kernel

open Runs (Reach anyStep)

/-! ### The call -/

/-- `PCB::Exec` with `mutex` held when there is no thread: it gives `mutex` back
and returns -1, and `ExecUpdate` deletes the PCB, sets its entry to NULL and
gives `bmsem` back. -/
def execNoThread (s : Kernel) (t : Tid) (th : Thread) (p : Ptr) (f : ℕ) (name : CString) : Kernel :=
  let s := (s.setPcb p { s.pcbs p with pid := f, file := some name, thread := none }).v (.mutex p)
  ({ s with pcb := Function.update s.pcb f none }.setThread t { th with pc := .at_ .user }).v .bmsem

/-- `PCB::Exec`, from its `mutex->P()` on, and the rest of `ExecUpdate`. -/
def execStart (s : Kernel) (t : Tid) (th : Thread) (p : Ptr) (f : ℕ) (name : CString)
    (created : Bool) : Kernel × ℤ :=
  let s := s.p t { th with pc := .inP (.execPcb p f name) } (.mutex p) (.execPcb p f name)
  if created then
    let s := s.execPcb t { th with pc := .at_ (.execPcb p f name) } p f name
    let s := (s.setThread t { th with pc := .at_ (.execDone p f) }).v (.mutex p)
    (s.execDone t { th with pc := .at_ (.execDone p f) } p f, f)
  else (s.execNoThread t { th with pc := .at_ (.execPcb p f name) } p f name, -1)

/-- `PTable::ExecUpdate(name)` by thread `t`, whose pass of `bmsem->P()`
succeeds. The file opens or does not, and the thread is created or is not. -/
def execUpdate (s : Kernel) (t : Tid) (th : Thread) (name : Option CString) (found created : Bool) :
    Option (Kernel × ℤ) :=
  let s := s.p t th .bmsem (.execLocked name)
  let th := { th with pc := .at_ (.execLocked name) }
  (s.execChecks th name found).bind fun d => (s.execLocked t th name found).map fun s' =>
    match d with
    | .refuse => (s', -1)
    | .alloc _ f n => s'.execStart t th s.npcbs f n created

variable {s s' : Kernel} {t : Tid} {th : Thread} {name : Option CString} {found created : Bool}

/-- The checks read the table only, and the name of the thread. -/
theorem execChecks_p (s : Kernel) (t : Tid) (th th' : Thread) (x : SemId) (k : Cont)
    (name : Option CString) (found : Bool) (h : th'.name = th.name) :
    (s.p t th x k).execChecks th' name found = s.execChecks th name found := by
  unfold execChecks getCurrentThreadId
  rw [h]
  rfl

/-- A call that the checks refuse. -/
theorem execUpdate_refuse (h : s.execChecks th name found = some .refuse) :
    s.execUpdate t th name found created =
      some (((s.p t th .bmsem (.execLocked name)).setThread t { th with pc := .at_ .user }).v
        .bmsem, -1) := by
  unfold execUpdate execLocked
  simp only
  rw [execChecks_p s t th { th with pc := .at_ (.execLocked name) } .bmsem (.execLocked name)
    name found rfl, h]
  rfl

/-- The kernel at the start of `PCB::Exec` in slot `f`. -/
def allocated (s : Kernel) (t : Tid) (th : Thread) (name : Option CString) (cur f : ℕ)
    (n : CString) : Kernel :=
  { s.p t th .bmsem (.execLocked name) with
    bm := s.bm.findAndSet.1
    pcb := Function.update s.pcb f (some s.npcbs)
    pcbs := Function.update s.pcbs s.npcbs { PCB.new f t with parentID := cur }
    npcbs := s.npcbs + 1
    sem := newSems (s.p t th .bmsem (.execLocked name)).sem s.npcbs
    threads := Function.update (s.p t th .bmsem (.execLocked name)).threads t
      (some { th with pc := .inP (.execPcb s.npcbs f n) }) }

/-- A call that gets slot `f`. -/
theorem execUpdate_alloc {cur f : ℕ} {n : CString}
    (h : s.execChecks th name found = some (.alloc cur f n)) :
    s.execUpdate t th name found created =
      some ((s.allocated t th name cur f n).execStart t { th with pc := .at_ (.execLocked name) }
        s.npcbs f n created) := by
  unfold execUpdate execLocked
  simp only
  rw [execChecks_p s t th { th with pc := .at_ (.execLocked name) } .bmsem (.execLocked name)
    name found rfl, h]
  rfl

/-! ### What a call leaves -/

/-- What a call that returns `r` should leave: a failed one the table as it was,
a successful one a new process of the caller in a slot that was free; in both
cases `bmsem` as it was. -/
structure ExecOk (s : Kernel) (th : Thread) (s' : Kernel) (r : ℤ) : Prop where
  bmsem : (s'.sem .bmsem).value = (s.sem .bmsem).value
  failed : r = -1 → s'.bm = s.bm ∧ s'.pcb = s.pcb ∧ s'.psize = s.psize ∧
    ∀ q < s.npcbs, s'.pcbs q = s.pcbs q
  started : r ≠ -1 → ∃ (f : ℕ) (q : Ptr), r = f ∧ s.bm.test f = false ∧ s'.pcb f = some q ∧
    (s'.pcbs q).parentID = th.slot ∧ (∀ i ≠ f, s'.pcb i = s.pcb i ∧ s'.bm.test i = s.bm.test i) ∧
    ∀ q < s.npcbs, s'.pcbs q = s.pcbs q

/-- `P` and one `V` later the value is as before. -/
theorem value_p_v (t : Tid) (th : Thread) (k : Cont) (h : (s.sem .bmsem).value ≠ 0) :
    (((s.p t th .bmsem k).sem .bmsem).v.1).value = (s.sem .bmsem).value := by
  simp [p, Semaphore.pTest, Semaphore.v, h]

theorem execOk_refuse (hfree : (s.sem .bmsem).value ≠ 0) (k : Cont) (th' : Thread) :
    ExecOk s th (((s.p t th .bmsem k).setThread t th').v .bmsem) (-1) where
  bmsem := by
    rw [← value_p_v t th k hfree]
    simp [v, setThread]
  failed _ := ⟨rfl, rfl, rfl, fun _ _ => rfl⟩
  started h := absurd rfl h

/-- What the rest of a call that gets slot `f` leaves of the table, with the
thread created or not. -/
theorem execStart_table (s : Kernel) (t : Tid) (th : Thread) (p : Ptr) (f : ℕ) (n : CString)
    (created : Bool) :
    let out := s.execStart t th p f n created
    out.2 = (if created then (f : ℤ) else -1) ∧ out.1.bm = s.bm ∧
      out.1.pcb = (if created then s.pcb else Function.update s.pcb f none) ∧
      out.1.psize = (if created then s.psize + 1 else s.psize) ∧
      (∀ q ≠ p, out.1.pcbs q = s.pcbs q) ∧ (out.1.pcbs p).parentID = (s.pcbs p).parentID ∧
      (out.1.sem .bmsem).value = (s.sem .bmsem).value + 1 := by
  rcases created with _ | _
  · refine ⟨rfl, rfl, rfl, rfl, fun q hq => ?_, ?_, ?_⟩
    · simp [execStart, execNoThread, v, setPcb, setThread, Kernel.p, hq]
    · simp [execStart, execNoThread, v, setPcb, setThread, Kernel.p]
    · simp [execStart, execNoThread, v, setPcb, setThread, Kernel.p, Semaphore.v]
  · refine ⟨rfl, rfl, rfl, rfl, fun q hq => ?_, ?_, ?_⟩
    · simp [execStart, execPcb, execDone, v, setThread, Kernel.p, hq]
    · simp [execStart, execPcb, execDone, v, setThread, Kernel.p]
    · simp [execStart, execPcb, execDone, v, setThread, Kernel.p, Semaphore.v]

/-- A call that gets slot `f` leaves the table as it should exactly if the
thread is created and the slot found for the caller is its own. -/
theorem execOk_alloc {cur f : ℕ} {n : CString} (hfree : (s.sem .bmsem).value ≠ 0)
    (h : s.execChecks th name found = some (.alloc cur f n)) :
    (∃ s' r, s.execUpdate t th name found created = some (s', r) ∧ ExecOk s th s' r) ↔
    created = true ∧ cur = th.slot := by
  obtain ⟨-, hlt, hclear, -, hmark⟩ := execChecks_alloc h
  rw [execUpdate_alloc h]
  obtain ⟨hr, hbm, hpcb, hpsize, hother, hparent, hsem⟩ :=
    execStart_table (s.allocated t th name cur f n) t
    { th with pc := .at_ (.execLocked name) } s.npcbs f n created
  generalize (s.allocated t th name cur f n).execStart t _ s.npcbs f n created = out at *
  obtain ⟨s', r⟩ := out
  simp only at hr hbm hpcb hpsize hother hparent hsem
  -- the table as `GetFreeSlot` and `new PCB` have left it
  have hbit : ∀ i, s'.bm.test i = (decide (i = f) || s.bm.test i) := by
    intro i
    rw [hbm]
    show s.bm.findAndSet.1.test i = _
    rw [hmark, Bitmap.test_mark hlt]
  have hpid : (s'.pcbs s.npcbs).parentID = cur := by
    rw [hparent]
    simp [allocated]
  have hpcbs : ∀ q < s.npcbs, s'.pcbs q = s.pcbs q := by
    intro q hq
    rw [hother q (Nat.ne_of_lt hq)]
    simp [allocated, Nat.ne_of_lt hq]
  have hvalue : (s'.sem .bmsem).value = (s.sem .bmsem).value := by
    rw [hsem]
    simp [allocated, newSems, Kernel.p, Semaphore.pTest, hfree]
  constructor
  · rintro ⟨s'', r'', heq, hok⟩
    cases heq
    rcases created with _ | _
    · -- the bit stays set
      have hsame := (hok.failed hr).1
      have hset := hbit f
      rw [hsame, hclear] at hset
      simp at hset
    · rw [if_pos rfl] at hr hpcb
      obtain ⟨f', q, hf', -, hq, hpar, -⟩ := hok.started (by omega)
      obtain rfl : f = f' := by omega
      rw [hpcb, show (s.allocated t th name cur f n).pcb f = some s.npcbs by simp [allocated]] at hq
      cases hq
      rw [hpid] at hpar
      exact ⟨rfl, by exact_mod_cast hpar⟩
  · rintro ⟨rfl, rfl⟩
    rw [if_pos rfl] at hr hpcb
    refine ⟨s', r, rfl, hvalue, fun h => by omega,
      fun _ => ⟨f, s.npcbs, hr, hclear, ?_, hpid, fun i hi => ⟨?_, ?_⟩, hpcbs⟩⟩
    · rw [hpcb]
      simp [allocated]
    · rw [hpcb]
      simp [allocated, hi]
    · rw [hbit i]
      simp [hi]

/-! ### In a run the caller finds a PCB -/

/-- A search among PCBs that all have their names finds the name that is there. -/
theorem searchSlots_found (pcb : ℕ → Option Ptr) (file : Ptr → Option CString) (name : CString)
    (l : List ℕ) (hnamed : ∀ j ∈ l, ∀ q, pcb j = some q → file q ≠ none)
    (hthere : ∃ j ∈ l, ∃ q, pcb j = some q ∧ file q = some name) :
    ∃ (i : ℕ) (q : Ptr), searchSlots pcb file name l = some (i : ℤ) ∧ pcb i = some q ∧
    file q = some name := by
  induction l with
  | nil =>
    obtain ⟨j, hj, -⟩ := hthere
    cases hj
  | cons i l ih =>
    have htail := fun j hj => hnamed j (List.mem_cons_of_mem i hj)
    obtain ⟨j, hj, q, hq, hfile⟩ := hthere
    have hrest : j ≠ i → ∃ j ∈ l, ∃ q, pcb j = some q ∧ file q = some name := by
      intro hne
      exact ⟨j, (List.mem_cons.mp hj).resolve_left hne, q, hq, hfile⟩
    unfold searchSlots
    rcases hi : pcb i with _ | q'
    · exact ih htail (hrest fun he => by rw [he, hi] at hq; cases hq)
    · rcases hf : file q' with _ | n
      · exact absurd hf (hnamed i List.mem_cons_self q' hi)
      · by_cases hn : n = name
        · exact ⟨i, q', by simp [hf, hn], hi, hn ▸ hf⟩
        · simp only [hf, hn, if_false]
          refine ih htail (hrest fun he => hn ?_)
          rw [he, hi] at hq
          cases hq
          rw [hf] at hfile
          exact Option.some.inj hfile

/-- With `bmsem` free every PCB has its name, so a running process finds one. -/
theorem lookup_of_reach (h : Reach step IsInitial anyStep s) (hth : s.threads t = some th)
    (hlive : th.pc ≠ .finished) (hfree : (s.sem .bmsem).value ≠ 0) :
    ∃ (i : ℕ) (q : Ptr) (file : CString), s.getCurrentThreadId th = some (i : ℤ) ∧
    s.pcb i = some q ∧
      (s.pcbs q).file = some file := by
  obtain ⟨hB, -⟩ := base_reach h
  have hl : s.table.Live t th.proc := live_iff.mpr ⟨th, hth, hlive, rfl⟩
  have hnamed : ∀ j q, s.pcb j = some q → (s.pcbs q).file ≠ none := by
    intro j q hq hnone
    obtain ⟨u, f, n, hu⟩ := hB.staged.pending q (hB.static.entry j q hq).1 (Or.inr hnone)
    exact hfree (hB.staged.mutex u (by rw [hu]; trivial))
  have hentry : ∀ {i : ℕ} {q : Ptr}, s.getCurrentThreadId th = some (i : ℤ) → s.pcb i = some q →
      ∃ (i : ℕ) (q : Ptr) (file : CString), s.getCurrentThreadId th = some (i : ℤ) ∧
      s.pcb i = some q ∧
        (s.pcbs q).file = some file := by
    intro i q hi hq
    obtain ⟨file, hfile⟩ := Option.ne_none_iff_exists'.mp (hnamed i q hq)
    exact ⟨i, q, file, hi, hq, hfile⟩
  by_cases hmain : th.name = mainName
  · obtain ⟨pr, hl0, -, hslot⟩ := hB.staged.first
    have hpcb : s.pcb pr.slot = some pr.own := (hB.staged.live 0 pr hl0).2
    rw [hslot] at hpcb
    exact hentry (i := 0) (if_pos hmain) hpcb
  · have ht : t ≠ 0 := by
      rintro rfl
      obtain ⟨pr, hl0, hn, -⟩ := hB.staged.first
      have := hl0.1
      rw [table_threads hth] at this
      cases this
      exact hmain hn
    obtain ⟨-, -, -, hmax, hfile⟩ := hB.static.own t _ hl.1
    have hpos := hB.slot_pos ht hl
    have hmem : th.slot ∈ List.range' 1 (maxProcess - 1) := by
      rw [List.mem_range'_1]
      show 1 ≤ th.proc.slot ∧ _
      unfold maxProcess at hmax ⊢
      exact ⟨hpos, by show th.proc.slot < _; omega⟩
    obtain ⟨i, q, hi, hq, -⟩ := searchSlots_found s.pcb (fun q => (s.pcbs q).file) th.name
      (List.range' 1 (maxProcess - 1)) (fun j _ q hq => hnamed j q hq)
      ⟨th.slot, hmem, th.own, (hB.staged.live t _ hl).2, hfile ht⟩
    exact hentry ((if_neg hmain).trans hi) hq

/-- So in a run the checks come to an end. -/
theorem execChecks_of_reach (h : Reach step IsInitial anyStep s) (hth : s.threads t = some th)
    (hlive : th.pc ≠ .finished) (hfree : (s.sem .bmsem).value ≠ 0) (name : Option CString)
    (found : Bool) :
    (s.execChecks th name found).isSome = true := by
  obtain ⟨i, q, file, hi, hq, hfile⟩ := lookup_of_reach h hth hlive hfree
  unfold execChecks
  rcases name with _ | n
  · rfl
  · by_cases hf : found = false
    · simp [hf]
    · simp [hf, hi, hq, hfile]

/-- **A whole call.** In any state of the kernel the call leaves the table as
it should exactly if its checks come to an end and, if they let it pass, the
thread is created and `GetCurrentThreadId` gives the caller's own slot. In a run
the checks always come to an end. -/
theorem execOk_iff (s : Kernel) (t : Tid) (th : Thread) (name : Option CString)
    (found created : Bool) (hfree : (s.sem .bmsem).value ≠ 0) :
    ((∃ s' r, s.execUpdate t th name found created = some (s', r) ∧ ExecOk s th s' r) ↔
      (s.execChecks th name found).isSome = true ∧
        ∀ cur f n, s.execChecks th name found = some (.alloc cur f n) → created = true ∧
        cur = th.slot) ∧
      (Reach step IsInitial anyStep s → s.threads t = some th → th.pc = .inP (.execLocked name) →
        (s.execChecks th name found).isSome = true) := by
  refine ⟨?_, fun h hth hpc => execChecks_of_reach h hth (by rw [hpc]; simp) hfree name found⟩
  rcases hd : s.execChecks th name found with _ | d
  · refine iff_of_false ?_ (by simp)
    rintro ⟨s', r, heq, -⟩
    unfold execUpdate at heq
    simp only at heq
    rw [execChecks_p s t th { th with pc := .at_ (.execLocked name) } .bmsem (.execLocked name)
      name found rfl, hd] at heq
    cases heq
  · rcases d with _ | ⟨cur, f, n⟩
    · exact iff_of_true ⟨_, _, execUpdate_refuse hd, execOk_refuse hfree _ _⟩ (by simp)
    · rw [execOk_alloc hfree hd]
      simp

/-- The thread stands at the `P` of an `ExecUpdate(name)`. -/
def atExec (th : Thread) (name : CString) : Bool :=
  match th.pc with
  | .inP (.execLocked (some n)) => decide (n = name)
  | _ => false

theorem atExec_iff {n : CString} : atExec th n = true ↔ th.pc = .inP (.execLocked (some n)) := by
  unfold atExec
  split
  · rename_i n' h
    rw [h]
    simp
  · rename_i h
    exact iff_of_false (by simp) (h n)

set_option maxRecDepth 20000 in
/-- The first process calls `ExecUpdate("a")`, and the thread is created. -/
theorem execOk_iff_first : ∃ s th, Reach step IsInitial anyStep s ∧ s.threads 0 = some th ∧
    th.pc = .inP (.execLocked (some [97])) ∧ (s.sem .bmsem).value ≠ 0 ∧
    ∃ s' r, s.execUpdate 0 th (some [97]) true true = some (s', r) ∧ ExecOk s th s' r := by
  have hrun := Runs.Reach.of_exec (C := anyStep) step IsInitial (isInitial_initial [115])
    (loadLabels ++ [Label.exec (some [97])]) (Runs.along_any _ _)
    (fun s => decide ((s.sem .bmsem).value = 1) && (s.threads 0).any fun th => atExec th [97] &&
      decide (th.slot = 0) &&
      decide (s.getCurrentThreadId th = some 0)) (by decide)
  obtain ⟨s, h, ht⟩ := hrun
  simp only [Bool.and_eq_true, decide_eq_true_eq, Option.any_eq_true, atExec_iff] at ht
  obtain ⟨hvalue, th, hth, ⟨hpc, hslot⟩, hid⟩ := ht
  have hfree : (s.sem .bmsem).value ≠ 0 := by omega
  obtain ⟨hiff, hsome⟩ := execOk_iff s 0 th (some [97]) true true hfree
  refine ⟨s, th, h, hth, hpc, hfree, hiff.mpr ⟨hsome h hth hpc, fun cur f n hd => ⟨rfl, ?_⟩⟩⟩
  have hcur := (execChecks_alloc hd).1
  rw [hid] at hcur
  have := Option.some.inj hcur
  omega

set_option maxRecDepth 20000 in
/-- The first process calls `ExecUpdate("a")` and its thread is not created: the
call returns -1, and the bit of slot 1 is set. A second `a` starts `b`: the
parent on record is the first `a`. -/
theorem exec_leaves_bit :
    (∃ s th s', Reach step IsInitial anyStep s ∧ s.threads 0 = some th ∧
      th.pc = .inP (.execLocked (some [97])) ∧
      (s.sem .bmsem).value = 1 ∧ s.execUpdate 0 th (some [97]) true false = some (s', -1) ∧
      s.bm.test 1 = false ∧ s'.bm.test 1 = true) ∧
    ∃ s th s' q, Reach step IsInitial anyStep s ∧ s.threads 2 = some th ∧
    th.pc = .inP (.execLocked (some [98])) ∧
      (s.sem .bmsem).value = 1 ∧ s.execUpdate 2 th (some [98]) true true = some (s', 3) ∧
      s'.pcb 3 = some q ∧ (s'.pcbs q).parentID = 1 ∧ th.slot = 2 := by
  refine ⟨?_, ?_⟩
  · have hrun := Runs.Reach.of_exec (C := anyStep) step IsInitial (isInitial_initial [115])
      (loadLabels ++ [Label.exec (some [97])]) (Runs.along_any _ _)
      (fun s => decide ((s.sem .bmsem).value = 1) && (s.threads 0).any fun th => atExec th [97] &&
        !s.bm.test 1 &&
        (s.execUpdate 0 th (some [97]) true false).any fun out => decide (out.2 = -1) &&
        out.1.bm.test 1) (by decide)
    obtain ⟨s, h, ht⟩ := hrun
    simp only [Bool.and_eq_true, decide_eq_true_eq, Option.any_eq_true, atExec_iff,
      Bool.not_eq_true'] at ht
    obtain ⟨hvalue, th, hth, ⟨hpc, hclear⟩, ⟨s', r⟩, hcall, hr, hset⟩ := ht
    simp only at hr
    subst hr
    exact ⟨s, th, s', h, hth, hpc, hvalue, hcall, hclear, hset⟩
  · have hrun := Runs.Reach.of_exec (C := anyStep) step IsInitial (isInitial_initial [115])
      (startLabels ++ execLabels [97] ++ [Label.switch 0, Label.switch 0] ++ loadLabels ++
        [Label.exec (some [98])])
      (Runs.along_any _ _)
      (fun s => decide ((s.sem .bmsem).value = 1) && (s.threads 2).any fun th => atExec th [98] &&
        decide (th.slot = 2) &&
        (s.execUpdate 2 th (some [98]) true true).any fun out => decide (out.2 = 3) &&
          (out.1.pcb 3).any fun q => decide ((out.1.pcbs q).parentID = 1)) (by decide)
    obtain ⟨s, h, ht⟩ := hrun
    simp only [Bool.and_eq_true, decide_eq_true_eq, Option.any_eq_true, atExec_iff] at ht
    obtain ⟨hvalue, th, hth, ⟨hpc, hslot⟩, ⟨s', r⟩, hcall, hr, q, hq, hpar⟩ := ht
    simp only at hr
    subst hr
    exact ⟨s, th, s', q, h, hth, hpc, hvalue, hcall, hq, hpar, hslot⟩

/-! ### The call as steps of the kernel -/

/-- One step of the current thread, and the rest. -/
theorem exec_cons {l : Label} {ls : List Label} {s1 : Kernel} (hcur : s.current = some t)
    (hth : s.threads t = some th) (hl : ∀ k, l ≠ .switch k) (h : s.stepOf t th l = some s1) :
    Runs.exec step s (l :: ls) = Runs.exec step s1 ls := by
  have hstep : s.step l = some s1 := by
    rcases l with k | _ | _ | _ | _ | _ | _
    · exact absurd rfl (hl k)
    all_goals
      show (s.current.bind fun t => (s.threads t).bind fun th => s.stepOf t th _) = some s1
      rw [hcur, Option.bind_some, hth, Option.bind_some]
      exact h
  rw [Runs.exec, hstep, Option.bind_some]

/-- A pass of `P` that succeeds. -/
theorem exec_p (ls : List Label) {k : Cont} {x : SemId} (hcur : s.current = some t)
    (hth : s.threads t = some th) (hpc : th.pc = .inP k) (hk : k.sem = some x)
    (hfree : (s.sem x).value ≠ 0) :
    Runs.exec step s (.run :: ls) = Runs.exec step (s.p t th x k) ls ∧
    (s.p t th x k).current = some t ∧
      (s.p t th x k).threads t = some { th with pc := .at_ k } := by
  have hpass : ((s.sem x).pTest t).2 = true := by simp [Semaphore.pTest, hfree]
  refine ⟨exec_cons hcur hth (by simp) ?_, ?_, ?_⟩
  · unfold stepOf run
    simp [hpc, hk]
  · unfold Kernel.p
    simp only
    rw [hpass]
    exact hcur
  · unfold Kernel.p
    simp only
    rw [hpass]
    simp

/-- The rest of a call that has its slot, in four steps. -/
theorem execStart_steps (th : Thread) {p : Ptr} {f : ℕ} {n : CString} (hcur : s.current = some t)
    (hth : s.threads t = some { th with pc := .inP (.execPcb p f n) }) (hnew : t ≠ s.nthreads)
    (hfree : (s.sem (.mutex p)).value ≠ 0) :
    Runs.exec step s [.run, .run, .run, .run] = some (s.execStart t th p f n true).1 := by
  obtain ⟨h1, hcur1, hth1⟩ := exec_p [.run, .run, .run] hcur hth rfl rfl hfree
  have hend : s.execStart t th p f n true = (execDone (v (setThread (execPcb
      (s.p t { th with pc := .inP (.execPcb p f n) } (.mutex p) (.execPcb p f n))
      t { th with pc := .at_ (.execPcb p f n) } p f n) t { th with pc := .at_ (.execDone p f) })
      (.mutex p)) t { th with pc := .at_ (.execDone p f) } p f, (f : ℤ)) := rfl
  have hnew1 :
      t ≠ (s.p t { th with pc := .inP (.execPcb p f n) } (.mutex p) (.execPcb p f n)).nthreads :=
    hnew
  rw [hend, h1]
  generalize s.p t { th with pc := .inP (.execPcb p f n) } (.mutex p) (.execPcb p f n) = s1 at *
  have hcur2 : (s1.execPcb t { th with pc := .at_ (.execPcb p f n) } p f n).current = some t :=
    hcur1
  have hth2 : (s1.execPcb t { th with pc := .at_ (.execPcb p f n) } p f n).threads t =
      some { th with pc := .at_ (.execForked p f) } := by
    simp [execPcb, hnew1]
  rw [exec_cons hcur1 hth1 (by simp) rfl]
  generalize s1.execPcb t { th with pc := .at_ (.execPcb p f n) } p f n = s2 at *
  have hcur3 : ((s2.setThread t { th with pc := .at_ (.execDone p f) }).v (.mutex p)).current =
      some t := hcur2
  have hth3 : ((s2.setThread t { th with pc := .at_ (.execDone p f) }).v (.mutex p)).threads t =
      some { th with pc := .at_ (.execDone p f) } := by
    simp [v, setThread]
  rw [exec_cons hcur2 hth2 (by simp) rfl, exec_cons hcur3 hth3 (by simp) rfl]
  rfl

/-- With the thread created the call is six steps of the kernel, or two if it is
refused. -/
theorem execUpdate_steps (hcur : s.current = some t) (hth : s.threads t = some th)
    (hnew : t ≠ s.nthreads) (hpc : th.pc = .inP (.execLocked name))
    (hfree : (s.sem .bmsem).value ≠ 0) {r : ℤ}
    (h : s.execUpdate t th name found true = some (s', r)) :
    Runs.exec step s ([Label.run, Label.locked found] ++ if r = -1 then []
      else [.run, .run, .run, .run]) = some s' := by
  obtain ⟨h1, hcur1, hth1⟩ :=
    exec_p (.locked found :: if r = -1 then [] else [.run, .run, .run, .run]) hcur hth hpc rfl hfree
  rw [List.cons_append, List.cons_append, List.nil_append, h1]
  have hchecks := execChecks_p s t th { th with pc := .at_ (.execLocked name) } .bmsem
    (.execLocked name) name found rfl
  rcases hd : s.execChecks th name found with _ | d
  · unfold execUpdate at h
    simp only at h
    rw [hchecks, hd] at h
    cases h
  · rw [hd] at hchecks
    rcases d with _ | ⟨cur, f, n⟩
    · rw [execUpdate_refuse hd] at h
      cases h
      refine (exec_cons hcur1 hth1 (by simp) ?_).trans rfl
      show execLocked _ t _ name found = _
      unfold execLocked
      rw [hchecks]
      rfl
    · rw [execUpdate_alloc hd] at h
      have hr : r = f := by
        have hf := congrArg (fun o => o.map Prod.snd) h
        exact (Option.some.inj hf).symm
      have hs := congrArg (fun o => o.map Prod.fst) h
      rw [if_neg (by omega)]
      have hlocked : (s.p t th .bmsem (.execLocked name)).stepOf t
          { th with pc := .at_ (.execLocked name) }
          (.locked found) = some (s.allocated t th name cur f n) := by
        show execLocked _ t _ name found = _
        unfold execLocked
        rw [hchecks]
        rfl
      rw [exec_cons hcur1 hth1 (by simp) hlocked]
      refine (execStart_steps { th with pc := .at_ (.execLocked name) } ?_ ?_ ?_ ?_).trans hs
      · exact hcur1
      · simp [allocated]
      · exact hnew
      · simp [allocated, newSems, Semaphore.new]

end Kernel
end Nachos
