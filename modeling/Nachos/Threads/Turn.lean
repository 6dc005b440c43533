/-
# What a step can do

`Kernel.step` read backwards, once. A step is a switch (`switch_cases`) or a
turn of the current thread; `Turn` has a case for each way a thread's kernel
code can go on, with what it has found. Proofs about steps go by these cases
and do not unfold the code again.

Key definitions: `Kernel.Turn`.
Key theorems: `Kernel.step_cases`, `Kernel.switch_cases`, `Kernel.turn_of_stepOf`.
-/
import Mathlib
import Nachos.Threads.Kernel

namespace Nachos
namespace Kernel

open Bytes (Byte Store)

/-- Thread `t`, which is `th`, goes on by `l`. -/
inductive Turn (s : Kernel) (t : Tid) (th : Thread) : Label → Kernel → Prop
  /-- a pass of the loop of `P` -/
  | pass {k : Cont} {x : SemId} (hpc : th.pc = .inP k) (hx : k.sem = some x) :
      Turn s t th .run (s.p t th x k)
  /-- `Load` is called -/
  | begin_ {file : List Byte} {stack : ℕ → Byte} (hpc : th.pc = .at_ .begin_)
      (hmagic : (readHeader file stack).noffMagic = noffMagicNumber) : Turn s t th
      (.load (some file) stack)
        (s.setThread t { th with pc := .inP (.loadLocked (readHeader file stack) file) })
  /-- `Load` finds too few free pages -/
  | noMemory {h : NoffHeader} {file : List Byte} (hpc : th.pc = .at_ (.loadLocked h file))
      (hload : Nachos.loadLocked h file s.gPhysPageBitMap s.mainMemory = .noMemory) :
      Turn s t th .run ((s.setThread t { th with pc := .at_ (.loadRet false) }).v .addrLock)
  /-- `Load` has its pages and the program in them -/
  | loaded {h : NoffHeader} {file : List Byte} {sp : AddrSpace} {bm : Bitmap} {mem : Store}
      (hpc : th.pc = .at_ (.loadLocked h file))
      (hload : Nachos.loadLocked h file s.gPhysPageBitMap s.mainMemory = .ok sp bm mem) :
      Turn s t th .run
      ({ s.setThread t { th with pc := .at_ (.loadRet true), space := some sp } with
        gPhysPageBitMap := bm, mainMemory := mem }.v .addrLock)
  /-- the program starts -/
  | start (hpc : th.pc = .at_ (.loadRet true)) :
      Turn s t th .run (s.setThread t { th with pc := .at_ .user })
  /-- `ExecUpdate` is called -/
  | exec {name : Option CString} (hpc : th.pc = .at_ .user) :
      Turn s t th (.exec name) (s.setThread t { th with pc := .inP (.execLocked name) })
  /-- `ExecUpdate` returns -1 -/
  | refuse {name : Option CString} {found : Bool} (hpc : th.pc = .at_ (.execLocked name))
      (hd : s.execChecks th name found = some .refuse) :
      Turn s t th (.locked found) ((s.setThread t { th with pc := .at_ .user }).v .bmsem)
  /-- `ExecUpdate` gets a slot -/
  | alloc {name : Option CString} {found : Bool} {cur f : ℕ} {n : CString}
      (hpc : th.pc = .at_ (.execLocked name))
      (hd : s.execChecks th name found = some (.alloc cur f n)) : Turn s t th (.locked found)
        { s with
          bm := s.bm.findAndSet.1
          pcb := Function.update s.pcb f (some s.npcbs)
          pcbs := Function.update s.pcbs s.npcbs { PCB.new f t with parentID := cur }
          npcbs := s.npcbs + 1
          sem := newSems s.sem s.npcbs
          threads :=
            Function.update s.threads t (some { th with pc := .inP (.execPcb s.npcbs f n) }) }
  /-- `PCB::Exec` forks the thread -/
  | fork {p : Ptr} {f : ℕ} {name : CString} (hpc : th.pc = .at_ (.execPcb p f name)) :
      Turn s t th .run (s.execPcb t th p f name)
  /-- `PCB::Exec` returns -/
  | forked {p : Ptr} {f : ℕ} (hpc : th.pc = .at_ (.execForked p f)) :
      Turn s t th .run ((s.setThread t { th with pc := .at_ (.execDone p f) }).v (.mutex p))
  /-- `ExecUpdate` returns the pid -/
  | execDone {p : Ptr} {f : ℕ} (hpc : th.pc = .at_ (.execDone p f)) :
      Turn s t th .run (s.execDone t th p f)
  /-- `JoinUpdate` returns -1 -/
  | refuseJoin {id : ℤ} (hpc : th.pc = .at_ .user) : Turn s t th (.join id) s
  /-- `JoinUpdate` has passed its checks -/
  | join {cur id : ℕ} {q m : Ptr} (hpc : th.pc = .at_ .user)
      (hcur : s.getCurrentThreadId th = some (cur : ℤ))
      (hq : s.pcb id = some q) (hpar : (s.pcbs q).parentID = cur) (hm : s.pcb cur = some m) :
      Turn s t th (.join id) (s.setThread t { th with pc := .inP (.incNumWait cur id m) })
  /-- `IncNumWait` -/
  | incNumWait {cur id : ℕ} {m : Ptr} (hpc : th.pc = .at_ (.incNumWait cur id m)) : Turn s t th .run
      (((s.setPcb m { s.pcbs m with numwait := (s.pcbs m).numwait + 1 }).setThread t
        { th with pc := .at_ (.joinWait cur id) }).v (.mutex m))
  /-- `JoinWait` is called -/
  | joinWait {cur id : ℕ} {q : Ptr} (hpc : th.pc = .at_ (.joinWait cur id))
      (hq : s.pcb id = some q) :
      Turn s t th .run (s.setThread t { th with pc := .inP (.joinDec cur id q) })
  /-- `DecNumWait` is called -/
  | joinDec {cur id : ℕ} {q m : Ptr} (hpc : th.pc = .at_ (.joinDec cur id q))
      (hm : s.pcb cur = some m) :
      Turn s t th .run (s.setThread t { th with pc := .inP (.decNumWait id m) })
  /-- `DecNumWait` -/
  | decNumWait {id : ℕ} {m : Ptr} (hpc : th.pc = .at_ (.decNumWait id m)) : Turn s t th .run
      (((s.setPcb m { s.pcbs m with numwait := (s.pcbs m).numwait - 1 }).setThread t
        { th with pc := .at_ (.exitRelease id) }).v (.mutex m))
  /-- `ExitRelease` -/
  | exitRelease {id : ℕ} {q : Ptr} (hpc : th.pc = .at_ (.exitRelease id)) (hq : s.pcb id = some q) :
      Turn s t th .run ((s.setThread t { th with pc := .at_ (.joinRet id) }).v (.exitsem q))
  /-- `JoinUpdate` returns the status -/
  | joinRet {id : ℕ} {q : Ptr} (hpc : th.pc = .at_ (.joinRet id)) (hq : s.pcb id = some q) :
      Turn s t th .run (s.setThread t { th with
        pc := .at_ .user
        joins := (id, th.kids.lookup id, (s.pcbs q).exitcode) :: th.joins })
  /-- `ExitUpdate`, to `JoinRelease` -/
  | exit {e : ℤ} {cur : ℕ+} {q : Ptr} (hpc : th.pc = .at_ .user)
      (hcur : s.getCurrentThreadId th = some ((cur : ℕ) : ℤ)) (hq : s.pcb cur = some q) :
      Turn s t th (.exit e)
        (((s.setPcb q { s.pcbs q with exitcode := e }).setThread t
          { th with pc := .at_ (.exitWait cur), status := some e }).v (.joinsem q))
  /-- `ExitWait` is called -/
  | exitWait {cur : ℕ+} {q : Ptr} (hpc : th.pc = .at_ (.exitWait cur)) (hq : s.pcb cur = some q) :
      Turn s t th .run (s.setThread t { th with pc := .inP (.exitRemove cur q) })
  /-- `Remove` finds no PCB -/
  | unremoved {cur : ℕ+} {q : Ptr} (hpc : th.pc = .at_ (.exitRemove cur q))
      (hnone : s.pcb cur = none) :
      Turn s t th .run (s.setThread t { th with pc := .at_ .user })
  /-- `Remove` ends the thread -/
  | finish {cur : ℕ+} {q q' : Ptr} (hpc : th.pc = .at_ (.exitRemove cur q))
      (hq : s.pcb cur = some q')
      (hthread : (s.pcbs q').thread = some t) : Turn s t th .run
        { s.setThread t { th with pc := .finished } with
          bm := s.bm.clear cur
          current := none
          toBeDestroyed := some t }

variable {s s' : Kernel} {t : Tid} {th : Thread} {l : Label}

/-! ### System calls -/

/-- `ExecUpdate` gets a slot: the index is the one found for its own thread,
the slot is the first with a clear bit. -/
theorem execChecks_alloc {name : Option CString} {found : Bool} {cur f : ℕ} {n : CString}
    (h : s.execChecks th name found = some (.alloc cur f n)) :
    s.getCurrentThreadId th = some (cur : ℤ) ∧ f < s.bm.numBits ∧ s.bm.test f = false ∧
      (∀ j < f, s.bm.test j = true) ∧ s.bm.findAndSet.1 = s.bm.mark f := by
  unfold execChecks at h
  split at h
  · cases h
  · split at h
    · cases h
    · obtain ⟨c, hc, h⟩ := Option.bind_eq_some_iff.mp h
      split at h
      · cases h
      · rename_i h0
        obtain ⟨q, -, h⟩ := Option.bind_eq_some_iff.mp h
        obtain ⟨file, -, h⟩ := Option.map_eq_some_iff.mp h
        split at h
        · cases h
        · split at h
          · cases h
          · rename_i hfull
            rcases Bitmap.findAndSet_cases s.bm with ⟨i, hi, hlt, hclear, hmin⟩ | ⟨hi, -⟩
            · rw [hi] at h ⊢
              cases h
              exact ⟨by rw [Int.toNat_of_nonneg (not_lt.mp h0)]; exact hc, hlt, hclear, hmin, rfl⟩
            · rw [hi] at hfull
              exact absurd rfl hfull

theorem turn_of_execLocked {name : Option CString} {found : Bool}
    (hpc : th.pc = .at_ (.execLocked name)) (h : s.execLocked t th name found = some s') :
    Turn s t th (.locked found) s' := by
  obtain ⟨d, hd, rfl⟩ := Option.map_eq_some_iff.mp h
  cases d with
  | refuse => exact .refuse hpc hd
  | alloc cur f n => exact .alloc hpc hd

theorem turn_of_joinUpdate {id : ℤ} (hpc : th.pc = .at_ .user)
    (h : s.joinUpdate t th id = some s') :
    Turn s t th (.join id) s' := by
  obtain ⟨cur, hcur, h⟩ := Option.bind_eq_some_iff.mp h
  split at h
  · cases h
    exact .refuseJoin hpc
  · rename_i hex
    split at h
    · cases h
      exact .refuseJoin hpc
    · obtain ⟨q, hq, h⟩ := Option.bind_eq_some_iff.mp h
      split at h
      · cases h
        exact .refuseJoin hpc
      · rename_i hpar
        split at h
        · cases h
        · rename_i h0
          obtain ⟨m, hm, rfl⟩ := Option.map_eq_some_iff.mp h
          -- both indices are natural numbers
          obtain ⟨c, rfl⟩ := Int.eq_ofNat_of_zero_le (not_lt.mp h0)
          obtain ⟨i, rfl⟩ : ∃ i : ℕ, id = i := by
            apply Int.eq_ofNat_of_zero_le
            by_contra hneg
            simp [isExist, not_le.mp hneg] at hex
          exact .join hpc hcur hq (not_not.mp hpar) hm

theorem turn_of_exitUpdate {e : ℤ} (hpc : th.pc = .at_ .user) (h : s.exitUpdate t th e = some s') :
    Turn s t th (.exit e) s' := by
  obtain ⟨cur, hcur, h⟩ := Option.bind_eq_some_iff.mp h
  split_ifs at h with h0
  obtain ⟨q, hq, rfl⟩ := Option.map_eq_some_iff.mp h
  refine .exit hpc ?_ hq
  rw [PNat.mk_coe, Int.toNat_of_nonneg h0.le]
  exact hcur

/-! ### Every step -/

theorem turn_of_run (h : s.run t th = some s') : Turn s t th .run s' := by
  unfold run at h
  split at h
  · rename_i k hpc
    obtain ⟨x, hx, rfl⟩ := Option.map_eq_some_iff.mp h
    exact .pass hpc hx
  · rename_i hd file hpc
    unfold loadStep at h
    split at h
    · rename_i hload
      cases h
      exact .noMemory hpc hload
    · cases h
    · rename_i sp bm mem hload
      cases h
      exact .loaded hpc hload
  · rename_i ok hpc
    split_ifs at h with hok
    cases h
    exact .start (hok ▸ hpc)
  · rename_i p f name hpc
    cases h
    exact .fork hpc
  · rename_i p f hpc
    cases h
    exact .forked hpc
  · rename_i p f hpc
    cases h
    exact .execDone hpc
  · rename_i cur id m hpc
    cases h
    exact .incNumWait hpc
  · rename_i cur id hpc
    obtain ⟨q, hq, rfl⟩ := Option.map_eq_some_iff.mp h
    exact .joinWait hpc hq
  · rename_i cur id q hpc
    obtain ⟨m, hm, rfl⟩ := Option.map_eq_some_iff.mp h
    exact .joinDec hpc hm
  · rename_i id m hpc
    cases h
    exact .decNumWait hpc
  · rename_i id hpc
    obtain ⟨q, hq, rfl⟩ := Option.map_eq_some_iff.mp h
    exact .exitRelease hpc hq
  · rename_i id hpc
    obtain ⟨q, hq, rfl⟩ := Option.map_eq_some_iff.mp h
    exact .joinRet hpc hq
  · rename_i cur hpc
    obtain ⟨q, hq, rfl⟩ := Option.map_eq_some_iff.mp h
    exact .exitWait hpc hq
  · rename_i cur q hpc
    unfold remove at h
    split at h
    · rename_i hnone
      cases h
      exact .unremoved hpc hnone
    · rename_i q' hq
      split_ifs at h with hthread
      cases h
      exact .finish hpc hq hthread
  · cases h

/-- A step of the current thread is one of its turns. -/
theorem turn_of_stepOf (h : s.stepOf t th l = some s') : Turn s t th l s' := by
  unfold stepOf at h
  split at h
  · cases h
  · exact turn_of_run h
  · split at h
    · rename_i hpc
      obtain ⟨file, rfl, hb⟩ := Option.bind_eq_some_iff.mp h
      split_ifs at hb with hmagic
      cases hb
      exact .begin_ hpc (not_not.mp hmagic)
    · cases h
  · split at h
    · rename_i hpc
      exact turn_of_execLocked hpc h
    · cases h
  · split at h
    · rename_i hpc
      cases h
      exact .exec hpc
    · cases h
  · split at h
    · rename_i hpc
      exact turn_of_joinUpdate hpc h
    · cases h
  · split at h
    · rename_i hpc
      exact turn_of_exitUpdate hpc h
    · cases h

/-- A step is a switch or a turn of the current thread. -/
theorem step_cases (h : s.step l = some s') : (∃ k, l = .switch k ∧ s.switch k = some s') ∨
    ∃ t th, s.current = some t ∧ s.threads t = some th ∧ Turn s t th l s' := by
  cases l with
  | switch k => exact Or.inl ⟨k, rfl, h⟩
  | _ =>
    obtain ⟨t, ht, h⟩ := Option.bind_eq_some_iff.mp h
    obtain ⟨th, hth, h⟩ := Option.bind_eq_some_iff.mp h
    exact Or.inr ⟨t, th, ht, hth, turn_of_stepOf h⟩

/-- `Run` makes the thread the current one, and marks the thread that waits to be
destroyed, if there is one. -/
theorem dispatch_cases (s : Kernel) (u : Tid) :
    (∃ x, s.dispatch u = { s with toBeDestroyed := x, current := some u }) ∨
      ∃ d th, s.threads d = some th ∧ s.dispatch u =
        { s.setThread d { th with destroyed := true } with
          toBeDestroyed := none, current := some u } := by
  unfold dispatch checkToBeDestroyed
  split
  · exact Or.inl ⟨s.toBeDestroyed, rfl⟩
  · rename_i d hd
    cases ht : s.threads d with
    | none =>
      left
      have hf : Function.update s.threads d none = s.threads := by
        rw [Function.update_eq_self_iff, ht]
      exact ⟨none, by rw [Option.map_none, hf]⟩
    | some th => exact Or.inr ⟨d, th, ht, rfl⟩

/-- A switch takes one thread off the ready list and may put the current one
at its end. -/
theorem switch_cases {k : ℕ} (h : s.switch k = some s') : ∃ u, s.readyList[k]? = some u ∧
    ((s.current = none ∧ s' = dispatch { s with readyList := s.readyList.eraseIdx k } u) ∨
      ∃ t, s.current = some t ∧ s.mayYield t = true ∧
        s' = dispatch { s with readyList := s.readyList.eraseIdx k ++ [t] } u) := by
  obtain ⟨u, hu, h⟩ := Option.bind_eq_some_iff.mp h
  refine ⟨u, hu, ?_⟩
  split at h
  · rename_i hc
    exact Or.inl ⟨hc, (Option.some.inj h).symm⟩
  · rename_i t hc
    split_ifs at h with hy
    exact Or.inr ⟨t, hc, hy, (Option.some.inj h).symm⟩

end Kernel
end Nachos
