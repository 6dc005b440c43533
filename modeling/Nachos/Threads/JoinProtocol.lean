/-
# Exit and join, abstractly

The part of the process table that passes a status from a child to its
parent: `ExitUpdate` stores the status in the PCB it finds for itself and
raises `joinsem`; `JoinUpdate` passes its checks, waits on the `joinsem` of
`pcb[id]`, and in the end reads `pcb[id]` again. `Kernel.joinView` maps a
kernel to such a view, and every kernel step is one of its actions or none
(`Kernel.joinView_step`).

When names are fresh (`FreshName`) and no `ExecUpdate` takes a slot on which
a `JoinUpdate` is under way (`NoReuse`), what `JoinUpdate` returns to the
parent is the status of the child (`JInv.result`).

Key definitions: `JPhase`, `JoinView`, `JoinView.Step`, `JoinView.JInv`.
Key theorems: `JoinView.jinv_step`.
-/
import Mathlib
import Nachos.Threads.Identity

namespace Nachos

/-- How far a thread is in `JoinUpdate` or `ExitUpdate`. -/
inductive JPhase
  | none
  /-- the checks for slot `id` are passed -/
  | joining (id : ℕ)
  /-- in `P` of `joinsem` of `q` -/
  | waiting (id : ℕ) (q : Ptr)
  /-- past it -/
  | joined (id : ℕ)
  | exiting (cur : ℕ)
  | gone

/-- `JoinUpdate(id)` has passed its checks and has not returned. -/
def JPhase.InJoin : JPhase → ℕ → Prop
  | .joining i, id => i = id
  | .waiting i _, id => i = id
  | .joined i, id => i = id
  | _, _ => False

/-- `ExitUpdate` has been called. -/
def JPhase.Ended : JPhase → Prop
  | .exiting _ => True
  | .gone => True
  | _ => False

structure JoinView where
  table : ProcTable
  phase : Tid → JPhase
  exitcode : Ptr → ℤ
  joinsem : Ptr → ℤ
  status : Tid → Option ℤ
  kids : Tid → List (ℕ × Tid)
  joins : Tid → List (ℕ × Option Tid × ℤ)

namespace JoinView

def setPhase (w : JoinView) (t : Tid) (ph : JPhase) : JoinView :=
  { w with phase := Function.update w.phase t ph }

/-- The actions; those of the table carry its label. -/
inductive Step (w : JoinView) : Option ProcTable.Act → JoinView → Prop
  | lock {t : Tid} {v : ProcTable} (h : w.table.Step (.lock t) v) :
      Step w (some (.lock t)) { w with table := v }
  | unlock {t : Tid} {v : ProcTable} (h : w.table.Step (.unlock t) v) :
      Step w (some (.unlock t)) { w with table := v }
  | alloc {t : Tid} {cur f : ℕ} {name : CString} {v : ProcTable}
      (h : w.table.Step (.alloc t cur f name) v) :
      Step w (some (.alloc t cur f name)) { w with
        table := v
        exitcode := Function.update w.exitcode w.table.npcbs 0
        joinsem := Function.update w.joinsem w.table.npcbs 0 }
  | fork {t : Tid} {p : Ptr} {f : ℕ} {name : CString} {v : ProcTable}
      (h : w.table.Step (.fork t p f name) v) :
      Step w (some (.fork t p f name)) { w with table := v }
  | done {t : Tid} {p : Ptr} {f : ℕ} {v : ProcTable} (h : w.table.Step (.done t) v)
      (hst : w.table.stage t = .named p f) :
      Step w (some (.done t)) { w with
        table := v
        kids := Function.update w.kids t
          (((w.table.info p).thread.map fun c => (f, c)).toList ++ w.kids t) }
  | remove {t : Tid} {cur : ℕ} {v : ProcTable} (h : w.table.Step (.remove t cur) v) :
      Step w (some (.remove t cur)) ({ w with table := v }.setPhase t .gone)
  | join {t : Tid} {pr : Proc} {cur : ℤ} {id : ℕ} {q : Ptr} (hpr : w.table.threads t = some pr)
      (hst : w.table.stage t = .out) (hph : w.phase t = .none)
      (hcur : w.table.lookup pr.name = some cur)
      (hq : w.table.pcb id = some q) (hpar : (w.table.info q).parentID = cur) :
      Step w none (w.setPhase t (.joining id))
  | wait {t : Tid} {id : ℕ} {q : Ptr} (hph : w.phase t = .joining id)
      (hq : w.table.pcb id = some q) :
      Step w none (w.setPhase t (.waiting id q))
  | pass {t : Tid} {id : ℕ} {q : Ptr} (hph : w.phase t = .waiting id q) (hs : w.joinsem q ≠ 0) :
      Step w none
      { w.setPhase t (.joined id) with joinsem := Function.update w.joinsem q (w.joinsem q - 1) }
  | ret {t : Tid} {id : ℕ} {q : Ptr} (hph : w.phase t = .joined id) (hq : w.table.pcb id = some q) :
      Step w none { w.setPhase t .none with
        joins := Function.update w.joins t ((id, (w.kids t).lookup id, w.exitcode q) :: w.joins t) }
  | exit {t : Tid} {pr : Proc} {cur : ℕ} {q : Ptr} {e : ℤ} (hpr : w.table.threads t = some pr)
      (hst : w.table.stage t = .out) (hph : w.phase t = .none)
      (hcur : w.table.lookup pr.name = some (cur : ℤ))
      (hq : w.table.pcb cur = some q) :
      Step w none { w.setPhase t (.exiting cur) with
        exitcode := Function.update w.exitcode q e
        joinsem := Function.update w.joinsem q (w.joinsem q + 1)
        status := Function.update w.status t (some e) }
  | unexit {t : Tid} {cur : ℕ} (hph : w.phase t = .exiting cur) (hq : w.table.pcb cur = none) :
      Step w none (w.setPhase t .none)

/-- What shows of an action in the table. -/
theorem Step.table {w w' : JoinView} {a : Option ProcTable.Act} (h : Step w a w') :
    w'.table = w.table ∨ ∃ x, a = some x ∧ w.table.Step x w'.table := by
  cases h with
  | lock h => exact Or.inr ⟨_, rfl, h⟩
  | unlock h => exact Or.inr ⟨_, rfl, h⟩
  | alloc h => exact Or.inr ⟨_, rfl, h⟩
  | fork h => exact Or.inr ⟨_, rfl, h⟩
  | done h => exact Or.inr ⟨_, rfl, h⟩
  | remove h => exact Or.inr ⟨_, rfl, h⟩
  | join => exact Or.inl rfl
  | wait => exact Or.inl rfl
  | pass => exact Or.inl rfl
  | ret => exact Or.inl rfl
  | exit => exact Or.inl rfl
  | unexit => exact Or.inl rfl

/-- No `ExecUpdate` takes a slot on which a `JoinUpdate` is under way. -/
def NoReuse (w : JoinView) : ProcTable.Act → Prop
  | .alloc _ _ f _ => ∀ t, ¬ (w.phase t).InJoin f
  | _ => True

/-! ### The invariant -/

/-- Thread `c` exists and its PCB is in slot `id`. -/
def Holds (v : ProcTable) (id : ℕ) (c : Tid) : Prop :=
  ∃ pr, v.threads c = some pr ∧ v.pcb id = some pr.own

/-- The thread's own `ExecUpdate` is at work on slot `id`. -/
def ExecOn : Stage → ℕ → Prop
  | .alloc _ f _, id => f = id
  | .named _ f, id => f = id
  | _, _ => False

/-- The pid `id` the process `t` in slot `slot` got for its child `c`: the child
is still in the slot, or a process of another parent is, or one `t` is just
creating. -/
def KidOk (v : ProcTable) (t : Tid) (slot id : ℕ) (c : Tid) : Prop :=
  Holds v id c ∨ (∃ q, v.pcb id = some q ∧ (v.info q).parentID ≠ slot) ∨ ExecOn (v.stage t) id

structure JInv (w : JoinView) : Prop where
  exitcode : ∀ c pr e, w.table.threads c = some pr → w.status c = some e → w.exitcode pr.own = e
  ended : ∀ c, (w.status c).isSome → (w.phase c).Ended
  uncreated : ∀ t, w.table.threads t = none → w.status t = none ∧ w.kids t = []
  here : ∀ t cur, w.phase t = .exiting cur → (w.table.pcb cur).isSome
  sem : ∀ p < w.table.npcbs, w.joinsem p ≠ 0 → ∃ c pr, w.table.threads c = some pr ∧ pr.own = p ∧
    (w.status c).isSome
  kid : ∀ t pr, w.table.Live t pr → ∀ id c, (w.kids t).lookup id = some c →
    KidOk w.table t pr.slot id c
  joining : ∀ t id, (w.phase t).InJoin id → ∀ c, (w.kids t).lookup id = some c → Holds w.table id c
  waiting : ∀ t id q, w.phase t = .waiting id q → w.table.pcb id = some q
  joined : ∀ t id, w.phase t = .joined id → ∃ c, Holds w.table id c ∧ (w.status c).isSome
  result : ∀ t id c e, (id, some c, e) ∈ w.joins t → w.status c = some e

variable {w w' : JoinView} {v : ProcTable} {t u c : Tid} {pr : Proc} {id : ℕ}

theorem phase_update (w : JoinView) (t u : Tid) (ph : JPhase) :
    Function.update w.phase t ph u = if u = t then ph else w.phase u :=
  Function.update_apply _ _ _ _

/-- One thread goes to the phase `ph`, where it may be. -/
theorem JInv.setPhase (hJ : JInv w) (t : Tid) (ph : JPhase) (h1 : (w.status t).isSome → ph.Ended)
    (h2 : ∀ cur, ph = .exiting cur → (w.table.pcb cur).isSome)
    (h3 : ∀ id, ph.InJoin id → ∀ c, (w.kids t).lookup id = some c → Holds w.table id c)
    (h4 : ∀ id q, ph = .waiting id q → w.table.pcb id = some q)
    (h5 : ∀ id, ph = .joined id → ∃ c, Holds w.table id c ∧ (w.status c).isSome) :
    JInv (w.setPhase t ph) := by
  refine ⟨hJ.exitcode, fun u h => ?_, hJ.uncreated, fun u cur h => ?_, hJ.sem, hJ.kid,
    fun u id h => ?_, fun u id q h => ?_, fun u id h => ?_, hJ.result⟩
  all_goals simp only [JoinView.setPhase, phase_update] at h ⊢
  · split_ifs with hu
    · exact h1 (hu ▸ h)
    · exact hJ.ended u h
  all_goals split_ifs at h with hu
  · exact h2 cur h
  · exact hJ.here u cur h
  · rw [hu]; exact h3 id h
  · exact hJ.joining u id h
  · exact h4 id q h
  · exact hJ.waiting u id q h
  · exact h5 id h
  · exact hJ.joined u id h

/-- A table action that allocates no slot and ends no `ExecUpdate`: threads may
be added, the entries keep their parents. -/
structure Keeps (v v' : ProcTable) : Prop where
  pcb : v'.pcb = v.pcb
  npcbs : v'.npcbs = v.npcbs
  parent : ∀ q, (v'.info q).parentID = (v.info q).parentID
  threads : ∀ t pr, v.threads t = some pr → v'.threads t = some pr
  old : ∀ t pr, v'.threads t = some pr → v.threads t = some pr ∨ v.threads t = none
  live : ∀ t pr, v'.Live t pr → v.Live t pr ∨ v.threads t = none
  execOn : ∀ t id, ExecOn (v.stage t) id → ExecOn (v'.stage t) id

theorem Keeps.holds (hK : Keeps w.table v) (h : Holds w.table id c) : Holds v id c := by
  obtain ⟨pr, h1, h2⟩ := h
  exact ⟨pr, hK.threads c pr h1, by rw [hK.pcb]; exact h2⟩

theorem JInv.keeps (hJ : JInv w) (hK : Keeps w.table v) : JInv { w with table := v } := by
  refine
    { exitcode := fun c pr e hc hs => ?_
      ended := hJ.ended
      uncreated := fun t ht => hJ.uncreated t ?_
      here := fun t cur h => ?_
      sem := fun p hp h => ?_
      kid := fun t pr hl id c hk => ?_
      joining := fun t id h c hk => hK.holds (hJ.joining t id h c hk)
      waiting := fun t id q h => ?_
      joined := fun t id h => ?_
      result := hJ.result }
  · rcases hK.old c pr hc with h | h
    · exact hJ.exitcode c pr e h hs
    · have := (hJ.uncreated c h).1
      simp only at hs
      rw [this] at hs; cases hs
  · by_contra hc
    obtain ⟨pr, h⟩ := Option.ne_none_iff_exists'.mp hc
    simp only at ht
    rw [hK.threads t pr h] at ht; cases ht
  · show (v.pcb cur).isSome
    rw [hK.pcb]
    exact hJ.here t cur h
  · simp only [hK.npcbs] at hp
    obtain ⟨c, pr, h1, h2⟩ := hJ.sem p hp h
    exact ⟨c, pr, hK.threads c pr h1, h2⟩
  · rcases hK.live t pr hl with hl | hn
    · rcases hJ.kid t pr hl id c hk with h | ⟨q, h1, h2⟩ | h
      · exact Or.inl (hK.holds h)
      · refine Or.inr (Or.inl ⟨q, ?_, ?_⟩)
        · show v.pcb id = some q
          rw [hK.pcb]; exact h1
        · show (v.info q).parentID ≠ pr.slot
          rw [hK.parent]; exact h2
      · exact Or.inr (Or.inr (hK.execOn t id h))
    · have := (hJ.uncreated t hn).2
      simp only at hk
      rw [this] at hk; cases hk
  · show v.pcb id = some q
    rw [hK.pcb]
    exact hJ.waiting t id q h
  · obtain ⟨c, h1, h2⟩ := hJ.joined t id h
    exact ⟨c, hK.holds h1, h2⟩

theorem execOn_update {st : Stage} (h : ∀ id, ¬ ExecOn (v.stage t) id)
    (hu : ExecOn (v.stage u) id) :
    ExecOn (Function.update v.stage t st u) id := by
  rw [ProcTable.stage_update, if_neg]
  · exact hu
  · rintro rfl
    exact h id hu

theorem Keeps.of_quiet {v' : ProcTable} (hq : ProcTable.Quiet v v') (hn : v'.npcbs = v.npcbs)
    (he : ∀ t id, ExecOn (v.stage t) id → ExecOn (v'.stage t) id) : Keeps v v' := by
  refine ⟨hq.pcb, hn, fun q => by rw [hq.info], fun t pr h => by rw [hq.threads]; exact h,
    fun t pr h => ?_, fun t pr h => Or.inl (hq.live t pr h), he⟩
  rw [hq.threads] at h
  exact Or.inl h

theorem Keeps.fork (hB : v.Base) {p : Ptr} {f : ℕ} {name : CString} {v' : ProcTable}
    (h : v.Step (.fork t p f name) v') :
    Keeps v v' := by
  cases h with
  | fork hst =>
    have hnew := hB.static.next_none
    refine ⟨rfl, rfl, fun q => ?_, fun u pr hu => ?_, fun u pr hu => ?_, fun u pr hl => ?_,
      fun u id hu => ?_⟩
    · simp only [Function.update_apply]
      split_ifs with hq
      · rw [hq]
      · rfl
    · simp only [Function.update_apply]
      rw [if_neg, hu]
      rintro rfl
      rw [hnew] at hu; cases hu
    · simp only [Function.update_apply] at hu
      split_ifs at hu with h
      · exact Or.inr (h ▸ hnew)
      · exact Or.inl hu
    · obtain ⟨h1, h2⟩ := hl
      simp only [Function.update_apply] at h1
      split_ifs at h1 with h
      · exact Or.inr (h ▸ hnew)
      · exact Or.inl ⟨h1, (ProcTable.live_update (by rw [hst]; simp) (by simp)).mp h2⟩
    · simp only [ProcTable.stage_update]
      split_ifs with h
      · rw [h, hst] at hu
        exact hu
      · exact hu

/-- `psize++`: the pid is the caller's. -/
theorem JInv.done (hB : w.table.Base) (hJ : JInv w) {p : Ptr} {f : ℕ}
    (hst : w.table.stage t = .named p f) (h : w.table.Step (.done t) v) : JInv { w with
      table := v
      kids := Function.update w.kids t
        (((w.table.info p).thread.map fun c => (f, c)).toList ++ w.kids t) } := by
  obtain ⟨hpcb, hsome⟩ := hB.staged.named t p f hst
  obtain ⟨c, hc⟩ := Option.isSome_iff_exists.mp hsome
  obtain ⟨prc, hprc, hown⟩ := hB.static.thread p c (hB.static.entry f p hpcb).1 hc
  have hkids : ∀ u id c', (Function.update w.kids t
      (((w.table.info p).thread.map fun c => (f, c)).toList ++ w.kids t) u).lookup id = some c' →
      (id = f ∧ u = t ∧ c' = c) ∨ ((u = t → id ≠ f) ∧ (w.kids u).lookup id = some c') := by
    intro u id c' hk
    rw [Function.update_apply, hc] at hk
    split_ifs at hk with hu
    · simp only [Option.map_some, Option.toList_some, List.cons_append, List.nil_append,
        List.lookup_cons] at hk
      split at hk
      · rename_i hid
        exact Or.inl ⟨by simpa using hid, hu, (Option.some.inj hk).symm⟩
      · rename_i hid
        exact Or.inr ⟨fun _ => by simpa using hid, hu ▸ hk⟩
    · exact Or.inr ⟨fun h => absurd h hu, hk⟩
  have hhere : Holds w.table f c := ⟨prc, hprc, by rw [hown]; exact hpcb⟩
  cases h with
  | done hst' =>
    refine
      { exitcode := hJ.exitcode
        ended := hJ.ended
        uncreated := fun u hu => ?_
        here := hJ.here
        sem := hJ.sem
        kid := fun u pr hl id c' hk => ?_
        joining := fun u id h c' hk => ?_
        waiting := hJ.waiting
        joined := hJ.joined
        result := hJ.result }
    · obtain ⟨h1, h2⟩ := hJ.uncreated u hu
      refine ⟨h1, ?_⟩
      show Function.update w.kids t _ u = []
      rw [Function.update_of_ne, h2]
      rintro rfl
      have := hB.staged.idle u hu
      rw [hst] at this; cases this
    · rcases hkids u id c' hk with ⟨rfl, -, rfl⟩ | ⟨hne, hk⟩
      · exact Or.inl hhere
      · have hl' : w.table.Live u pr :=
          ⟨hl.1, (ProcTable.live_update (by rw [hst]; simp) (by simp)).mp hl.2⟩
        rcases hJ.kid u pr hl' id c' hk with h | h | h
        · exact Or.inl h
        · exact Or.inr (Or.inl h)
        · refine Or.inr (Or.inr ?_)
          simp only [ProcTable.stage_update]
          rw [if_neg]
          · exact h
          · rintro rfl
            rw [hst] at h
            exact hne rfl h.symm
    · rcases hkids u id c' hk with ⟨rfl, -, rfl⟩ | ⟨-, hk⟩
      · exact hhere
      · exact hJ.joining u id h c' hk

/-- A slot and a PCB are allocated. -/
theorem JInv.alloc (hB : w.table.Base) (hN : w.table.Named) (hJ : JInv w) {cur f : ℕ}
    {name : CString} (hR : NoReuse w (.alloc t cur f name))
    (h : w.table.Step (.alloc t cur f name) v) : JInv { w with
      table := v
      exitcode := Function.update w.exitcode w.table.npcbs 0
      joinsem := Function.update w.joinsem w.table.npcbs 0 } := by
  cases h with
  | @alloc _ prt _ _ _ hpr hst hcur hlt hf hmin =>
    have hcur' : (cur : ℤ) = prt.slot := hN.lookup_eq hB ⟨hpr, by rw [hst]; simp⟩ hcur
    have hpcb : ∀ i ≠ f, Function.update w.table.pcb f (some w.table.npcbs) i = w.table.pcb i :=
      fun i hi => Function.update_of_ne hi _ _
    have hholds : ∀ i c, i ≠ f → Holds w.table i c →
        ∃ pr, w.table.threads c = some pr ∧ Function.update w.table.pcb f (some w.table.npcbs)
        i = some pr.own := by
      rintro i c hi ⟨pr, h1, h2⟩
      exact ⟨pr, h1, by rw [hpcb i hi]; exact h2⟩
    refine
      { exitcode := fun c pr e hc hs => ?_
        ended := hJ.ended
        uncreated := hJ.uncreated
        here := fun u cur' h => ?_
        sem := fun p hp h => ?_
        kid := fun u pr hl id c hk => ?_
        joining := fun u id h c hk => ?_
        waiting := fun u id q h => ?_
        joined := fun u id h => ?_
        result := hJ.result }
    · have := (hB.static.own c pr hc).1
      show Function.update w.exitcode w.table.npcbs 0 pr.own = e
      rw [Function.update_of_ne (Nat.ne_of_lt this)]
      exact hJ.exitcode c pr e hc hs
    · simp only [Function.update_apply]
      split_ifs
      · rfl
      · exact hJ.here u cur' h
    · rcases Nat.lt_succ_iff_lt_or_eq.mp hp with hp | rfl
      · simp only [Function.update_of_ne (Nat.ne_of_lt hp)] at h
        exact hJ.sem p hp h
      · simp at h
    · have hl' : w.table.Live u pr :=
        ⟨hl.1, (ProcTable.live_update (by rw [hst]; simp) (by simp)).mp hl.2⟩
      by_cases hid : id = f
      · by_cases hu : u = t
        · refine Or.inr (Or.inr ?_)
          simp only [hu, Function.update_self]
          exact hid.symm
        · -- another process's child is in the slot now
          refine Or.inr (Or.inl ⟨w.table.npcbs, by simp [hid], ?_⟩)
          simp only [Function.update_self]
          rw [hcur']
          intro he
          have hs : prt.slot = pr.slot := by exact_mod_cast he
          exact hu (hB.slot_inj ⟨hpr, by rw [hst]; simp⟩ hl' hs).symm
      · rcases hJ.kid u pr hl' id c hk with h | ⟨q, h1, h2⟩ | h
        · exact Or.inl (hholds id c hid h)
        · refine Or.inr (Or.inl ⟨q, by simp only [hpcb id hid]; exact h1, ?_⟩)
          simp only [Function.update_of_ne (Nat.ne_of_lt (hB.static.entry id q h1).1)]
          exact h2
        · exact Or.inr (Or.inr (execOn_update (by rw [hst]; exact fun _ h => h) h))
    · refine hholds id c ?_ (hJ.joining u id h c hk)
      rintro rfl
      exact hR u h
    · show Function.update w.table.pcb f _ id = some q
      rw [hpcb id, hJ.waiting u id q h]
      rintro rfl
      apply hR u
      rw [show w.phase u = .waiting id q from h]
      rfl
    · obtain ⟨c, h1, h2⟩ := hJ.joined u id h
      refine ⟨c, hholds id c ?_ h1, h2⟩
      rintro rfl
      apply hR u
      rw [show w.phase u = .joined id from h]
      rfl

/-- The checks of `JoinUpdate` are passed: the child, if the pid is one the
caller got, is in the slot. -/
theorem JInv.join (hB : w.table.Base) (hN : w.table.Named) (hJ : JInv w) {cur : ℤ} {q : Ptr}
    (hpr : w.table.threads t = some pr) (hst : w.table.stage t = .out) (hph : w.phase t = .none)
    (hcur : w.table.lookup pr.name = some cur) (hq : w.table.pcb id = some q)
    (hpar : (w.table.info q).parentID = cur) : JInv (w.setPhase t (.joining id)) := by
  have hl : w.table.Live t pr := ⟨hpr, by rw [hst]; simp⟩
  refine hJ.setPhase t (.joining id) (fun h => ?_) (by simp) (fun i hi c hk => ?_)
    (by simp) (by simp)
  · have := hJ.ended t h
    rw [hph] at this
    exact this
  · have hi : id = i := hi
    subst hi
    rcases hJ.kid t pr hl id c hk with h | ⟨q', h1, h2⟩ | h
    · exact h
    · rw [hq] at h1
      cases h1
      exact absurd (hpar.trans (hN.lookup_eq hB hl hcur)) h2
    · rw [hst] at h
      exact h.elim

/-- `JoinWait` returns: a unit of the `joinsem` is from the exit of the PCB's
own thread. -/
theorem JInv.pass (hB : w.table.Base) (hJ : JInv w) {q : Ptr} (hph : w.phase t = .waiting id q)
    (hs : w.joinsem q ≠ 0) :
    JInv { w.setPhase t (.joined id) with
      joinsem := Function.update w.joinsem q (w.joinsem q - 1) } := by
  have hq := hJ.waiting t id q hph
  have h := hJ.setPhase t (.joined id) (fun h => ?_) (by simp) (fun i hi c hk => ?_) (by simp)
    (fun i hi => ?_)
  · refine ⟨h.exitcode, h.ended, h.uncreated, h.here, fun p hp hne => ?_, h.kid, h.joining,
      h.waiting, h.joined, h.result⟩
    by_cases hpq : p = q
    · exact h.sem p hp (by rw [hpq]; exact hs)
    · simp only [Function.update_of_ne hpq] at hne
      exact h.sem p hp hne
  · have := hJ.ended t h
    rw [hph] at this
    exact this.elim
  · exact hJ.joining t i (by rw [hph]; exact hi) c hk
  · cases hi
    obtain ⟨c, pr, h1, h2, h3⟩ := hJ.sem q (hB.static.entry id q hq).1 hs
    exact ⟨c, ⟨pr, h1, by rw [h2]; exact hq⟩, h3⟩

/-- `JoinUpdate` returns. -/
theorem JInv.ret (hB : w.table.Base) (hJ : JInv w) {q : Ptr} (hph : w.phase t = .joined id)
    (hq : w.table.pcb id = some q) : JInv { w.setPhase t .none with
      joins :=
  Function.update w.joins t ((id, (w.kids t).lookup id, w.exitcode q) :: w.joins t) } := by
  have h := hJ.setPhase t .none (fun h => ?_) (by simp) (fun i hi => hi.elim) (by simp) (by simp)
  · refine ⟨h.exitcode, h.ended, h.uncreated, h.here, h.sem, h.kid, h.joining, h.waiting, h.joined,
      fun u i c e hmem => ?_⟩
    simp only [Function.update_apply] at hmem
    split_ifs at hmem with hu
    · rcases List.mem_cons.mp hmem with heq | hmem
      · -- the child of the pid and the thread whose exit was waited for are one
        simp only [Prod.mk.injEq] at heq
        obtain ⟨rfl, hk, rfl⟩ := heq
        obtain ⟨pr, h1, h2⟩ := hJ.joining t i (by rw [hph]; rfl) c hk.symm
        obtain ⟨c', ⟨pr', h1', h2'⟩, h3⟩ := hJ.joined t i hph
        rw [h2'] at h2
        have hcc : c' = c := hB.own_inj h1' h1 (Option.some.inj h2)
        rw [hcc] at h3
        obtain ⟨e, he⟩ := Option.isSome_iff_exists.mp h3
        rw [hcc, h1] at h1'
        cases h1'
        rw [hq] at h2'
        rw [Option.some.inj h2', hJ.exitcode c pr e h1 he]
        exact he
      · exact hJ.result u i c e (hu ▸ hmem)
    · exact hJ.result u i c e hmem
  · have := hJ.ended t h
    rw [hph] at this
    exact this.elim

/-- `ExitUpdate` stores the status in the PCB of its own thread. -/
theorem JInv.exit (hB : w.table.Base) (hN : w.table.Named) (hJ : JInv w) {cur : ℕ} {q : Ptr} {e : ℤ}
    (hpr : w.table.threads t = some pr) (hst : w.table.stage t = .out) (hph : w.phase t = .none)
    (hcur : w.table.lookup pr.name = some (cur : ℤ)) (hq : w.table.pcb cur = some q) :
    JInv { w.setPhase t (.exiting cur) with
      exitcode := Function.update w.exitcode q e
      joinsem := Function.update w.joinsem q (w.joinsem q + 1)
      status := Function.update w.status t (some e) } := by
  have hl : w.table.Live t pr := ⟨hpr, by rw [hst]; simp⟩
  have hslot : cur = pr.slot := by exact_mod_cast hN.lookup_eq hB hl hcur
  have hown : q = pr.own := by
    have := (hB.staged.live t pr hl).2
    rw [← hslot, hq] at this
    exact Option.some.inj this
  have hnone : w.status t = none := by
    by_contra hc
    have := hJ.ended t (Option.isSome_iff_ne_none.mpr hc)
    rw [hph] at this
    exact this
  have hstat : ∀ c, (w.status c).isSome → (Function.update w.status t (some e) c).isSome := by
    intro c h
    rw [Function.update_apply]
    split_ifs
    · rfl
    · exact h
  have h :=
    hJ.setPhase t (.exiting cur) (fun _ => trivial) ?_ (fun i hi => hi.elim) (by simp) (by simp)
  · refine
      { exitcode := fun c prc e' hc hs => ?_
        ended := fun c hc => ?_
        uncreated := fun u hu => ?_
        here := h.here
        sem := fun p hp hne => ?_
        kid := h.kid
        joining := h.joining
        waiting := h.waiting
        joined := fun u i hi => ?_
        result := fun u i c e' hmem => ?_ }
    · simp only [Function.update_apply] at hs ⊢
      split_ifs at hs with hct
      · cases hs
        have hc' : w.table.threads c = some prc := hc
        rw [hct, hpr] at hc'
        cases hc'
        rw [if_pos hown.symm]
      · rw [if_neg]
        · exact hJ.exitcode c prc e' hc hs
        · intro he
          exact hct (hB.own_inj hc hpr (he.trans hown))
    · by_cases hct : c = t
      · simp only [JoinView.setPhase, hct, Function.update_self]
        trivial
      · simp only [Function.update_of_ne hct] at hc
        exact h.ended c hc
    · have hut : u ≠ t := by
        rintro rfl
        have hu' : w.table.threads u = none := hu
        rw [hpr] at hu'; cases hu'
      simp only [Function.update_of_ne hut]
      exact hJ.uncreated u hu
    · by_cases hpq : p = q
      · exact ⟨t, pr, hpr, hown.symm.trans hpq.symm, by simp⟩
      · simp only [Function.update_of_ne hpq] at hne
        obtain ⟨c, prc, h1, h2, h3⟩ := hJ.sem p hp hne
        exact ⟨c, prc, h1, h2, hstat c h3⟩
    · obtain ⟨c, h1, h2⟩ := h.joined u i hi
      exact ⟨c, h1, hstat c h2⟩
    · have := hJ.result u i c e' hmem
      have hct : c ≠ t := by
        rintro rfl
        rw [hnone] at this; cases this
      simp only [Function.update_of_ne hct]
      exact this
  · intro cur' hc
    cases hc
    rw [hq]
    rfl

theorem jinv_step {a : Option ProcTable.Act} (hB : w.table.Base) (hN : w.table.Named) (hJ : JInv w)
    (hR : ∀ x, a = some x → NoReuse w x) (h : Step w a w') : JInv w' := by
  cases h with
  | lock h =>
    cases h with
    | lock ht hst hs =>
      exact hJ.keeps (.of_quiet (.of_stage (by rw [hst]; simp) (by simp) rfl rfl rfl rfl) rfl
        fun _ _ => execOn_update (by rw [hst]; exact fun _ h => h))
  | unlock h =>
    cases h with
    | unlock hst =>
      exact hJ.keeps (.of_quiet (.of_stage (by rw [hst]; simp) (by simp) rfl rfl rfl rfl) rfl
        fun _ _ => execOn_update (by rw [hst]; exact fun _ h => h))
  | alloc h => exact hJ.alloc hB hN (hR _ rfl) h
  | fork h => exact hJ.keeps (.fork hB h)
  | done h hst => exact hJ.done hB hst h
  | @remove t cur v h =>
    have hK : Keeps w.table v := by
      cases h with
      | remove hst h0 hq hthr =>
        exact .of_quiet (.of_stage (by rw [hst]; simp) (by simp) rfl rfl rfl rfl) rfl
          fun _ _ => execOn_update (by rw [hst]; exact fun _ h => h)
    exact (hJ.keeps hK).setPhase t .gone (fun _ => trivial) (by simp) (fun i hi => hi.elim)
      (by simp) (by simp)
  | join hpr hst hph hcur hq hpar => exact hJ.join hB hN hpr hst hph hcur hq hpar
  | @wait t i q hph hq =>
    refine hJ.setPhase t (.waiting i q) (fun h => ?_) (by simp) (fun i hi c hk => ?_)
      (fun i q' h => ?_) (by simp)
    · have := hJ.ended t h
      rw [hph] at this
      exact this.elim
    · exact hJ.joining t i (by rw [hph]; exact hi) c hk
    · cases h
      exact hq
  | pass hph hs => exact hJ.pass hB hph hs
  | ret hph hq => exact hJ.ret hB hph hq
  | exit hpr hst hph hcur hq => exact hJ.exit hB hN hpr hst hph hcur hq
  | unexit hph hq =>
    have := hJ.here _ _ hph
    rw [hq] at this
    cases this

end JoinView
end Nachos
