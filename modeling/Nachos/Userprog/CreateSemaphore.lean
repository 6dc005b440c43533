/-
# What CreateSemaphore reports (`userprog/ksyscall.h`, `threads/stable.cc`)

`STable::Create` returns 0 when it has added a semaphore and -1 when it has not.
`SysCreateSemaphore` tests that with `result=-1`, an assignment, and so returns
-1 in every case: it reports right just when nothing is added (the name is empty,
or is in the table, or the table is full).

`SemCalls` has any number of threads in the three system calls, and the names for
which a `CreateSemaphore` has returned 0. `Wait` and `Signal` know these names and
no others just in the runs in which no call has added a semaphore
(`SemCalls.grantsUsable_iff`).

Key definitions: `sysCreateSemaphore`, `SemCalls.step`, `ReportsRight`, `Usable`,
`SemCalls.NothingNew`.
Key theorems: `reportsRight_iff`, `SemCalls.create_reports_iff`.
-/
import Mathlib
import Nachos.Base.Runs
import Nachos.Threads.STable
import Nachos.Threads.UserSemaphore
import Nachos.Userprog.UserMemory
import Nachos.Userprog.HostFiles
import Nachos.Userprog.Ksyscall
import Nachos.Userprog.Transfer
import Nachos.Userprog.Names

namespace Nachos

open Bytes (Byte Store)

/-! ### The call -/

/-- The name of `SysCreateSemaphore`, `SysWait` and `SysSignal`. -/
def semaphoreName (u : UserMem) (virtAddr : BitVec 32) : Except SysStop (List Byte) :=
  nameWithin u virtAddr maxFileLength

/-- `SysCreateSemaphore`. -/
def sysCreateSemaphore (T : STable) (u : UserMem) (virtAddr semval : BitVec 32) :
    Except SysStop (Option (STable × ℤ)) :=
  (semaphoreName u virtAddr).map fun name => T.sysCreateSemaphore name semval

theorem length_copyIn (mem : Store) (n : ℕ) :
    ∀ (pt pt' : PageTable) (a : BitVec 32) (l : List Byte),
    copyIn mem pt a n = .ok (l, pt') → l.length ≤ n := by
  induction n with
  | zero =>
    intro pt pt' a l h
    cases h
    exact le_refl _
  | succ n ih =>
    intro pt pt' a l h
    rw [copyIn] at h
    cases hread : readMem mem pt a .byte with
    | error e =>
      rw [hread] at h
      cases h
    | ok r =>
      rw [hread] at h
      simp only at h
      split_ifs at h
      · cases h
        simp
      · cases hrest : copyIn mem r.2 (a + 1) n with
        | error e =>
          rw [hrest] at h
          cases h
        | ok r' =>
          rw [hrest] at h
          cases h
          have := ih r.2 r'.2 (a + 1) r'.1 hrest
          rw [List.length_cons]
          omega

/-- What can be read of a user's memory as a name. -/
theorem userString_of_name {u : UserMem} {v : BitVec 32} {name : List Byte}
    (h : semaphoreName u v = .ok name) :
    name.length ≤ 32 ∧ 0 ∉ name := by
  unfold semaphoreName nameWithin user2System at h
  rw [if_neg (by decide)] at h
  cases hcopy : copyIn u.mem u.pageTable v maxFileLength.toNat with
  | error e =>
    rw [hcopy] at h
    cases h
  | ok r =>
    rw [hcopy] at h
    cases h
    have hlen := length_copyIn u.mem maxFileLength.toNat u.pageTable r.2 v r.1 hcopy
    rw [show maxFileLength.toNat = 32 from rfl] at hlen
    have hzeros : List.replicate ((maxFileLength + 1).toNat - r.1.length) (0 : Byte) =
        0 :: List.replicate (32 - r.1.length) 0 := by
      rw [show (maxFileLength + 1).toNat - r.1.length = 32 - r.1.length + 1 by
        rw [show (maxFileLength + 1).toNat = 33 from rfl]
        omega]
      rfl
    simp only [hzeros]
    constructor
    · by_cases h0 : (0 : Byte) ∈ r.1
      · rw [FileDescriptor.cstr_of_zero h0]
        exact (List.takeWhile_prefix _).length_le.trans hlen
      · rw [FileDescriptor.cstr_append_zero fun b hb hb0 => h0 (hb0 ▸ hb)]
        exact hlen
    · intro h0
      have hne := List.mem_takeWhile_imp (p := fun b : Byte => decide (b ≠ 0)) h0
      exact absurd rfl (of_decide_eq_true hne)

/-! ### One call -/

/-- A name for which `Create` would add a semaphore. -/
def IsNew (T : STable) (name : CString) : Prop :=
  name ≠ [] ∧ T.lookup name = none ∧ T.names.length < maxSemaphore

instance (T : STable) (name : CString) : Decidable (IsNew T name) :=
  inferInstanceAs (Decidable (_ ∧ _))

/-- The call has added a semaphore with this name. -/
def Added (T T' : STable) (name : CString) (semval : BitVec 32) : Prop :=
  T.lookup name = none ∧ T'.lookup = Function.update T.lookup name
    (some (Semaphore.new semval.toInt))

/-- `SysCreateSemaphore` returns 0 just when it has added the semaphore, and -1
just when the table is as it was. -/
def ReportsRight (T : STable) (u : UserMem) (v semval : BitVec 32) (name : CString) : Prop :=
  ∃ T' r, sysCreateSemaphore T u v semval = .ok (some (T', r)) ∧ (r = 0 ↔ Added T T' name semval) ∧
    (r = -1 ↔ T' = T)

theorem not_added_self (T : STable) (name : CString) (semval : BitVec 32) :
    ¬ Added T T name semval := by
  rintro ⟨hnone, hmap⟩
  have h := congrFun hmap name
  rw [hnone, Function.update_self] at h
  cases h

/-- **What the call does**: it adds a new name, changes nothing for another, and
returns -1 for both. -/
theorem sysCreateSemaphore_cases {T : STable} (hI : T.Inv) (name : UserString)
    (semval : BitVec 32) :
    ∃ T', T.sysCreateSemaphore name.1 semval = some (T', -1) ∧
      (IsNew T name.1 → Added T T' name.1 semval) ∧ (¬ IsNew T name.1 → T' = T) := by
  unfold STable.sysCreateSemaphore
  by_cases hempty : name.1 = []
  · rw [if_pos (by rw [hempty]; rfl)]
    exact ⟨T, rfl, fun h => absurd hempty h.1, fun _ => rfl⟩
  · rw [if_neg fun h => hempty (List.length_eq_zero_iff.mp h)]
    obtain ⟨T', ret, hcreate, hzero, hadds, hfails⟩ := SemSys.refinesMap_create hI name semval
    rw [hcreate]
    refine ⟨T', rfl, fun hnew => ⟨hnew.2.1, hadds (hzero.mpr hnew.2)⟩,
      fun hnot => (hfails fun h0 => ?_).2⟩
    exact hnot ⟨hempty, hzero.mp h0⟩

theorem reportsRight_iff {T : STable} (hI : T.Inv) {u : UserMem} {v : BitVec 32} {name : CString}
    (hname : semaphoreName u v = .ok name) (semval : BitVec 32) :
    ReportsRight T u v semval name ↔ ¬ IsNew T name := by
  obtain ⟨T', hcall, hnew, hold⟩ :=
    sysCreateSemaphore_cases hI ⟨name, userString_of_name hname⟩ semval
  have hsys : sysCreateSemaphore T u v semval = .ok (some (T', -1)) := by
    unfold sysCreateSemaphore
    rw [hname]
    exact congrArg Except.ok hcall
  constructor
  · rintro ⟨T₁, r, hc, hzero, -⟩ hn
    rw [hsys] at hc
    cases hc
    exact absurd (hzero.mpr (hnew hn)) (by decide)
  · intro hn
    obtain rfl := hold hn
    exact ⟨T', -1, hsys, iff_of_false (by decide) (not_added_self T' name semval),
      iff_of_true rfl rfl⟩

/-! ### Sequences of calls -/

/-- `Wait` and `Signal` know the name. -/
def Usable (T : STable) (name : UserString) : Prop :=
  (∀ t, ∃ T' r, T.wait t name.1 = some (T', r) ∧ r ≠ some (-1)) ∧
    ∃ T' woken, T.signal name.1 = some (T', 0, woken)

theorem usable_iff {T : STable} (hI : T.Inv) (name : UserString) :
    Usable T name ↔ T.lookup name.1 ≠ none := by
  obtain ⟨T₁, r₁, woken, hsignal, habsent, -, hpresent⟩ := SemSys.refinesMap_signal hI name.1
  constructor
  · rintro ⟨-, T', woken', hc⟩ hnone
    rw [hsignal] at hc
    cases hc
    exact absurd (habsent.mpr hnone) (by decide)
  · intro hne
    refine ⟨fun t => ?_, ?_⟩
    · obtain ⟨T', r, hwait, hminus, -⟩ := SemSys.refinesMap_wait hI t name.1
      exact ⟨T', r, hwait, fun h => hne (hminus.mp h)⟩
    · obtain ⟨sem, hsem⟩ := Option.ne_none_iff_exists'.mp hne
      obtain ⟨rfl, -⟩ := hpresent sem hsem
      exact ⟨T₁, woken, hsignal⟩

/-- The table and its threads, and the names for which a `CreateSemaphore` has
returned 0. -/
structure SemCalls where
  sys : SemSys
  granted : List CString

namespace SemCalls

/-- The system calls, and a later pass of a `Wait`. -/
inductive Call
  | create (name : UserString) (semval : BitVec 32)
  | wait (t : Tid) (name : UserString)
  | resume (t : Tid)
  | signal (name : UserString)

def Call.label : Call → SemSys.Label
  | .create name semval => .sysCreate name semval
  | .wait t name => .wait t name
  | .resume t => .resume t
  | .signal name => .signal name

/-- The names after a call. -/
def grants (s : SemCalls) : Call → List CString
  | .create name semval =>
    if (s.sys.tab.sysCreateSemaphore name.1 semval).map Prod.snd = some 0 then name.1 :: s.granted
    else s.granted
  | _ => s.granted

def step (s : SemCalls) (c : Call) : Option SemCalls :=
  (s.sys.step c.label).map fun sys => ⟨sys, s.grants c⟩

def initial : SemCalls := ⟨SemSys.initial, []⟩

/-- The call adds no semaphore. -/
def NothingNew (s : SemCalls) : Call → Prop
  | .create name _ => ¬ IsNew s.sys.tab name.1
  | _ => True

instance (s : SemCalls) : (c : Call) → Decidable (NothingNew s c)
  | .create name _ => inferInstanceAs (Decidable (¬ IsNew s.sys.tab name.1))
  | .wait _ _ => inferInstanceAs (Decidable True)
  | .resume _ => inferInstanceAs (Decidable True)
  | .signal _ => inferInstanceAs (Decidable True)

variable {s s' : SemCalls} {c : Call} {cs : List Call}

/-- No name is in the table. -/
def NoNames (s : SemCalls) : Prop := ∀ name : UserString, s.sys.tab.lookup name.1 = none

/-- A semaphore that is there has changed, and no other name is there. -/
theorem lookup_none_iff {T T' : STable} {name : CString} {sem sem' : Semaphore}
    (hsem : T.lookup name = some sem) (hmap : T'.lookup = Function.update T.lookup name (some sem'))
    (n : CString) :
    T'.lookup n = none ↔ T.lookup n = none := by
  rw [hmap]
  by_cases hn : n = name
  · rw [hn, Function.update_self, hsem]
    exact iff_of_false (Option.some_ne_none _) (Option.some_ne_none _)
  · rw [Function.update_of_ne hn]

/-- `Wait` and `Signal` neither add a name nor take one away. -/
theorem noNames_of_turn {sys : SemSys} {l : SemSys.Label} (hturn : s.sys.Turn l sys)
    (hl : ∀ name v, l ≠ .create name v ∧ l ≠ .sysCreate name v) (granted : List CString) :
    NoNames ⟨sys, granted⟩ ↔ s.NoNames := by
  refine forall_congr' fun n => ?_
  rcases hturn with ⟨name, v, he, -⟩ | ⟨htab, -⟩ | ⟨name, t, sem, hsem, hmap, -⟩ |
    ⟨name, he, sem, hsem, hmap, -⟩
  · rcases he with he | he
    · exact absurd he (hl name v).1
    · exact absurd he.1 (hl name v).2
  · rw [htab]
  · exact lookup_none_iff hsem hmap n.1
  · exact lookup_none_iff hsem hmap n.1

/-- **One call**: no name is there after it just when none was before and it has
added none. Nothing is granted. -/
theorem step_noNames (hI : s.sys.Inv) (hs : s.step c = some s') :
    s'.sys.Inv ∧ s'.granted = s.granted ∧ (s'.NoNames ↔ s.NoNames ∧ NothingNew s c) := by
  obtain ⟨sys, hsys, rfl⟩ := Option.map_eq_some_iff.mp hs
  obtain ⟨hI', hturn⟩ := SemSys.step_cases hI c.label hsys
  cases c with
  | create name semval =>
    obtain ⟨T', hcall, hnew, hold⟩ := sysCreateSemaphore_cases hI.tab name semval
    have hgrants : s.grants (.create name semval) = s.granted := by
      unfold grants
      simp only [hcall]
      exact if_neg (by simp)
    obtain ⟨r, hr, rfl⟩ := Option.map_eq_some_iff.mp hsys
    obtain rfl : r = (T', -1) := Option.some.inj (hr.symm.trans hcall)
    refine ⟨hI', hgrants, ?_⟩
    by_cases hn : IsNew s.sys.tab name.1
    · refine iff_of_false (fun h => ?_) fun h => h.2 hn
      have hname : T'.lookup name.1 = none := h name
      rw [(hnew hn).2, Function.update_self] at hname
      cases hname
    · obtain rfl := hold hn
      exact (and_iff_left hn).symm
  | wait t name =>
    exact ⟨hI', rfl, (noNames_of_turn hturn (by simp [Call.label]) _).trans
      (and_iff_left trivial).symm⟩
  | resume t =>
    exact ⟨hI', rfl, (noNames_of_turn hturn (by simp [Call.label]) _).trans
      (and_iff_left trivial).symm⟩
  | signal name =>
    exact ⟨hI', rfl, (noNames_of_turn hturn (by simp [Call.label]) _).trans
      (and_iff_left trivial).symm⟩

/-- Calls in a row. -/
theorem exec_noNames (cs : List Call) : ∀ s : SemCalls, s.sys.Inv → Runs.exec step s cs = some s' →
    s'.sys.Inv ∧ s'.granted = s.granted ∧
    (s'.NoNames ↔ s.NoNames ∧ Runs.Along step NothingNew s cs) := by
  induction cs with
  | nil =>
    intro s hI he
    cases he
    exact ⟨hI, rfl, (and_iff_left trivial).symm⟩
  | cons c cs ih =>
    intro s hI he
    obtain ⟨s₁, hs, he⟩ := Option.bind_eq_some_iff.mp he
    obtain ⟨hI₁, hgranted₁, hnames₁⟩ := step_noNames hI hs
    obtain ⟨hI', hgranted, hnames⟩ := ih s₁ hI₁ he
    refine ⟨hI', hgranted.trans hgranted₁, ?_⟩
    have halong : Runs.Along step NothingNew s (c :: cs) ↔ NothingNew s c ∧
        Runs.Along step NothingNew s₁ cs := by
      refine and_congr_right fun _ => ⟨fun h => h s₁ hs, fun h s₂ hs₂ => ?_⟩
      rw [hs] at hs₂
      cases hs₂
      exact h
    rw [hnames, hnames₁, halong, and_assoc]

/-- The names that can be used are those that were granted. -/
def GrantsUsable (s : SemCalls) : Prop :=
  ∀ name : UserString, Usable s.sys.tab name ↔ name.1 ∈ s.granted

theorem grantsUsable_iff (he : Runs.exec step initial cs = some s) :
    s.GrantsUsable ↔ Runs.Along step NothingNew initial cs := by
  obtain ⟨hI, hgranted, hnames⟩ := exec_noNames cs initial SemSys.inv_initial he
  have hempty : NoNames initial := fun name => SemSys.lookup_initial name.1
  rw [and_iff_right hempty] at hnames
  rw [← hnames]
  refine forall_congr' fun name => ?_
  rw [usable_iff hI.tab, hgranted]
  constructor
  · exact fun h => not_not.mp fun hne => List.not_mem_nil (h.mp hne)
  · exact fun h => iff_of_false (fun hne => hne h) List.not_mem_nil

/-- **What CreateSemaphore reports**: after any calls, a further one reports right
just when its name is not new; and the names that can be used are those for which
a call has returned 0 just when no call had a new name. -/
theorem create_reports_iff {cs : List Call} {s : SemCalls}
    (he : Runs.exec step initial cs = some s) :
    (∀ (u : UserMem) (v semval : BitVec 32) (name : CString), semaphoreName u v = .ok name →
      (ReportsRight s.sys.tab u v semval name ↔ ¬ IsNew s.sys.tab name)) ∧
    (s.GrantsUsable ↔ Runs.Along step NothingNew initial cs) :=
  ⟨fun _ _ semval _ hname => reportsRight_iff (exec_noNames cs initial SemSys.inv_initial he).1.tab
    hname semval, grantsUsable_iff he⟩

theorem name_of_toOption {u : UserMem} {v : BitVec 32} {name : CString}
    (h : (semaphoreName u v).toOption = some name) :
    semaphoreName u v = .ok name := by
  cases hx : semaphoreName u v with
  | error e =>
    rw [hx] at h
    cases h
  | ok n =>
    rw [hx] at h
    exact congrArg Except.ok (Option.some.inj h)

/-- The name "a". -/
def nameA : UserString := ⟨[97], by decide, by decide⟩

/-- A second `CreateSemaphore` of "a" reports right. -/
theorem create_reports_again :
    ∃ s, Runs.exec step initial [.create nameA 1] = some s ∧
    ReportsRight s.sys.tab Io.sampleUser 0 1 [97] := by
  obtain ⟨s, hs⟩ := Option.isSome_iff_exists.mp
    (show (Runs.exec step initial [.create nameA 1]).isSome from by decide)
  have hold : ¬ IsNew s.sys.tab [97] := by
    have hall : (Runs.exec step initial [.create nameA 1]).all (fun s => ¬ IsNew s.sys.tab [97]) =
        true := by decide
    rw [hs] at hall
    exact of_decide_eq_true hall
  exact ⟨s, hs, ((create_reports_iff hs).1 _ 0 1 _ (name_of_toOption (by decide))).mpr hold⟩

/-- The first one adds the semaphore and returns -1, and the name can be used. -/
theorem create_reports_failure :
    (STable.new.sysCreateSemaphore [97] 1).map Prod.snd = some (-1) ∧
    ¬ ReportsRight STable.new Io.sampleUser 0 1 [97] ∧
      ∃ s, Runs.exec step initial [.create nameA 1] = some s ∧ s.granted = [] ∧
      Usable s.sys.tab nameA ∧ ¬ s.GrantsUsable := by
  refine ⟨by decide, fun h => ?_, ?_⟩
  · exact (reportsRight_iff STable.inv_new (name_of_toOption (by decide)) 1).mp h (by decide)
  · obtain ⟨s, hs⟩ := Option.isSome_iff_exists.mp
      (show (Runs.exec step initial [.create nameA 1]).isSome from by decide)
    have hall : (Runs.exec step initial [.create nameA 1]).all
        (fun s => s.granted = [] ∧ (s.sys.tab.lookup [97]).isSome) = true := by
      decide
    rw [hs] at hall
    obtain ⟨hgranted, hsome⟩ := of_decide_eq_true hall
    have husable : Usable s.sys.tab nameA :=
      (usable_iff (exec_noNames _ initial SemSys.inv_initial hs).1.tab nameA).mpr
        (Option.isSome_iff_ne_none.mp hsome)
    refine ⟨s, hs, hgranted, husable, fun h => ?_⟩
    have hmem := (h nameA).mp husable
    rw [hgranted] at hmem
    exact absurd hmem List.not_mem_nil

end SemCalls
end Nachos
