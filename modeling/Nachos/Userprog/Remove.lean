/-
# Removing a file that may be open (`userprog/ksyscall.h`, `userprog/FileDescriptors.h`)

`SysRemove` asks `IsOpeningWithName` before it asks the host. That visits the
slots in order and compares the name of each open one with `strcasecmp`. The name
of a socket is NULL, so the first open slot that is a socket ends the kernel when
no slot before it has the name; and a file that is open under the name in other
letter case counts as the file itself.

What is in a slot is kept by every call (`FileDescriptor.Named`): an open file has
its name, a socket has none, and what `Close_Socket` leaves in a free slot is not
looked at. So the answer depends on what is open and on the order of the slots
only, and `remove_right_iff` says exactly when it is the right one.

Key definitions: `Table.isOpeningWithName`, `Io.sysRemove`, `Io.RemovesRight`, `Table.Removable`.
Key theorems: `Io.named_reach`, `Io.remove_right_iff`.
-/
import Mathlib
import Nachos.Base.Runs
import Nachos.Base.Bytes
import Nachos.Userprog.FileDescriptors
import Nachos.Userprog.UserMemory
import Nachos.Userprog.HostFiles
import Nachos.Userprog.Ksyscall
import Nachos.Userprog.Transfer

namespace Nachos

open Bytes (Byte)

/-- `tolower` in the C locale. -/
def toLower (b : Byte) : Byte := if 65 ≤ b.toNat ∧ b.toNat ≤ 90 then b + 32 else b

/-- `strcasecmp(a, b) == 0`. -/
def strcaseEq (a b : List Byte) : Prop := a.map toLower = b.map toLower

instance (a b : List Byte) : Decidable (strcaseEq a b) := inferInstanceAs (Decidable (_ = _))

/-- How `SysRemove` can end without returning: as the other calls, or by a name
that is NULL in `strcasecmp`. -/
inductive RemoveStop
  | call (e : SysStop)
  | nullName
  deriving DecidableEq

namespace Table

/-- The loop of `Table::IsOpeningWithName` over the slots `l`. -/
def scanNames (t : Table) (name : List Byte) :
    List (Fin capacity) → Except RemoveStop (Option (Fin capacity))
  | [] => .ok none
  | i :: l =>
    if (t.slot i).mode = -1 then t.scanNames name l
    else
      match (t.slot i).name with
      | none => .error .nullName
      | some n => if strcaseEq n name then .ok (some i) else t.scanNames name l

/-- `Table::IsOpeningWithName`; `none` is -1. -/
def isOpeningWithName (t : Table) (name : List Byte) : Except RemoveStop (Option (Fin capacity)) :=
  t.scanNames name usable

end Table

/-- `SysRemove`, with the name that was given to the host's `unlink`, if any. An
empty name is found not valid, but the call goes on with it. -/
def Io.sysRemove (s : Io) (virtAddr : BitVec 32) (unlink : List Byte → Bool) :
    Except RemoveStop (Io × ℤ × Option (List Byte)) :=
  match user2System s.user virtAddr maxFileLength with
  | .error e => .error (.call e)
  | .ok (filename, user) =>
    match s.table.isOpeningWithName (FileDescriptor.cstr filename) with
    | .error e => .error e
    | .ok (some _) => .ok ({ s with user := user }, -1, none)
    | .ok none =>
      .ok ({ s with user := user }, if unlink (FileDescriptor.cstr filename) then 0
        else -1, some (FileDescriptor.cstr filename))

/-! ### What the slots have for names -/

/-- An open file has a name and a socket has none. -/
def FileDescriptor.Named (d : FileDescriptor) : Prop :=
  ((d.mode = readWriteFile ∨ d.mode = readFile) → d.name.isSome) ∧
    (d.mode = socketMode → d.name = none)

theorem FileDescriptor.named_of_free {d : FileDescriptor} (hm : d.mode = -1) : d.Named := by
  refine ⟨fun h => ?_, fun h => ?_⟩
  · rw [hm] at h
    exact absurd h (by decide)
  · rw [hm] at h
    exact absurd h (by decide)

theorem named_rule : Io.SlotRule FileDescriptor.Named where
  opened d name type ret hm _ := by
    by_cases hret : ret = -1
    · simp only [FileDescriptor.openFile, fileSystemOpen, if_pos hret]
      exact FileDescriptor.named_of_free hm
    · simp only [FileDescriptor.openFile, fileSystemOpen, if_neg hret]
      refine ⟨fun _ => rfl, fun h => ?_⟩
      split_ifs at h
      · exact absurd (show readWriteFile = socketMode from h) (by decide)
      · exact absurd (show readFile = socketMode from h) (by decide)
  socket d ret hm _ := by
    unfold FileDescriptor.socketTCP
    split_ifs
    · exact FileDescriptor.named_of_free hm
    · refine ⟨fun h => ?_, fun _ => rfl⟩
      exact absurd (show socketMode = readWriteFile ∨ socketMode = readFile from h) (by decide)
  closed := FileDescriptor.named_of_free rfl
  released _ _ := FileDescriptor.named_of_free rfl

/-- **Names in every run.** -/
theorem Io.named_reach {s : Io} (h : Io.Reach s) : ∀ i, (s.table.slot i).Named := by
  refine named_rule.reach (fun d d' hd hmoves => ?_) h
  rcases hmoves with rfl | ⟨f, off, -, -, rfl⟩
  · exact hd
  · exact hd

/-! ### The scan -/

namespace Table

/-- Slot `i` is an open file whose name passes the test `p`. -/
def FileWith (t : Table) (i : Fin capacity) (p : List Byte → Prop) : Prop :=
  ((t.slot i).mode = readWriteFile ∨ (t.slot i).mode = readFile) ∧
    ∃ n, (t.slot i).name = some n ∧ p n

instance (t : Table) (i : Fin capacity) (p : List Byte → Prop) [DecidablePred p] :
    Decidable (t.FileWith i p) :=
  inferInstanceAs (Decidable (_ ∧ ∃ n ∈ (t.slot i).name, p n))

/-- Slot `i` is an open socket. -/
def Socket (t : Table) (i : Fin capacity) : Prop := (t.slot i).mode = socketMode

instance (t : Table) (i : Fin capacity) : Decidable (t.Socket i) :=
  inferInstanceAs (Decidable (_ = _))

variable {t : Table} {name : List Byte} {i : Fin capacity}

/-- The slots at which the scan stops. -/
def Stops (t : Table) (name : List Byte) (i : Fin capacity) : Prop :=
  t.Socket i ∨ t.FileWith i (strcaseEq · name)

/-- What the loop does at a slot. -/
theorem scanNames_cons (hkind : (t.slot i).Kind) (hnamed : (t.slot i).Named) (name : List Byte)
    (l : List (Fin capacity)) :
    (t.Socket i → t.scanNames name (i :: l) = .error .nullName) ∧
    (t.FileWith i (strcaseEq · name) → t.scanNames name (i :: l) = .ok (some i)) ∧
    (¬ t.Stops name i → t.scanNames name (i :: l) = t.scanNames name l) := by
  refine ⟨fun hsocket => ?_, ?_, fun hgo => ?_⟩
  · rw [scanNames, hsocket, if_neg (by decide), hnamed.2 hsocket]
  · rintro ⟨hmode, n, hn, heq⟩
    have hocc : (t.slot i).mode ≠ -1 := by
      rcases hmode with hm | hm
      · rw [hm]
        decide
      · rw [hm]
        decide
    rw [scanNames, if_neg hocc, hn]
    exact if_pos heq
  · rw [scanNames]
    rcases hkind with hfree | ⟨hmode, -⟩ | ⟨hsocket, -⟩
    · rw [if_pos hfree]
    · split_ifs with hfree
      · rfl
      · obtain ⟨n, hn⟩ := Option.isSome_iff_exists.mp (hnamed.1 hmode)
        rw [hn]
        exact if_neg fun heq => hgo (Or.inr ⟨hmode, n, hn, heq⟩)
    · exact absurd (Or.inl hsocket) hgo

/-- **The scan** ends at the first slot at which it stops. -/
theorem scanNames_cases (hkind : ∀ i, (t.slot i).Kind) (hnamed : ∀ i, (t.slot i).Named)
    (name : List Byte) (l : List (Fin capacity)) :
    (t.scanNames name l = .ok none ∧ ∀ i ∈ l, ¬ t.Stops name i) ∨
      ∃ l₁ i l₂, l = l₁ ++ i :: l₂ ∧ (∀ j ∈ l₁, ¬ t.Stops name j) ∧
        ((t.Socket i ∧ t.scanNames name l = .error .nullName) ∨
          (t.FileWith i (strcaseEq · name) ∧ t.scanNames name l = .ok (some i))) := by
  induction l with
  | nil => exact Or.inl ⟨rfl, fun i hi => absurd hi List.not_mem_nil⟩
  | cons i l ih =>
    obtain ⟨hsocket, hfile, hgo⟩ := scanNames_cons (hkind i) (hnamed i) name l
    by_cases hstops : t.Stops name i
    · refine Or.inr ⟨[], i, l, rfl, fun j hj => absurd hj List.not_mem_nil, ?_⟩
      rcases hstops with hs | hf
      · exact Or.inl ⟨hs, hsocket hs⟩
      · exact Or.inr ⟨hf, hfile hf⟩
    · rw [hgo hstops]
      rcases ih with ⟨hnone, hall⟩ | ⟨l₁, k, l₂, rfl, hbefore, hat⟩
      · exact Or.inl ⟨hnone, List.forall_mem_cons.mpr ⟨hstops, hall⟩⟩
      · exact Or.inr ⟨i :: l₁, k, l₂, rfl, List.forall_mem_cons.mpr ⟨hstops, hbefore⟩, hat⟩

/-- The slots are visited in order. -/
theorem mem_before_iff {l₁ l₂ : List (Fin capacity)} (hl : usable = l₁ ++ i :: l₂)
    (j : Fin capacity) :
    j ∈ l₁ ↔ j ∈ usable ∧ j < i := by
  have hsorted : usable.Pairwise (· < ·) := by decide
  rw [hl] at hsorted ⊢
  obtain ⟨-, hrest, hlt⟩ := List.pairwise_append.mp hsorted
  constructor
  · intro hj
    exact ⟨List.mem_append_left _ hj, hlt j hj i List.mem_cons_self⟩
  · rintro ⟨hj, hji⟩
    rcases List.mem_append.mp hj with hj | hj
    · exact hj
    · exfalso
      rcases List.mem_cons.mp hj with rfl | hj
      · exact lt_irrefl _ hji
      · exact lt_asymm hji ((List.pairwise_cons.mp hrest).1 j hj)

/-- A file is open under exactly this name. -/
def OpenAs (t : Table) (name : List Byte) : Prop := ∃ i ∈ usable, t.FileWith i (· = name)

/-- When the scan tells whether a file is open under this name: one is, and a
file with its name up to case comes before every open socket; or no socket is
open, nor a file with its name up to case. -/
def Removable (t : Table) (name : List Byte) : Prop :=
  (t.OpenAs name ∧ ∃ i ∈ usable, t.FileWith i (strcaseEq · name) ∧ ∀ j ∈ usable, j < i →
    ¬ t.Socket j) ∨
    ((∀ i ∈ usable, ¬ t.Socket i) ∧ ∀ i ∈ usable, ¬ t.FileWith i (strcaseEq · name))

instance (t : Table) (name : List Byte) : Decidable (t.OpenAs name) :=
  inferInstanceAs (Decidable (∃ i ∈ usable, _))

instance (t : Table) (name : List Byte) : Decidable (t.Removable name) :=
  inferInstanceAs (Decidable (_ ∨ _))

theorem FileWith.not_socket {p : List Byte → Prop} (h : t.FileWith i p) : ¬ t.Socket i := by
  intro hs
  unfold Socket at hs
  rcases h.1 with hm | hm
  · rw [hm] at hs
    exact absurd hs (by decide)
  · rw [hm] at hs
    exact absurd hs (by decide)

theorem FileWith.of_eq (h : t.FileWith i (· = name)) : t.FileWith i (strcaseEq · name) := by
  obtain ⟨hm, n, hn, rfl⟩ := h
  exact ⟨hm, n, hn, rfl⟩

/-- **What IsOpeningWithName finds**: an open file when one has the name up to
case before any socket, and nothing when no slot stops it. -/
theorem isOpeningWithName_cases (hkind : ∀ i, (t.slot i).Kind) (hnamed : ∀ i, (t.slot i).Named)
    (name : List Byte) :
    (t.isOpeningWithName name = .ok none ∧ ∀ i ∈ usable, ¬ t.Stops name i) ∨
      (t.isOpeningWithName name = .error .nullName ∧ ∃ i ∈ usable, t.Socket i ∧
        ∀ j ∈ usable, j < i → ¬ t.Stops name j) ∨
      ∃ i ∈ usable, t.isOpeningWithName name = .ok (some i) ∧ t.FileWith i (strcaseEq · name) ∧
        ∀ j ∈ usable, j < i → ¬ t.Stops name j := by
  unfold isOpeningWithName
  rcases scanNames_cases hkind hnamed name usable with hnone | ⟨l₁, i, l₂, hl, hbefore, hat⟩
  · exact Or.inl hnone
  · have hi : i ∈ usable := by
      rw [hl]
      exact List.mem_append_right _ List.mem_cons_self
    have hfirst : ∀ j ∈ usable, j < i → ¬ t.Stops name j :=
      fun j hj hji => hbefore j ((mem_before_iff hl j).mpr ⟨hj, hji⟩)
    rcases hat with ⟨hs, herr⟩ | ⟨hf, hok⟩
    · exact Or.inr (Or.inl ⟨herr, i, hi, hs, hfirst⟩)
    · exact Or.inr (Or.inr ⟨i, hi, hok, hf, hfirst⟩)

/-- A scan that finds no slot tells that nothing is open. -/
theorem removable_of_none (h : ∀ i ∈ usable, ¬ t.Stops name i) : t.Removable name :=
  Or.inr ⟨fun i hi hs => h i hi (Or.inl hs), fun i hi hf => h i hi (Or.inr hf)⟩

/-- A scan that ends at a socket tells nothing. -/
theorem not_removable_of_socket (hi : i ∈ usable) (hs : t.Socket i)
    (hfirst : ∀ j ∈ usable, j < i → ¬ t.Stops name j) :
    ¬ t.Removable name := by
  rintro (⟨-, m, hm, hfile, hno⟩ | ⟨hno, -⟩)
  · -- the file is not before the socket, so the socket is before the file
    rcases lt_trichotomy i m with him | rfl | hmi
    · exact hno i hi him hs
    · exact hfile.not_socket hs
    · exact hfirst m hm hmi (Or.inr hfile)
  · exact hno i hi hs

/-- A scan that ends at a file is right if a file has exactly this name. -/
theorem removable_iff_of_file (hi : i ∈ usable) (hfile : t.FileWith i (strcaseEq · name))
    (hfirst : ∀ j ∈ usable, j < i → ¬ t.Stops name j) : t.Removable name ↔ t.OpenAs name := by
  constructor
  · rintro (⟨h, -⟩ | ⟨-, hno⟩)
    · exact h
    · exact absurd hfile (hno i hi)
  · exact fun h => Or.inl ⟨h, i, hi, hfile, fun j hj hji hs => hfirst j hj hji (Or.inl hs)⟩

end Table

namespace Io

variable {s : Io} {v : BitVec 32} {name : List Byte} {unlink : List Byte → Bool}

/-- The name that a program has at `v`, as `SysRemove` sees it. -/
def NameAt (s : Io) (v : BitVec 32) (name : List Byte) : Prop :=
  ∃ filename user, user2System s.user v maxFileLength = .ok (filename, user) ∧
    FileDescriptor.cstr filename = name

/-- `SysRemove` returns and leaves the table. It refuses just the names under
which a file is open, without asking the host; for others it does as the host
does. -/
def RemovesRight (s : Io) (v : BitVec 32) (unlink : List Byte → Bool) (name : List Byte) : Prop :=
  ∃ s' r asked, s.sysRemove v unlink = .ok (s', r, asked) ∧ s'.table = s.table ∧
    ((r = -1 ∧ asked = none) ↔ s.table.OpenAs name) ∧
    (¬ s.table.OpenAs name → asked = some name ∧ (r = 0 ↔ unlink name = true))

theorem removesRight_iff (hkind : ∀ i, (s.table.slot i).Kind) (hnamed : ∀ i, (s.table.slot i).Named)
    (hname : s.NameAt v name) :
    s.RemovesRight v unlink name ↔ s.table.Removable name := by
  obtain ⟨filename, user, hu, rfl⟩ := hname
  unfold RemovesRight sysRemove
  simp only [hu]
  rcases s.table.isOpeningWithName_cases hkind hnamed (FileDescriptor.cstr filename) with
    ⟨hnone, hall⟩ | ⟨herr, i, hi, hsocket, hfirst⟩ | ⟨i, hi, hok, hfile, hfirst⟩
  · have hclosed : ¬ s.table.OpenAs (FileDescriptor.cstr filename) := by
      rintro ⟨i, hi, hf⟩
      exact hall i hi (Or.inr hf.of_eq)
    rw [hnone]
    refine iff_of_true ⟨_, _, _, rfl, rfl, ?_, fun _ => ⟨rfl, ?_⟩⟩ (Table.removable_of_none hall)
    · exact iff_of_false (fun h => Option.some_ne_none _ h.2) hclosed
    · by_cases hunlink : unlink (FileDescriptor.cstr filename) = true
      · rw [if_pos hunlink]
        exact iff_of_true rfl hunlink
      · rw [if_neg hunlink]
        exact iff_of_false (by decide) hunlink
  · rw [herr]
    exact iff_of_false (fun ⟨_, _, _, h, _⟩ => by cases h)
      (Table.not_removable_of_socket hi hsocket hfirst)
  · rw [hok, Table.removable_iff_of_file hi hfile hfirst]
    constructor
    · rintro ⟨s', r, asked, hc, -, hopen, -⟩
      cases hc
      exact hopen.mp ⟨rfl, rfl⟩
    · exact fun hopen => ⟨_, _, _, rfl, rfl, iff_of_true ⟨rfl, rfl⟩ hopen, fun h => absurd hopen h⟩

/-- **SysRemove** respects the open files just when the scan can tell them. -/
theorem remove_right_iff {s : Io} (h : Reach s) {v : BitVec 32} {name : List Byte}
    (hname : s.NameAt v name) (unlink : List Byte → Bool) :
    s.RemovesRight v unlink name ↔ s.table.Removable name :=
  removesRight_iff (inv_reach h).slots.kinds (named_reach h) hname

theorem nameAt_of_copy (h : (user2System s.user v maxFileLength).toOption.map
      (fun r => FileDescriptor.cstr r.1) = some name) :
    s.NameAt v name := by
  cases hu : user2System s.user v maxFileLength with
  | error e =>
    rw [hu] at h
    cases h
  | ok r =>
    rw [hu] at h
    exact ⟨r.1, r.2, hu, Option.some.inj h⟩

/-- "a" is open, and before the socket. -/
theorem remove_right_open :
    ∃ s, Reach s ∧ s.table.OpenAs [97] ∧ s.RemovesRight 0 (fun _ => true) [97] := by
  obtain ⟨s, hs, ht⟩ := reach_sample
    (fun s => (user2System s.user 0 maxFileLength).toOption.map
      (fun r => FileDescriptor.cstr r.1) = some [97] ∧
      s.table.OpenAs [97] ∧ s.table.Removable [97]) (by decide)
  simp only [decide_eq_true_eq] at ht
  obtain ⟨hname, hopen, hfits⟩ := ht
  exact ⟨s, hs, hopen, (remove_right_iff hs (nameAt_of_copy hname) _).mpr hfits⟩

/-- A name that is not open, behind a socket: NULL is given to `strcasecmp`. -/
theorem remove_null : ∃ s, Reach s ∧ s.NameAt 64 [9, 9, 9] ∧ ¬ s.table.OpenAs [9, 9, 9] ∧
    s.sysRemove 64 (fun _ => true) = .error .nullName ∧ ¬ s.RemovesRight 64 (fun _ => true)
    [9, 9, 9] := by
  obtain ⟨s, hs, ht⟩ := reach_sample
    (fun s => (user2System s.user 64 maxFileLength).toOption.map
      (fun r => FileDescriptor.cstr r.1) = some [9, 9, 9] ∧
      ¬ s.table.OpenAs [9, 9, 9] ∧
      (match s.sysRemove 64 (fun _ => true) with
        | .error e => decide (e = .nullName)
        | .ok _ => false) = true)
    (by decide)
  simp only [decide_eq_true_eq] at ht
  obtain ⟨hname, hopen, hcall⟩ := ht
  have herr : s.sysRemove 64 (fun _ => true) = .error .nullName := by
    cases hc : s.sysRemove 64 (fun _ => true) with
    | error e =>
      rw [hc] at hcall
      exact congrArg Except.error (of_decide_eq_true hcall)
    | ok x =>
      rw [hc] at hcall
      cases hcall
  refine ⟨s, hs, nameAt_of_copy hname, hopen, herr, ?_⟩
  rintro ⟨s', r, asked, hc, -⟩
  rw [herr] at hc
  cases hc

end Io
end Nachos
