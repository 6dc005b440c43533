/-
# The file names of the system calls (`userprog/ksyscall.h`)

`SysCreate`, `SysOpen`, `SysRemove` and `SysExec` copy a name from the user with
`User2System`, each with a limit of its own: `SysCreate` takes up to 33 bytes,
the others 32. A name that is not over by then is cut, and the host gets the
front of it. The host has a directory (`NamedIo`): creating a file puts the name
there, opening and removing look it up.

* `createName_eq_openName_iff`: the two limits give the same name just when the
  string ends within 33 bytes, or the copy halts for both.
* `resolve_alike_iff`: then, and only then, all calls mean the same file.

Key definitions: `nameWithin`, `Kernel.sysExec`, `NamedIo.create`, `NamedIo.open_`,
`NamedIo.remove`, `NamedIo.MeansCreated`, `ShortName`.
Key theorems: `nameWithin_eq`, `resolve_alike_iff`.
-/
import Mathlib
import Nachos.Base.Runs
import Nachos.Base.Bytes
import Nachos.Userprog.FileDescriptors
import Nachos.Userprog.UserMemory
import Nachos.Userprog.HostFiles
import Nachos.Userprog.Ksyscall
import Nachos.Userprog.Transfer
import Nachos.Userprog.Remove
import Nachos.Threads.ExecUpdate

namespace Nachos

open Bytes (Byte)

/-! ### Names -/

/-- The string at `virtAddr` as `User2System` gives it with this limit. -/
def nameWithin (u : UserMem) (virtAddr : BitVec 32) (limit : ℤ) : Except SysStop (List Byte) :=
  (user2System u virtAddr limit).map fun r => FileDescriptor.cstr r.1

/-- The name of `SysCreate`. -/
def createName (u : UserMem) (virtAddr : BitVec 32) : Except SysStop (List Byte) :=
  nameWithin u virtAddr (maxFileLength + 1)

/-- The name of `SysOpen`. -/
def openName (u : UserMem) (virtAddr : BitVec 32) : Except SysStop (List Byte) :=
  nameWithin u virtAddr maxFileLength

/-- The name of `SysRemove`. -/
def removeName (u : UserMem) (virtAddr : BitVec 32) : Except SysStop (List Byte) :=
  nameWithin u virtAddr maxFileLength

/-- The name of `SysExec`. -/
def execName (u : UserMem) (virtAddr : BitVec 32) : Except SysStop (List Byte) :=
  nameWithin u virtAddr maxFileLength

/-- `SysExec` by thread `t`, up to the return of `ExecUpdate`; `found` is whether
the host opens the name. -/
def Kernel.sysExec (k : Kernel) (t : Tid) (th : Thread) (u : UserMem) (virtAddr : BitVec 32)
    (found : List Byte → Bool) (created : Bool) : Except SysStop (Option (Kernel × ℤ)) :=
  match execName u virtAddr with
  | .error e => .error e
  | .ok name =>
    .ok (if name = [] then some (k, -1) else k.execUpdate t th (some name) (found name) created)

/-- The calls with the host's directory: the file that each name has. -/
structure NamedIo where
  io : Io
  dir : List Byte → Option ℕ

namespace NamedIo

/-- `SysCreate`. The host makes a new file, `fresh`, or empties the one that the
name has. -/
def create (s : NamedIo) (env : HostEnv) (virtAddr : BitVec 32) (ret : ℤ) (fresh : ℕ) :
    Except SysStop (NamedIo × ℤ) :=
  match createName s.io.user virtAddr with
  | .error e => .error e
  | .ok name =>
    let node := (s.dir name).getD fresh
    (s.io.sysCreate env virtAddr ret node).map fun r =>
      (⟨r.1, if r.2 = 0 then Function.update s.dir name (some node) else s.dir⟩, r.2)

/-- `SysOpen`. The host's `open` returns `ret` if the name has a file. -/
def open_ (s : NamedIo) (virtAddr : BitVec 32) (type ret : ℤ) : Except SysStop (NamedIo × ℤ) :=
  match (openName s.io.user virtAddr).toOption.bind s.dir with
  | none => (s.io.sysOpen virtAddr type (-1) 0).map fun r => (⟨r.1, s.dir⟩, r.2)
  | some node => (s.io.sysOpen virtAddr type ret node).map fun r => (⟨r.1, s.dir⟩, r.2)

/-- `SysRemove`, with the name that was unlinked, if any. -/
def remove (s : NamedIo) (virtAddr : BitVec 32) :
    Except RemoveStop (NamedIo × ℤ × Option (List Byte)) :=
  (s.io.sysRemove virtAddr fun name => (s.dir name).isSome).map fun r =>
    (⟨r.1, r.2.2.elim s.dir fun name => Function.update s.dir name none⟩, r.2)

end NamedIo

/-! ### Where the limits matter -/

/-- The string ends within 33 bytes, if 32 of them are there and not zero. -/
def ShortName (u : UserMem) (v : BitVec 32) : Prop :=
  (∀ k < 32, v.toNat + k < u.size ∧ u.byte (v.toNat + k) ≠ 0) → v.toNat + 32 < u.size ∧
    u.byte (v.toNat + 32) = 0

instance (u : UserMem) (v : BitVec 32) : Decidable (ShortName u v) :=
  inferInstanceAs (Decidable (_ → _))

/-- The zeros behind the first one do not count. -/
theorem cstr_untilZero (f : ℕ → Byte) (n : ℕ) :
    FileDescriptor.cstr ((List.range n).map (untilZero f) ++ [0]) =
      FileDescriptor.cstr ((List.range n).map f) := by
  induction n generalizing f with
  | zero => rfl
  | succ n ih =>
    rw [List.range_succ_eq_map, List.map_cons, List.map_cons, List.map_map, List.map_map,
      untilZero_zero, List.cons_append]
    unfold FileDescriptor.cstr at ih ⊢
    by_cases h0 : f 0 = 0
    · rw [h0]
      rfl
    · rw [List.takeWhile_cons_of_pos (by simpa using h0), List.takeWhile_cons_of_pos
        (by simpa using h0)]
      refine congrArg _ ?_
      have hrest : (untilZero f ∘ Nat.succ) = untilZero fun k => f (k + 1) :=
        funext fun k => untilZero_succ h0 k
      rw [hrest]
      exact ih fun k => f (k + 1)

section Names

variable {u u' : UserMem} {v : BitVec 32} {n : ℕ}

/-- **The name** that a call gets. -/
theorem nameWithin_eq (hs : UserSpace u.pageTable) (hsize : SizeOk n) :
    nameWithin u v n =
      if Within (fun k => u.byte (v.toNat + k)) v.toNat n u.size then
        .ok (FileDescriptor.cstr ((List.range n).map fun k => u.byte (v.toNat + k)))
      else .error .halt := by
  unfold nameWithin
  split_ifs with hin
  · obtain ⟨u', hu, -, -⟩ := user2System_buffer hs hsize hin
    rw [hu, ← cstr_untilZero]
    rfl
  · rw [user2System_halt hs hsize hin]
    rfl

/-- It is the same through the same pages. -/
theorem nameWithin_congr (hs : UserSpace u.pageTable) (hmem : u'.mem = u.mem)
    (hcore : u'.pageTable.map TranslationEntry.core = u.pageTable.map TranslationEntry.core)
    (hsize : SizeOk n) :
    nameWithin u' v n = nameWithin u v n := by
  rw [nameWithin_eq hs hsize, nameWithin_eq (hs.congr hcore) hsize, size_congr hcore]
  simp only [byte_same hmem hcore]

/-- The byte behind the first 32. -/
theorem map_range_last (f : ℕ → Byte) :
    (List.range 33).map f = (List.range 32).map f ++ [f 32] := by
  rw [List.range_succ, List.map_append]
  rfl

theorem map_range_ne {f : ℕ → Byte} (hne : ∀ k < n, f k ≠ 0) :
    ∀ b ∈ (List.range n).map f, b ≠ 0 := by
  intro b hb
  obtain ⟨k, hk, rfl⟩ := List.mem_map.mp hb
  exact hne k (List.mem_range.mp hk)

/-- A string that ends within 32 bytes is the same name to both. -/
theorem createName_eq_of_zero (hs : UserSpace u.pageTable) {k : ℕ} (hk : k < 32)
    (h0 : u.byte (v.toNat + k) = 0) :
    createName u v = openName u v := by
  have hwithin : Within (fun k => u.byte (v.toNat + k)) v.toNat 33 u.size ↔
      Within (fun k => u.byte (v.toNat + k)) v.toNat 32 u.size := by
    constructor
    · exact fun h j hj hne => h j (by omega) hne
    · intro h j hj hne
      rcases Nat.lt_succ_iff_lt_or_eq.mp hj with hlt | rfl
      · exact h j hlt hne
      · exact absurd h0 (hne k hk)
  have hmem : (0 : Byte) ∈ (List.range 32).map fun k => u.byte (v.toNat + k) :=
    List.mem_map.mpr ⟨k, List.mem_range.mpr hk, h0⟩
  calc createName u v = nameWithin u v (33 : ℕ) := rfl
    _ = nameWithin u v (32 : ℕ) := by
      rw [nameWithin_eq hs (by decide), nameWithin_eq hs (by decide), map_range_last _,
        FileDescriptor.cstr_of_zero hmem, if_congr hwithin rfl rfl]
    _ = openName u v := rfl

/-- What `SysOpen` makes of 32 bytes that are not zero. -/
theorem openName_of_ne (hs : UserSpace u.pageTable) (hne : ∀ k < 32, u.byte (v.toNat + k) ≠ 0) :
    openName u v = if ∀ k < 32, v.toNat + k < u.size then
      Except.ok ((List.range 32).map fun k => u.byte (v.toNat + k))
      else Except.error SysStop.halt := by
  have hwithin : Within (fun k => u.byte (v.toNat + k)) v.toNat 32 u.size ↔
      ∀ k < 32, v.toNat + k < u.size :=
    ⟨fun h k hk => h k hk fun j hj => hne j (by omega), fun h k hk _ => h k hk⟩
  calc openName u v = nameWithin u v (32 : ℕ) := rfl
    _ = _ := by
      rw [nameWithin_eq hs (by decide), FileDescriptor.cstr_of_ne (map_range_ne hne),
        if_congr hwithin rfl rfl]

/-- What `SysCreate` makes of them: the byte behind them is in the name too. -/
theorem createName_of_ne (hs : UserSpace u.pageTable) (hne : ∀ k < 32, u.byte (v.toNat + k) ≠ 0) :
    createName u v = if (∀ k < 32, v.toNat + k < u.size) ∧ v.toNat + 32 < u.size then
        Except.ok ((List.range 32).map (fun k => u.byte (v.toNat + k)) ++ FileDescriptor.cstr
          [u.byte (v.toNat + 32)])
      else Except.error SysStop.halt := by
  have hwithin : Within (fun k => u.byte (v.toNat + k)) v.toNat 33 u.size ↔
      (∀ k < 32, v.toNat + k < u.size) ∧ v.toNat + 32 < u.size := by
    constructor
    · exact fun h => ⟨fun k hk => h k (by omega) fun j hj => hne j (by omega), h 32 (by omega) hne⟩
    · rintro ⟨h, hlast⟩ k hk -
      rcases Nat.lt_succ_iff_lt_or_eq.mp hk with hlt | rfl
      · exact h k hlt
      · exact hlast
  calc createName u v = nameWithin u v (33 : ℕ) := rfl
    _ = _ := by
      rw [nameWithin_eq hs (by decide), map_range_last _, FileDescriptor.cstr_append
        (map_range_ne hne), if_congr hwithin rfl rfl]

theorem createName_eq_openName_iff (hs : UserSpace u.pageTable) (v : BitVec 32) :
    createName u v = openName u v ↔ ShortName u v := by
  unfold ShortName
  by_cases hzero : ∃ k < 32, u.byte (v.toNat + k) = 0
  · obtain ⟨k, hk, h0⟩ := hzero
    exact iff_of_true (createName_eq_of_zero hs hk h0) fun h => absurd h0 (h k hk).2
  · push Not at hzero
    rw [createName_of_ne hs hzero, openName_of_ne hs hzero]
    have hnext : (∀ k < 32, v.toNat + k < u.size ∧ u.byte (v.toNat + k) ≠ 0) ↔
        ∀ k < 32, v.toNat + k < u.size :=
      forall₂_congr fun k hk => and_iff_left (hzero k hk)
    rw [hnext]
    by_cases hmapped : ∀ k < 32, v.toNat + k < u.size
    · rw [if_pos hmapped, forall_prop_of_true hmapped]
      by_cases hlast : v.toNat + 32 < u.size
      · rw [if_pos ⟨hmapped, hlast⟩, and_iff_right hlast, Except.ok.injEq,
          List.append_right_eq_self]
        by_cases h0 : u.byte (v.toNat + 32) = 0
        · rw [h0]
          exact iff_of_true rfl rfl
        · rw [FileDescriptor.cstr_of_ne (by simpa using h0)]
          exact iff_of_false (by simp) h0
      · rw [if_neg fun h => hlast h.2]
        exact iff_of_false (by simp) fun h => hlast h.1
    · rw [if_neg hmapped, if_neg fun h => hmapped h.1]
      exact iff_of_true rfl fun h => absurd h hmapped

end Names

/-! ### What the calls mean -/

/-- All calls give the host the same name. -/
structure NamesAgree (u : UserMem) (v : BitVec 32) : Prop where
  open_ : openName u v = createName u v
  remove : removeName u v = createName u v
  exec : execName u v = createName u v

namespace NamedIo

variable {s s₁ s₂ : NamedIo} {env : HostEnv} {u : UserMem} {v : BitVec 32} {ret r : ℤ} {fresh : ℕ}

/-- After a `SysCreate` that succeeds, `SysOpen` opens the file that was created
whenever a slot is free and the host has a descriptor, and `SysRemove` unlinks
that file's name and no other if it unlinks any. -/
def MeansCreated (s : NamedIo) (v : BitVec 32) : Prop :=
  ∀ env ret fresh s₁, s.create env v ret fresh = .ok (s₁, 0) →
    ∃ name node, createName s.io.user v = .ok name ∧
    s₁.dir = Function.update s.dir name (some node) ∧
      (∀ fd, 0 ≤ fd → s₁.io.table.findFreeSlot ≠ none →
        ∃ s₂, s₁.open_ v 0 fd = .ok (s₂, fd) ∧ s₂.io.files.node fd = node) ∧
      ∀ s₂ r unlinked, s₁.remove v = .ok (s₂, r, some unlinked) →
        unlinked = name ∧ r = 0 ∧ s₂.dir = Function.update s₁.dir name none

/-- What a `SysCreate` that succeeds has done. -/
theorem create_ok (hI : Io.Inv s.io) (hc : s.create env v ret fresh = .ok (s₁, 0)) :
    ∃ name node, createName s.io.user v = .ok name ∧ name ≠ [] ∧
    s₁.dir = Function.update s.dir name (some node) ∧
      s₁.io.user.mem = s.io.user.mem ∧
      s₁.io.user.pageTable.map TranslationEntry.core = s.io.user.pageTable.map
      TranslationEntry.core := by
  unfold create at hc
  unfold createName nameWithin at hc ⊢
  cases hu : user2System s.io.user v (maxFileLength + 1) with
  | error e =>
    rw [hu] at hc
    cases hc
  | ok b =>
    obtain ⟨filename, user⟩ := b
    obtain ⟨hsize, hin⟩ := within_of_user2System hI.space hu
    obtain ⟨l, u', hu', -, -, hmem, hcore⟩ := user2System_ok hI.space hsize hin
    obtain rfl : user = u' := (Prod.mk.inj (Except.ok.inj (hu.symm.trans hu'))).2
    simp only [hu, Except.map, Io.sysCreate] at hc
    by_cases hname : FileDescriptor.cstr filename = []
    · rw [if_pos hname] at hc
      cases hc
    · rw [if_neg hname] at hc
      by_cases hret : ret < 0
      · rw [if_pos hret] at hc
        cases hc
      · rw [if_neg hret] at hc
        by_cases hclose : env.close = false
        · rw [if_pos hclose] at hc
          cases hc
        · rw [if_neg hclose] at hc
          cases hc
          exact ⟨_, _, rfl, hname, rfl, hmem, hcore⟩

/-- The copy behind a name. -/
theorem copy_of_name {limit : ℤ} {name : List Byte} (h : nameWithin u v limit = .ok name) :
    ∃ filename user, user2System u v limit = .ok (filename, user) ∧
    FileDescriptor.cstr filename = name := by
  unfold nameWithin at h
  cases hu : user2System u v limit with
  | error e =>
    rw [hu] at h
    cases h
  | ok b =>
    rw [hu] at h
    exact ⟨b.1, b.2, rfl, Except.ok.inj h⟩

/-- `SysOpen` of a name that has a file. -/
theorem open_found {name : List Byte} {node : ℕ} (hname : openName s.io.user v = .ok name)
    (hne : name ≠ []) (hdir : s.dir name = some node) {fd : ℤ} (h0 : 0 ≤ fd)
    (hfree : s.io.table.findFreeSlot ≠ none) :
    ∃ s₂, s.open_ v 0 fd = .ok (s₂, fd) ∧ s₂.io.files.node fd = node := by
  obtain ⟨filename, user, hu, hcstr⟩ := copy_of_name hname
  obtain ⟨i, hi⟩ := Option.ne_none_iff_exists'.mp hfree
  have hfind : (openName s.io.user v).toOption.bind s.dir = some node := by
    rw [hname]
    exact hdir
  have hopen : (s.io.table.open_ s.io.host name 0 fd).2.2 = fd := by
    unfold Table.open_ FileDescriptor.openFile fileSystemOpen
    simp only [hi, if_neg (show fd ≠ -1 by omega), OpenFile.fileID]
  unfold open_ Io.sysOpen
  simp only [hfind, hu, hcstr, if_neg hne, hopen]
  refine ⟨_, rfl, ?_⟩
  simp only [if_neg (show ¬ fd = -1 by omega)]
  exact Function.update_self _ _ _

/-- `SysRemove`, if it unlinks a name. -/
theorem remove_unlinked {name unlinked : List Byte} (hname : removeName s.io.user v = .ok name)
    {s₂ : NamedIo} (hc : s.remove v = .ok (s₂, r, some unlinked)) :
    unlinked = name ∧ r = (if (s.dir name).isSome then 0 else -1) ∧
    s₂.dir = Function.update s.dir name none := by
  obtain ⟨filename, user, hu, hcstr⟩ := copy_of_name hname
  unfold remove Io.sysRemove at hc
  simp only [hu, hcstr] at hc
  rcases hscan : s.io.table.isOpeningWithName name with e | i
  · rw [hscan] at hc
    cases hc
  · rw [hscan] at hc
    cases i with
    | some i => cases hc
    | none =>
      cases hc
      exact ⟨rfl, rfl, rfl⟩

/-- Where the names agree, the calls mean the file that was created. -/
theorem meansCreated (hI : Io.Inv s.io) (hagree : NamesAgree s.io.user v) : s.MeansCreated v := by
  intro env ret fresh s₁ hc
  obtain ⟨name, node, hname, hne, hdir, hmem, hcore⟩ := create_ok hI hc
  have hnow : nameWithin s₁.io.user v maxFileLength = nameWithin s.io.user v maxFileLength :=
    nameWithin_congr (n := 32) hI.space hmem hcore (by decide)
  have hfile : s₁.dir name = some node := by
    rw [hdir]
    exact Function.update_self _ _ _
  refine ⟨name, node, hname, hdir, fun fd h0 hfree => ?_, fun s₂ r unlinked hr => ?_⟩
  · exact open_found (hnow.trans (hagree.open_.trans hname)) hne hfile h0 hfree
  · obtain ⟨hunlinked, hres, hdir₂⟩ := remove_unlinked (hnow.trans (hagree.remove.trans hname)) hr
    rw [hfile] at hres
    exact ⟨hunlinked, hres, hdir₂⟩

end NamedIo

/-- What is asked of the names: they agree, and in every state with this user
the calls mean the file that was created. -/
def ResolveAlike (u : UserMem) (v : BitVec 32) : Prop :=
  NamesAgree u v ∧ ∀ s : NamedIo, Io.Reach s.io → s.io.user = u → s.MeansCreated v

theorem resolveAlike_iff {u : UserMem} (hs : UserSpace u.pageTable) (v : BitVec 32) :
    ResolveAlike u v ↔ ShortName u v := by
  rw [← createName_eq_openName_iff hs]
  constructor
  · exact fun h => h.1.open_.symm
  · intro h
    have hagree : NamesAgree u v := ⟨h.symm, h.symm, h.symm⟩
    refine ⟨hagree, fun s hreach hu => ?_⟩
    subst hu
    exact NamedIo.meansCreated (Io.inv_reach hreach) hagree

/-- **All calls mean the same file** just when the name ends within 33 bytes. -/
theorem resolve_alike_iff {u : UserMem} (hs : UserSpace u.pageTable) (v : BitVec 32) :
    ResolveAlike u v ↔ ShortName u v :=
  resolveAlike_iff hs v

/-- The name "a". -/
theorem resolve_alike_short :
    (createName Io.sampleUser 0).toOption = some [97] ∧ ResolveAlike Io.sampleUser 0 :=
  ⟨by decide, (resolve_alike_iff (by decide) 0).mpr (by decide)⟩

/-- A user with the name of 33 times "a" at 0. -/
def longUser : UserMem :=
  ⟨fun x => if 0 ≤ x ∧ x < 33 then 97 else 0, [⟨0, 0, true, false, false, false⟩]⟩

/-- The host has no file yet. -/
def longStart : NamedIo := ⟨{ Io.sampleStart with user := longUser }, fun _ => none⟩

set_option maxRecDepth 20000 in
/-- It is created under its name, and opened under the first 32 bytes of it, which
is no file. -/
theorem names_differ : (createName longUser 0).toOption = some (List.replicate 33 97) ∧
    (openName longUser 0).toOption = some (List.replicate 32 97) ∧
    ((longStart.create Io.sampleEnv 0 3 7).toOption.bind fun x =>
      (x.1.open_ 0 0 4).toOption.map fun y => (x.2, y.2)) = some (0, -1) ∧
    ¬ ResolveAlike longUser 0 := by
  have hs : UserSpace longUser.pageTable := by decide
  exact ⟨by decide, by decide, by decide, fun h => absurd ((resolveAlike_iff hs 0).mp h)
    (by decide)⟩

end Nachos
