/-
# The file system calls keep named files

`FileStore` says what the file system calls are for. Here the calls of the
kernel, over its descriptor table, the host's files and the user's memory, are
shown to be the calls of the store, in every run: as long as the host does as it
is told, the same calls give the same results and leave the same bytes in the
buffers, and a call that ends the kernel has no result in the store either.

The store forgets where a file is in the table, the host's numbers of the files
and their positions there, and the pages. The table and the open files agree
descriptor by descriptor (`Shows`), each open file is the host's file of its
name, and no two names have one file.

Key definitions: `FileCall`, `NamedIo.serve`, `Desk.serve`, `NamedIo.Obliging`, `Shows`.
Key theorems: `Shows.serve`, `NamedIo.file_calls_refine`.
-/
import Mathlib
import Nachos.Base.Bytes
import Nachos.Base.Calls
import Nachos.Userprog.FileDescriptors
import Nachos.Userprog.UserMemory
import Nachos.Userprog.HostFiles
import Nachos.Userprog.Ksyscall
import Nachos.Userprog.Transfer
import Nachos.Userprog.CallSafety
import Nachos.Userprog.Offsets
import Nachos.Userprog.Remove
import Nachos.Userprog.Names
import Nachos.Userprog.FileStore

namespace Nachos

open Bytes (Byte)

/-! ### Requests -/

/-- The calls on files. `ret` is the descriptor that the host's `open` returns,
and `fresh` the file that it makes if it makes one. -/
inductive FileCall
  | create (virtAddr : BitVec 32) (ret : ℤ) (fresh : ℕ)
  | open_ (virtAddr : BitVec 32) (type ret : ℤ)
  | close (id : ℤ)
  | seek (pos : BitVec 32) (id : ℤ)
  | read (virtAddr : BitVec 32) (size : ℕ) (id : ℤ)
  | write (virtAddr : BitVec 32) (size : ℕ) (id : ℤ)
  | remove (virtAddr : BitVec 32)

/-- A call, with the memory of the program that makes it and what the host does. -/
structure Request where
  user : UserMem
  env : HostEnv
  call : FileCall

/-- What the program gets: the result, and its buffer after a `Read`. -/
structure Reply where
  result : ℤ
  buffer : List Byte

/-- The kernel serves a request. -/
def NamedIo.serve (k : NamedIo) (q : Request) : Option (NamedIo × Reply) :=
  let k := { k with io := { k.io with user := q.user } }
  match q.call with
  | .create v ret fresh => (k.create q.env v ret fresh).toOption.map fun r => (r.1, ⟨r.2, []⟩)
  | .open_ v type ret => (k.open_ v type ret).toOption.map fun r => (r.1, ⟨r.2, []⟩)
  | .close id => (k.io.sysClose q.env id).toOption.map fun r => ({ k with io := r.1 }, ⟨r.2, []⟩)
  | .seek pos id =>
    (k.io.sysSeek q.env pos.toInt id).toOption.map fun r => ({ k with io := r.1 }, ⟨r.2, []⟩)
  | .read v size id =>
    (k.io.sysRead q.env v size id).toOption.map fun r =>
      ({ k with io := r.1 }, ⟨r.2, r.1.user.bytes v.toNat size⟩)
  | .write v size id =>
    (k.io.sysWrite q.env v size id).toOption.map fun r => ({ k with io := r.1 }, ⟨r.2, []⟩)
  | .remove v => (k.remove v).toOption.map fun r => (r.1, ⟨r.2.1, []⟩)

/-- The string at `v`, of 32 characters at most. -/
def UserMem.text (u : UserMem) (v : BitVec 32) : List Byte :=
  FileDescriptor.cstr (u.bytes v.toNat 32)

/-- Named files and a console. -/
structure Desk where
  files : FileStore
  console : List Byte

namespace Desk

def onFiles (s : Desk) (r : FileStore × ℤ) : Desk × Reply := ({ s with files := r.1 }, ⟨r.2, []⟩)

/-- What serves the same requests on named files. -/
def serve (s : Desk) (q : Request) : Option (Desk × Reply) :=
  match q.call with
  | .create v _ _ => some (s.onFiles (s.files.create (q.user.text v)))
  | .open_ v type ret => some (s.onFiles (s.files.open_ (q.user.text v) type ret))
  | .close id => some (s.onFiles (s.files.close id))
  | .seek pos id => (s.files.seek pos.toInt id).toOption.map s.onFiles
  | .read v size id =>
    (s.files.read q.env.getChar (q.user.bytes v.toNat size) id).toOption.map fun r =>
      ({ s with files := r.1 }, ⟨r.2.2, r.2.1⟩)
  | .write v size id =>
    if id = consoleOutputID then
      let chars := FileDescriptor.cstr (q.user.bytes v.toNat size)
      some ({ s with console := s.console ++ chars }, ⟨chars.length, []⟩)
    else (s.files.write (q.user.bytes v.toNat size) id).toOption.map s.onFiles
  | .remove v => some (s.onFiles (s.files.remove (q.user.text v)))

end Desk

/-! ### The relation -/

/-- A descriptor shows an open file: the host's file of its name, at its offset. -/
structure Shown (dir : List Byte → Option ℕ) (node : ℤ → ℕ) (h : Handle) (d : FileDescriptor) :
    Prop where
  name : d.name = some h.name
  mode : d.mode = if h.writable then readWriteFile else readFile
  file : ∃ f, d.file = some f ∧ f.currentOffset = h.offset ∧ dir h.name = some (node f.file)

theorem rel_imp {α β : Type} {R R' : α → β → Prop} {a : Option α} {b : Option β}
    (h : Option.Rel R a b) (hR : ∀ x y, R x y → R' x y) :
    Option.Rel R' a b := by
  cases h with
  | none => exact .none
  | some hxy => exact .some (hR _ _ hxy)

/-- The kernel's state shows the desk. -/
structure Shows (k : NamedIo) (s : Desk) : Prop where
  reach : Io.Reach k.io
  dir : ∀ name, s.files.dir name = (k.dir name).map k.io.files.content
  inj : ∀ name name' node, k.dir name = some node → k.dir name' = some node → name = name'
  handles : ∀ id, Option.Rel (Shown k.dir k.io.files.node) (s.files.handles.lookup id)
    (k.io.table.fdMap id)
  console : s.console = k.io.console

namespace Shows

variable {k k' : NamedIo} {s s' : Desk} {u : UserMem} {env : HostEnv} {v : BitVec 32} {n : ℕ}
  {id ret r : ℤ} {fresh : ℕ} {h : Handle} {d : FileDescriptor} {name : List Byte}

theorem inv (hs : Shows k s) : Io.Inv k.io := Io.inv_reach hs.reach

/-- The program that runs next has its own memory. -/
theorem withUser (hs : Shows k s) (hu : UserSpace u.pageTable) :
    Shows { k with io := { k.io with user := u } } s :=
  ⟨.step (.world u k.io.files) hs.reach hu rfl, hs.dir, hs.inj, hs.handles, hs.console⟩

/-- A descriptor that is open, in the store and in the table. -/
theorem of_lookup (hs : Shows k s) (hl : s.files.handles.lookup id = some h) :
    ∃ d, k.io.table.fdMap id = some d ∧ Shown k.dir k.io.files.node h d := by
  have hrel := hs.handles id
  rw [hl] at hrel
  generalize k.io.table.fdMap id = o at hrel ⊢
  cases hrel with
  | some hshown => exact ⟨_, rfl, hshown⟩

theorem of_lookup_none (hs : Shows k s) (hl : s.files.handles.lookup id = none) :
    k.io.table.fdMap id = none := by
  have hrel := hs.handles id
  rw [hl] at hrel
  generalize k.io.table.fdMap id = o at hrel ⊢
  cases hrel
  rfl

theorem of_fdMap (hs : Shows k s) (hd : k.io.table.fdMap id = some d) :
    ∃ h, s.files.handles.lookup id = some h ∧ Shown k.dir k.io.files.node h d := by
  have hrel := hs.handles id
  rw [hd] at hrel
  generalize s.files.handles.lookup id = o at hrel ⊢
  cases hrel with
  | some hshown => exact ⟨_, rfl, hshown⟩

theorem slotOf_none (hs : Shows k s) (h0 : 0 ≤ id) (hl : s.files.handles.lookup id = none) :
    k.io.table.slotOf id = none := by
  cases hi : k.io.table.slotOf id with
  | none => rfl
  | some i =>
    have hd := hs.inv.slots.fdMap_of_slotOf h0 hi
    rw [hs.of_lookup_none hl] at hd
    cases hd

/-- An open file is the host's descriptor that it is open under. -/
theorem file_eq (hs : Shows k s) (hd : k.io.table.fdMap id = some d) {f : OpenFile}
    (hf : d.file = some f) : f.file = id := by
  obtain ⟨i, -, hocc, hid, hslot⟩ := (Table.fdMap_eq_some hs.inv.slots.table.distinct).mp hd
  have hmode := (hs.inv.slots.offset hslot hf (hslot ▸ hocc)).1
  obtain ⟨f', hf', hsame⟩ := hs.inv.slots.table.file i (hslot.symm ▸ hmode)
  rw [show (TableSys.mk k.io.table k.io.host).table.slot i = d from hslot, hf,
    Option.some.injEq] at hf'
  rw [← hid, hslot, hf']
  exact (hslot ▸ hsame : f'.fileID = d.id)

/-- A change of what is open elsewhere. -/
theorem rel_node (hs : Shows k s) {node : ℤ → ℕ} (id : ℤ) (hnode : node id = k.io.files.node id) :
    Option.Rel (Shown k.dir node) (s.files.handles.lookup id) (k.io.table.fdMap id) := by
  have hrel := hs.handles id
  cases hd : k.io.table.fdMap id with
  | none =>
    rw [hd] at hrel
    generalize s.files.handles.lookup id = a at hrel ⊢
    cases hrel
    exact .none
  | some d =>
    obtain ⟨h, hl, hshown⟩ := hs.of_fdMap hd
    obtain ⟨f, hf, hoff, hdir⟩ := hshown.file
    rw [hl]
    refine .some ⟨hshown.name, hshown.mode, f, hf, hoff, ?_⟩
    have hfile := hs.file_eq hd hf
    rw [hdir, hfile, hnode]

/-- The content of an open file is that of the host's. -/
theorem content_eq (hs : Shows k s) (hshown : Shown k.dir k.io.files.node h d) {f : OpenFile}
    (hf : d.file = some f) :
    s.files.content h = k.io.files.fileOf f.file ∧ f.currentOffset = h.offset := by
  obtain ⟨f', hf', hoff, hdir⟩ := hshown.file
  rw [hf, Option.some.injEq] at hf'
  subst hf'
  refine ⟨?_, hoff⟩
  unfold FileStore.content
  rw [hs.dir, hdir]
  rfl

end Shows

/-! ### The host's files -/

section Host

variable {h h' : HostFiles} {d d' : FileDescriptor} {env : HostEnv} {n pos r : ℤ}
  {bytes buffer : List Byte}

/-- Moving and reading leave the files as they are. -/
def HostFiles.Same (h h' : HostFiles) : Prop := h'.node = h.node ∧ h'.content = h.content

theorem HostFiles.Same.trans {h'' : HostFiles} (h₁ : h.Same h') (h₂ : h'.Same h'') : h.Same h'' :=
  ⟨h₂.1.trans h₁.1, h₂.2.trans h₁.2⟩

theorem HostFiles.same_lseek (h : HostFiles) (ok : Bool) (fd offset : ℤ) (whence : Whence) :
    h.Same (h.lseek ok fd offset whence).1 := by
  unfold HostFiles.lseek
  simp only
  split_ifs
  · exact ⟨rfl, rfl⟩
  · exact ⟨rfl, rfl⟩

theorem Sysdep.same_lseek {ok : Bool} {fd offset : ℤ} {whence : Whence}
    (hl : Sysdep.lseek h ok fd offset whence = .ok h') : h.Same h' := by
  unfold Sysdep.lseek at hl
  split_ifs at hl
  cases hl
  exact h.same_lseek ok fd offset whence

theorem OpenFile.same_length {f : OpenFile} {k : ℕ} {len : ℤ}
    (hl : f.length env h k = .ok (h', len)) : h.Same h' := by
  obtain ⟨h₁, hseek, hl⟩ := bind_eq_ok hl
  have htell := h₁.same_lseek (env.lseek (k + 1)) f.file 0 .cur
  rw [show h₁.lseek (env.lseek (k + 1)) f.file 0 .cur = (h', len) from Except.ok.inj hl] at htell
  exact (Sysdep.same_lseek hseek).trans htell

theorem FileDescriptor.same_seek (hs : d.seek env h pos = .ok (d', h', r)) : h.Same h' := by
  unfold FileDescriptor.seek at hs
  cases hf : d.file with
  | none =>
    rw [hf] at hs
    cases hs
  | some f =>
    rw [hf] at hs
    obtain ⟨⟨h₁, len⟩, hl, hs⟩ := bind_eq_ok hs
    simp only at hs
    split_ifs at hs
    · cases hs
      exact OpenFile.same_length hl
    · obtain ⟨⟨h₂, len₂⟩, hl₂, hs⟩ := bind_eq_ok hs
      cases hs
      exact (OpenFile.same_length hl).trans (OpenFile.same_length hl₂)
    · cases hs
      exact OpenFile.same_length hl

theorem FileDescriptor.same_read (hr : d.read env h n = .ok (d', h', bytes, r)) : h.Same h' := by
  unfold FileDescriptor.read at hr
  cases hf : d.file with
  | none =>
    rw [hf] at hr
    cases hr
  | some f =>
    rw [hf] at hr
    simp only [OpenFile.read, OpenFile.readAt] at hr
    cases hl : Sysdep.lseek h (env.lseek 0) f.file f.currentOffset .set with
    | error e =>
      rw [hl] at hr
      cases hr
    | ok h₁ =>
      rw [hl] at hr
      obtain ⟨h₂, hread, hnode, hcontent⟩ := HostFiles.read_eq h₁ env f.file n
      simp only [bind, Except.bind, hread, pure, Except.pure, Except.map] at hr
      cases hr
      exact (Sysdep.same_lseek hl).trans ⟨hnode, hcontent⟩

/-- Writing changes the content of a file only. -/
theorem FileDescriptor.node_write (hw : d.write env h buffer n = .ok (d', h', r)) :
    h'.node = h.node := by
  unfold FileDescriptor.write at hw
  split_ifs at hw with hm
  · cases hf : d.file with
    | none =>
      rw [hf] at hw
      cases hw
    | some f =>
      rw [hf] at hw
      simp only [OpenFile.write, OpenFile.writeAt] at hw
      cases hl : Sysdep.lseek h (env.lseek 0) f.file f.currentOffset .set with
      | error e =>
        rw [hl] at hw
        cases hw
      | ok h₁ =>
        rw [hl] at hw
        have hnode : (h₁.write env.write f.file buffer n).1.node = h₁.node := by
          unfold HostFiles.write
          cases env.write with
          | none => rfl
          | some most =>
            simp only
            split_ifs
            · rfl
            · rfl
        simp only [bind, Except.bind, Sysdep.writeFile] at hw
        split_ifs at hw
        · cases hw
          exact hnode.trans (Sysdep.same_lseek hl).1
        · cases hw
  · cases hw
    rfl

end Host

/-! ### The names -/

/-- The string at `v` ends before its 32nd byte. -/
def UserMem.EndsWithin (u : UserMem) (v : BitVec 32) : Prop :=
  ∃ m < 32, v.toNat + m < u.size ∧ u.byte (v.toNat + m) = 0

theorem UserMem.EndsWithin.names {u : UserMem} {v : BitVec 32} (hs : UserSpace u.pageTable)
    (h : u.EndsWithin v) :
    openName u v = .ok (u.text v) ∧ removeName u v = .ok (u.text v) ∧
    createName u v = .ok (u.text v) := by
  obtain ⟨m, hm, hin, h0⟩ := h
  have hwithin : Within (fun k => u.byte (v.toNat + k)) v.toNat 32 u.size := by
    intro k _ hne
    have hk : k ≤ m := by
      by_contra hk
      exact hne m (by omega) h0
    omega
  have hopen : openName u v = .ok (u.text v) := by
    calc openName u v = nameWithin u v (32 : ℕ) := rfl
      _ = .ok (u.text v) := by
        rw [nameWithin_eq hs (by decide), if_pos hwithin]
        rfl
  exact ⟨hopen, hopen, (createName_eq_of_zero hs hm h0).trans hopen⟩

/-! ### The buffers -/

theorem untilZero_congr {f g : ℕ → Byte} {k : ℕ} (h : ∀ j ≤ k, f j = g j) :
    untilZero f k = untilZero g k := by
  unfold untilZero
  have hzero : (∃ j < k, f j = 0) ↔ ∃ j < k, g j = 0 :=
    exists_congr fun j => and_congr_right fun hj => by rw [h j hj.le]
  rw [if_congr hzero rfl (h k le_rfl)]

theorem landed_congr {b b' u u' : ℕ → Byte} {k : ℕ} (hb : ∀ j ≤ k, b j = b' j) (hu : u k = u' k) :
    Io.landed b u k = Io.landed b' u' k := by
  unfold Io.landed
  have hne : (∀ j < k, b j ≠ 0) ↔ ∀ j < k, b' j ≠ 0 := forall₂_congr fun j hj => by rw [hb j hj.le]
  rw [if_congr hne (hb k le_rfl) hu]

namespace UserMem

variable {u u' : UserMem} {v n k : ℕ}

@[simp] theorem length_bytes (u : UserMem) (v n : ℕ) : (u.bytes v n).length = n := by
  unfold UserMem.bytes
  rw [List.length_map, List.length_range]

theorem getD_bytes (hk : k < n) : (u.bytes v n).getD k 0 = u.byte (v + k) := by
  unfold UserMem.bytes
  rw [List.getD_eq_getElem?_getD, List.getElem?_map, List.getElem?_range hk]
  rfl

/-- What the kernel takes from a buffer. -/
theorem zeroed_bytes (u : UserMem) (v n : ℕ) :
    zeroed (u.bytes v n) = (List.range n).map (untilZero fun k => u.byte (v + k)) := by
  unfold zeroed
  rw [length_bytes]
  refine List.map_congr_left fun k hk => untilZero_congr fun j hj => getD_bytes ?_
  exact lt_of_le_of_lt hj (List.mem_range.mp hk)

/-- What the buffer holds after `bytes` were copied out to it. -/
theorem bytes_overwritten {bytes : List Byte} {b : ℕ → Byte}
    (hb : ∀ k < n, u'.byte (v + k) = Io.landed b (fun k => u.byte (v + k)) k) (heq : ∀ k < n, b k =
      Io.overlaid (fun k => bytes.getD k 0) (fun k => u.byte (v + k)) bytes.length k) :
    u'.bytes v n = overwritten bytes (u.bytes v n) := by
  unfold overwritten
  rw [length_bytes]
  refine List.map_congr_left fun k hk => ?_
  have hk := List.mem_range.mp hk
  rw [hb k hk]
  refine landed_congr (fun j hj => ?_) (getD_bytes hk).symm
  rw [heq j (by omega)]
  unfold Io.overlaid
  rw [untilZero_congr fun i hi => (getD_bytes (lt_of_le_of_lt (le_trans hi hj) hk)).symm]

end UserMem

/-! ### The calls, one by one -/

namespace Shows

variable {k k' : NamedIo} {s s' : Desk} {u : UserMem} {env : HostEnv} {v : BitVec 32} {n : ℕ}
  {id ret r : ℤ} {fresh : ℕ} {h : Handle} {d : FileDescriptor} {name : List Byte}

/-- A call of the kernel that returns is a step of its run. -/
theorem step_reach (hs : Shows k s) {l : Io.Label} {io' : Io} (hl : Io.Fair k.io l)
    (hc : k.io.call l = .ok (io', r)) : Io.Reach io' := by
  refine .step l hs.reach hl ?_
  unfold Io.step
  rw [hc]

/-- The name gets an empty file, its own or a new one. -/
theorem create (hs : Shows k s) (hname : k.io.user.EndsWithin v) (hclose : env.close = true)
    (h0 : 0 ≤ ret) (hret : ret ∉ k.io.host.openFds) (hfresh : ∀ name, k.dir name ≠ some fresh) :
    ∃ k', k.create env v ret fresh = .ok (k', (s.files.create (k.io.user.text v)).2) ∧
      Shows k' { s with files := (s.files.create (k.io.user.text v)).1 } := by
  obtain ⟨-, -, hcreate⟩ := hname.names hs.inv.space
  obtain ⟨filename, user, hu, hcstr⟩ := NamedIo.copy_of_name hcreate
  generalize k.io.user.text v = name at hcreate hcstr ⊢
  generalize hnode : (k.dir name).getD fresh = node
  have hkernel : k.io.sysCreate env v ret node =
      if name = [] then .ok ({ k.io with user := user }, -1)
      else .ok ({ k.io with
        host := ((k.io.host.opened ret).close ret).1
        files := { k.io.files with content := Function.update k.io.files.content node [] }
        user := user }, 0) := by
    unfold Io.sysCreate
    rw [show user2System k.io.user v (maxFileLength + 1) = .ok (filename, user) from hu]
    simp only [hcstr, if_neg (not_lt.mpr h0), hclose, Bool.true_eq_false, if_false]
  unfold NamedIo.create FileStore.create
  simp only [hcreate, hnode]
  by_cases hnil : name = []
  · rw [if_pos hnil] at hkernel
    have hreach := hs.step_reach (l := .create env v ret node) (Or.inr ⟨h0, hret⟩) hkernel
    rw [hkernel, if_pos hnil]
    exact ⟨_, rfl, hreach, hs.dir, hs.inj, hs.handles, hs.console⟩
  · rw [if_neg hnil] at hkernel
    have hreach := hs.step_reach (l := .create env v ret node) (Or.inr ⟨h0, hret⟩) hkernel
    rw [hkernel, if_neg hnil]
    -- no other name has this file
    have hown : ∀ name', k.dir name' = some node → name' = name := by
      intro name' hdir
      rw [← hnode] at hdir
      cases hold : k.dir name with
      | none =>
        rw [hold] at hdir
        exact absurd hdir (hfresh name')
      | some old =>
        rw [hold] at hdir
        exact hs.inj name' name old hdir hold
    refine ⟨_, rfl, hreach, fun name' => ?_, fun name₁ name₂ node' h₁ h₂ => ?_,
      fun id => ?_, hs.console⟩
    · simp only [if_true, Function.update_apply]
      split_ifs with hn
      · simp
      · rw [hs.dir]
        cases hdir : k.dir name' with
        | none => rfl
        | some node' =>
          have hne : node' ≠ node := fun he => hn (hown name' (he ▸ hdir))
          simp [hne]
    · simp only [if_true, Function.update_apply] at h₁ h₂
      split_ifs at h₁ h₂ with hn₁ hn₂ hn₂
      · rw [hn₁, hn₂]
      · rw [Option.some.injEq] at h₁
        exact absurd (hown name₂ (h₁ ▸ h₂)) hn₂
      · rw [Option.some.injEq] at h₂
        exact absurd (hown name₁ (h₂ ▸ h₁)) hn₁
      · exact hs.inj name₁ name₂ node' h₁ h₂
    · refine rel_imp (hs.handles id) fun h d hshown => ?_
      obtain ⟨f, hf, hoff, hdir⟩ := hshown.file
      refine ⟨hshown.name, hshown.mode, f, hf, hoff, ?_⟩
      simp only [if_true, Function.update_apply]
      split_ifs with hn
      · rw [← hnode, ← hn, hdir]
        rfl
      · exact hdir

/-- The store is full where the table is. -/
theorem full_iff (hs : Shows k s) :
    usable.length ≤ s.files.handles.keys.length ↔ k.io.table.findFreeSlot = none := by
  let occupied := usable.filter fun i => (k.io.table.slot i).Occupied
  have hids : s.files.handles.keys.Perm (occupied.map fun i => (k.io.table.slot i).id) := by
    refine (List.perm_ext_iff_of_nodup s.files.handles.keys_nodup ?_).mpr fun id => ?_
    · refine List.Nodup.map_on (fun i hi j hj he => ?_) (List.Nodup.filter _ (by decide))
      exact hs.inv.slots.table.distinct i j (by simpa using (List.mem_filter.mp hi).2)
        (by simpa using (List.mem_filter.mp hj).2) he
    · have hlookup : id ∈ s.files.handles.keys ↔ (s.files.handles.lookup id).isSome :=
        AList.lookup_isSome.symm
      have hboth : (s.files.handles.lookup id).isSome = (k.io.table.fdMap id).isSome := by
        have hrel := hs.handles id
        generalize s.files.handles.lookup id = a at hrel ⊢
        generalize k.io.table.fdMap id = b at hrel ⊢
        cases hrel <;> rfl
      rw [hlookup, hboth, Table.isSome_fdMap, List.mem_map]
      unfold Table.IsOpen
      simp only [occupied, List.mem_filter, decide_eq_true_eq, and_assoc]
  have hlen : s.files.handles.keys.length = occupied.length := by
    rw [hids.length_eq, List.length_map]
  rw [hlen]
  constructor
  · intro hle
    have hall := List.length_filter_eq_length_iff.mp (le_antisymm (List.length_filter_le _ _) hle)
    exact List.find?_eq_none.mpr fun i hi => by
      simpa [FileDescriptor.Occupied] using of_decide_eq_true (hall i hi)
  · intro hnone
    have hall : ∀ i ∈ usable, decide (k.io.table.slot i).Occupied = true :=
      fun i hi => decide_eq_true (Table.findFreeSlot_none hnone i hi)
    exact (List.length_filter_eq_length_iff.mpr hall).ge

/-- `SysOpen` for a result of the host's `open`. -/
theorem sysOpen_eq (hs : Shows k s) {filename : List Byte} {user : UserMem}
    (hu : user2System k.io.user v maxFileLength = .ok (filename, user)) (type : ℤ) {ret : ℤ}
    (hret : k.io.host.Result ret) (node : ℕ) :
    ∃ t host r, TableSys.Adds ⟨k.io.table, k.io.host⟩ ret
      (TableSys.fileEntry (FileDescriptor.cstr filename) type ret) ⟨t, host⟩ r ∧
      k.io.sysOpen v type ret node = if type ≠ 0 ∧ type ≠ 1 then .ok (k.io, -1)
        else if FileDescriptor.cstr filename = [] then .ok ({ k.io with user := user }, -1)
        else .ok ({ k.io with
          table := t
          host := host
          files := if r = -1 then k.io.files else k.io.files.opened r node
          user := user }, r) := by
  obtain ⟨s', r, hcall, -, hadds⟩ :=
    TableSys.open_spec hs.inv.slots.table (FileDescriptor.cstr filename) type hret
  obtain ⟨rfl, rfl⟩ := Prod.mk.inj (Option.some.inj hcall)
  refine ⟨_, _, _, hadds, ?_⟩
  unfold Io.sysOpen
  rw [hu]
  rfl

/-- A name that has a file gets a descriptor for it, while there is one. -/
theorem open_ (hs : Shows k s) (hname : k.io.user.EndsWithin v) (h0 : 0 ≤ ret)
    (hret : ret ∉ k.io.host.openFds) (type : ℤ) :
    ∃ k', k.open_ v type ret = .ok (k', (s.files.open_ (k.io.user.text v) type ret).2) ∧
      Shows k' { s with files := (s.files.open_ (k.io.user.text v) type ret).1 } := by
  obtain ⟨hopen, -, -⟩ := hname.names hs.inv.space
  obtain ⟨filename, user, hu, hcstr⟩ := NamedIo.copy_of_name hopen
  generalize k.io.user.text v = name at hopen hcstr ⊢
  obtain ⟨ret', node, hresult, hfile, hcall⟩ : ∃ ret' node, k.io.host.Result ret' ∧
      (k.dir name = none ∧ ret' = -1 ∨ k.dir name = some node ∧ ret' = ret) ∧
      k.open_ v type ret = (k.io.sysOpen v type ret' node).map fun r => (⟨r.1, k.dir⟩, r.2) := by
    unfold NamedIo.open_
    simp only [hopen, Except.toOption, Option.bind_some]
    cases hdir : k.dir name with
    | none => exact ⟨-1, 0, Or.inl rfl, Or.inl ⟨rfl, rfl⟩, rfl⟩
    | some node => exact ⟨ret, node, Or.inr ⟨h0, hret⟩, Or.inr ⟨rfl, rfl⟩, rfl⟩
  obtain ⟨t, host, r, hadds, hkernel⟩ := hs.sysOpen_eq hu type hresult node
  rw [hcstr] at hadds hkernel
  rw [hcall]
  unfold FileStore.open_
  by_cases ht : type ≠ 0 ∧ type ≠ 1
  · rw [if_pos ht] at hkernel ⊢
    rw [hkernel]
    exact ⟨_, rfl, hs⟩
  by_cases hnil : name = []
  · rw [if_neg ht, if_pos hnil] at hkernel ⊢
    have hreach := hs.step_reach (l := .open_ v type ret' node) hresult hkernel
    rw [hkernel]
    exact ⟨_, rfl, hreach, hs.dir, hs.inj, hs.handles, hs.console⟩
  rw [if_neg ht, if_neg hnil] at hkernel ⊢
  have hreach := hs.step_reach (l := .open_ v type ret' node) hresult hkernel
  rw [hkernel]
  have hfail : r = -1 → Shows ⟨{ k.io with
      table := t
      host := host
      files := if r = -1 then k.io.files else k.io.files.opened r node
      user := user }, k.dir⟩ s := by
    intro hr
    refine ⟨hreach, ?_, hs.inj, ?_, hs.console⟩
    · rw [if_pos hr]
      exact hs.dir
    · rw [if_pos hr]
      simp only [show t.fdMap = k.io.table.fdMap from hadds.failed hr]
      exact hs.handles
  by_cases hfull : usable.length ≤ s.files.handles.keys.length
  · have hr : r = -1 := by
      by_contra hr
      obtain ⟨⟨i, hi, hm⟩, -⟩ := hadds.success.mp hr
      exact Table.findFreeSlot_none (hs.full_iff.mp hfull) i hi hm
    subst hr
    rw [if_pos hfull]
    exact ⟨_, rfl, hfail rfl⟩
  rw [if_neg hfull]
  rcases hfile with ⟨hdir, hret'⟩ | ⟨hdir, hret'⟩
  · have hr : r = -1 := by
      by_contra hr
      exact (hadds.success.mp hr).2 hret'
    have hmissing : s.files.dir name = none := by rw [hs.dir, hdir]; rfl
    subst hr
    rw [if_pos hmissing]
    exact ⟨_, rfl, hfail rfl⟩
  · rw [hret'] at hadds
    obtain ⟨i, hi⟩ := Option.ne_none_iff_exists'.mp fun hnone => hfull (hs.full_iff.mpr hnone)
    have hr : r ≠ -1 := hadds.success.mpr ⟨⟨i, Table.findFreeSlot_some hi⟩, by omega⟩
    obtain ⟨rfl, -, hmap⟩ := hadds.added hr
    have hthere : s.files.dir name ≠ none := by rw [hs.dir, hdir]; exact Option.some_ne_none _
    rw [if_neg hthere]
    refine ⟨_, rfl, hreach, ?_, hs.inj, fun id => ?_, hs.console⟩
    · rw [if_neg hr]
      exact hs.dir
    · simp only [if_neg hr, show t.fdMap = _ from hmap, FileStore.setHandle]
      by_cases hid : id = r
      · rw [hid, AList.lookup_insert, Function.update_self]
        refine .some ⟨rfl, ?_, _, rfl, rfl, ?_⟩
        · simp [TableSys.fileEntry]
        · rw [hdir]
          exact congrArg some (Function.update_self r node k.io.files.node).symm
      · rw [AList.lookup_insert_ne hid, Function.update_of_ne hid]
        exact hs.rel_node id (Function.update_of_ne hid _ _)

/-- An open file is closed, and nothing else. -/
theorem close (hs : Shows k s) (hclose : env.close = true) (id : ℤ) :
    ∃ io', k.io.sysClose env id = .ok (io', (s.files.close id).2) ∧
      Shows { k with io := io' } { s with files := (s.files.close id).1 } := by
  have hreach := fun {io' r} (hc : k.io.sysClose env id = .ok (io', r)) => hs.step_reach
    (l := .close env id) trivial hc
  unfold FileStore.close
  cases hl : s.files.handles.lookup id with
  | none =>
    rw [if_pos rfl]
    have hd := hs.of_lookup_none hl
    cases hi : k.io.table.slotOf id with
    | none =>
      have hkernel : k.io.sysClose env id = .ok (k.io, -1) := by
        unfold Io.sysClose
        rw [hi]
      exact ⟨_, hkernel, hs⟩
    | some i =>
      -- a free slot has the id -1
      have hid : (k.io.table.slot i).id = -1 := by
        by_contra hid
        have hsome := Table.isSome_fdMap.mpr
          ⟨i, (Table.slotOf_some hi).1, fun hm => hid ((hs.inv.slots.table.free i).mp hm),
            (Table.slotOf_some hi).2⟩
        rw [hd] at hsome
        cases hsome
      have hkernel : k.io.sysClose env id = .ok (k.io, -1) := by
        unfold Io.sysClose FileDescriptor.closeFile
        rw [hi]
        simp [hid, Table.set]
      exact ⟨_, hkernel, hs⟩
  | some h =>
    rw [if_neg (Option.some_ne_none _)]
    obtain ⟨d, hd, -⟩ := hs.of_lookup hl
    obtain ⟨i, hi, hslotOf, hslot, h2⟩ := hs.inv.slots.lookup hd
    have hid : (k.io.table.slot i).id = id := (Table.slotOf_some hslotOf).2
    have hocc : (k.io.table.slot i).Occupied := hslot ▸ hs.inv.slots.occupied hd
    have hlive : id ∈ k.io.host.openFds := hid ▸ (hs.inv.slots.table.live i hocc).2
    have hne : (k.io.table.slot i).id ≠ -1 := by omega
    have hkernel : k.io.sysClose env id =
        .ok ({ k.io with
          table := k.io.table.set i ⟨-1, -1, none, none⟩, host := (k.io.host.close id).1 }, 0) := by
      unfold Io.sysClose FileDescriptor.closeFile
      rw [hslotOf]
      simp [hclose, hid, show id ≠ -1 by omega, Host.close, hlive]
    obtain ⟨-, hremoves⟩ := TableSys.removes_ok (d := ⟨-1, -1, none, none⟩)
      hs.inv.slots.table hslotOf hne rfl rfl (by decide)
    obtain ⟨-, -, hmap⟩ := hremoves.removed rfl
    refine ⟨_, hkernel, hreach hkernel, hs.dir, hs.inj, fun id' => ?_, hs.console⟩
    simp only [show (k.io.table.set i ⟨-1, -1, none, none⟩).fdMap = _ from hmap]
    by_cases hid' : id' = id
    · rw [hid', AList.lookup_erase, Function.update_self]
      exact .none
    · rw [AList.lookup_erase_ne hid', Function.update_of_ne hid']
      exact hs.handles id'

/-- What moves the offset of an open file, and what it writes. -/
theorem moved (hs : Shows k s) (hl : s.files.handles.lookup id = some h)
    (hd : k.io.table.fdMap id = some d) {f : OpenFile} (hf : d.file = some f) {io' : Io}
    {fs : FileStore} {off : ℤ} (hreach : Io.Reach io') (hnode : io'.files.node = k.io.files.node)
    (hconsole : io'.console = k.io.console)
    (hmap : io'.table.fdMap = Function.update k.io.table.fdMap id
      (some { d with file := some { f with currentOffset := off } }))
    (hdir : ∀ name, fs.dir name = (k.dir name).map io'.files.content)
    (hhandles : fs.handles = s.files.handles.insert id { h with offset := off }) :
    Shows { k with io := io' } { s with files := fs } := by
  obtain ⟨h', hl', hshown⟩ := hs.of_fdMap hd
  rw [hl, Option.some.injEq] at hl'
  subst hl'
  obtain ⟨f', hf', -, hname⟩ := hshown.file
  rw [hf, Option.some.injEq] at hf'
  subst hf'
  refine ⟨hreach, hdir, hs.inj, fun id' => ?_, hs.console.trans hconsole.symm⟩
  simp only [hmap, hhandles, hnode]
  by_cases hid : id' = id
  · rw [hid, AList.lookup_insert, Function.update_self]
    exact .some ⟨hshown.name, hshown.mode, _, rfl, rfl, hname⟩
  · rw [AList.lookup_insert_ne hid, Function.update_of_ne hid]
    exact hs.handles id'

/-- What changes nothing that the store shows. -/
theorem keep (hs : Shows k s) {io' : Io} (hreach : Io.Reach io') (hsame : k.io.files.Same io'.files)
    (hmap : io'.table.fdMap = k.io.table.fdMap) (hconsole : io'.console = k.io.console) :
    Shows { k with io := io' } s := by
  refine ⟨hreach, fun name => ?_, hs.inj, fun id => ?_, hs.console.trans hconsole.symm⟩
  · rw [hs.dir, hsame.2]
  · simp only [hmap, hsame.1]
    exact hs.handles id

theorem alike_ok {x : Except SysStop (Io × ℤ)} {io' : Io} {y : Programs.Outcome (FileStore × ℤ)}
    {fs : FileStore} (hx : x = .ok (io', r)) (hy : y = .next (fs, r))
    (hshows : Shows { k with io := io' } { s with files := fs }) :
    Calls.Alike Shows
      (x.toOption.map fun r => (({ k with io := r.1 } : NamedIo), (⟨r.2, []⟩ : Reply)))
    (y.toOption.map s.onFiles) := by
  rw [hx, hy]
  exact .some ⟨rfl, hshows⟩

theorem alike_error {x : Except SysStop (Io × ℤ)} {e : SysStop}
    {y : Programs.Outcome (FileStore × ℤ)} (hx : x = .error e) (hy : y = .fault) :
    Calls.Alike Shows
      (x.toOption.map fun r => (({ k with io := r.1 } : NamedIo), (⟨r.2, []⟩ : Reply)))
    (y.toOption.map s.onFiles) := by
  rw [hx, hy]
  exact .none

/-- Seeking. -/
theorem seek (hs : Shows k s) (henv : ∀ j, env.lseek j = true) (pos : BitVec 32) (id : ℤ)
    (hlen : ∀ h, s.files.handles.lookup id = some h → (s.files.content h).length < 2 ^ 31) :
    Calls.Alike Shows ((k.io.sysSeek env pos.toInt id).toOption.map fun r =>
      (({ k with io := r.1 } : NamedIo), (⟨r.2, []⟩ : Reply)))
      ((s.files.seek pos.toInt id).toOption.map s.onFiles) := by
  have hreach := fun {io' r} (hc : k.io.sysSeek env pos.toInt id = .ok (io', r)) => hs.step_reach
    (l := .seek env pos id) trivial hc
  by_cases h2 : id < 2
  · exact alike_ok (Io.sysSeek_console h2) (if_pos h2) hs
  cases hl : s.files.handles.lookup id with
  | none =>
    refine alike_error (Io.sysSeek_none (not_lt.mp h2) (hs.slotOf_none (by omega) hl)) ?_
    unfold FileStore.seek
    rw [if_neg h2, hl]
  | some h =>
    obtain ⟨d, hd, hshown⟩ := hs.of_lookup hl
    obtain ⟨f, hf, -, -⟩ := hshown.file
    obtain ⟨hcontent, -⟩ := hs.content_eq hshown hf
    obtain ⟨i, hi, hslotOf, rfl, -⟩ := hs.inv.slots.lookup hd
    have hlen := hlen h hl
    have hwrap : wrap32 (k.io.files.fileOf f.file).length = (s.files.content h).length := by
      rw [← hcontent]
      exact wrap32_of_lt (by omega) (by exact_mod_cast hlen)
    obtain ⟨⟨d', files, r⟩, hseek⟩ : ∃ x, (k.io.table.slot i).seek env k.io.files
        pos.toInt = .ok x :=
      (FileDescriptor.seek_returns_iff hf k.io.files pos.toInt).mpr
        ⟨henv 0, by omega, fun _ _ => henv 2⟩
    have hkernel : k.io.sysSeek env pos.toInt id =
        .ok ({ k.io with table := k.io.table.set i d', files := files }, r) := by
      rw [Io.sysSeek_some (not_lt.mp h2) hslotOf, hseek]
      rfl
    have hsame := FileDescriptor.same_seek hseek
    have hmoved := hs.inv.slots.fdMap_moved hd hi
      (FileDescriptor.seek_moves ⟨BitVec.le_toInt pos, BitVec.toInt_lt⟩ hseek)
    have hdir : ∀ name, s.files.dir name = (k.dir name).map files.content :=
      fun name => by rw [hs.dir, hsame.2]
    obtain ⟨-, hcases⟩ := FileDescriptor.seek_spec hf hseek
    simp only [hwrap, HostEnv.told, if_pos (henv 1), if_pos (henv 3)] at hcases
    have hstore : s.files.seek pos.toInt id =
        if (s.files.content h).length ≤ pos.toInt then .next (s.files, -1)
        else if pos.toInt = -1 then
          .next (s.files.setHandle id { h with offset := (s.files.content h).length },
            (s.files.content h).length)
        else .next (s.files.setHandle id { h with offset := pos.toInt }, pos.toInt) := by
      unfold FileStore.seek
      rw [if_neg h2, hl]
    rcases hcases with ⟨hge, rfl, rfl⟩ | ⟨hlt, hend, rfl, rfl⟩ | ⟨hlt, hne, rfl, rfl⟩
    · refine alike_ok hkernel (hstore.trans (if_pos hge)) (hs.keep (hreach hkernel) hsame ?_ rfl)
      simp [Table.set]
    · rw [if_neg (not_le.mpr hlt), if_pos hend] at hstore
      exact alike_ok hkernel hstore (hs.moved hl hd hf (hreach hkernel) hsame.1 rfl hmoved hdir rfl)
    · rw [if_neg (not_le.mpr hlt), if_neg hne] at hstore
      exact alike_ok hkernel hstore (hs.moved hl hd hf (hreach hkernel) hsame.1 rfl hmoved hdir rfl)

/-- What `SysWrite` leaves besides the content. -/
theorem sysWrite_keeps {s s' : Io} (h2 : 2 ≤ id) (hw : s.sysWrite env v n id = .ok (s', r)) :
    s'.console = s.console ∧ s'.files.node = s.files.node := by
  cases hi : s.table.slotOf id with
  | none =>
    rw [Io.sysWrite_none h2 hi] at hw
    obtain ⟨b, -, hw⟩ := bind_eq_ok hw
    cases hw
  | some i =>
    rw [Io.sysWrite_some h2 hi] at hw
    obtain ⟨⟨buffer, user⟩, -, hw⟩ := bind_eq_ok hw
    obtain ⟨⟨d, files, result⟩, hwrite, hw⟩ := bind_eq_ok hw
    obtain ⟨⟨u', m⟩, -, hw⟩ := bind_eq_ok hw
    cases hw
    exact ⟨rfl, FileDescriptor.node_write hwrite⟩

/-- Writing to a file. -/
theorem write (hs : Shows k s) (henv : ∀ j, env.lseek j = true)
    (hmapped : ∀ j < n, v.toNat + j < k.io.user.size) {most : ℕ} (hwrite : env.write = some most)
    (hmost : n ≤ most) (hid : id ≠ consoleOutputID)
    (hoff : ∀ h, s.files.handles.lookup id = some h → h.offset + n < 2 ^ 31) :
    Calls.Alike Shows ((k.io.sysWrite env v n id).toOption.map fun r =>
      (({ k with io := r.1 } : NamedIo), (⟨r.2, []⟩ : Reply)))
      ((s.files.write (k.io.user.bytes v.toNat n) id).toOption.map s.onFiles) := by
  have hreach := fun {io' r} (hc : k.io.sysWrite env v n id = .ok (io', r)) => hs.step_reach
    (l := .write env v n id) trivial hc
  unfold consoleOutputID at hid
  by_cases h2 : id < 2
  · have hkernel : k.io.sysWrite env v n id = .ok (k.io, -1) := by
      rcases lt_or_ge id 0 with hneg | hnonneg
      · exact Io.sysWrite_neg hneg
      · obtain rfl : id = 0 := by omega
        exact Io.sysWrite_input
    exact alike_ok hkernel (if_pos h2) hs
  have hcopy :=
    user2System_ok hs.inv.space (sizeOk_of_mapped hs.inv.space hmapped) (Within.of_mapped hmapped)
  obtain ⟨l, u', hu, hlen, -, -, hcore⟩ := hcopy
  cases hl : s.files.handles.lookup id with
  | none =>
    have hkernel : k.io.sysWrite env v n id = .error .nullDescriptor := by
      rw [Io.sysWrite_none (not_lt.mp h2) (hs.slotOf_none (by omega) hl), hu]
      rfl
    refine alike_error hkernel ?_
    unfold FileStore.write
    rw [if_neg h2, hl]
  | some h =>
    obtain ⟨d, hd, hshown⟩ := hs.of_lookup hl
    obtain ⟨f, hf, hoffset, hname⟩ := hshown.file
    obtain ⟨hcontent, -⟩ := hs.content_eq hshown hf
    have hmode := hshown.mode
    have hstore : s.files.write (k.io.user.bytes v.toNat n) id =
        if h.writable = false then .next (s.files, -1)
        else if h.offset < 0 then .fault
        else .next ((FileStore.mk (Function.update s.files.dir h.name
            (some (splice (s.files.content h) h.offset.toNat (zeroed (k.io.user.bytes v.toNat n)))))
            s.files.handles).setHandle id
              { h with offset := h.offset + n }, n) := by
      unfold FileStore.write
      rw [if_neg h2, hl]
      simp only [UserMem.length_bytes]
    obtain ⟨i, hi, hslotOf, rfl, -⟩ := hs.inv.slots.lookup hd
    by_cases hwritable : h.writable = false
    · rw [hwritable] at hmode
      obtain ⟨u₂, m, hback, -, -⟩ := system2User_user2System hs.inv.space hu
      have hrefused : (k.io.table.slot i).write env k.io.files l n =
          .ok (k.io.table.slot i, k.io.files, -1) := by
        unfold FileDescriptor.write
        rw [hmode]
        rfl
      have hkernel : k.io.sysWrite env v n id =
          .ok ({ k.io with table := k.io.table.set i (k.io.table.slot i), user := u₂ }, -1) := by
        rw [Io.sysWrite_some (not_lt.mp h2) hslotOf, hu]
        simp only [bind, Except.bind, hrefused, hback]
        rfl
      refine alike_ok hkernel (hstore.trans (if_pos hwritable))
        (hs.keep (hreach hkernel) ⟨rfl, rfl⟩ ?_ rfl)
      simp [Table.set]
    · have hmode : (k.io.table.slot i).mode = readWriteFile := by
        rw [hmode, if_pos (by simpa using hwritable)]
      rw [if_neg hwritable] at hstore
      by_cases hneg : h.offset < 0
      · have hrange := (hs.inv.slots.offset rfl hf (hs.inv.slots.occupied hd)).2
        have hkernel : k.io.sysWrite env v n id = .error .assert := by
          rw [Io.sysWrite_some (not_lt.mp h2) hslotOf, hu]
          simp only [bind, Except.bind]
          rw [FileDescriptor.write_error hmode hf k.io.files hrange.2 (by omega) (by omega)
            fun hall => by omega]
        exact alike_error hkernel (hstore.trans (if_pos hneg))
      · rw [if_neg hneg] at hstore
        obtain ⟨io', hkernel, hfiles, hmap⟩ :=
          Io.sysWrite_file hs.inv hmapped hd hmode hf (by omega) hwrite hmost (henv 0)
        obtain ⟨hconsole, hnode⟩ := sysWrite_keeps (not_lt.mp h2) hkernel
        rw [wrap32_of_lt (by omega) (by rw [hoffset]; exact hoff h hl), hoffset] at hmap
        refine alike_ok hkernel hstore
          (hs.moved hl hd hf (hreach hkernel) hnode hconsole hmap (fun name => ?_) rfl)
        rw [hfiles]
        show Function.update s.files.dir h.name _ name = _
        rw [Function.update_apply]
        split_ifs with hn
        · rw [hn, hname, UserMem.zeroed_bytes, hcontent, hoffset]
          simp only [Option.map_some, Function.update_self]
        · rw [hs.dir]
          cases hdir : k.dir name with
          | none => rfl
          | some node =>
            have hne : node ≠ k.io.files.node f.file :=
              fun he => hn (hs.inj name h.name node hdir (he ▸ hname))
            simp [hne]

/-- What `SysRead` leaves besides the buffer. -/
theorem sysRead_keeps {s s' : Io} (h2 : 2 ≤ id) (hr : s.sysRead env v n id = .ok (s', r)) :
    s'.console = s.console ∧ s.files.Same s'.files := by
  cases hi : s.table.slotOf id with
  | none =>
    rw [Io.sysRead_none h2 hi] at hr
    obtain ⟨b, -, hr⟩ := bind_eq_ok hr
    cases hr
  | some i =>
    rw [Io.sysRead_some h2 hi] at hr
    obtain ⟨⟨buffer, user⟩, -, hr⟩ := bind_eq_ok hr
    obtain ⟨⟨d, files, bytes, result⟩, hread, hr⟩ := bind_eq_ok hr
    obtain ⟨⟨u', m⟩, -, hr⟩ := bind_eq_ok hr
    cases hr
    exact ⟨rfl, FileDescriptor.same_read hread⟩

theorem alike_read {x : Except SysStop (Io × ℤ)} {io' : Io}
    {y : Programs.Outcome (FileStore × List Byte × ℤ)} {fs : FileStore}
    {buffer : List Byte} (hx : x = .ok (io', r)) (hy : y = .next (fs, buffer, r))
    (hbuffer : io'.user.bytes v.toNat n = buffer)
    (hshows : Shows { k with io := io' } { s with files := fs }) :
    Calls.Alike Shows (x.toOption.map fun r =>
      (({ k with io := r.1 } : NamedIo), (⟨r.2, r.1.user.bytes v.toNat n⟩ : Reply)))
      (y.toOption.map fun r => (({ s with files := r.1 } : Desk), (⟨r.2.2, r.2.1⟩ : Reply))) := by
  rw [hx, hy]
  exact .some ⟨congrArg (Reply.mk r) hbuffer, hshows⟩

theorem alike_read_error {x : Except SysStop (Io × ℤ)} {e : SysStop}
    {y : Programs.Outcome (FileStore × List Byte × ℤ)} (hx : x = .error e) (hy : y = .fault) :
    Calls.Alike Shows (x.toOption.map fun r =>
      (({ k with io := r.1 } : NamedIo), (⟨r.2, r.1.user.bytes v.toNat n⟩ : Reply)))
      (y.toOption.map fun r => (({ s with files := r.1 } : Desk), (⟨r.2.2, r.2.1⟩ : Reply))) := by
  rw [hx, hy]
  exact .none

/-- A line from the console is as long as the buffer at most, and the loop does
not look behind it. -/
theorem take_readConsole (getChar : ℕ → Byte) (m : ℕ) {l : List Byte} {i n : ℕ} (hn : i + m ≤ n) :
    (Io.readConsole getChar l i m).1.take n = (Io.readConsole getChar (l.take n) i m).1 ∧
      (Io.readConsole getChar l i m).2 = (Io.readConsole getChar (l.take n) i m).2 := by
  induction m generalizing l i with
  | zero => exact ⟨rfl, rfl⟩
  | succ m ih =>
    unfold Io.readConsole
    split_ifs
    · exact ⟨List.take_set, rfl⟩
    · have hrest := ih (l := l.set i (getChar i)) (i := i + 1) (by omega)
      rwa [List.take_set] at hrest

theorem length_readConsole (getChar : ℕ → Byte) (m : ℕ) (l : List Byte) (i : ℕ) :
    (Io.readConsole getChar l i m).1.length = l.length := by
  induction m generalizing l i with
  | zero => rfl
  | succ m ih =>
    unfold Io.readConsole
    split_ifs
    · exact List.length_set
    · rw [ih, List.length_set]

/-- Reading a line from the console. -/
theorem readConsole (hs : Shows k s) (hmapped : ∀ j < n, v.toNat + j < k.io.user.size) :
    Calls.Alike Shows
      ((k.io.sysRead env v n 0).toOption.map fun r =>
        (({ k with io := r.1 } : NamedIo), (⟨r.2, r.1.user.bytes v.toNat n⟩ : Reply)))
      ((s.files.read env.getChar (k.io.user.bytes v.toNat n) 0).toOption.map fun r =>
        (({ s with files := r.1 } : Desk), (⟨r.2.2, r.2.1⟩ : Reply))) := by
  have hcopy :=
    user2System_ok hs.inv.space (sizeOk_of_mapped hs.inv.space hmapped) (Within.of_mapped hmapped)
  obtain ⟨l, u', hu, hlen, htake, hmem, hcore⟩ := hcopy
  rw [Int.toNat_natCast, ← UserMem.zeroed_bytes] at htake
  generalize hout : (Io.readConsole env.getChar l 0 n).1 = out
  have houtlen : out.length = n + 1 := by
    rw [← hout, length_readConsole]
    omega
  obtain ⟨hline, hcount⟩ := take_readConsole env.getChar n (l := l) (i := 0) (n := n) (by omega)
  rw [htake, hout] at hline
  have hsize := size_congr hcore
  have hwithin : Within (fun j => out.getD j 0) v.toNat (n : ℤ).toNat u'.size :=
    Within.of_mapped fun j hj => by rw [hsize]; exact hmapped j (by omega)
  obtain ⟨u₂, m, hback, hcore₂, hbyte⟩ :=
    system2User_ok (hs.inv.space.congr hcore) (show (n : ℤ).toNat ≤ out.length by omega) hwithin
  have hkernel : k.io.sysRead env v n 0 =
      .ok ({ k.io with user := u₂ }, ((Io.readConsole env.getChar l 0 n).2 : ℤ)) := by
    rw [Io.sysRead_input, hu]
    simp only [bind, Except.bind, Int.toNat_natCast, hout, hback]
    rfl
  have hstore : s.files.read env.getChar (k.io.user.bytes v.toNat n) 0 =
      .next (s.files, overwritten (out.take n) (k.io.user.bytes v.toNat n),
        ((Io.readConsole env.getChar l 0 n).2 : ℤ)) := by
    unfold FileStore.read
    rw [if_neg (by decide), if_pos (show (0 : ℤ) = consoleInputID from rfl), UserMem.length_bytes]
    simp only [← hline, hcount, htake]
  have hreach := hs.step_reach (l := .read env v n 0) trivial hkernel
  refine alike_read hkernel hstore ?_ (hs.keep hreach ⟨rfl, rfl⟩ rfl rfl)
  have hlanded : ∀ j < n, u₂.byte (v.toNat + j) =
      Io.landed (fun j => (out.take n).getD j 0) (fun j => k.io.user.byte (v.toNat + j)) j := by
    intro j hj
    rw [hbyte _ (by rw [hsize]; exact hmapped j hj), byte_same hmem hcore, Int.toNat_natCast]
    refine Io.copied_eq_landed (u := fun j => k.io.user.byte (v.toNat + j)) (fun _ _ => rfl) ?_
    rw [List.length_take]
    omega
  refine UserMem.bytes_overwritten hlanded fun j hj => ?_
  rw [Io.overlaid, if_pos (by rw [List.length_take]; omega)]

/-- Reading a file. -/
theorem read (hs : Shows k s) (henv : ∀ j, env.lseek j = true)
    (hmapped : ∀ j < n, v.toNat + j < k.io.user.size) {most : ℕ} (hread : env.read = some most)
    (hmost : n ≤ most) (hoff : ∀ h, s.files.handles.lookup id = some h → h.offset + n < 2 ^ 31) :
    Calls.Alike Shows
      ((k.io.sysRead env v n id).toOption.map fun r =>
        (({ k with io := r.1 } : NamedIo), (⟨r.2, r.1.user.bytes v.toNat n⟩ : Reply)))
      ((s.files.read env.getChar (k.io.user.bytes v.toNat n) id).toOption.map fun r =>
        (({ s with files := r.1 } : Desk), (⟨r.2.2, r.2.1⟩ : Reply))) := by
  have hreach := fun {io' r} (hc : k.io.sysRead env v n id = .ok (io', r)) => hs.step_reach
    (l := .read env v n id) trivial hc
  by_cases hrefused : id < 0 ∨ id = consoleOutputID
  · have hkernel : k.io.sysRead env v n id = .ok (k.io, -1) := by
      rcases hrefused with hneg | rfl
      · exact Io.sysRead_neg hneg
      · exact Io.sysRead_output
    have hstore : s.files.read env.getChar (k.io.user.bytes v.toNat n) id = .next
        (s.files, k.io.user.bytes v.toNat n, -1) :=
      if_pos hrefused
    exact alike_read hkernel hstore rfl hs
  by_cases hinput : id = consoleInputID
  · rw [hinput]
    exact hs.readConsole hmapped
  have h2 : 2 ≤ id := by
    unfold consoleOutputID consoleInputID at *
    omega
  have hcopy :=
    user2System_ok hs.inv.space (sizeOk_of_mapped hs.inv.space hmapped) (Within.of_mapped hmapped)
  obtain ⟨l, u', hu, -, -, -, -⟩ := hcopy
  cases hl : s.files.handles.lookup id with
  | none =>
    have hkernel : k.io.sysRead env v n id = .error .nullDescriptor := by
      rw [Io.sysRead_none h2 (hs.slotOf_none (by omega) hl), hu]
      rfl
    refine alike_read_error hkernel ?_
    unfold FileStore.read
    rw [if_neg hrefused, if_neg hinput, hl]
  | some h =>
    obtain ⟨d, hd, hshown⟩ := hs.of_lookup hl
    obtain ⟨f, hf, hoffset, -⟩ := hshown.file
    obtain ⟨hcontent, -⟩ := hs.content_eq hshown hf
    have hstore : s.files.read env.getChar (k.io.user.bytes v.toNat n) id =
        if h.offset < 0 then .fault
        else .next (s.files.setHandle id
          { h with offset := h.offset + (((s.files.content h).drop h.offset.toNat).take n).length },
          overwritten (((s.files.content h).drop h.offset.toNat).take n)
            (k.io.user.bytes v.toNat n),
          (((s.files.content h).drop h.offset.toNat).take n).length) := by
      unfold FileStore.read
      rw [if_neg hrefused, if_neg hinput, hl]
      simp only [UserMem.length_bytes]
    by_cases hneg : h.offset < 0
    · obtain ⟨i, hi, hslotOf, rfl, -⟩ := hs.inv.slots.lookup hd
      have hkernel : k.io.sysRead env v n id = .error .assert := by
        rw [Io.sysRead_some h2 hslotOf, hu]
        simp only [bind, Except.bind]
        rw [FileDescriptor.read_error hf (fun hall => by omega) k.io.files n]
      exact alike_read_error hkernel (hstore.trans (if_pos hneg))
    · rw [if_neg hneg, hcontent] at hstore
      generalize hbytes : ((k.io.files.fileOf f.file).drop h.offset.toNat).take n = bytes at hstore
      have hlen : k.io.readable f n = bytes.length := by
        rw [← hbytes, List.length_take, List.length_drop, Io.readable, hoffset]
      have hle : bytes.length ≤ n := by
        rw [← hbytes]
        exact List.length_take_le _ _
      obtain ⟨io', hkernel, hin, -, hmap⟩ :=
        Io.sysRead_all hs.inv hmapped hd hf (by omega) (henv 0) hread (by omega)
      rw [hlen] at hkernel hin hmap
      have hoff := hoff h hl
      rw [wrap32_of_lt (by omega) (by omega), hoffset] at hmap
      obtain ⟨hconsole, hsame⟩ := sysRead_keeps h2 hkernel
      refine alike_read hkernel hstore (UserMem.bytes_overwritten hin fun j hj => ?_)
        (hs.moved hl hd hf (hreach hkernel) hsame.1 hconsole hmap (fun name => ?_) rfl)
      · unfold Io.overlaid
        split_ifs with hjlt
        · unfold Io.fileByte
          simp only [← hbytes, List.getD_eq_getElem?_getD, List.getElem?_take_of_lt hj,
            List.getElem?_drop, hoffset]
        · rfl
      · rw [← hsame.2.symm]
        exact hs.dir name

theorem cstr_append_last (l : List Byte) :
    FileDescriptor.cstr (l ++ [0]) = FileDescriptor.cstr l := by
  induction l with
  | nil => rfl
  | cons b l ih =>
    unfold FileDescriptor.cstr at ih ⊢
    rw [List.cons_append, List.takeWhile_cons, List.takeWhile_cons, ih]

theorem cstr_zeroed (f : ℕ → Byte) (n : ℕ) :
    FileDescriptor.cstr ((List.range n).map (untilZero f)) =
      FileDescriptor.cstr ((List.range n).map f) :=
  (cstr_append_last _).symm.trans (cstr_untilZero f n)

/-- Writing to the console. -/
theorem writeConsole (hs : Shows k s) (hmapped : ∀ j < n, v.toNat + j < k.io.user.size) :
    Calls.Alike Shows ((k.io.sysWrite env v n 1).toOption.map fun r =>
      (({ k with io := r.1 } : NamedIo), (⟨r.2, []⟩ : Reply)))
      (some
        (({ s with console := s.console ++
          FileDescriptor.cstr (k.io.user.bytes v.toNat n) } : Desk),
        (⟨(FileDescriptor.cstr (k.io.user.bytes v.toNat n)).length, []⟩ : Reply))) := by
  have hcopy :=
    user2System_ok hs.inv.space (sizeOk_of_mapped hs.inv.space hmapped) (Within.of_mapped hmapped)
  obtain ⟨l, u', hu, -, htake, -, -⟩ := hcopy
  obtain ⟨u₂, m, hback, -, -⟩ := system2User_user2System hs.inv.space hu
  have hchars : FileDescriptor.cstr (l.take (n : ℤ).toNat) =
      FileDescriptor.cstr (k.io.user.bytes v.toNat n) := by
    rw [htake, cstr_zeroed]
    rfl
  have hkernel : k.io.sysWrite env v n 1 = .ok ({ k.io with
      user := u₂, console := k.io.console ++ FileDescriptor.cstr (k.io.user.bytes v.toNat n) },
        ((FileDescriptor.cstr (k.io.user.bytes v.toNat n)).length : ℤ)) := by
    rw [Io.sysWrite_output, hu]
    simp only [bind, Except.bind, hback, hchars]
    rfl
  have hreach := hs.step_reach (l := .write env v n 1) trivial hkernel
  rw [hkernel]
  exact .some ⟨rfl, hreach, hs.dir, hs.inj, hs.handles, congrArg (· ++ _) hs.console⟩

/-- The scan for an open file with the name finds one of the store. -/
theorem scan_eq (hs : Shows k s) (name : List Byte) :
    ∃ o, k.io.table.isOpeningWithName name = .ok o ∧
      (o.isSome ↔ s.files.handles.entries.any (fun e => strcaseEq e.2.name name) = true) := by
  -- a slot in use shows an open file
  have hused : ∀ i ∈ usable, (k.io.table.slot i).Occupied →
      ∃ h, s.files.handles.lookup (k.io.table.slot i).id = some h ∧
      Shown k.dir k.io.files.node h (k.io.table.slot i) :=
    fun i hi hocc => hs.of_fdMap
      ((Table.fdMap_eq_some hs.inv.slots.table.distinct).mpr ⟨i, hi, hocc, rfl, rfl⟩)
  rcases Table.isOpeningWithName_cases hs.inv.slots.kinds (Io.named_reach hs.reach) name with
    ⟨hscan, hnone⟩ | ⟨-, i, hi, hsocket, -⟩ | ⟨i, hi, hscan, ⟨hmode, n, hn, heq⟩, -⟩
  · refine ⟨none, hscan, iff_of_false (by simp) fun hany => ?_⟩
    obtain ⟨⟨id, h⟩, hmem, heq⟩ := List.any_eq_true.mp hany
    obtain ⟨d, hd, hshown⟩ := hs.of_lookup (AList.mem_lookup_iff.mpr hmem)
    obtain ⟨i, hi, -, -, rfl⟩ := (Table.fdMap_eq_some hs.inv.slots.table.distinct).mp hd
    refine hnone i hi (Or.inr ⟨?_, h.name, hshown.name, of_decide_eq_true heq⟩)
    rw [hshown.mode]
    split_ifs
    · exact Or.inl rfl
    · exact Or.inr rfl
  · have hsocket : (k.io.table.slot i).mode = socketMode := hsocket
    obtain ⟨h, -, hshown⟩ := hused i hi (by
      unfold FileDescriptor.Occupied
      rw [hsocket]
      decide)
    have hmode := hshown.mode
    rw [hsocket] at hmode
    split_ifs at hmode <;> exact absurd hmode (by decide)
  · obtain ⟨h, hl, hshown⟩ := hused i hi (by
      unfold FileDescriptor.Occupied
      rcases hmode with hm | hm <;> rw [hm] <;> decide)
    refine ⟨some i, hscan,
      iff_of_true rfl (List.any_eq_true.mpr ⟨_, AList.mem_lookup_iff.mp hl, ?_⟩)⟩
    rw [hshown.name, Option.some.injEq] at hn
    exact decide_eq_true (hn ▸ heq)

/-- A name that is not open is taken out of the directory. -/
theorem remove (hs : Shows k s) (hname : k.io.user.EndsWithin v) :
    ∃ k' o, k.remove v = .ok (k', (s.files.remove (k.io.user.text v)).2, o) ∧
      Shows k' { s with files := (s.files.remove (k.io.user.text v)).1 } := by
  obtain ⟨-, hremove, -⟩ := hname.names hs.inv.space
  obtain ⟨filename, user, hu, hcstr⟩ := NamedIo.copy_of_name hremove
  generalize k.io.user.text v = name at hremove hcstr ⊢
  obtain ⟨o, hscan, hopen⟩ := hs.scan_eq name
  have hreach : Io.Reach { k.io with user := user } :=
    .step (.world user k.io.files) hs.reach
      (hs.inv.space.congr (core_of_user2System hs.inv.space hu)) rfl
  have hkernel : k.remove v = if o.isSome then .ok (⟨{ k.io with user := user }, k.dir⟩, -1, none)
      else .ok (⟨{ k.io with user := user }, Function.update k.dir name none⟩,
        if (k.dir name).isSome then 0 else -1, some name) := by
    unfold NamedIo.remove Io.sysRemove
    rw [show user2System k.io.user v maxFileLength = .ok (filename, user) from hu]
    simp only [hcstr, hscan]
    cases o with
    | none => rfl
    | some i => rfl
  rw [hkernel]
  unfold FileStore.remove
  by_cases hany : s.files.handles.entries.any (fun e => strcaseEq e.2.name name) = true
  · rw [if_pos hany, if_pos (hopen.mpr hany)]
    exact ⟨_, none, rfl, hs.keep hreach ⟨rfl, rfl⟩ rfl rfl⟩
  rw [if_neg hany, if_neg fun ho => hany (hopen.mp ho), hs.dir]
  cases hdir : k.dir name with
  | none =>
    have hsame : Function.update k.dir name none = k.dir := by rw [← hdir, Function.update_eq_self]
    rw [hsame]
    exact ⟨_, _, rfl, hs.keep hreach ⟨rfl, rfl⟩ rfl rfl⟩
  | some node =>
    refine ⟨_, _, rfl, hreach, fun name' => ?_, fun name₁ name₂ node' h₁ h₂ => ?_,
      fun id => ?_, hs.console⟩
    · show Function.update s.files.dir name none name' = (Function.update k.dir name none name').map
        k.io.files.content
      simp only [Function.update_apply]
      split_ifs
      · rfl
      · exact hs.dir name'
    · simp only [Function.update_apply] at h₁ h₂
      split_ifs at h₁ h₂
      exact hs.inj name₁ name₂ node' h₁ h₂
    · show Option.Rel _ (s.files.handles.lookup id) (k.io.table.fdMap id)
      cases hl : s.files.handles.lookup id with
      | none =>
        rw [hs.of_lookup_none hl]
        exact .none
      | some h =>
        obtain ⟨d, hd, hshown⟩ := hs.of_lookup hl
        obtain ⟨f, hf, hoff, hname⟩ := hshown.file
        rw [hd]
        refine .some ⟨hshown.name, hshown.mode, f, hf, hoff, ?_⟩
        -- the name that is removed is not open
        have hne : h.name ≠ name := fun he =>
          hany (List.any_eq_true.mpr ⟨_, AList.mem_lookup_iff.mp hl, decide_eq_true (he ▸ rfl)⟩)
        exact (Function.update_of_ne hne _ _).trans hname

end Shows

/-! ### Runs -/

/-- The offset of the open file `id` stays an `int` for `n` more bytes. -/
def NamedIo.Room (k : NamedIo) (id : ℤ) (n : ℕ) : Prop :=
  ∀ d f, k.io.table.fdMap id = some d → d.file = some f → f.currentOffset + n < 2 ^ 31

/-- The request is one that a host serves as it is told: names end where the
kernel looks, buffers are in the memory of the program, no `lseek`, `close`,
`read` or `write` fails or stops short, `open` returns a descriptor that was not
open, and what it makes is a new file. -/
def NamedIo.Obliging (k : NamedIo) (q : Request) : Prop :=
  UserSpace q.user.pageTable ∧ (∀ j, q.env.lseek j = true) ∧ q.env.close = true ∧
  match q.call with
  | .create v ret fresh =>
    q.user.EndsWithin v ∧ 0 ≤ ret ∧ ret ∉ k.io.host.openFds ∧ ∀ name, k.dir name ≠ some fresh
  | .open_ v _ ret => q.user.EndsWithin v ∧ 0 ≤ ret ∧ ret ∉ k.io.host.openFds
  | .close _ => True
  | .seek _ id =>
    ∀ d f, k.io.table.fdMap id = some d → d.file = some f →
      (k.io.files.fileOf f.file).length < 2 ^ 31
  | .read v size id =>
    (∀ j < size, v.toNat + j < q.user.size) ∧ (∃ most, q.env.read = some most ∧ size ≤ most) ∧
      k.Room id size
  | .write v size id =>
    (∀ j < size, v.toNat + j < q.user.size) ∧ (∃ most, q.env.write = some most ∧ size ≤ most) ∧
      k.Room id size
  | .remove v => q.user.EndsWithin v

theorem Shows.room {k : NamedIo} {s : Desk} (hs : Shows k s) {id : ℤ} {n : ℕ}
    (hroom : k.Room id n) :
    ∀ h, s.files.handles.lookup id = some h → h.offset + n < 2 ^ 31 := by
  intro h hl
  obtain ⟨d, hd, hshown⟩ := hs.of_lookup hl
  obtain ⟨f, hf, hoff, -⟩ := hshown.file
  rw [← hoff]
  exact hroom d f hd hf

/-- **One request** is served alike. -/
theorem Shows.serve {k : NamedIo} {s : Desk} (q : Request) (hs : Shows k s) (hq : k.Obliging q) :
    Calls.Alike Shows (k.serve q) (s.serve q) := by
  obtain ⟨u, env, call⟩ := q
  obtain ⟨hspace, hlseek, hclose, hcall⟩ := hq
  have hs := hs.withUser hspace
  cases call with
  | create v ret fresh =>
    obtain ⟨hname, h0, hret, hfresh⟩ := hcall
    obtain ⟨k', hk, hs'⟩ := hs.create hname hclose h0 hret hfresh
    unfold NamedIo.serve
    simp only [hk]
    exact .some ⟨rfl, hs'⟩
  | open_ v type ret =>
    obtain ⟨hname, h0, hret⟩ := hcall
    obtain ⟨k', hk, hs'⟩ := hs.open_ hname h0 hret type
    unfold NamedIo.serve
    simp only [hk]
    exact .some ⟨rfl, hs'⟩
  | close id =>
    obtain ⟨io', hk, hs'⟩ := hs.close hclose id
    unfold NamedIo.serve
    simp only [hk]
    exact .some ⟨rfl, hs'⟩
  | seek pos id =>
    refine hs.seek hlseek pos id fun h hl => ?_
    obtain ⟨d, hd, hshown⟩ := hs.of_lookup hl
    obtain ⟨f, hf, -, -⟩ := hshown.file
    rw [(hs.content_eq hshown hf).1]
    exact hcall d f hd hf
  | read v size id =>
    obtain ⟨hmapped, ⟨most, hread, hmost⟩, hroom⟩ := hcall
    exact hs.read hlseek hmapped hread hmost (hs.room hroom)
  | write v size id =>
    obtain ⟨hmapped, ⟨most, hwrite, hmost⟩, hroom⟩ := hcall
    unfold Desk.serve
    by_cases hid : id = consoleOutputID
    · simp only [if_pos hid]
      rw [hid]
      exact hs.writeConsole hmapped
    · simp only [if_neg hid]
      exact hs.write hlseek hmapped hwrite hmost hid (hs.room hroom)
  | remove v =>
    obtain ⟨k', o, hk, hs'⟩ := hs.remove hcall
    unfold NamedIo.serve
    simp only [hk]
    exact .some ⟨rfl, hs'⟩

/-- The named files of a kernel that has no file open. -/
def NamedIo.desk (k : NamedIo) : Desk :=
  ⟨⟨fun name => (k.dir name).map k.io.files.content, ∅⟩, k.io.console⟩

theorem shows_initial {k : NamedIo} (h : Io.initial k.io)
    (hinj : ∀ name name' node, k.dir name = some node → k.dir name' = some node → name = name') :
    Shows k k.desk := by
  refine ⟨.init h, fun _ => rfl, hinj, fun id => ?_, rfl⟩
  have hmap : k.io.table.fdMap id = none := by
    rw [h.1]
    exact Option.map_eq_none_iff.mpr (List.find?_eq_none.mpr
      fun i _ => by simp [Table.new, FileDescriptor.new, FileDescriptor.Occupied])
  rw [hmap]
  exact .none

/-- **The file system calls are calls on named files.** From a new table, any
requests that meet the host's duties are served as the named files serve them:
the results and the buffers are the same, the kernel ends where they have no
result, and afterwards the directory and the console are theirs. -/
theorem NamedIo.file_calls_refine {k : NamedIo} (h : Io.initial k.io)
    (hinj : ∀ name name' node, k.dir name = some node → k.dir name' = some node → name = name')
    {qs : List Request} (hqs : Calls.Meets NamedIo.Obliging NamedIo.serve k qs) :
    Calls.Alike (fun k' s => (∀ name, s.files.dir name = (k'.dir name).map k'.io.files.content) ∧
        s.console = k'.io.console)
      (Calls.run NamedIo.serve k qs) (Calls.run Desk.serve k.desk qs) := by
  have halike :=
    Calls.run_alike (fun k s q hs hq => Shows.serve q hs hq) qs (shows_initial h hinj) hqs
  exact rel_imp halike fun x y hxy => ⟨hxy.1, hxy.2.dir, hxy.2.console⟩

/-! A program makes the file "a", opens it, writes the three bytes at 64, and
cannot remove it while it is open. -/

def sampleKernel : NamedIo := ⟨Io.sampleStart, fun _ => none⟩

def sampleRequests : List Request := [.create 0 3 7, .open_ 0 0 3, .write 64 3 3, .remove 0].map
    (Request.mk Io.sampleUser Io.sampleEnv)

theorem obliging_sample :
    Calls.Meets NamedIo.Obliging NamedIo.serve sampleKernel sampleRequests := by
  have hspace : UserSpace Io.sampleUser.pageTable := by decide
  have hname : Io.sampleUser.EndsWithin 0 := ⟨1, by decide, by decide, by decide⟩
  have hmapped : ∀ j < 3, (64 : BitVec 32).toNat + j < Io.sampleUser.size := by decide
  refine .cons ⟨hspace, fun _ => rfl, rfl, hname, by decide, by decide, fun _ => nofun⟩ rfl ?_
  refine .cons ⟨hspace, fun _ => rfl, rfl, hname, by decide, by decide +kernel⟩ rfl ?_
  refine .cons ⟨hspace, fun _ => rfl, rfl, hmapped, ⟨100, rfl, by decide⟩, ?_⟩ rfl ?_
  · rintro d f ⟨⟩ ⟨⟩
    decide +kernel
  · exact .cons ⟨hspace, fun _ => rfl, rfl, hname⟩ rfl trivial

theorem NamedIo.file_calls_refine_sample :
    ∃ k' rs, Calls.run NamedIo.serve sampleKernel sampleRequests = some (k', rs) ∧
    rs = [⟨0, []⟩, ⟨3, []⟩, ⟨3, []⟩, ⟨-1, []⟩] ∧ (k'.dir [97]).map k'.io.files.content =
      some [9, 9, 9] := by
  have h := NamedIo.file_calls_refine Io.initial_sample
    (fun _ _ _ h => absurd h (Option.some_ne_none _).symm) obliging_sample
  obtain ⟨s, rs, hdesk, hrs, hdir⟩ : ∃ s rs, Calls.run Desk.serve sampleKernel.desk sampleRequests =
      some (s, rs) ∧
      rs = [⟨0, []⟩, ⟨3, []⟩, ⟨3, []⟩, ⟨-1, []⟩] ∧ s.files.dir [97] = some [9, 9, 9] :=
        ⟨_, _, rfl, rfl, rfl⟩
  rw [hdesk] at h
  generalize Calls.run NamedIo.serve sampleKernel sampleRequests = o at h ⊢
  cases h with
  | @some x _ hx => exact ⟨x.1, x.2, rfl, hx.1.trans hrs, (hx.2.1 [97]).symm.trans hdir⟩

end Nachos
