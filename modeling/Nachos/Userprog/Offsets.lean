/-
# The offsets of open files (`userprog/FileDescriptors.h`, `filesys/openfile.h`)

The offset of an open file is moved by `FileDescriptor::Seek`, which takes -1 for
the end and looks at the length first, by `OpenFile::Seek`, which stores what it
is given, and by `+=` of what the host returned. A negative offset is not noticed
there but by the next `ReadAt` or `WriteAt`, where `Lseek` asserts that the host
did seek. Three things make an offset negative:

* a seek to a position below -1, which is below every length;
* a `read` that fails at offset 0, since the -1 is added;
* a read or a write that carries the offset past the largest `int`.

A step is legal when it does none of these (`LegalStep`). For a step from legal
offsets that is exact (`legal_step_iff`), so runs of legal steps are where the
offsets stay legal (`offsets_legal`).

Key definitions: `OffsetsLegal`, `Io.LegalStep`, `Io.OffsetsOk`.
Key theorems: `FileDescriptor.seek_spec`, `Io.legal_step_iff`, `Io.offsets_legal`.
-/
import Mathlib
import Nachos.Base.Runs
import Nachos.Base.Bytes
import Nachos.Userprog.FileDescriptors
import Nachos.Userprog.UserMemory
import Nachos.Userprog.HostFiles
import Nachos.Userprog.Ksyscall
import Nachos.Userprog.Transfer
import Nachos.Userprog.CallSafety

namespace Nachos

open Bytes (Byte)

/-! ### Legal offsets -/

/-- The file of an open descriptor is not before its start. -/
def FileDescriptor.OffsetLegal (d : FileDescriptor) : Prop :=
  d.Occupied → ∀ f ∈ d.file, 0 ≤ f.currentOffset

/-- So are the files of all open descriptors. -/
def OffsetsLegal (t : Table) : Prop := ∀ i, (t.slot i).OffsetLegal

/-- The values of a legal offset. -/
def OffsetRange (x : ℤ) : Prop := 0 ≤ x ∧ x < 2 ^ 31

instance (x : ℤ) : Decidable (OffsetRange x) := inferInstanceAs (Decidable (_ ∧ _))

theorem wrap32_nonneg_iff {x : ℤ} (h0 : -1 ≤ x) (h1 : x < 2 ^ 32) :
    0 ≤ wrap32 x ↔ OffsetRange x := by
  unfold OffsetRange
  by_cases hx : x < 2 ^ 31
  · rw [wrap32_of_range (by omega) hx]
    omega
  · rw [wrap32_of_ge (by omega) (by omega)]
    omega

section Slot

variable {t : Table} {i : Fin capacity} {d : FileDescriptor} {f : OpenFile} {env : HostEnv}
  {h h' : HostFiles} {id pos r : ℤ}

/-- One slot has changed. -/
theorem offsetsLegal_set (hl : OffsetsLegal t) : OffsetsLegal (t.set i d) ↔ d.OffsetLegal := by
  constructor
  · intro h
    have hi := h i
    rwa [Table.slot_set_self] at hi
  · intro hd j
    by_cases hj : j = i
    · rw [hj, Table.slot_set_self]
      exact hd
    · rw [Table.slot_set_of_ne hj]
      exact hl j

theorem FileDescriptor.offsetLegal_of_free (hm : d.mode = -1) : d.OffsetLegal :=
  fun hocc => absurd hm hocc

/-- An open file that has moved. -/
theorem FileDescriptor.offsetLegal_moved (hocc : d.Occupied) (off : ℤ) :
    FileDescriptor.OffsetLegal { d with file := some { f with currentOffset := off } } ↔
    0 ≤ off := by
  constructor
  · intro h
    exact h hocc _ rfl
  · intro h _ f' hf'
    rw [Option.mem_some_iff] at hf'
    rw [← hf']
    exact h

/-- What is opened starts at 0, and what is closed has no offset. -/
theorem offsetLegal_rule : Io.SlotRule FileDescriptor.OffsetLegal where
  opened d name type ret hm _ := by
    by_cases hret : ret = -1
    · simp only [FileDescriptor.openFile, fileSystemOpen, if_pos hret]
      exact FileDescriptor.offsetLegal_of_free hm
    · simp only [FileDescriptor.openFile, fileSystemOpen, if_neg hret]
      intro _ f hf
      rw [Option.mem_some_iff] at hf
      rw [← hf]
  socket d ret hm _ := by
    unfold FileDescriptor.socketTCP
    split_ifs
    · exact FileDescriptor.offsetLegal_of_free hm
    · exact fun _ f hf => absurd hf (by simp)
  closed := FileDescriptor.offsetLegal_of_free rfl
  released _ _ := FileDescriptor.offsetLegal_of_free rfl

/-! ### Seeking -/

/-- What the first `Length` of a seek tells. -/
def HostEnv.told (env : HostEnv) (len : ℤ) : ℤ := if env.lseek 1 = true then len else -1

/-- **Seek**, when it returns: a position from the length on is refused, -1 is
the length as it is told then, and any other position is stored. -/
theorem FileDescriptor.seek_spec (hf : d.file = some f) {d' : FileDescriptor}
    (hr : d.seek env h pos = .ok (d', h', r)) :
    let len := wrap32 (h.fileOf f.file).length
    0 ≤ len ∧ ((env.told len ≤ pos ∧ d' = d ∧ r = -1) ∨
      (pos < env.told len ∧ pos = -1 ∧ r = (if env.lseek 3 = true then len else -1) ∧
        d' = { d with file := some { f with currentOffset := r } }) ∨
      (pos < env.told len ∧ pos ≠ -1 ∧ r = pos ∧
        d' = { d with file := some { f with currentOffset := pos } })) := by
  intro len
  obtain ⟨hseek, hlen, hagain⟩ := (FileDescriptor.seek_returns_iff hf h pos).mp ⟨_, hr⟩
  refine ⟨hlen, ?_⟩
  obtain ⟨h1, hl, hnode, hcontent⟩ := OpenFile.length_ok f h hseek hlen
  have hsame : h1.fileOf f.file = h.fileOf f.file := by
    unfold HostFiles.fileOf
    rw [hnode, hcontent]
  unfold FileDescriptor.seek at hr
  rw [hf] at hr
  simp only [hl, bind, Except.bind] at hr
  change (if pos ≥ env.told len then _ else _) = _ at hr
  split_ifs at hr with hge hpos
  · cases hr
    exact Or.inl ⟨hge, rfl, rfl⟩
  · have htell : env.lseek 1 = true := by
      by_contra htell
      rw [HostEnv.told, if_neg htell] at hge
      omega
    obtain ⟨h2, hl2, -⟩ := OpenFile.length_ok f h1 (hagain hpos htell) (hsame ▸ hlen)
    rw [hl2, hsame] at hr
    cases hr
    exact Or.inr (Or.inl ⟨not_le.mp hge, hpos, rfl, rfl⟩)
  · cases hr
    exact Or.inr (Or.inr ⟨not_le.mp hge, hpos, rfl, rfl⟩)

/-- The positions that a seek may have, and that the second `Length` does not
fail. -/
def LegalSeek (env : HostEnv) (pos : ℤ) : Prop :=
  -1 ≤ pos ∧ (pos = -1 → env.lseek 1 = true → env.lseek 3 = true)

instance (env : HostEnv) (pos : ℤ) : Decidable (LegalSeek env pos) :=
  inferInstanceAs (Decidable (_ ∧ _))

theorem FileDescriptor.seek_legal_iff (hf : d.file = some f) (hocc : d.Occupied)
    (hl : d.OffsetLegal) {d' : FileDescriptor} (hr : d.seek env h pos = .ok (d', h', r)) :
    d'.OffsetLegal ↔ LegalSeek env pos := by
  obtain ⟨hlen, hcases⟩ := FileDescriptor.seek_spec hf hr
  set len := wrap32 (h.fileOf f.file).length
  have htold : env.told len = len ∧ env.lseek 1 = true ∨ env.told len = -1 ∧
      env.lseek 1 ≠ true := by
    unfold HostEnv.told
    split_ifs with htell
    · exact Or.inl ⟨rfl, htell⟩
    · exact Or.inr ⟨rfl, htell⟩
  unfold LegalSeek
  rcases hcases with ⟨hge, rfl, -⟩ | ⟨hlt, hpos, hres, rfl⟩ | ⟨hlt, hpos, -, rfl⟩
  · refine iff_of_true hl ⟨by omega, fun hpos htell => ?_⟩
    rcases htold with ⟨htold, -⟩ | ⟨-, hnot⟩
    · omega
    · exact absurd htell hnot
  · have htell : env.lseek 1 = true := by
      rcases htold with ⟨-, htell⟩ | ⟨htold, -⟩
      · exact htell
      · omega
    rw [FileDescriptor.offsetLegal_moved hocc, hres]
    by_cases hend : env.lseek 3 = true
    · rw [if_pos hend]
      exact iff_of_true hlen ⟨by omega, fun _ _ => hend⟩
    · rw [if_neg hend]
      exact iff_of_false (by decide) fun h => hend (h.2 hpos htell)
  · rw [FileDescriptor.offsetLegal_moved hocc]
    constructor
    · exact fun h => ⟨by omega, fun he => absurd he hpos⟩
    · rintro ⟨hge, -⟩
      omega

/-! ### Reading and writing -/

/-- What the host reads is -1 or at most what was asked for. -/
theorem HostEnv.delivers_bounds (env : HostEnv) (file : List Byte) (off : ℕ) (n : ℤ) :
    -1 ≤ (env.delivers file off n).2 ∧
    ((env.delivers file off n).2 ≤ n ∨ (env.delivers file off n).2 = -1) := by
  unfold HostEnv.delivers
  cases env.read with
  | none => exact ⟨le_refl _, Or.inr rfl⟩
  | some most =>
    simp only
    split_ifs
    · exact ⟨le_refl _, Or.inr rfl⟩
    · simp only [List.length_take]
      omega

theorem FileDescriptor.read_legal_iff {size : ℤ} (hf : d.file = some f) (hocc : d.Occupied)
    (hl : d.OffsetLegal) (hrange : IntRange f.currentOffset) (hsize : size < 2 ^ 31)
    {d' : FileDescriptor} {bytes : List Byte} (hr : d.read env h size = .ok (d', h', bytes, r)) :
    d'.OffsetLegal ↔ OffsetRange
      (f.currentOffset + (env.delivers (h.fileOf f.file) f.currentOffset.toNat size).2) := by
  have h0 : 0 ≤ f.currentOffset := hl hocc f hf
  have hseek : env.lseek 0 = true := by
    by_contra hseek
    rw [FileDescriptor.read_error hf fun h => hseek h.1] at hr
    cases hr
  obtain ⟨h1, hok, -⟩ := FileDescriptor.read_ok hf hseek h size h0 hrange.2
  have hd' := (Prod.mk.inj (Except.ok.inj (hr.symm.trans hok))).1
  have hbounds := env.delivers_bounds (h.fileOf f.file) f.currentOffset.toNat size
  unfold IntRange at hrange
  rw [hd', FileDescriptor.offsetLegal_moved hocc]
  exact wrap32_nonneg_iff (by omega) (by omega)

theorem FileDescriptor.write_legal_iff {size : ℤ} {buffer : List Byte} (hf : d.file = some f)
    (hocc : d.Occupied) (hl : d.OffsetLegal) (hrange : IntRange f.currentOffset) (hn : -1 ≤ size)
    (hsize : size < 2 ^ 31) (hlen : size.toNat ≤ buffer.length) {d' : FileDescriptor}
    (hr : d.write env h buffer size = .ok (d', h', r)) :
    d'.OffsetLegal ↔ (d.mode = readWriteFile → OffsetRange (f.currentOffset + size)) := by
  have h0 : 0 ≤ f.currentOffset := hl hocc f hf
  by_cases hmode : d.mode = readWriteFile
  · by_cases hgood : env.lseek 0 = true ∧ 0 ≤ f.currentOffset ∧
        (size = -1 ∨ ∃ most : ℕ, env.write = some most ∧ size ≤ most)
    · obtain ⟨h1, hok, -⟩ :=
        FileDescriptor.write_ok hmode hf hgood.1 h h0 hrange.2 hn hlen hgood.2.2
      have hd' := (Prod.mk.inj (Except.ok.inj (hr.symm.trans hok))).1
      unfold IntRange at hrange
      rw [hd', FileDescriptor.offsetLegal_moved hocc, forall_prop_of_true hmode]
      exact wrap32_nonneg_iff (by omega) (by omega)
    · rw [FileDescriptor.write_error hmode hf h hrange.2 hn hlen hgood] at hr
      cases hr
  · rw [FileDescriptor.write, if_neg hmode] at hr
    cases hr
    exact iff_of_true hl fun h => absurd h hmode

end Slot

namespace Io

variable {s s' : Io} {env : HostEnv} {v : BitVec 32} {size id pos r : ℤ} {d : FileDescriptor}
  {f : OpenFile}

/-! ### Steps -/

/-- The step leaves the offsets legal: what the host has read or is to write
does not carry an offset out of its range, and a seek is to the end or not below
the start. -/
def LegalStep (s : Io) : Label → Prop
  | .read env _ size id => ∀ d ∈ s.table.fdMap id, ∀ f ∈ d.file,
      OffsetRange
      (f.currentOffset + (env.delivers (s.files.fileOf f.file) f.currentOffset.toNat size).2)
  | .write _ _ size id =>
    ∀ d ∈ s.table.fdMap id, d.mode = readWriteFile →
      ∀ f ∈ d.file, OffsetRange (f.currentOffset + size)
  | .seek env pos id => ∀ d ∈ s.table.fdMap id, d.file.isSome → LegalSeek env pos.toInt
  | _ => True

instance (s : Io) : (l : Label) → Decidable (LegalStep s l)
  | .read env _ size id => inferInstanceAs (Decidable (∀ d ∈ s.table.fdMap id, ∀ f ∈ d.file,
      OffsetRange
      (f.currentOffset + (env.delivers (s.files.fileOf f.file) f.currentOffset.toNat size).2)))
  | .write _ _ size id =>
    inferInstanceAs (Decidable (∀ d ∈ s.table.fdMap id, d.mode = readWriteFile → ∀ f ∈ d.file,
      OffsetRange (f.currentOffset + size)))
  | .seek env pos id =>
    inferInstanceAs (Decidable (∀ d ∈ s.table.fdMap id, d.file.isSome → LegalSeek env pos.toInt))
  | .create _ _ _ _ => inferInstanceAs (Decidable True)
  | .open_ _ _ _ _ => inferInstanceAs (Decidable True)
  | .socketTCP _ => inferInstanceAs (Decidable True)
  | .close _ _ => inferInstanceAs (Decidable True)
  | .closeSocket _ => inferInstanceAs (Decidable True)
  | .send _ _ _ _ => inferInstanceAs (Decidable True)
  | .world _ _ => inferInstanceAs (Decidable True)

theorem forall_fdMap_iff {P : FileDescriptor → Prop} (hd : s.table.fdMap id = some d) :
    (∀ e ∈ s.table.fdMap id, P e) ↔ P d := by
  rw [hd]
  simp

theorem forall_fdMap_none {P : FileDescriptor → Prop} (hd : s.table.fdMap id = none) :
    ∀ e ∈ s.table.fdMap id, P e := by
  rw [hd]
  simp

/-- A call on an id that is not open asks nothing of a descriptor. -/
theorem offsetsLegal_keep (hI : Inv s) (hl : OffsetsLegal s.table) (hid : id < 2)
    {P : FileDescriptor → Prop} :
    OffsetsLegal s.table ↔ ∀ e ∈ s.table.fdMap id, P e :=
  iff_of_true hl (forall_fdMap_none (hI.slots.fdMap_console hid))

theorem legal_read_iff (hI : Inv s) (hl : OffsetsLegal s.table)
    (hc : s.sysRead env v size id = .ok (s', r)) :
    OffsetsLegal s'.table ↔ LegalStep s (.read env v size id) := by
  obtain hneg | rfl | rfl | ⟨h2, hi⟩ | ⟨i, h2, hi⟩ := id_cases s.table id
  · rw [sysRead_neg hneg] at hc
    cases hc
    exact offsetsLegal_keep hI hl (by omega)
  · rw [sysRead_input] at hc
    obtain ⟨⟨buffer, user⟩, -, hc⟩ := bind_eq_ok hc
    obtain ⟨⟨u', m⟩, -, hc⟩ := bind_eq_ok hc
    cases hc
    exact offsetsLegal_keep hI hl (by omega)
  · cases hc
    exact offsetsLegal_keep hI hl (by omega)
  · rw [sysRead_none h2 hi] at hc
    obtain ⟨b, -, hc⟩ := bind_eq_ok hc
    cases hc
  · have hd := hI.slots.fdMap_of_slotOf (by omega) hi
    have hocc := hI.slots.occupied hd
    rw [sysRead_some h2 hi] at hc
    obtain ⟨⟨buffer, user⟩, hu, hc⟩ := bind_eq_ok hc
    obtain ⟨⟨d, files, bytes, result⟩, hread, hc⟩ := bind_eq_ok hc
    obtain ⟨⟨u', m⟩, -, hc⟩ := bind_eq_ok hc
    cases hc
    have hsize := (within_of_user2System hI.space hu).1
    unfold SizeOk at hsize
    refine (offsetsLegal_set hl).trans ?_
    rw [LegalStep, forall_fdMap_iff hd]
    cases hf : (s.table.slot i).file with
    | none =>
      rw [FileDescriptor.read, hf] at hread
      cases hread
    | some f =>
      rw [FileDescriptor.read_legal_iff hf hocc (hl i) (hI.slots.offset rfl hf hocc).2
        (by omega) hread]
      simp

theorem legal_write_iff (hI : Inv s) (hl : OffsetsLegal s.table)
    (hc : s.sysWrite env v size id = .ok (s', r)) :
    OffsetsLegal s'.table ↔ LegalStep s (.write env v size id) := by
  obtain hneg | rfl | rfl | ⟨h2, hi⟩ | ⟨i, h2, hi⟩ := id_cases s.table id
  · rw [sysWrite_neg hneg] at hc
    cases hc
    exact offsetsLegal_keep hI hl (by omega)
  · cases hc
    exact offsetsLegal_keep hI hl (by omega)
  · rw [sysWrite_output] at hc
    obtain ⟨⟨buffer, user⟩, -, hc⟩ := bind_eq_ok hc
    obtain ⟨⟨u', m⟩, -, hc⟩ := bind_eq_ok hc
    cases hc
    exact offsetsLegal_keep hI hl (by omega)
  · rw [sysWrite_none h2 hi] at hc
    obtain ⟨b, -, hc⟩ := bind_eq_ok hc
    cases hc
  · have hd := hI.slots.fdMap_of_slotOf (by omega) hi
    have hocc := hI.slots.occupied hd
    rw [sysWrite_some h2 hi] at hc
    obtain ⟨⟨buffer, user⟩, hu, hc⟩ := bind_eq_ok hc
    obtain ⟨⟨d, files, result⟩, hwrite, hc⟩ := bind_eq_ok hc
    obtain ⟨⟨u', m⟩, -, hc⟩ := bind_eq_ok hc
    cases hc
    obtain ⟨hsize, hin⟩ := within_of_user2System hI.space hu
    obtain ⟨l, u1, hu1, hlen, -⟩ := user2System_ok hI.space hsize hin
    have hbuffer : buffer = l := (Prod.mk.inj (Except.ok.inj (hu.symm.trans hu1))).1
    unfold SizeOk at hsize
    refine (offsetsLegal_set hl).trans ?_
    rw [LegalStep, forall_fdMap_iff hd]
    cases hf : (s.table.slot i).file with
    | none =>
      -- a socket is not in the mode for writing
      have hmode : (s.table.slot i).mode ≠ readWriteFile := by
        intro hmode
        rw [FileDescriptor.write, if_pos hmode, hf] at hwrite
        cases hwrite
      rw [FileDescriptor.write, if_neg hmode] at hwrite
      cases hwrite
      exact iff_of_true (hl i) fun h => absurd h hmode
    | some f =>
      rw [FileDescriptor.write_legal_iff hf hocc (hl i) (hI.slots.offset rfl hf hocc).2
        (by omega) (by omega)
        (by rw [hbuffer, hlen]; omega) hwrite]
      simp

theorem legal_seek_iff (hI : Inv s) (hl : OffsetsLegal s.table) {pos : BitVec 32}
    (hc : s.sysSeek env pos.toInt id = .ok (s', r)) :
    OffsetsLegal s'.table ↔ LegalStep s (.seek env pos id) := by
  by_cases h2 : 2 ≤ id
  · cases hi : s.table.slotOf id with
    | none =>
      rw [sysSeek_none h2 hi] at hc
      cases hc
    | some i =>
      have hd := hI.slots.fdMap_of_slotOf (by omega) hi
      have hocc := hI.slots.occupied hd
      rw [sysSeek_some h2 hi] at hc
      obtain ⟨⟨d, files, result⟩, hseek, hc⟩ := bind_eq_ok hc
      cases hc
      refine (offsetsLegal_set hl).trans ?_
      rw [LegalStep, forall_fdMap_iff hd]
      cases hf : (s.table.slot i).file with
      | none =>
        rw [FileDescriptor.seek, hf] at hseek
        cases hseek
      | some f =>
        rw [FileDescriptor.seek_legal_iff hf hocc (hl i) hseek]
        simp
  · rw [sysSeek_console (by omega)] at hc
    cases hc
    exact offsetsLegal_keep hI hl (by omega)

/-- **One call** from legal offsets leaves them legal just when it is a legal
step. -/
theorem legal_step_iff (hI : Inv s) (hl : OffsetsLegal s.table) {l : Label}
    (hs : s.step l = some s') :
    OffsetsLegal s'.table ↔ LegalStep s l := by
  obtain ⟨r, hc⟩ := call_of_step hs
  cases l with
  | read env virtAddr size id => exact legal_read_iff hI hl hc
  | write env virtAddr size id => exact legal_write_iff hI hl hc
  | seek env pos id => exact legal_seek_iff hI hl hc
  | create env virtAddr ret node => exact iff_of_true (offsetLegal_rule.step hs rfl hl) trivial
  | open_ virtAddr type ret node => exact iff_of_true (offsetLegal_rule.step hs rfl hl) trivial
  | socketTCP ret => exact iff_of_true (offsetLegal_rule.step hs rfl hl) trivial
  | close env id => exact iff_of_true (offsetLegal_rule.step hs rfl hl) trivial
  | closeSocket id => exact iff_of_true (offsetLegal_rule.step hs rfl hl) trivial
  | send env socketid virtAddr length => exact iff_of_true (offsetLegal_rule.step hs rfl hl) trivial
  | world user files => exact iff_of_true (offsetLegal_rule.step hs rfl hl) trivial

/-! ### Runs -/

/-- The states of the runs of legal steps. -/
abbrev LegalReach : Io → Prop := Runs.Reach step initial fun s l => Fair s l ∧ LegalStep s l

theorem legal_reach (h : LegalReach s) : OffsetsLegal s.table := by
  have hall : Inv s ∧ OffsetsLegal s.table := by
    refine h.inv (fun s => Inv s ∧ OffsetsLegal s.table) (fun s h0 => ⟨inv_initial h0, fun i => ?_⟩)
      fun s l s' _ hIH hl hs => ?_
    · rw [h0.1]
      exact FileDescriptor.offsetLegal_of_free rfl
    · exact ⟨inv_step hIH.1 l hl.1 hs, (legal_step_iff hIH.1 hIH.2 hs).mpr hl.2⟩
  exact hall.2

/-! ### What a seek does -/

/-- The descriptor `id` after its file has moved to `off`. -/
def movedTo (s : Io) (id : ℤ) (d : FileDescriptor) (f : OpenFile) (off : ℤ) :
    ℤ → Option FileDescriptor :=
  Function.update s.table.fdMap id (some { d with file := some { f with currentOffset := off } })

/-- A seek on an open file that the host does not hinder. -/
theorem sysSeek_file (hI : Inv s) (hd : s.table.fdMap id = some d) (hf : d.file = some f)
    (henv : ∀ k, env.lseek k = true) (hlen : (s.files.fileOf f.file).length < 2 ^ 31)
    (hpos : IntRange pos) :
    ∃ s' r, s.sysSeek env pos id = .ok (s', r) ∧
      (pos < (s.files.fileOf f.file).length →
        r = (if pos = -1 then ((s.files.fileOf f.file).length : ℤ) else pos) ∧
        s'.table.fdMap = s.movedTo id d f r) := by
  obtain ⟨i, hi, hslotOf, rfl, h2⟩ := hI.slots.lookup hd
  have hwrap : wrap32 (s.files.fileOf f.file).length = (s.files.fileOf f.file).length :=
    wrap32_of_lt (by omega) (by exact_mod_cast hlen)
  obtain ⟨⟨d', h', r⟩, hseek⟩ : ∃ x, (s.table.slot i).seek env s.files pos = .ok x :=
    (FileDescriptor.seek_returns_iff hf s.files pos).mpr ⟨henv 0, by omega, fun _ _ => henv 2⟩
  refine ⟨{ s with table := s.table.set i d', files := h' }, r, ?_, fun hlt => ?_⟩
  · rw [sysSeek_some h2 hslotOf, hseek]
    rfl
  · have htold : env.told (s.files.fileOf f.file).length = (s.files.fileOf f.file).length :=
      if_pos (henv 1)
    have hmoved := hI.slots.fdMap_moved hd hi (FileDescriptor.seek_moves hpos hseek)
    obtain ⟨-, hcases⟩ := FileDescriptor.seek_spec hf hseek
    simp only [hwrap, htold, if_pos (henv 3)] at hcases
    rcases hcases with ⟨hge, -⟩ | ⟨-, hend, hr, rfl⟩ | ⟨-, hne, hr, rfl⟩
    · omega
    · rw [if_pos hend]
      exact ⟨hr, hmoved⟩
    · rw [if_neg hne]
      subst hr
      exact ⟨rfl, hmoved⟩

/-- A seek that is refused moves nothing. -/
theorem sysSeek_refused (hI : Inv s) {pos : BitVec 32} (hlegal : LegalStep s (.seek env pos id))
    (hc : s.sysSeek env pos.toInt id = .ok (s', -1)) : s'.table = s.table := by
  by_cases h2 : 2 ≤ id
  · cases hi : s.table.slotOf id with
    | none =>
      rw [sysSeek_none h2 hi] at hc
      cases hc
    | some i =>
      have hd := hI.slots.fdMap_of_slotOf (by omega) hi
      rw [sysSeek_some h2 hi] at hc
      obtain ⟨⟨d, files, result⟩, hseek, hc⟩ := bind_eq_ok hc
      cases hc
      rw [LegalStep, forall_fdMap_iff hd] at hlegal
      cases hf : (s.table.slot i).file with
      | none =>
        rw [FileDescriptor.seek, hf] at hseek
        cases hseek
      | some f =>
        obtain ⟨-, hend⟩ := hlegal (by rw [hf]; rfl)
        obtain ⟨hlen, hcases⟩ := FileDescriptor.seek_spec hf hseek
        rcases hcases with ⟨-, rfl, -⟩ | ⟨hlt, hpos, hres, -⟩ | ⟨-, hpos, hres, -⟩
        · simp [Table.set]
        · have htell : env.lseek 1 = true := by
            by_contra htell
            rw [HostEnv.told, if_neg htell] at hlt
            omega
          rw [if_pos (hend hpos htell)] at hres
          omega
        · exact absurd hres.symm hpos
  · rw [sysSeek_console (by omega)] at hc
    cases hc
    rfl

/-- What is asked of the offsets in a state: none is negative, so that the
`Lseek` of the next `ReadAt` or `WriteAt` does not fail; a seek that is refused
moves nothing; a seek to a position in the file moves there and one to -1 moves
to the end. -/
structure OffsetsOk (s : Io) : Prop where
  legal : OffsetsLegal s.table
  lseek : ∀ id d f, s.table.fdMap id = some d → d.file = some f → ∀ files : HostFiles,
    ∃ files', Sysdep.lseek files true f.file f.currentOffset .set = .ok files'
  refused : ∀ env (pos : BitVec 32) id s', LegalStep s (.seek env pos id) →
    s.sysSeek env pos.toInt id = .ok (s', -1) →
    s'.table = s.table
  inside : ∀ env (pos : BitVec 32) id d f, s.table.fdMap id = some d → d.file = some f →
    (∀ k, env.lseek k = true) →
    (s.files.fileOf f.file).length < 2 ^ 31 → 0 ≤ pos.toInt →
      pos.toInt < (s.files.fileOf f.file).length →
    ∃ s', s.sysSeek env pos.toInt id = .ok (s', pos.toInt) ∧
      s'.table.fdMap = s.movedTo id d f pos.toInt
  toEnd : ∀ env id d f, s.table.fdMap id = some d → d.file = some f → (∀ k, env.lseek k = true) →
    (s.files.fileOf f.file).length < 2 ^ 31 →
    ∃ s', s.sysSeek env (-1) id = .ok (s', (s.files.fileOf f.file).length) ∧
      s'.table.fdMap = s.movedTo id d f (s.files.fileOf f.file).length

theorem offsetsOk_of_legal (hI : Inv s) (hl : OffsetsLegal s.table) : OffsetsOk s := by
  refine ⟨hl, fun id d f hd hf files => ?_, fun env pos id s' hlegal hc =>
    sysSeek_refused hI hlegal hc, fun env pos id d f hd hf henv hlen h0 hlt =>
      ?_, fun env id d f hd hf henv hlen => ?_⟩
  · obtain ⟨i, -, -, rfl, -⟩ := hI.slots.lookup hd
    have hocc := hI.slots.occupied hd
    exact ⟨_, Sysdep.lseek_set files f.file (hl i hocc f hf) (hI.slots.offset rfl hf hocc).2.2⟩
  · obtain ⟨s', r, hc, hmoves⟩ :=
      sysSeek_file hI hd hf henv hlen ⟨BitVec.le_toInt pos, BitVec.toInt_lt⟩
    obtain ⟨hr, hmap⟩ := hmoves hlt
    rw [if_neg (by omega)] at hr
    subst hr
    exact ⟨s', hc, hmap⟩
  · obtain ⟨s', r, hc, hmoves⟩ :=
      sysSeek_file hI hd hf henv hlen (show IntRange (-1) from ⟨by decide, by decide⟩)
    obtain ⟨hr, hmap⟩ := hmoves (by omega)
    rw [if_pos rfl] at hr
    subst hr
    exact ⟨s', hc, hmap⟩

/-- **The offsets of open files** are legal in every state of a run of legal
steps, and seeks there do what they should. -/
theorem offsets_legal {s : Io} (h : LegalReach s) : OffsetsOk s :=
  offsetsOk_of_legal (inv_reach (h.mono fun _ _ hl => hl.1)) (legal_reach h)

/-- The file of `sampleStart` at another offset. -/
def sampleMoved (off : ℤ) : FileDescriptor := { sampleEntry with file := some ⟨3, off, 0⟩ }

/-- A file is opened, read from 2 on and moved to its end. -/
theorem offsets_legal_seeks :
    ∃ s, LegalReach s ∧ s.table.fdMap 3 = some (sampleMoved 3) ∧ OffsetsOk s := by
  obtain ⟨s, hs, ht⟩ := Runs.Reach.of_exec step initial initial_sample
    [.open_ 0 0 3 7, .seek sampleEnv 2 3, .read sampleEnv 32 1 3, .seek sampleEnv (-1) 3]
    (Runs.Along.of_along (c := fun s l => Fair s l ∧ LegalStep s l)
      (fun _ _ h => of_decide_eq_true h) _ _ (by decide))
    (fun s => s.table.fdMap 3 = some (sampleMoved 3)) (by decide)
  exact ⟨s, hs, of_decide_eq_true ht, offsets_legal hs⟩

/-- A file is opened and moved to -5; then it cannot be read any more. -/
theorem seek_below_start : ∃ s, Reach s ∧ s.table.fdMap 3 = some (sampleMoved (-5)) ∧
    s.sysRead sampleEnv 32 1 3 = .error .assert ∧ ¬ OffsetsOk s := by
  obtain ⟨s, hs, ht⟩ :=
    Runs.Reach.of_exec step initial initial_sample [.open_ 0 0 3 7, .seek sampleEnv (-5) 3]
    (Runs.Along.of_along (c := fun s l => Fair s l) (fun _ _ h => of_decide_eq_true h) _ _
      (by decide))
    (fun s => s.table.fdMap 3 = some (sampleMoved (-5)) ∧
      stop (s.sysRead sampleEnv 32 1 3) = some .assert) (by decide)
  simp only [decide_eq_true_eq] at ht
  obtain ⟨h3, hread⟩ := ht
  refine ⟨s, hs, h3, eq_error_of_stop hread, fun hok => ?_⟩
  obtain ⟨i, -, -, hslot, -⟩ := (inv_reach hs).slots.lookup h3
  have hlegal := hok.legal i
  rw [hslot] at hlegal
  exact absurd (hlegal (by decide) _ rfl) (by decide)

end Io
end Nachos
