/-
# The descriptor table (`userprog/FileDescriptors.h`)

Twenty descriptors, of which slots 2 to 19 are used, each free (mode -1) or
an open file or socket under its host descriptor. The host is the set of
open descriptors and the log of the `close` calls; `open()` and `socket()`
return a value that is part of the label, and a run only has results a host
may give: -1 or a descriptor that is not open.

The table is a finite map from ids to descriptors (`Table.fdMap`): `Open` and
`SocketTCP` add an entry, `Close` and `Close_Socket` remove one, whichever
kind it has, and a call that fails changes nothing of the map
(`TableSys.refines_map`).

Key definitions: `FileDescriptor`, `Table.open_`, `Table.socketTCP`, `Table.close`,
`Table.closeSocket`, `Table.fdMap`, `TableSys.Inv`.
Key theorems: `TableSys.inv_step`, `TableSys.refines_map`.
-/
import Mathlib
import Nachos.Base.Runs
import Nachos.Base.Bytes

namespace Nachos

open Bytes (Byte)

/-! ### The host -/

/-- The host's descriptors of this process. -/
structure Host where
  openFds : Finset ℤ
  /-- the arguments of the calls of `close` -/
  closes : List ℤ

/-- `close(fd)`: 0, or -1 on a descriptor that is not open. -/
def Host.close (h : Host) (fd : ℤ) : Host × ℤ :=
  ({ openFds := h.openFds.erase fd, closes := h.closes ++ [fd] }, if fd ∈ h.openFds then 0 else -1)

/-- A call of `open` or `socket` that returned `ret`. -/
def Host.opened (h : Host) (ret : ℤ) : Host :=
  if ret < 0 then h else { h with openFds := insert ret h.openFds }

/-- What `open` and `socket` may return. -/
def Host.Result (h : Host) (ret : ℤ) : Prop := ret = -1 ∨ (0 ≤ ret ∧ ret ∉ h.openFds)

instance (h : Host) (ret : ℤ) : Decidable (h.Result ret) := inferInstanceAs (Decidable (_ ∨ _))

/-! ### Descriptors -/

/-- `class OpenFile` with `FILESYS_STUB`. -/
structure OpenFile where
  file : ℤ
  currentOffset : ℤ
  type : ℤ
  deriving DecidableEq

/-- `OpenFile::FileID`. -/
def OpenFile.fileID (f : OpenFile) : ℤ := f.file

/-- `FileSystem::Open(name, type)` on the host's result. -/
def fileSystemOpen (type ret : ℤ) : Option OpenFile :=
  if ret = -1 then none else some ⟨ret, 0, type⟩

def readWriteFile : ℤ := 0
def readFile : ℤ := 1
def socketMode : ℤ := 2

/-- `class FileDescriptor`. -/
structure FileDescriptor where
  mode : ℤ
  id : ℤ
  file : Option OpenFile
  name : Option (List Byte)
  deriving DecidableEq

namespace FileDescriptor

/-- `FileDescriptor::FileDescriptor`. -/
def new : FileDescriptor := ⟨-1, -1, none, none⟩

/-- `FileDescriptor::Open_File`. -/
def openFile (d : FileDescriptor) (name : List Byte) (type ret : ℤ) : FileDescriptor × ℤ :=
  match fileSystemOpen type ret with
  | none => ({ d with file := none }, -1)
  | some f =>
    (⟨if type = 0 then readWriteFile else readFile, f.fileID, some f, some name⟩, f.fileID)

/-- `FileDescriptor::Close_File`; `Close` asserts that the host closed. -/
def closeFile (d : FileDescriptor) (h : Host) : Option (FileDescriptor × Host × ℤ) :=
  if d.id = -1 then some (d, h, -1)
  else if (h.close d.id).2 < 0 then none
  else some (⟨-1, -1, none, none⟩, (h.close d.id).1, 1)

/-- `FileDescriptor::SocketTCP`. -/
def socketTCP (d : FileDescriptor) (ret : ℤ) : FileDescriptor × ℤ :=
  if ret < 0 then (d, -1) else (⟨socketMode, ret, none, none⟩, ret)

/-- `FileDescriptor::Close_Socket`: the file and the name stay. -/
def closeSocket (d : FileDescriptor) (h : Host) : FileDescriptor × Host × ℤ :=
  if d.id = -1 then (d, h, -1) else ({ d with mode := -1, id := -1 }, (h.close d.id).1, 1)

/-- The slot is in use. -/
def Occupied (d : FileDescriptor) : Prop := d.mode ≠ -1

instance (d : FileDescriptor) : Decidable d.Occupied := inferInstanceAs (Decidable (_ ≠ _))

end FileDescriptor

/-! ### The table -/

/-- `_capacity`. -/
def capacity : ℕ := 20

/-- The slots the loops of `Table` visit: `for (int i = 2; i < _capacity; i++)`. -/
def usable : List (Fin capacity) := (List.finRange capacity).drop 2

/-- `class Table`. -/
structure Table where
  slot : Fin capacity → FileDescriptor

namespace Table

def new : Table := ⟨fun _ => FileDescriptor.new⟩

def set (t : Table) (i : Fin capacity) (d : FileDescriptor) : Table := ⟨Function.update t.slot i d⟩

/-- `Table::FindFreeSlot`; `none` is -1. -/
def findFreeSlot (t : Table) : Option (Fin capacity) := usable.find? fun i => (t.slot i).mode = -1

/-- The slot `Table::IsOpening` finds. -/
def slotOf (t : Table) (id : ℤ) : Option (Fin capacity) := usable.find? fun i => (t.slot i).id = id

/-- `Table::IsOpening`. -/
def isOpening (t : Table) (id : ℤ) : ℤ := (t.slotOf id).elim (-1) fun i => (i : ℤ)

/-- `Table::Open`. The host is called only when a slot is free. -/
def open_ (t : Table) (h : Host) (name : List Byte) (type ret : ℤ) : Table × Host × ℤ :=
  match t.findFreeSlot with
  | none => (t, h, -1)
  | some i =>
    let (d, r) := (t.slot i).openFile name type ret
    (t.set i d, h.opened ret, if r = -1 then -1 else d.id)

/-- `Table::SocketTCP`. -/
def socketTCP (t : Table) (h : Host) (ret : ℤ) : Table × Host × ℤ :=
  match t.findFreeSlot with
  | none => (t, h, -1)
  | some i => (t.set i ((t.slot i).socketTCP ret).1, h.opened ret, ((t.slot i).socketTCP ret).2)

/-- `Table::Close`. -/
def close (t : Table) (h : Host) (id : ℤ) : Option (Table × Host × ℤ) :=
  match t.slotOf id with
  | none => some (t, h, -1)
  | some i => ((t.slot i).closeFile h).map fun r => (t.set i r.1, r.2.1, r.2.2)

/-- `Table::Close_Socket`. -/
def closeSocket (t : Table) (h : Host) (socketid : ℤ) : Table × Host × ℤ :=
  match t.slotOf socketid with
  | none => (t, h, -1)
  | some i =>
    let (d, h', r) := (t.slot i).closeSocket h
    (t.set i d, h', r)

/-- `id` is open: an occupied slot has it. -/
def IsOpen (t : Table) (id : ℤ) : Prop := ∃ i ∈ usable, (t.slot i).Occupied ∧ (t.slot i).id = id

/-- The table as a finite map from ids to descriptors. -/
def fdMap (t : Table) (id : ℤ) : Option FileDescriptor :=
  (usable.find? fun i => (t.slot i).Occupied ∧ (t.slot i).id = id).map t.slot

/-- No two occupied slots share an id. -/
def Distinct (t : Table) : Prop :=
  ∀ i j, (t.slot i).Occupied → (t.slot j).Occupied → (t.slot i).id = (t.slot j).id → i = j

variable {t : Table} {i : Fin capacity} {d e : FileDescriptor} {k : ℤ}

@[simp] theorem slot_set_self (t : Table) (i : Fin capacity) (d : FileDescriptor) :
    (t.set i d).slot i = d := by
  simp [set]

theorem slot_set_of_ne {j : Fin capacity} (h : j ≠ i) : (t.set i d).slot j = t.slot j := by
  simp [set, Function.update_of_ne h]

theorem fdMap_eq_some (hd : t.Distinct) :
    t.fdMap k = some e ↔ ∃ i ∈ usable, (t.slot i).Occupied ∧ (t.slot i).id = k ∧ t.slot i = e := by
  unfold fdMap
  constructor
  · intro h
    obtain ⟨i, hi, rfl⟩ := Option.map_eq_some_iff.mp h
    have h1 := List.find?_some hi
    simp only [decide_eq_true_eq] at h1
    exact ⟨i, List.mem_of_find?_eq_some hi, h1.1, h1.2, rfl⟩
  · rintro ⟨i, hi, hocc, rfl, rfl⟩
    cases hf : usable.find? fun j =>
      decide ((t.slot j).Occupied ∧ (t.slot j).id = (t.slot i).id) with
    | none =>
      have := List.find?_eq_none.mp hf i hi
      simp [hocc] at this
    | some j =>
      have h1 := List.find?_some hf
      simp only [decide_eq_true_eq] at h1
      rw [hd j i h1.1 hocc h1.2]
      rfl

theorem isSome_fdMap : (t.fdMap k).isSome ↔ t.IsOpen k := by
  simp [fdMap, IsOpen]

/-- The map after one slot is replaced: the entry of the new descriptor, and
no longer that of the old. -/
theorem fdMap_set (hd : t.Distinct) (hd' : (t.set i d).Distinct) (hi : i ∈ usable) (k : ℤ) :
    (t.set i d).fdMap k = if d.Occupied ∧ d.id = k then some d
      else if (t.slot i).Occupied ∧ (t.slot i).id = k then none else t.fdMap k := by
  split_ifs with h1 h2
  · refine (fdMap_eq_some hd').mpr ⟨i, hi, ?_⟩
    rw [slot_set_self]
    exact ⟨h1.1, h1.2, rfl⟩
  · refine Option.eq_none_iff_forall_ne_some.mpr fun e he => ?_
    obtain ⟨j, hj, hocc, hid, -⟩ := (fdMap_eq_some hd').mp he
    by_cases hji : j = i
    · rw [hji, slot_set_self] at hocc hid
      exact h1 ⟨hocc, hid⟩
    · rw [slot_set_of_ne hji] at hocc hid
      exact hji (hd j i hocc h2.1 (hid.trans h2.2.symm))
  · apply Option.ext
    intro e
    rw [fdMap_eq_some hd', fdMap_eq_some hd]
    constructor
    · rintro ⟨j, hj, hocc, hid, he⟩
      by_cases hji : j = i
      · rw [hji, slot_set_self] at hocc hid
        exact absurd ⟨hocc, hid⟩ h1
      · rw [slot_set_of_ne hji] at hocc hid he
        exact ⟨j, hj, hocc, hid, he⟩
    · rintro ⟨j, hj, hocc, hid, he⟩
      have hji : j ≠ i := fun hji => h2 (hji ▸ ⟨hocc, hid⟩)
      rw [← slot_set_of_ne (t := t) (d := d) hji] at hocc hid he
      exact ⟨j, hj, hocc, hid, he⟩

theorem findFreeSlot_some (h : t.findFreeSlot = some i) : i ∈ usable ∧ (t.slot i).mode = -1 :=
  ⟨List.mem_of_find?_eq_some h, by simpa using List.find?_some h⟩

theorem findFreeSlot_none (h : t.findFreeSlot = none) : ∀ i ∈ usable, (t.slot i).mode ≠ -1 := by
  intro i hi
  simpa using List.find?_eq_none.mp h i hi

theorem slotOf_some (h : t.slotOf k = some i) : i ∈ usable ∧ (t.slot i).id = k :=
  ⟨List.mem_of_find?_eq_some h, by simpa using List.find?_some h⟩

theorem slotOf_none (h : t.slotOf k = none) : ∀ i ∈ usable, (t.slot i).id ≠ k := by
  intro i hi
  simpa using List.find?_eq_none.mp h i hi

end Table

/-! ### The system -/

/-- The table and the host. -/
structure TableSys where
  table : Table
  host : Host

namespace TableSys

/-- The calls; `ret` is what the host's `open` or `socket` returns. -/
inductive Label
  | open_ (name : List Byte) (type ret : ℤ)
  | socketTCP (ret : ℤ)
  | close (id : ℤ)
  | closeSocket (socketid : ℤ)

/-- A call and its return value; a failed `ASSERT` has none. -/
def call (s : TableSys) : Label → Option (TableSys × ℤ)
  | .open_ name type ret =>
    let (t, h, r) := s.table.open_ s.host name type ret
    some (⟨t, h⟩, r)
  | .socketTCP ret =>
    let (t, h, r) := s.table.socketTCP s.host ret
    some (⟨t, h⟩, r)
  | .close id => (s.table.close s.host id).map fun r => (⟨r.1, r.2.1⟩, r.2.2)
  | .closeSocket id =>
    let (t, h, r) := s.table.closeSocket s.host id
    some (⟨t, h⟩, r)

def step (s : TableSys) (l : Label) : Option TableSys := (s.call l).map Prod.fst

/-- A new table, whatever the process has open. -/
def initial (s : TableSys) : Prop := s.table = Table.new ∧ s.host.closes = []

/-- The host never returns a descriptor that is open. -/
def HostFresh (s : TableSys) : Label → Prop
  | .open_ _ _ ret => s.host.Result ret
  | .socketTCP ret => s.host.Result ret
  | _ => True

instance (s : TableSys) : (l : Label) → Decidable (HostFresh s l)
  | .open_ _ _ ret => inferInstanceAs (Decidable (s.host.Result ret))
  | .socketTCP ret => inferInstanceAs (Decidable (s.host.Result ret))
  | .close _ => inferInstanceAs (Decidable True)
  | .closeSocket _ => inferInstanceAs (Decidable True)

abbrev Reach : TableSys → Prop := Runs.Reach step initial HostFresh

/-! ### The invariant -/

/-- What every call keeps. -/
structure Inv (s : TableSys) : Prop where
  free : ∀ i, (s.table.slot i).mode = -1 ↔ (s.table.slot i).id = -1
  distinct : s.table.Distinct
  file : ∀ i, (s.table.slot i).mode = readWriteFile ∨ (s.table.slot i).mode = readFile →
    ∃ f, (s.table.slot i).file = some f ∧ f.fileID = (s.table.slot i).id
  live : ∀ i, (s.table.slot i).Occupied → 0 ≤ (s.table.slot i).id ∧
    (s.table.slot i).id ∈ s.host.openFds

variable {s s' : TableSys} {i : Fin capacity} {d : FileDescriptor}

theorem inv_initial (h : initial s) : Inv s := by
  obtain ⟨h, -⟩ := h
  refine ⟨?_, ?_, ?_, ?_⟩ <;>
    simp [h, Table.new, FileDescriptor.new, Table.Distinct, FileDescriptor.Occupied,
      readWriteFile, readFile]

/-- One slot is replaced, by a free descriptor or by one under a fresh id, and
the host keeps the ids of the other slots. -/
theorem inv_set (hI : Inv s) {h' : Host} (hfree : d.mode = -1 ↔ d.id = -1)
    (hfile : d.mode = readWriteFile ∨ d.mode = readFile → ∃ f, d.file = some f ∧ f.fileID = d.id)
    (hlive : d.Occupied → 0 ≤ d.id ∧ d.id ∈ h'.openFds ∧ d.id ∉ s.host.openFds)
    (hkeep : ∀ j ≠ i, (s.table.slot j).Occupied → (s.table.slot j).id ∈ h'.openFds) :
    Inv ⟨s.table.set i d, h'⟩ := by
  have hne : d.Occupied → ∀ j, (s.table.slot j).Occupied → d.id ≠ (s.table.slot j).id := by
    intro hd j hj he
    exact (hlive hd).2.2 (he ▸ (hI.live j hj).2)
  refine ⟨fun j => ?_, fun j k => ?_, fun j => ?_, fun j => ?_⟩
  · by_cases hj : j = i
    · rw [hj, Table.slot_set_self]; exact hfree
    · rw [Table.slot_set_of_ne hj]; exact hI.free j
  · simp only
    by_cases hj : j = i <;> by_cases hk : k = i
    · exact fun _ _ _ => hj.trans hk.symm
    · rw [hj, Table.slot_set_self, Table.slot_set_of_ne hk]
      exact fun h1 h2 h3 => absurd h3 (hne h1 k h2)
    · rw [hk, Table.slot_set_self, Table.slot_set_of_ne hj]
      exact fun h1 h2 h3 => absurd h3.symm (hne h2 j h1)
    · rw [Table.slot_set_of_ne hj, Table.slot_set_of_ne hk]
      exact hI.distinct j k
  · by_cases hj : j = i
    · rw [hj, Table.slot_set_self]; exact hfile
    · rw [Table.slot_set_of_ne hj]; exact hI.file j
  · by_cases hj : j = i
    · rw [hj, Table.slot_set_self]
      exact fun hd => ⟨(hlive hd).1, (hlive hd).2.1⟩
    · rw [Table.slot_set_of_ne hj]
      exact fun h => ⟨(hI.live j h).1, hkeep j hj h⟩

/-- The file of a slot moves to another offset. -/
theorem inv_moved (hI : Inv s) {f f' : OpenFile} (hf : (s.table.slot i).file = some f)
    (hsame : f'.fileID = f.fileID) :
    Inv ⟨s.table.set i { s.table.slot i with file := some f' }, s.host⟩ := by
  have hslot : ∀ j, ((s.table.set i { s.table.slot i with file := some f' }).slot j).mode =
      (s.table.slot j).mode ∧
      ((s.table.set i { s.table.slot i with file := some f' }).slot j).id =
        (s.table.slot j).id := by
    intro j
    by_cases hj : j = i
    · rw [hj, Table.slot_set_self]
      exact ⟨rfl, rfl⟩
    · rw [Table.slot_set_of_ne hj]
      exact ⟨rfl, rfl⟩
  refine ⟨fun j => ?_, fun j k => ?_, fun j => ?_, fun j => ?_⟩
  · simp only [hslot]
    exact hI.free j
  · simp only [FileDescriptor.Occupied, hslot]
    exact hI.distinct j k
  · by_cases hj : j = i
    · rw [hj, Table.slot_set_self]
      intro hm
      obtain ⟨f1, hf1, hid⟩ := hI.file i hm
      rw [hf, Option.some.injEq] at hf1
      exact ⟨f', rfl, by rw [hsame, hf1, hid]⟩
    · rw [Table.slot_set_of_ne hj]
      exact hI.file j
  · simp only [FileDescriptor.Occupied, hslot]
    exact hI.live j

/-! ### The calls as map operations -/

/-- What a call that opens `e` under the host's `ret` does. -/
structure Adds (s : TableSys) (ret : ℤ) (e : FileDescriptor) (s' : TableSys) (r : ℤ) : Prop where
  success : r ≠ -1 ↔ (∃ i ∈ usable, (s.table.slot i).mode = -1) ∧ ret ≠ -1
  added : r ≠ -1 → r = ret ∧ s.table.fdMap ret = none ∧
    s'.table.fdMap = Function.update s.table.fdMap ret (some e)
  failed : r = -1 → s'.table.fdMap = s.table.fdMap

/-- What a call that closes `id` does. -/
structure Removes (s : TableSys) (id : ℤ) (s' : TableSys) (r : ℤ) : Prop where
  result : r = 1 ∨ r = -1
  success : r = 1 ↔ s.table.IsOpen id
  removed : r = 1 → s'.host.closes = s.host.closes ++ [id] ∧
    s'.host.openFds = s.host.openFds.erase id ∧
    s'.table.fdMap = Function.update s.table.fdMap id none
  failed : r = -1 → s'.host = s.host ∧ s'.table.fdMap = s.table.fdMap

/-- A free slot gets another free descriptor: the map stays. -/
theorem fdMap_set_free (hI : Inv s) (hi : i ∈ usable) (hm : (s.table.slot i).mode = -1)
    (hd : d.mode = -1) {h' : Host} (hI' : Inv ⟨s.table.set i d, h'⟩) :
    (s.table.set i d).fdMap = s.table.fdMap := by
  funext k
  rw [Table.fdMap_set hI.distinct hI'.distinct hi, if_neg fun h => h.1 hd, if_neg fun h => h.1 hm]

/-- No slot is free: nothing happens. -/
theorem adds_full (h : s.table.findFreeSlot = none) {ret : ℤ} {e : FileDescriptor} :
    Adds s ret e s (-1) := by
  refine ⟨?_, fun h => absurd rfl h, fun _ => rfl⟩
  have hn : ¬ ∃ i ∈ usable, (s.table.slot i).mode = -1 := by
    rintro ⟨i, hi, hm⟩
    exact Table.findFreeSlot_none h i hi hm
  simp [hn]

/-- The host fails: the slot stays free. -/
theorem adds_failed (hI : Inv s) (h : s.table.findFreeSlot = some i) (hd : d.mode = -1)
    (hI' : Inv ⟨s.table.set i d, s.host⟩) {e : FileDescriptor} :
    Adds s (-1) e ⟨s.table.set i d, s.host⟩ (-1) := by
  obtain ⟨hi, hm⟩ := Table.findFreeSlot_some h
  refine ⟨by simp, fun h => absurd rfl h, fun _ => ?_⟩
  exact fdMap_set_free hI hi hm hd hI'

/-- The host returns a fresh descriptor: an entry under it. -/
theorem adds_ok (hI : Inv s) (h : s.table.findFreeSlot = some i) {ret : ℤ} (h0 : 0 ≤ ret)
    (hnew : ret ∉ s.host.openFds) {e : FileDescriptor} (hocc : e.Occupied)
    (hid : e.id = ret) {h' : Host} (hI' : Inv ⟨s.table.set i e, h'⟩) :
    Adds s ret e ⟨s.table.set i e, h'⟩ ret := by
  obtain ⟨hi, hm⟩ := Table.findFreeSlot_some h
  refine ⟨⟨fun h => ⟨⟨i, hi, hm⟩, h⟩, fun h => h.2⟩, fun _ => ⟨rfl, ?_, ?_⟩, fun h => by omega⟩
  · by_contra hc
    obtain ⟨j, hj, hoc, hjd⟩ := Table.isSome_fdMap.mp (Option.isSome_iff_ne_none.mpr hc)
    exact hnew (hjd ▸ (hI.live j hoc).2)
  · funext k
    simp only
    rw [Table.fdMap_set hI.distinct hI'.distinct hi, hid, Function.update_apply]
    by_cases hk : k = ret
    · rw [if_pos ⟨hocc, hk.symm⟩, if_pos hk]
    · rw [if_neg fun h => hk h.2.symm, if_neg fun h => h.1 hm, if_neg hk]

theorem opened_of_nonneg {h : Host} {ret : ℤ} (h0 : 0 ≤ ret) :
    h.opened ret = { h with openFds := insert ret h.openFds } := if_neg (by omega)

/-- The descriptor `Open` makes. -/
def fileEntry (name : List Byte) (type ret : ℤ) : FileDescriptor :=
  ⟨if type = 0 then readWriteFile else readFile, ret, some ⟨ret, 0, type⟩, some name⟩

/-- The descriptor `SocketTCP` makes. -/
def socketEntry (ret : ℤ) : FileDescriptor := ⟨socketMode, ret, none, none⟩

theorem occupied_fileEntry (name : List Byte) (type ret : ℤ) :
    (fileEntry name type ret).Occupied := by
  unfold fileEntry FileDescriptor.Occupied
  split_ifs <;> simp [readWriteFile, readFile]

/-- A new entry in a slot, under a descriptor the host just opened. -/
theorem inv_opened (hI : Inv s) {e : FileDescriptor} (hocc : e.Occupied) (h0 : 0 ≤ e.id)
    (hnew : e.id ∉ s.host.openFds)
    (hfile : e.mode = readWriteFile ∨ e.mode = readFile → ∃ f, e.file = some f ∧ f.fileID = e.id) :
    Inv ⟨s.table.set i e, s.host.opened e.id⟩ := by
  rw [opened_of_nonneg h0]
  refine inv_set hI ⟨fun h => absurd h hocc, fun h => by omega⟩ hfile (fun _ => ⟨h0, ?_, hnew⟩)
    fun j _ hj => ?_
  · exact Finset.mem_insert_self _ _
  · exact Finset.mem_insert_of_mem (hI.live j hj).2

/-- `Open`. -/
theorem open_spec (hI : Inv s) (name : List Byte) (type : ℤ) {ret : ℤ} (hr : s.host.Result ret) :
    ∃ s' r, s.call (.open_ name type ret) = some (s', r) ∧ Inv s' ∧
    Adds s ret (fileEntry name type ret) s' r := by
  cases hf : s.table.findFreeSlot with
  | none =>
    refine ⟨s, -1, ?_, hI, adds_full hf⟩
    simp [call, Table.open_, hf]
  | some i =>
    obtain ⟨hi, hm⟩ := Table.findFreeSlot_some hf
    rcases hr with rfl | ⟨h0, hnew⟩
    · -- `Open_File` clears `_file` of the free slot
      set d : FileDescriptor := { s.table.slot i with file := none } with hd
      have hI' : Inv ⟨s.table.set i d, s.host⟩ := by
        refine inv_set hI (hI.free i) ?_ (fun h => absurd hm h) fun j _ hj => (hI.live j hj).2
        simp [hd, hm, readWriteFile, readFile]
      refine ⟨_, -1, ?_, hI', adds_failed (d := d) hI hf hm hI'⟩
      simp [call, Table.open_, hf, FileDescriptor.openFile, fileSystemOpen, Host.opened, hd]
    · have hI' :=
        inv_opened (i := i) hI (occupied_fileEntry name type ret) h0 hnew fun _ => ⟨_, rfl, rfl⟩
      refine ⟨_, ret, ?_, hI', adds_ok hI hf h0 hnew (occupied_fileEntry _ _ _) rfl hI'⟩
      have hne : ret ≠ -1 := by omega
      simp [call, Table.open_, hf, FileDescriptor.openFile, fileSystemOpen, OpenFile.fileID,
        fileEntry, hne]

/-- `SocketTCP`. -/
theorem socketTCP_spec (hI : Inv s) {ret : ℤ} (hr : s.host.Result ret) :
    ∃ s' r, s.call (.socketTCP ret) = some (s', r) ∧ Inv s' ∧
    Adds s ret (socketEntry ret) s' r := by
  cases hf : s.table.findFreeSlot with
  | none =>
    refine ⟨s, -1, ?_, hI, adds_full hf⟩
    simp [call, Table.socketTCP, hf]
  | some i =>
    obtain ⟨hi, hm⟩ := Table.findFreeSlot_some hf
    rcases hr with rfl | ⟨h0, hnew⟩
    · have hI' : Inv ⟨s.table.set i (s.table.slot i), s.host⟩ :=
        inv_set hI (hI.free i) (hI.file i) (fun h => absurd hm h) fun j _ hj => (hI.live j hj).2
      refine ⟨_, -1, ?_, hI', adds_failed hI hf hm hI'⟩
      simp [call, Table.socketTCP, hf, FileDescriptor.socketTCP, Host.opened]
    · have hocc : (socketEntry ret).Occupied := by
        simp [socketEntry, FileDescriptor.Occupied, socketMode]
      have hI' := inv_opened (i := i) hI hocc h0 hnew
        (by simp [socketEntry, socketMode, readWriteFile, readFile])
      refine ⟨_, ret, ?_, hI', adds_ok hI hf h0 hnew hocc rfl hI'⟩
      simp [call, Table.socketTCP, hf, FileDescriptor.socketTCP, socketEntry,
        show ¬ ret < 0 by omega]

/-- An id that is not found is not open. -/
theorem removes_none {id : ℤ} (h : s.table.slotOf id = none) : Removes s id s (-1) := by
  refine ⟨Or.inr rfl, ?_, by simp, fun _ => ⟨rfl, rfl⟩⟩
  have : ¬ s.table.IsOpen id := by
    rintro ⟨i, hi, -, hid⟩
    exact Table.slotOf_none h i hi hid
  simp [this]

/-- A free slot is found for -1, and nothing else: the call fails. -/
theorem removes_free (hI : Inv s) {id : ℤ} (h : s.table.slotOf id = some i)
    (hid : (s.table.slot i).id = -1) :
    Removes s id s (-1) := by
  have h1 := (Table.slotOf_some h).2
  refine ⟨Or.inr rfl, ?_, by simp, fun _ => ⟨rfl, rfl⟩⟩
  have : ¬ s.table.IsOpen id := by
    rintro ⟨j, -, hocc, hj⟩
    have := (hI.live j hocc).1
    omega
  simp [this]

/-- An open id: the host closes it and its slot is free. -/
theorem removes_ok (hI : Inv s) {id : ℤ} (h : s.table.slotOf id = some i)
    (hid : (s.table.slot i).id ≠ -1) (hd : d.mode = -1) (hd' : d.id = -1)
    (hfile : d.mode ≠ readWriteFile ∧ d.mode ≠ readFile) :
    Inv ⟨s.table.set i d, (s.host.close id).1⟩ ∧
    Removes s id ⟨s.table.set i d, (s.host.close id).1⟩ 1 := by
  obtain ⟨hi, h1⟩ := Table.slotOf_some h
  have hocc : (s.table.slot i).Occupied := fun hm => hid ((hI.free i).mp hm)
  have hI' : Inv ⟨s.table.set i d, (s.host.close id).1⟩ := by
    refine inv_set hI (by simp [hd, hd']) (fun h => absurd h (by tauto)) (fun h => absurd hd h)
      fun j hj hjo => ?_
    refine Finset.mem_erase.mpr ⟨fun he => hj ?_, (hI.live j hjo).2⟩
    exact hI.distinct j i hjo hocc (he.trans h1.symm)
  refine ⟨hI', Or.inl rfl, ⟨fun _ => ⟨i, hi, hocc, h1⟩, fun _ => rfl⟩,
    fun _ => ⟨rfl, rfl, ?_⟩, by simp⟩
  funext k
  simp only
  rw [Table.fdMap_set hI.distinct hI'.distinct hi, if_neg fun h => h.1 hd, h1,
    Function.update_apply]
  by_cases hk : k = id
  · rw [if_pos ⟨hocc, hk.symm⟩, if_pos hk]
  · rw [if_neg fun h => hk h.2.symm, if_neg hk]

/-- `Close`; the host's `close` does not fail on an id of the table. -/
theorem close_spec (hI : Inv s) (id : ℤ) :
    ∃ s' r, s.call (.close id) = some (s', r) ∧ Inv s' ∧ Removes s id s' r := by
  cases hf : s.table.slotOf id with
  | none =>
    refine ⟨s, -1, ?_, hI, removes_none hf⟩
    simp [call, Table.close, hf]
  | some i =>
    have h1 := (Table.slotOf_some hf).2
    by_cases hid : (s.table.slot i).id = -1
    · refine ⟨s, -1, ?_, hI, removes_free hI hf hid⟩
      simp [call, Table.close, hf, FileDescriptor.closeFile, hid, Table.set]
    · have hocc : (s.table.slot i).Occupied := fun hm => hid ((hI.free i).mp hm)
      have hopen : id ∈ s.host.openFds := h1 ▸ (hI.live i hocc).2
      obtain ⟨hI', hr⟩ := removes_ok (d := ⟨-1, -1, none, none⟩) hI hf hid rfl rfl (by decide)
      refine ⟨_, 1, ?_, hI', hr⟩
      have hne : id ≠ -1 := h1 ▸ hid
      simp [call, Table.close, hf, FileDescriptor.closeFile, h1, hne, Host.close, hopen]

/-- `Close_Socket`. -/
theorem closeSocket_spec (hI : Inv s) (id : ℤ) :
    ∃ s' r, s.call (.closeSocket id) = some (s', r) ∧ Inv s' ∧ Removes s id s' r := by
  cases hf : s.table.slotOf id with
  | none =>
    refine ⟨s, -1, ?_, hI, removes_none hf⟩
    simp [call, Table.closeSocket, hf]
  | some i =>
    have h1 := (Table.slotOf_some hf).2
    by_cases hid : (s.table.slot i).id = -1
    · refine ⟨s, -1, ?_, hI, removes_free hI hf hid⟩
      simp [call, Table.closeSocket, hf, FileDescriptor.closeSocket, hid, Table.set]
    · obtain ⟨hI', hr⟩ :=
        removes_ok (d := { s.table.slot i with mode := -1, id := -1 }) hI hf hid rfl rfl
        (by simp [readWriteFile, readFile])
      refine ⟨_, 1, ?_, hI', hr⟩
      have hne : id ≠ -1 := h1 ▸ hid
      simp [call, Table.closeSocket, hf, FileDescriptor.closeSocket, h1, hne]

theorem inv_step (hI : Inv s) (l : Label) (hl : HostFresh s l) (hs : s.step l = some s') :
    Inv s' := by
  obtain ⟨⟨s1, r⟩, hc, rfl⟩ := Option.map_eq_some_iff.mp hs
  cases l with
  | open_ name type ret =>
    obtain ⟨s2, r2, h1, h2, -⟩ := open_spec hI name type hl
    rw [h1] at hc; cases hc; exact h2
  | socketTCP ret =>
    obtain ⟨s2, r2, h1, h2, -⟩ := socketTCP_spec hI hl
    rw [h1] at hc; cases hc; exact h2
  | close id =>
    obtain ⟨s2, r2, h1, h2, -⟩ := close_spec hI id
    rw [h1] at hc; cases hc; exact h2
  | closeSocket id =>
    obtain ⟨s2, r2, h1, h2, -⟩ := closeSocket_spec hI id
    rw [h1] at hc; cases hc; exact h2

theorem inv_reach (h : Reach s) : Inv s :=
  h.inv Inv (fun _ h0 => inv_initial h0) fun _ l _ _ hI hl hs => inv_step hI l hl hs

theorem isOpening_ne_iff (hI : Inv s) {id : ℤ} (h0 : 0 ≤ id) :
    s.table.isOpening id ≠ -1 ↔ s.table.IsOpen id := by
  unfold Table.isOpening
  cases hf : s.table.slotOf id with
  | none =>
    simp only [Option.elim_none, ne_eq, not_true_eq_false, false_iff]
    rintro ⟨i, hi, -, hid⟩
    exact Table.slotOf_none hf i hi hid
  | some i =>
    obtain ⟨hi, h1⟩ := Table.slotOf_some hf
    have hocc : (s.table.slot i).Occupied := fun hm => by
      have := (hI.free i).mp hm
      omega
    refine ⟨fun _ => ⟨i, hi, hocc, h1⟩, fun _ => ?_⟩
    simp only [Option.elim_some]
    omega

/-- **The descriptor table is a finite map.** In every state that calls with
any arguments reach: slots agree, ids are distinct, a file slot holds its own
file; opening adds one entry under a fresh id just when a slot is free and
the host succeeds; closing removes one entry, closing the host's descriptor
once, just when the id is open; a call that fails leaves the map. -/
theorem refines_map {s : TableSys} (h : Reach s) :
    (∀ i, (s.table.slot i).mode = -1 ↔ (s.table.slot i).id = -1) ∧
    (∀ i j, (s.table.slot i).Occupied → (s.table.slot j).Occupied →
      (s.table.slot i).id = (s.table.slot j).id → i = j) ∧
    (∀ i, (s.table.slot i).mode = readWriteFile ∨ (s.table.slot i).mode = readFile →
      ∃ f, (s.table.slot i).file = some f ∧ f.fileID = (s.table.slot i).id) ∧
    (∀ name type ret, s.host.Result ret →
      ∃ s' r, s.call (.open_ name type ret) = some (s', r) ∧
        Adds s ret (fileEntry name type ret) s' r) ∧
    (∀ ret, s.host.Result ret →
      ∃ s' r, s.call (.socketTCP ret) = some (s', r) ∧ Adds s ret (socketEntry ret) s' r) ∧
    (∀ id, ∃ s' r, s.call (.close id) = some (s', r) ∧ Removes s id s' r) ∧
    (∀ id, ∃ s' r, s.call (.closeSocket id) = some (s', r) ∧ Removes s id s' r) ∧
    (∀ id, 0 ≤ id → (s.table.isOpening id ≠ -1 ↔ s.table.IsOpen id)) := by
  have hI := inv_reach h
  refine ⟨hI.free, hI.distinct, hI.file, fun name type ret hr => ?_, fun ret hr => ?_, fun id => ?_,
    fun id => ?_, fun id h0 => isOpening_ne_iff hI h0⟩
  · obtain ⟨s', r, h1, -, h2⟩ := open_spec hI name type hr
    exact ⟨s', r, h1, h2⟩
  · obtain ⟨s', r, h1, -, h2⟩ := socketTCP_spec hI hr
    exact ⟨s', r, h1, h2⟩
  · obtain ⟨s', r, h1, -, h2⟩ := close_spec hI id
    exact ⟨s', r, h1, h2⟩
  · obtain ⟨s', r, h1, -, h2⟩ := closeSocket_spec hI id
    exact ⟨s', r, h1, h2⟩

/-- A file and a socket are opened, the file is closed as a socket. -/
theorem refines_map_mixed :
    ∃ s, Reach s ∧ s.table.isOpening 3 = -1 ∧ ¬ s.table.IsOpen 3 ∧ s.table.IsOpen 4 := by
  obtain ⟨s, hs, ht⟩ :=
    Runs.Reach.of_exec (C := HostFresh) step initial (s := ⟨Table.new, ∅, []⟩) ⟨rfl, rfl⟩
    [.open_ [97] 1 3, .socketTCP 4, .closeSocket 3]
    (Runs.Along.of_along (c := fun s l => HostFresh s l) (fun _ _ h => of_decide_eq_true h) _ _
      (by decide))
    (fun s => s.table.isOpening 3 = -1 ∧ s.table.isOpening 4 = 3) (by decide)
  simp only [decide_eq_true_eq] at ht
  have hmap := (refines_map hs).2.2.2.2.2.2.2
  refine ⟨s, hs, ht.1, fun hc => (hmap 3 (by decide)).mpr hc ht.1, (hmap 4 (by decide)).mp ?_⟩
  rw [ht.2]
  decide

end TableSys
end Nachos
