/-
# The file system (`filesys/filesys.cc`, without `FILESYS_STUB`)

The free map and the directory are files whose headers are in sectors 0 and 1;
`FileSystem(TRUE)` lays them out on the disk. `Create` and `Remove` fetch both
into memory, change them there and write them back at the end; `Open` fetches
the directory and the file's header. Every call works on the disk as its state
(`Fs`); `mem` is what the memory held that it allocates.

A formatted disk has the map in sector 2 and the directory in sectors 3 and 4,
so the operations are specified on the table and the map that are there
(`tableOf`, `mapOf`): what a call reads of them, and which sectors it changes.

* `failed_create_atomic`: a `Create` that returns FALSE has written nothing.
* `create_ok`, `open_ok`, `remove_ok`, `format_ok`: what the calls do to the
  entries, the map and the sectors of a disk that is laid out so.
* `header_capacity`: when `Allocate` stays inside the table of the header.

Key definitions: `Fs`, `FileSystem.format`, `FileSystem.create`,
`FileSystem.open_`, `FileSystem.remove`, `tableOf`, `mapOf`, `Created`, `Removed`.
Key theorems: `failed_create_atomic`, `create_ok`, `open_ok`, `remove_ok`, `format_ok`,
`header_capacity`.
-/
import Mathlib
import Nachos.Base.Bytes
import Nachos.Lib.Bitmap
import Nachos.Filesys.Directory

namespace Nachos.Filesys

open Bytes (Byte Store)

/-- A call with the disk as its state. -/
abbrev Fs := StateT Store (Except Stop)

namespace Fs

variable {α β : Type}

/-- A call that reads the disk. -/
def read (f : Store → Except Stop α) : Fs α := fun disk => (f disk).map fun a => (a, disk)

/-- A call that writes to the disk. -/
def write (f : Store → Except Stop Store) : Fs Unit :=
  fun disk => (f disk).map fun disk' => ((), disk')

/-- `ASSERT`. -/
def assert (b : Bool) : Fs Unit := fun disk => if b then .ok ((), disk) else .error .assert

end Fs

/-- `FreeMapSector`. -/
def freeMapSector : ℤ := 0
/-- `DirectorySector`. -/
def directorySector : ℤ := 1
/-- `FreeMapFileSize`: a bit for each sector. -/
def freeMapFileSize : ℤ := 128
/-- `NumDirEntries`. -/
def numDirEntries : ℕ := 10
/-- `DirectoryFileSize`. -/
def directoryFileSize : ℤ := sizeofDirectoryEntry * numDirEntries

/-- `class FileSystem`. -/
structure FileSystem where
  freeMapFile : OpenFile
  directoryFile : OpenFile

namespace FileSystem

/-- `FileSystem::FileSystem(TRUE)`. -/
def format (mem : ℕ → Store) : Fs FileSystem := do
  let freeMap := Bitmap.new Disk.numSectors
  let directory := Directory.new numDirEntries (mem 0)
  let freeMap := freeMap.mark freeMapSector.toNat
  let freeMap := freeMap.mark directorySector.toNat
  let (mapHdr, freeMap, ok) ← Fs.read fun _ =>
    (FileHeader.ofBytes (mem 1) 0).allocate freeMap freeMapFileSize
  Fs.assert ok
  let (dirHdr, freeMap, ok) ← Fs.read fun _ =>
    (FileHeader.ofBytes (mem 2) 0).allocate freeMap directoryFileSize
  Fs.assert ok
  Fs.write fun disk => mapHdr.writeBack disk freeMapSector
  Fs.write fun disk => dirHdr.writeBack disk directorySector
  let freeMapFile ← Fs.read fun disk => OpenFile.new disk freeMapSector
  let directoryFile ← Fs.read fun disk => OpenFile.new disk directorySector
  Fs.write fun disk => PersistentBitmap.writeBack freeMap disk freeMapFile fun i => mem (3 + i)
  Fs.write fun disk => directory.writeBack disk directoryFile fun i => mem (6 + i)
  pure ⟨freeMapFile, directoryFile⟩

/-- `FileSystem::FileSystem(FALSE)`. -/
def mount : Fs FileSystem := do
  let freeMapFile ← Fs.read fun disk => OpenFile.new disk freeMapSector
  let directoryFile ← Fs.read fun disk => OpenFile.new disk directorySector
  pure ⟨freeMapFile, directoryFile⟩

/-- `FileSystem::Create`. -/
def create (fs : FileSystem) (mem : ℕ → Store) (name : CString) (initialSize : ℤ) : Fs Bool := do
  let directory ← Fs.read fun disk =>
    (Directory.new numDirEntries (mem 0)).fetchFrom disk fs.directoryFile (mem 1)
  if directory.find name ≠ -1 then pure false
  else
    let freeMap ← Fs.read fun disk =>
      PersistentBitmap.fetch disk fs.freeMapFile Disk.numSectors (mem 2)
    let (freeMap, sector) := freeMap.findAndSet
    if sector = -1 then pure false
    else
      let (directory, added) := directory.add name sector
      if !added then pure false
      else
        let (hdr, freeMap, success) ← Fs.read fun _ =>
          (FileHeader.ofBytes (mem 3) 0).allocate freeMap initialSize
        if !success then pure false
        else
          Fs.write fun disk => hdr.writeBack disk sector
          Fs.write fun disk => directory.writeBack disk fs.directoryFile fun i => mem (4 + i)
          Fs.write fun disk =>
            PersistentBitmap.writeBack freeMap disk fs.freeMapFile fun i => mem (7 + i)
          pure true

/-- `FileSystem::Open`; `none` for `NULL`. -/
def open_ (fs : FileSystem) (mem : ℕ → Store) (name : CString) : Fs (Option OpenFile) := do
  let directory ← Fs.read fun disk =>
    (Directory.new numDirEntries (mem 0)).fetchFrom disk fs.directoryFile (mem 1)
  let sector := directory.find name
  if sector < 0 then pure none
  else
    let openFile ← Fs.read fun disk => OpenFile.new disk sector
    pure (some openFile)

/-- `FileSystem::Remove`. `Clear` asserts that there is such a bit. -/
def remove (fs : FileSystem) (mem : ℕ → Store) (name : CString) : Fs Bool := do
  let directory ← Fs.read fun disk =>
    (Directory.new numDirEntries (mem 0)).fetchFrom disk fs.directoryFile (mem 1)
  let sector := directory.find name
  if sector = -1 then pure false
  else
    let fileHdr ← Fs.read fun disk => FileHeader.fetchFrom disk sector
    let freeMap ← Fs.read fun disk =>
      PersistentBitmap.fetch disk fs.freeMapFile Disk.numSectors (mem 2)
    let freeMap ← Fs.read fun _ => fileHdr.deallocate freeMap
    Fs.assert (0 ≤ sector && sector < freeMap.numBits)
    let freeMap := freeMap.clear sector.toNat
    let (directory, _) := directory.remove name
    Fs.write fun disk => PersistentBitmap.writeBack freeMap disk fs.freeMapFile fun i => mem (3 + i)
    Fs.write fun disk => directory.writeBack disk fs.directoryFile fun i => mem (6 + i)
    pure true

end FileSystem

/-! ### Steps of a call -/

namespace Fs

variable {α β : Type} {disk disk' : Store} {a : α} {g : α → Fs β} {k : Unit → Fs β} {r : β × Store}

theorem read_bind {f : Store → Except Stop α} (h : f disk = .ok a) :
    (read f >>= g) disk = g a disk := by
  simp [read, bind, StateT.bind, Except.bind, h, Except.map]

theorem write_bind {f : Store → Except Stop Store} (h : f disk = .ok disk') :
    (write f >>= k) disk = k () disk' := by
  simp [write, bind, StateT.bind, Except.bind, h, Except.map]

theorem assert_bind {b : Bool} (h : b = true) : (assert b >>= k) disk = k () disk := by
  simp [assert, bind, StateT.bind, Except.bind, h]

/-- A call that begins with a read goes on from the disk as it is. -/
theorem of_read_bind {f : Store → Except Stop α} (h : (read f >>= g) disk = .ok r) :
    ∃ a, f disk = .ok a ∧ g a disk = .ok r := by
  cases hf : f disk with
  | error e => simp [read, bind, StateT.bind, Except.bind, hf, Except.map] at h
  | ok a =>
    rw [read_bind hf] at h
    exact ⟨a, rfl, h⟩

theorem of_write_bind {f : Store → Except Stop Store} (h : (write f >>= k) disk = .ok r) :
    ∃ disk', f disk = .ok disk' ∧ k () disk' = .ok r := by
  cases hf : f disk with
  | error e => simp [write, bind, StateT.bind, Except.bind, hf, Except.map] at h
  | ok disk' =>
    rw [write_bind hf] at h
    exact ⟨disk', rfl, h⟩

end Fs

/-! ### The layout of a formatted disk -/

/-- The header of the free map: one sector, number 2. -/
structure MapHeader (hdr : FileHeader) : Prop where
  numBytes : hdr.numBytes = freeMapFileSize
  numSectors : hdr.numSectors = 1
  sectors : hdr.sectors = [2]

/-- The header of the directory: the sectors 3 and 4. -/
structure DirHeader (hdr : FileHeader) : Prop where
  numBytes : hdr.numBytes = directoryFileSize
  numSectors : hdr.numSectors = 2
  sectors : hdr.sectors = [3, 4]

/-- The table of the directory on the disk. -/
def tableOf (disk : Store) : Store := fun x => disk (Disk.offset 3 + x)

/-- The free map on the disk. -/
def mapOf (disk : Store) : Bitmap := mapOfBytes Disk.numSectors fun x => disk (Disk.offset 2 + x)

variable {disk disk' : Store} {hdr : FileHeader} {file : OpenFile}

theorem MapHeader.good (h : MapHeader hdr) : hdr.Good where
  numSectors := by rw [h.numBytes, h.numSectors]; rfl
  fits := by rw [h.numSectors]; decide
  onDisk := by rw [h.sectors]; decide
  nodup := by rw [h.sectors]; decide

theorem DirHeader.good (h : DirHeader hdr) : hdr.Good where
  numSectors := by rw [h.numBytes, h.numSectors]; rfl
  fits := by rw [h.numSectors]; decide
  onDisk := by rw [h.sectors]; decide
  nodup := by rw [h.sectors]; decide

theorem MapHeader.stored (h : MapHeader hdr) : MapHeader hdr.stored := by
  obtain ⟨h1, h2, h3⟩ := FileHeader.sectors_stored h.good (by rw [h.numBytes]; decide)
  exact ⟨h1.trans h.numBytes, h2.trans h.numSectors, h3.trans h.sectors⟩

theorem DirHeader.stored (h : DirHeader hdr) : DirHeader hdr.stored := by
  obtain ⟨h1, h2, h3⟩ := FileHeader.sectors_stored h.good (by rw [h.numBytes]; decide)
  exact ⟨h1.trans h.numBytes, h2.trans h.numSectors, h3.trans h.sectors⟩

theorem MapHeader.content (h : MapHeader hdr) (disk : Store) {x : ℤ} (h0 : 0 ≤ x) (h1 : x < 128) :
    hdr.content disk x = disk (Disk.offset 2 + x) := by
  have hs := h.sectors
  simp only [FileHeader.sectors, h.numSectors] at hs
  have hs0 : hdr.dataSectors 0 = 2 := by simpa using hs
  unfold FileHeader.content FileHeader.place
  rw [OpenFile.sectorSize_cast, show x / 128 = 0 by omega, show x % 128 = x by omega,
    Int.toNat_zero, hs0]

/-- The two sectors of the directory are one after the other. -/
theorem DirHeader.content (h : DirHeader hdr) (disk : Store) {x : ℤ} (h0 : 0 ≤ x) (h1 : x < 256) :
    hdr.content disk x = tableOf disk x := by
  have hs := h.sectors
  simp only [FileHeader.sectors, h.numSectors] at hs
  have hs' : hdr.dataSectors 0 = 3 ∧ hdr.dataSectors 1 = 4 := by simpa [List.range_succ] using hs
  unfold FileHeader.content FileHeader.place tableOf
  rw [OpenFile.sectorSize_cast]
  by_cases hx : x < 128
  · rw [show x / 128 = 0 by omega, show x % 128 = x by omega, Int.toNat_zero, hs'.1]
  · rw [show x / 128 = 1 by omega, show x % 128 = x - 128 by omega, Int.toNat_one, hs'.2]
    congr 1
    unfold Disk.offset
    rw [OpenFile.sectorSize_cast]
    ring

/-- `Directory::FetchFrom` gives the entries of the table on the disk. -/
theorem fetch_table (h : DirHeader file.hdr) (disk mem new : Store) :
    ∃ d, (Directory.new numDirEntries mem).fetchFrom disk file new = .ok d ∧
    d.tableSize = numDirEntries ∧
      ∀ x, 0 ≤ x → x < 200 → d.table x = tableOf disk x := by
  have hclip : OpenFile.clip file.hdr.fileLength (numDirEntries * sizeofDirectoryEntry)
      0 = 200 := by
    rw [FileHeader.fileLength, h.numBytes]
    decide
  refine ⟨⟨Bytes.copy (file.hdr.content disk) 0 (Directory.new numDirEntries mem).table 0 200,
    numDirEntries⟩, ?_, rfl, fun x h0 h1 => ?_⟩
  · unfold Directory.fetchFrom
    rw [OpenFile.readAt_ok h.good new _ 0 _ (le_refl 0),
      show ((Directory.new numDirEntries mem).tableSize : ℤ) = numDirEntries from rfl, hclip]
    rfl
  · simp only
    rw [Bytes.copy_inside h0 (by omega), h.content disk (by omega) (by omega)]
    congr 1
    omega

/-- `PersistentBitmap` from the file is the map on the disk. -/
theorem fetch_map (h : MapHeader file.hdr) (disk new : Store) :
    PersistentBitmap.fetch disk file Disk.numSectors new = .ok (mapOf disk) := by
  have hclip : OpenFile.clip file.hdr.fileLength (numWords Disk.numSectors * 4) 0 = 128 := by
    rw [FileHeader.fileLength, h.numBytes]
    decide
  unfold PersistentBitmap.fetch
  rw [OpenFile.readAt_ok h.good new _ 0 _ (le_refl 0), hclip]
  refine congrArg Except.ok (mapOfBytes_congr fun x h0 h1 => ?_)
  have hw : (4 : ℤ) * numWords Disk.numSectors = 128 := by decide
  simp only
  rw [Bytes.copy_inside h0 (by omega), h.content disk (by omega) (by omega)]
  congr 1
  omega

/-- `Directory::WriteBack` changes the directory's sectors to the table. -/
theorem writeBack_table (file : OpenFile) (h : DirHeader file.hdr) (d : Directory)
    (hd : d.tableSize = numDirEntries) (disk : Store) (news : ℕ → Store) :
    ∃ disk', d.writeBack disk file news = .ok disk' ∧
    (∀ x, 0 ≤ x → x < 200 → tableOf disk' x = d.table x) ∧
      ∀ y, ¬ InSector 3 y → ¬ InSector 4 y → disk' y = disk y := by
  have hlen : file.hdr.fileLength = 200 := by
    rw [FileHeader.fileLength, h.numBytes]
    rfl
  have hclip : OpenFile.clip 200 (d.tableSize * sizeofDirectoryEntry) 0 = 200 := by
    rw [hd]
    decide
  obtain ⟨disk', hdisk, hin, hout⟩ :=
    OpenFile.writeAt_ok disk h.good news d.table 0 (d.tableSize * sizeofDirectoryEntry) (le_refl 0)
  rw [hlen, hclip] at hin
  refine ⟨disk', ?_, fun x h0 h1 => ?_, fun y h3 h4 => hout y fun s hs => ?_⟩
  · unfold Directory.writeBack
    rw [hdisk]
    rfl
  · rw [← h.content disk' h0 (by omega), hin x h0 h1, Bytes.copy_inside (by omega) (by omega)]
    congr 1
    omega
  · rw [h.sectors] at hs
    simp only [List.mem_cons, List.not_mem_nil, or_false] at hs
    rcases hs with rfl | rfl
    · exact h3
    · exact h4

/-- `PersistentBitmap::WriteBack` changes the map's sector to the map. -/
theorem writeBack_map (file : OpenFile) (h : MapHeader file.hdr) (b : Bitmap)
    (hb : b.numBits = Disk.numSectors) (disk : Store) (news : ℕ → Store) :
    ∃ disk', PersistentBitmap.writeBack b disk file news = .ok disk' ∧
      (∀ j < Disk.numSectors, (mapOf disk').test j = b.test j) ∧ ∀ y, ¬ InSector 2 y →
      disk' y = disk y := by
  have hlen : file.hdr.fileLength = 128 := by
    rw [FileHeader.fileLength, h.numBytes]
    rfl
  have hclip : OpenFile.clip 128 (numWords b.numBits * 4) 0 = 128 := by
    rw [hb]
    decide
  obtain ⟨disk', hdisk, hin, hout⟩ :=
    OpenFile.writeAt_ok disk h.good news (mapBytes b) 0 (numWords b.numBits * 4) (le_refl 0)
  rw [hlen, hclip] at hin
  refine ⟨disk', ?_, fun j hj => ?_, fun y h2 => hout y fun s hs => ?_⟩
  · unfold PersistentBitmap.writeBack
    rw [hdisk]
    rfl
  · have hback := test_mapOfBytes (b := b) (hb ▸ hj)
    rw [← hback, hb]
    refine congrArg (fun b : Bitmap => b.test j) (mapOfBytes_congr fun x h0 h1 => ?_)
    have hw : (4 : ℤ) * numWords Disk.numSectors = 128 := by decide
    rw [← h.content disk' h0 (by omega), hin x h0 (by omega),
      Bytes.copy_inside (by omega) (by omega)]
    congr 1
    omega
  · rw [h.sectors] at hs
    simp only [List.mem_cons, List.not_mem_nil, or_false] at hs
    exact hs ▸ h2

/-! ### What the calls do -/

open Directory (Has SameEntry)

/-- The files of the map and the directory are open. -/
structure Mounted (fs : FileSystem) : Prop where
  map : MapHeader fs.freeMapFile.hdr
  dir : DirHeader fs.directoryFile.hdr

/-- What the operations rely on: entries in use have a sector, and the sectors
of the map and the directory are marked. -/
structure Ready (disk : Store) : Prop where
  sector : ∀ i < numDirEntries, Directory.inUse (tableOf disk) i = true →
    0 ≤ Directory.sector (tableOf disk) i
  reserved : ∀ j < 5, (mapOf disk).test j = true

/-- `Create` has made the file `name` of `size` bytes: entry `i`, with the
header in sector `s` and the data in the sectors `l`. -/
structure Created (disk disk' : Store) (name : CString) (size : ℤ) (i s : ℕ) (l : List ℕ) :
    Prop where
  lt : i < numDirEntries
  unused : Directory.inUse (tableOf disk) i = false
  inUse : Directory.inUse (tableOf disk') i = true
  sector : Directory.sector (tableOf disk') i = s
  name : Directory.name (tableOf disk') i = name.key
  other : ∀ j < numDirEntries, j ≠ i → SameEntry (tableOf disk') (tableOf disk) j
  nodup : (s :: l).Nodup
  free : ∀ j ∈ s :: l, j < Disk.numSectors ∧ (mapOf disk).test j = false
  least : ∀ j < s, (mapOf disk).test j = true
  firstFit : ∀ n ∈ l, ∀ j < n, (mapOf disk).test j = true ∨ j ∈ s :: l
  map : ∀ j < Disk.numSectors, (mapOf disk').test j = (decide (j ∈ s :: l) || (mapOf disk).test j)
  numBytes : (FileHeader.headerAt disk' s).numBytes = size
  numSectors : (FileHeader.headerAt disk' s).numSectors = divRoundUp size Disk.sectorSize
  sectors : (FileHeader.headerAt disk' s).sectors = l.map Nat.cast
  frame : ∀ y, ¬ InSector 2 y → ¬ InSector 3 y → ¬ InSector 4 y → ¬ InSector s y → disk' y = disk y

/-- `Remove` has deleted entry `i`, with the header in sector `s` and the data
in the sectors `l`. -/
structure Removed (disk disk' : Store) (i s : ℕ) (l : List ℕ) : Prop where
  unused : Directory.inUse (tableOf disk') i = false
  other : ∀ j < numDirEntries, j ≠ i → SameEntry (tableOf disk') (tableOf disk) j
  map : ∀ j < Disk.numSectors, (mapOf disk').test j = (!decide (j ∈ s :: l) && (mapOf disk).test j)
  frame : ∀ y, ¬ InSector 2 y → ¬ InSector 3 y → ¬ InSector 4 y → disk' y = disk y

variable {fs : FileSystem} {name : CString} {size : ℤ} {mem : ℕ → Store}

/-- The directory in memory has the entries of the disk. -/
theorem sameEntry_fetched {t : Store} (ht : ∀ x, 0 ≤ x → x < 200 → t x = tableOf disk x) {i : ℕ}
    (hi : i < numDirEntries) :
    SameEntry t (tableOf disk) i := by
  unfold numDirEntries at hi
  exact Directory.sameEntry_of_bytes fun x h0 h1 => ht x (by omega) (by omega)

/-- `Find` on the directory of the disk. -/
theorem find_fetched {d : Directory} (name : CString) (hR : Ready disk)
    (hsize : d.tableSize = numDirEntries) (ht : ∀ x, 0 ≤ x → x < 200 → d.table x = tableOf disk x) :
    (∃ i < numDirEntries, Has (tableOf disk) i name.key ∧ d.findIndex name = some i ∧
      d.find name = Directory.sector (tableOf disk) i ∧ 0 ≤ d.find name) ∨
    ((∀ i < numDirEntries, ¬ Has (tableOf disk) i name.key) ∧ d.findIndex name = none ∧
      d.find name = -1) := by
  unfold Directory.find
  cases hf : d.findIndex name with
  | none =>
    refine Or.inr ⟨fun i hi hhas => ?_, rfl, rfl⟩
    exact Directory.findIndex_eq_none.mp hf i (hsize ▸ hi) ((sameEntry_fetched ht hi).has.mpr hhas)
  | some i =>
    obtain ⟨hi, hhas⟩ := Directory.findIndex_eq_some hf
    rw [hsize] at hi
    have hsame := sameEntry_fetched ht hi
    have hhas' := hsame.has.mp hhas
    have hpos := hR.sector i hi hhas'.1
    rw [← hsame.2.1] at hpos
    exact Or.inl ⟨i, hi, hhas', rfl, hsame.2.1, hpos⟩

theorem tableOf_congr (h : ∀ y, InSector 3 y ∨ InSector 4 y → disk' y = disk y) {x : ℤ} (h0 : 0 ≤ x)
    (h1 : x < 256) :
    tableOf disk' x = tableOf disk x := by
  refine h _ ?_
  simp only [InSector, Disk.offset, OpenFile.sectorSize_cast]
  omega

theorem mapOf_congr (h : ∀ y, InSector 2 y → disk' y = disk y) : mapOf disk' = mapOf disk := by
  have hw : (4 : ℤ) * numWords Disk.numSectors = 128 := by decide
  refine mapOfBytes_congr fun x h0 h1 => h _ (inSector_offset h0 ?_)
  rw [OpenFile.sectorSize_cast]
  omega

/-- A sector that is not marked is none of the map's and the directory's. -/
theorem Ready.le_of_clear (hR : Ready disk) {s : ℕ} (h : (mapOf disk).test s = false) : 5 ≤ s := by
  by_contra hlt
  rw [hR.reserved s (by omega)] at h
  cases h

/-- A name that is there: `Create` fails. -/
theorem create_present (hm : Mounted fs) (hR : Ready disk) (mem : ℕ → Store)
    (name : CString) (size : ℤ) (hhas : ∃ i < numDirEntries, Has (tableOf disk) i name.key) :
    fs.create mem name size disk = .ok (false, disk) := by
  obtain ⟨d, hd, hsize, ht⟩ := fetch_table hm.dir disk (mem 0) (mem 1)
  rcases find_fetched name hR hsize ht with ⟨i, hi, -, -, -, hfind⟩ | ⟨habs, -, -⟩
  · unfold FileSystem.create
    refine Eq.trans (Fs.read_bind hd) ?_
    rw [if_pos (by omega)]
    rfl
  · obtain ⟨i, hi, h⟩ := hhas
    exact absurd h (habs i hi)

/-- **A failed Create is atomic.** Whatever is on the disk, and whichever of
its tests fails, a `Create` that returns FALSE leaves every sector as it was. -/
theorem failed_create_atomic (fs : FileSystem) (mem : ℕ → Store) (name : CString) (initialSize : ℤ)
    (disk disk' : Store) (h : fs.create mem name initialSize disk = .ok (false, disk')) (n : ℤ) :
    Disk.sector disk' n = Disk.sector disk n := by
  suffices hdisk : disk' = disk by rw [hdisk]
  unfold FileSystem.create at h
  obtain ⟨directory, -, h⟩ := Fs.of_read_bind h
  split_ifs at h
  · cases h
    rfl
  obtain ⟨freeMap, -, h⟩ := Fs.of_read_bind h
  simp only at h
  split_ifs at h
  · cases h
    rfl
  · cases h
    rfl
  obtain ⟨⟨hdr, freeMap', success⟩, -, h⟩ := Fs.of_read_bind h
  simp only at h
  split_ifs at h
  · cases h
    rfl
  · obtain ⟨d1, -, h⟩ := Fs.of_write_bind h
    obtain ⟨d2, -, h⟩ := Fs.of_write_bind h
    obtain ⟨d3, -, h⟩ := Fs.of_write_bind h
    cases h

/-- A disk full of 127s has a file whose name is nine of them. -/
theorem failed_create_atomic_present :
    let fs : FileSystem := ⟨⟨⟨128, 1, fun _ => 2⟩, 0⟩, ⟨⟨200, 2, fun i => 3 + i⟩, 0⟩⟩
    let name : CString := ⟨List.replicate 9 127, by decide⟩
    ∃ disk', fs.create (fun _ _ => 0) name 5 (fun _ => 127) = .ok (false, disk') ∧
      ∀ n, Disk.sector disk' n = Disk.sector (fun _ => 127) n := by
  intro fs name
  have hm : Mounted fs := ⟨⟨rfl, rfl, rfl⟩, ⟨rfl, rfl, rfl⟩⟩
  have hR : Ready (fun _ => 127) := ⟨by decide, by decide +kernel⟩
  have h := create_present hm hR (fun _ _ => 0) name 5 ⟨0, by decide, by decide, by decide⟩
  exact ⟨_, h, failed_create_atomic fs (fun _ _ => 0) name 5 _ _ h⟩

/-- The three writes of `Create` put the file on the disk. -/
theorem flush_created (name : CString) (hm : Mounted fs) (hR : Ready disk) {d : Directory}
    (hsize : d.tableSize = numDirEntries) (ht : ∀ x, 0 ≤ x → x < 200 → d.table x = tableOf disk x)
    {i s : ℕ} (hi : i < numDirEntries) (hunused : Directory.inUse d.table i = false)
    (hs : s < Disk.numSectors) (hclear : (mapOf disk).test s = false)
    (hleast : ∀ j < s, (mapOf disk).test j = true) {l : List ℕ} {ds : ℕ → ℤ} (h0 : 0 ≤ size)
    (h1 : size ≤ maxFileSize)
    (hds : FileHeader.sectors ⟨size, divRoundUp size Disk.sectorSize, ds⟩ = l.map Nat.cast)
    (hnd : l.Nodup) (hl : ∀ j ∈ l, j < Disk.numSectors ∧ ((mapOf disk).mark s).test j = false)
    (hfirst : ∀ n ∈ l, ∀ j < n, ((mapOf disk).mark s).test j = true ∨ j ∈ l)
    (news news' : ℕ → Store) :
    ∃ d1 d2 d3, FileHeader.writeBack ⟨size, divRoundUp size Disk.sectorSize, ds⟩ disk s = .ok d1 ∧
      Directory.writeBack { d with table := Directory.setEntry d.table i name s }
      d1 fs.directoryFile news = .ok d2 ∧
      PersistentBitmap.writeBack (l.foldl Bitmap.mark ((mapOf disk).mark s))
      d2 fs.freeMapFile news' = .ok d3 ∧
      Created disk d3 name size i s l := by
  have h5 := hR.le_of_clear hclear
  have hnum : (mapOf disk).numBits = Disk.numSectors := rfl
  obtain ⟨d1, hd1, hhdr, hf1⟩ :=
    FileHeader.writeBack_ok ⟨size, divRoundUp size Disk.sectorSize, ds⟩ disk
    (show (0 : ℤ) ≤ s by omega) (by exact_mod_cast hs)
  obtain ⟨d2, hd2, htab, hf2⟩ :=
    writeBack_table _ hm.dir { d with table := Directory.setEntry d.table i name s } hsize d1 news
  obtain ⟨d3, hd3, hmap, hf3⟩ := writeBack_map _ hm.map (l.foldl Bitmap.mark ((mapOf disk).mark s))
    (by rw [Bitmap.numBits_foldl_mark, Bitmap.numBits_mark, hnum]) d2 news'
  refine ⟨d1, d2, d3, hd1, hd2, hd3, ?_⟩
  -- the sector of the header is not touched by the other two writes, nor the table by the last
  have hs3 : ∀ y, InSector s y → d3 y = d1 y := by
    intro y hy
    rw [hf3 y fun h => by have := hy.unique h; omega,
      hf2 y (fun h => by have := hy.unique h; omega) fun h => by have := hy.unique h; omega]
  have htab3 : ∀ x, 0 ≤ x → x < 200 → tableOf d3 x = Directory.setEntry d.table i name s x := by
    intro x hx0 hx1
    refine Eq.trans (tableOf_congr (fun y hy => hf3 y fun h => ?_) hx0 (by omega)) (htab x hx0 hx1)
    rcases hy with hy | hy
    · have := hy.unique h
      omega
    · have := hy.unique h
      omega
  have hentry : ∀ j < numDirEntries, SameEntry (tableOf d3) (Directory.setEntry d.table i name s)
      j := by
    intro j hj
    unfold numDirEntries at hj
    exact Directory.sameEntry_of_bytes fun x hx0 hx1 => htab3 x (by omega) (by omega)
  obtain ⟨hself1, hself2, hself3⟩ := Directory.setEntry_self d.table i name s
  have hs32 : (BitVec.ofInt 32 (s : ℤ)).toInt = s := by
    simp only [Disk.numSectors, Disk.sectorsPerTrack, Disk.numTracks] at hs
    exact FileHeader.toInt_ofInt_of_range (by omega) (by omega)
  have hfree : ∀ j ∈ l, j ≠ s ∧ (mapOf disk).test j = false := by
    intro j hj
    have := (hl j hj).2
    rw [Bitmap.test_mark (hnum ▸ hs)] at this
    simpa using this
  have hG : FileHeader.Good ⟨size, divRoundUp size Disk.sectorSize, ds⟩ := by
    refine ⟨rfl, FileHeader.divRoundUp_le_numDirect h0 h1, fun n hn => ?_,
      hds ▸ hnd.map Nat.cast_injective⟩
    rw [hds] at hn
    obtain ⟨j, hj, rfl⟩ := List.mem_map.mp hn
    exact ⟨by omega, by exact_mod_cast (hl j hj).1⟩
  obtain ⟨hst1, hst2, hst3⟩ := FileHeader.sectors_stored hG h0
  have hhdr3 : FileHeader.headerAt d3 s =
      FileHeader.stored ⟨size, divRoundUp size Disk.sectorSize, ds⟩ :=
    (FileHeader.headerAt_congr hs3).trans hhdr
  refine
    { lt := hi
      unused := (sameEntry_fetched ht hi).1 ▸ hunused
      inUse := (hentry i hi).1.trans hself1
      sector := ((hentry i hi).2.1.trans hself2).trans hs32
      name := (hentry i hi).2.2.trans hself3
      other := fun j hj hne =>
        ((hentry j hj).trans (Directory.setEntry_other hne name s)).trans (sameEntry_fetched ht hj)
      nodup := List.nodup_cons.mpr ⟨fun hmem => (hfree s hmem).1 rfl, hnd⟩
      free := ?_
      least := hleast
      firstFit := fun n hn j hj => ?_
      map := fun j hj => ?_
      numBytes := by rw [hhdr3, hst1]
      numSectors := by rw [hhdr3, hst2]
      sectors := by rw [hhdr3, hst3, hds]
      frame := fun y h2 h3 h4 hy => by rw [hf3 y h2, hf2 y h3 h4, hf1 y hy] }
  · intro j hj
    rcases List.mem_cons.mp hj with rfl | hj
    · exact ⟨hs, hclear⟩
    · exact ⟨(hl j hj).1, (hfree j hj).2⟩
  · rcases hfirst n hn j hj with h | h
    · rw [Bitmap.test_mark (hnum ▸ hs), Bool.or_eq_true, decide_eq_true_eq] at h
      rcases h with rfl | h
      · exact Or.inr List.mem_cons_self
      · exact Or.inl h
    · exact Or.inr (List.mem_cons_of_mem _ h)
  · rw [hmap j hj, Bitmap.test_foldl_mark l _ fun k hk => (hl k hk).1, Bitmap.test_mark (hnum ▸ hs)]
    by_cases hjs : j = s <;> by_cases hjl : j ∈ l <;> simp [hjs, hjl]

/-- A length that `Allocate` has no trouble with: within the capacity of a
header, or more than the disk has room for. -/
def Fits (disk : Store) (size : ℤ) : Prop :=
  (0 ≤ size ∧ size ≤ maxFileSize) ∨
    ((mapOf disk).numClear : ℤ) < 1 + divRoundUp size Disk.sectorSize

/-- **Create**: it makes the file, or finds the name, a full directory or too
few free sectors and leaves the disk. -/
theorem create_ok (hm : Mounted fs) (hR : Ready disk) (mem : ℕ → Store) (name : CString)
    (hfits : Fits disk size) :
    (∃ disk' i s l, fs.create mem name size disk = .ok (true, disk') ∧ 0 ≤ size ∧
      size ≤ maxFileSize ∧
      (∀ j < numDirEntries, ¬ Has (tableOf disk) j name.key) ∧ Created disk disk' name size i s l) ∨
    (fs.create mem name size disk = .ok (false, disk) ∧
      ((∃ i < numDirEntries, Has (tableOf disk) i name.key) ∨
        (∀ i < numDirEntries, Directory.inUse (tableOf disk) i = true) ∨
        ((mapOf disk).numClear : ℤ) < 1 + divRoundUp size Disk.sectorSize)) := by
  by_cases hhas : ∃ i < numDirEntries, Has (tableOf disk) i name.key
  · exact Or.inr ⟨create_present hm hR mem name size hhas, Or.inl hhas⟩
  have habs : ∀ j < numDirEntries, ¬ Has (tableOf disk) j name.key := fun j hj h => hhas ⟨j, hj, h⟩
  obtain ⟨d, hd, hsize, ht⟩ := fetch_table hm.dir disk (mem 0) (mem 1)
  obtain ⟨i, hi, hhas, -⟩ | ⟨-, -, hfind⟩ := find_fetched name hR hsize ht
  · exact absurd hhas (habs i hi)
  have habs' : ∀ j < d.tableSize, ¬ Has d.table j name.key :=
    fun j hj h => habs j (hsize ▸ hj) ((sameEntry_fetched ht (hsize ▸ hj)).has.mp h)
  have hstart : fs.create mem name size disk = _ := Fs.read_bind hd
  rw [if_neg (not_not.mpr hfind)] at hstart
  replace hstart := hstart.trans (Fs.read_bind (fetch_map hm.map disk (mem 2)))
  rcases Bitmap.findAndSet_cases (mapOf disk) with ⟨s, hset, hs, hclear, hleast⟩ | ⟨hset, hall⟩
  swap
  · -- no sector for the header
    rw [hset] at hstart
    refine Or.inr ⟨hstart, Or.inr (Or.inr ?_)⟩
    have : (mapOf disk).numClear = 0 := by
      rw [Bitmap.numClear, List.countP_eq_zero]
      intro j hj
      simp [hall j (List.mem_range.mp hj)]
    rcases hfits with ⟨h0, -⟩ | hfull
    · rw [FileHeader.divRoundUp_of_nonneg h0]
      omega
    · exact hfull
  rw [hset] at hstart
  simp only [show (s : ℤ) ≠ -1 by omega, if_false] at hstart
  have hmark := Bitmap.numClear_mark hs hclear
  rcases Directory.add_ok habs' s with ⟨i, hi, hunused, hadd⟩ | ⟨hadd, hfull⟩
  swap
  · rw [hadd] at hstart
    refine Or.inr ⟨hstart, Or.inr (Or.inl fun j hj => ?_)⟩
    rw [← (sameEntry_fetched ht hj).1]
    exact hfull j (hsize.symm ▸ hj)
  rw [hadd] at hstart
  simp only [Bool.not_true, Bool.false_eq_true, if_false] at hstart
  by_cases hroom : divRoundUp size Disk.sectorSize ≤ ((mapOf disk).mark s).numClear
  swap
  · obtain ⟨hdr', hfullmap⟩ :=
      FileHeader.allocate_full (FileHeader.ofBytes (mem 3) 0) (not_le.mp hroom)
    exact Or.inr ⟨hstart.trans (Eq.trans (Fs.read_bind hfullmap) rfl), Or.inr (Or.inr (by omega))⟩
  obtain ⟨h0, h1⟩ : 0 ≤ size ∧ size ≤ maxFileSize := by
    rcases hfits with h | hfull
    · exact h
    · omega
  obtain ⟨l, ds, halloc, hds, -, hnd, hl, hfirst⟩ :=
    FileHeader.allocate_ok (FileHeader.ofBytes (mem 3) 0) ((mapOf disk).mark s) h0 h1 hroom
  obtain ⟨d1, d2, d3, hd1, hd2, hd3, hC⟩ :=
    flush_created name hm hR hsize ht (hsize ▸ hi) hunused hs hclear hleast h0 h1 hds hnd hl hfirst
    (fun i => mem (4 + i)) (fun i => mem (7 + i))
  refine Or.inl ⟨d3, i, s, l, ?_, h0, h1, habs, hC⟩
  refine hstart.trans (Eq.trans (Fs.read_bind halloc) ?_)
  refine Eq.trans (Fs.write_bind hd1) ?_
  refine Eq.trans (Fs.write_bind hd2) ?_
  refine Eq.trans (Fs.write_bind hd3) rfl

/-- The file of entry `i`: a header in sector `s` and data in the sectors `l`,
all marked and apart from the map's and the directory's. -/
structure FileAt (disk : Store) (i s : ℕ) (l : List ℕ) : Prop where
  sector : Directory.sector (tableOf disk) i = s
  nonneg : 0 ≤ (FileHeader.headerAt disk s).numBytes
  numSectors : (FileHeader.headerAt disk s).numSectors = divRoundUp
    (FileHeader.headerAt disk s).numBytes Disk.sectorSize
  fits : (FileHeader.headerAt disk s).numSectors ≤ numDirect
  sectors : (FileHeader.headerAt disk s).sectors = l.map Nat.cast
  nodup : (s :: l).Nodup
  marked : ∀ j ∈ s :: l, 5 ≤ j ∧ j < Disk.numSectors ∧ (mapOf disk).test j = true

theorem FileAt.good {i s : ℕ} {l : List ℕ} (h : FileAt disk i s l) :
    (FileHeader.headerAt disk s).Good where
  numSectors := h.numSectors
  fits := h.fits
  onDisk n hn := by
    rw [h.sectors] at hn
    obtain ⟨j, hj, rfl⟩ := List.mem_map.mp hn
    exact ⟨by omega, by exact_mod_cast (h.marked j (List.mem_cons_of_mem _ hj)).2.1⟩
  nodup := by
    rw [h.sectors]
    exact (List.nodup_cons.mp h.nodup).2.map Nat.cast_injective

/-- **Open** finds the header of the name, or no such name. -/
theorem open_ok (hm : Mounted fs) (hR : Ready disk)
    (hfiles : ∀ i < numDirEntries, Directory.inUse (tableOf disk) i = true →
      ∃ s l, FileAt disk i s l)
    (mem : ℕ → Store) (name : CString) :
    (∃ i s l, i < numDirEntries ∧ Has (tableOf disk) i name.key ∧ FileAt disk i s l ∧
      fs.open_ mem name disk = .ok (some ⟨FileHeader.headerAt disk s, 0⟩, disk)) ∨
    ((∀ i < numDirEntries, ¬ Has (tableOf disk) i name.key) ∧
      fs.open_ mem name disk = .ok (none, disk)) := by
  obtain ⟨d, hd, hsize, ht⟩ := fetch_table hm.dir disk (mem 0) (mem 1)
  have hstart : fs.open_ mem name disk = _ := Fs.read_bind hd
  rcases find_fetched name hR hsize ht with ⟨i, hi, hhas, -, hfind, hpos⟩ | ⟨habs, -, hfind⟩
  · obtain ⟨s, l, hF⟩ := hfiles i hi hhas.1
    refine Or.inl ⟨i, s, l, hi, hhas, hF, hstart.trans ?_⟩
    rw [if_neg (by omega), hfind, hF.sector]
    have hnew : OpenFile.new disk s = .ok ⟨FileHeader.headerAt disk s, 0⟩ := by
      unfold OpenFile.new
      rw [FileHeader.fetchFrom_ok (by omega)
        (by exact_mod_cast (hF.marked s List.mem_cons_self).2.1)]
      rfl
    refine Eq.trans (Fs.read_bind hnew) rfl
  · refine Or.inr ⟨habs, hstart.trans ?_⟩
    rw [if_pos (by omega)]
    rfl

/-- **Remove** deletes the entry of the name and frees its sectors, or finds
no such name and leaves the disk. -/
theorem remove_ok (hm : Mounted fs) (hR : Ready disk)
    (hfiles : ∀ i < numDirEntries, Directory.inUse (tableOf disk) i = true →
      ∃ s l, FileAt disk i s l)
    (mem : ℕ → Store) (name : CString) :
    (∃ disk' i s l, fs.remove mem name disk = .ok (true, disk') ∧ i < numDirEntries ∧
      Has (tableOf disk) i name.key ∧
      FileAt disk i s l ∧ Removed disk disk' i s l) ∨
    (fs.remove mem name disk = .ok (false, disk) ∧ ∀ i < numDirEntries, ¬ Has (tableOf disk)
      i name.key) := by
  obtain ⟨d, hd, hsize, ht⟩ := fetch_table hm.dir disk (mem 0) (mem 1)
  have hstart : fs.remove mem name disk = _ := Fs.read_bind hd
  rcases find_fetched name hR hsize ht with ⟨i, hi, hhas, hindex, hfind, hpos⟩ | ⟨habs, -, hfind⟩
  swap
  · refine Or.inr ⟨hstart.trans ?_, habs⟩
    rw [if_pos hfind]
    rfl
  obtain ⟨s, l, hF⟩ := hfiles i hi hhas.1
  have hslt := (hF.marked s List.mem_cons_self).2.1
  have hlt : ∀ j ∈ l, j < (mapOf disk).numBits ∧ (mapOf disk).test j = true :=
    fun j hj => (hF.marked j (List.mem_cons_of_mem _ hj)).2
  have hrem : d.remove name = ({ d with table := Directory.setInUse d.table i false }, true) := by
    unfold Directory.remove
    rw [hindex]
  have hdealloc := FileHeader.deallocate_ok hF.fits hF.sectors (List.nodup_cons.mp hF.nodup).2 hlt
  obtain ⟨d1, hd1, hmap, hf1⟩ :=
    writeBack_map _ hm.map ((l.foldl Bitmap.clear (mapOf disk)).clear s)
    (by rw [Bitmap.numBits_clear, Bitmap.numBits_foldl_clear]; rfl) disk (fun i => mem (3 + i))
  obtain ⟨d2, hd2, htab, hf2⟩ :=
    writeBack_table _ hm.dir { d with table := Directory.setInUse d.table i false } hsize d1
    (fun i => mem (6 + i))
  have hentry : ∀ j < numDirEntries, SameEntry (tableOf d2) (Directory.setInUse d.table i false)
      j := by
    intro j hj
    unfold numDirEntries at hj
    exact Directory.sameEntry_of_bytes fun x hx0 hx1 => htab x (by omega) (by omega)
  have hm2 : mapOf d2 = mapOf d1 := by
    refine mapOf_congr fun y hy => hf2 y (fun h => ?_) fun h => ?_
    · have := hy.unique h
      omega
    · have := hy.unique h
      omega
  refine Or.inl ⟨d2, i, s, l, hstart.trans ?_, hi, hhas, hF, ?_⟩
  · rw [if_neg (by omega), hfind, hF.sector, hrem]
    refine Eq.trans (Fs.read_bind (FileHeader.fetchFrom_ok (by omega) (by exact_mod_cast hslt))) ?_
    refine Eq.trans (Fs.read_bind (fetch_map hm.map disk (mem 2))) ?_
    refine Eq.trans (Fs.read_bind hdealloc) ?_
    refine Eq.trans (Fs.assert_bind ?_) ?_
    · simp only [Bitmap.numBits_foldl_clear, Bool.and_eq_true, decide_eq_true_eq]
      exact ⟨by omega, by exact_mod_cast hslt⟩
    refine Eq.trans (Fs.write_bind hd1) ?_
    exact Eq.trans (Fs.write_bind hd2) rfl
  · refine
      { unused := (hentry i hi).1.trans (Directory.inUse_setInUse _ _ _)
        other := fun j hj hne =>
          ((hentry j hj).trans (Directory.setInUse_other hne false)).trans (sameEntry_fetched ht hj)
        map := fun j hj => ?_
        frame := fun y h2 h3 h4 => by rw [hf2 y h3 h4, hf1 y h2] }
    rw [hm2, hmap j hj, Bitmap.test_clear (by rw [Bitmap.numBits_foldl_clear]; exact hslt),
      Bitmap.test_foldl_clear l _ fun k hk => (hlt k hk).1]
    by_cases hjs : j = s <;> by_cases hjl : j ∈ l <;> simp [hjs, hjl]

/-! ### Formatting -/

/-- `n` sectors marked, from the first on. -/
def firstMarked (n : ℕ) : Bitmap := (List.range n).foldl Bitmap.mark (Bitmap.new Disk.numSectors)

theorem firstMarked_zero : firstMarked 0 = Bitmap.new Disk.numSectors := by
  rw [firstMarked, List.range_zero, List.foldl_nil]

theorem firstMarked_succ (n : ℕ) : firstMarked (n + 1) = (firstMarked n).mark n := by
  unfold firstMarked
  rw [List.range_succ, List.foldl_append]
  rfl

@[simp] theorem numBits_firstMarked (n : ℕ) : (firstMarked n).numBits = Disk.numSectors := by
  unfold firstMarked
  rw [Bitmap.numBits_foldl_mark, Bitmap.numBits_new]

theorem test_firstMarked {n : ℕ} (hn : n ≤ Disk.numSectors) (j : ℕ) :
    (firstMarked n).test j = decide (j < n) := by
  unfold firstMarked
  rw [Bitmap.test_foldl_mark]
  · simp
  · intro i hi
    rw [Bitmap.numBits_new]
    exact lt_of_lt_of_le (List.mem_range.mp hi) hn

theorem findAndSet_firstMarked {n : ℕ} (hn : n < Disk.numSectors) :
    (firstMarked n).findAndSet = (firstMarked (n + 1), (n : ℤ)) := by
  rw [firstMarked_succ]
  refine Bitmap.findAndSet_eq (by rw [numBits_firstMarked]; exact hn) ?_ fun j hj => ?_
  · rw [test_firstMarked hn.le]
    simp
  · rw [test_firstMarked hn.le]
    simp [hj]

theorem numClear_firstMarked {n : ℕ} (hn : n ≤ Disk.numSectors) :
    (firstMarked n).numClear + n = Disk.numSectors := by
  induction n with
  | zero =>
    rw [firstMarked_zero, Bitmap.numClear_new]
    rfl
  | succ n ih =>
    have h := ih (by omega)
    have hmark :=
      Bitmap.numClear_mark (b := firstMarked n) (i := n) (by rw [numBits_firstMarked]; omega)
      (by rw [test_firstMarked (by omega)]; simp)
    rw [firstMarked_succ]
    omega

/-- On a map with the first `n` sectors marked, `Allocate` takes the next. -/
theorem allocate_firstMarked (hdr : FileHeader) {n k : ℕ} {size : ℤ}
    (hk : divRoundUp size Disk.sectorSize = k) (hd : k ≤ numDirect) (hn : n + k ≤ Disk.numSectors) :
    ∃ ds : ℕ → ℤ, hdr.allocate (firstMarked n) size =
      .ok (⟨size, k, ds⟩, firstMarked (n + k), true) ∧ ∀ j < k, ds j = n + j := by
  have hloop : ∀ (hdr : FileHeader) (m : ℕ), m ≤ k →
      ∃ ds : ℕ → ℤ, hdr.allocateLoop (firstMarked n) m =
        .ok ({ hdr with dataSectors := ds }, firstMarked (n + m)) ∧
        ∀ j < m, ds j = n + j := by
    intro hdr m hm
    induction m with
    | zero => exact ⟨hdr.dataSectors, rfl, by simp⟩
    | succ m ih =>
      obtain ⟨ds, hl, hds⟩ := ih (by omega)
      refine ⟨Function.update ds m (n + m : ℕ), ?_, fun j hj => ?_⟩
      · rw [FileHeader.allocateLoop, hl]
        simp only [bind, Except.bind, if_pos (show m < numDirect by omega),
          findAndSet_firstMarked (show n + m < Disk.numSectors by omega)]
        rw [if_pos (by omega)]
        rfl
      · by_cases he : j = m
        · subst he
          rw [Function.update_self]
          push_cast
          rfl
        · rw [Function.update_of_ne he]
          exact hds j (by omega)
  have hclear := numClear_firstMarked (show n ≤ Disk.numSectors by omega)
  obtain ⟨ds, hl, hds⟩ := hloop { hdr with numBytes := size, numSectors := k } k (le_refl k)
  refine ⟨ds, ?_, hds⟩
  unfold FileHeader.allocate
  rw [hk, if_neg (by simp only; omega), Int.toNat_natCast, hl]
  rfl

theorem inUse_new (mem : Store) {i : ℕ} (hi : i < numDirEntries) :
    Directory.inUse (Directory.new numDirEntries mem).table i = false := by
  have h : ∀ (l : List ℕ) (t : Store), i ∈ l ∨ Directory.inUse t i = false →
      Directory.inUse (l.foldl (fun t i => Directory.setInUse t i false) t) i = false := by
    intro l
    induction l with
    | nil => simp
    | cons j l ih =>
      intro t ht
      refine ih _ ?_
      by_cases he : i = j
      · exact Or.inr (he ▸ Directory.inUse_setInUse t i false)
      · rcases ht with hmem | ht
        · exact Or.inl (List.mem_of_ne_of_mem he hmem)
        · exact Or.inr ((Directory.setInUse_other he false).1.trans ht)
  exact h _ _ (Or.inl (List.mem_range.mpr hi))

/-- **Formatting** lays out the map and the directory, with no file. -/
theorem format_ok (mem : ℕ → Store) (disk : Store) :
    ∃ fs disk', FileSystem.format mem disk = .ok (fs, disk') ∧ Mounted fs ∧
      MapHeader (FileHeader.headerAt disk' 0) ∧ DirHeader (FileHeader.headerAt disk' 1) ∧
      (∀ i < numDirEntries, Directory.inUse (tableOf disk') i = false) ∧
      ∀ j < Disk.numSectors, (mapOf disk').test j = decide (j < 5) := by
  have hmark : ((Bitmap.new Disk.numSectors).mark freeMapSector.toNat).mark directorySector.toNat =
      firstMarked 2 := by
    rw [firstMarked_succ, firstMarked_succ, firstMarked_zero]
    rfl
  obtain ⟨ds, hmapHdr, hds⟩ := allocate_firstMarked (FileHeader.ofBytes (mem 1) 0) (n := 2) (k := 1)
    (show divRoundUp freeMapFileSize Disk.sectorSize = _ by decide) (by decide) (by decide)
  obtain ⟨ds', hdirHdr, hds'⟩ :=
    allocate_firstMarked (FileHeader.ofBytes (mem 2) 0) (n := 3) (k := 2)
    (show divRoundUp directoryFileSize Disk.sectorSize = _ by decide) (by decide) (by decide)
  have hM : MapHeader ⟨freeMapFileSize, (1 : ℕ), ds⟩ :=
    ⟨rfl, rfl, by simp [FileHeader.sectors, hds]⟩
  have hD : DirHeader ⟨directoryFileSize, (2 : ℕ), ds'⟩ :=
    ⟨rfl, rfl, by simp [FileHeader.sectors, List.range_succ, hds' 0, hds' 1]⟩
  obtain ⟨d1, hd1, hh1, hf1⟩ := FileHeader.writeBack_ok ⟨freeMapFileSize, (1 : ℕ), ds⟩ disk
    (show 0 ≤ freeMapSector by decide) (by decide)
  obtain ⟨d2, hd2, hh2, hf2⟩ := FileHeader.writeBack_ok ⟨directoryFileSize, (2 : ℕ), ds'⟩ d1
    (show 0 ≤ directorySector by decide) (by decide)
  have hM2 : MapHeader (FileHeader.headerAt d2 freeMapSector) := by
    have hsame : FileHeader.headerAt d2 freeMapSector = FileHeader.headerAt d1 freeMapSector :=
      FileHeader.headerAt_congr fun y hy => hf2 y fun h => absurd (hy.unique h) (by decide)
    rw [hsame, hh1]
    exact hM.stored
  have hD2 : DirHeader (FileHeader.headerAt d2 directorySector) := hh2 ▸ hD.stored
  have hnew : ∀ n : ℤ, 0 ≤ n → n < Disk.numSectors →
      OpenFile.new d2 n = .ok ⟨FileHeader.headerAt d2 n, 0⟩ := by
    intro n h0 h1
    unfold OpenFile.new
    rw [FileHeader.fetchFrom_ok h0 h1]
    rfl
  obtain ⟨d3, hd3, hmap, hf3⟩ :=
    writeBack_map ⟨_, 0⟩ hM2 (firstMarked (3 + 2)) (numBits_firstMarked _) d2
    (fun i => mem (3 + i))
  obtain ⟨d4, hd4, htab, hf4⟩ :=
    writeBack_table ⟨_, 0⟩ hD2 (Directory.new numDirEntries (mem 0)) rfl d3
    (fun i => mem (6 + i))
  -- the last two writes go to the sectors 2, 3 and 4
  have hhigh : ∀ n : ℤ, n < 2 → FileHeader.headerAt d4 n = FileHeader.headerAt d2 n := by
    intro n hn
    refine FileHeader.headerAt_congr fun y hy => ?_
    rw [hf4 y (fun h => by have := hy.unique h; omega) (fun h => by have := hy.unique h; omega),
      hf3 y fun h => by have := hy.unique h; omega]
  have hm4 : mapOf d4 = mapOf d3 := mapOf_congr fun y hy =>
    hf4 y (fun h => by have := hy.unique h; omega) (fun h => by have := hy.unique h; omega)
  refine ⟨⟨⟨FileHeader.headerAt d2 freeMapSector, 0⟩, ⟨FileHeader.headerAt d2 directorySector, 0⟩⟩,
    d4, ?_, ⟨hM2, hD2⟩, ?_, ?_, fun i hi => ?_, fun j hj => ?_⟩
  · unfold FileSystem.format
    simp only [hmark]
    refine Eq.trans (Fs.read_bind hmapHdr) ?_
    refine Eq.trans (Fs.assert_bind rfl) ?_
    refine Eq.trans (Fs.read_bind hdirHdr) ?_
    refine Eq.trans (Fs.assert_bind rfl) ?_
    refine Eq.trans (Fs.write_bind hd1) ?_
    refine Eq.trans (Fs.write_bind hd2) ?_
    refine Eq.trans (Fs.read_bind (hnew _ (by decide) (by decide))) ?_
    refine Eq.trans (Fs.read_bind (hnew _ (by decide) (by decide))) ?_
    refine Eq.trans (Fs.write_bind hd3) ?_
    exact Eq.trans (Fs.write_bind hd4) rfl
  · rw [hhigh 0 (by omega)]
    exact hM2
  · rw [hhigh 1 (by omega)]
    exact hD2
  · unfold numDirEntries at hi
    have hsame : SameEntry (tableOf d4) (Directory.new numDirEntries (mem 0)).table i :=
      Directory.sameEntry_of_bytes fun x hx0 hx1 => htab x (by omega) (by omega)
    exact hsame.1.trans (inUse_new (mem 0) hi)
  · rw [hm4, hmap j hj, test_firstMarked (by decide)]

theorem numClear_fresh (hmap : ∀ j < Disk.numSectors, (mapOf disk).test j = decide (j < 5)) :
    (mapOf disk).numClear + 5 = Disk.numSectors := by
  have hmarked : (mapOf disk).marked = Finset.range 5 := by
    ext j
    rw [Bitmap.mem_marked, Finset.mem_range]
    constructor
    · rintro ⟨hj, ht⟩
      rw [hmap j hj] at ht
      simpa using ht
    · intro hj
      have hlt : j < Disk.numSectors := lt_of_lt_of_le hj (by decide)
      exact ⟨hlt, by rw [hmap j hlt]; simpa using hj⟩
  have := Bitmap.numClear_add_card (mapOf disk)
  rw [hmarked, Finset.card_range] at this
  exact this

/-- The first `Create` on a formatted disk, with the header in sector 5. -/
theorem create_formatted (hm : Mounted fs)
    (hunused : ∀ i < numDirEntries, Directory.inUse (tableOf disk) i = false)
    (hmap : ∀ j < Disk.numSectors, (mapOf disk).test j = decide (j < 5)) (mem : ℕ → Store)
    (name : CString) (h0 : 0 ≤ size) (h1 : size ≤ maxFileSize) :
    ∃ disk' i l, fs.create mem name size disk = .ok (true, disk') ∧
      (∀ j < numDirEntries, ¬ Has (tableOf disk) j name.key) ∧
      Created disk disk' name size i 5 l := by
  have hR : Ready disk := by
    refine ⟨fun i hi hu => ?_, fun j hj => ?_⟩
    · rw [hunused i hi] at hu
      cases hu
    · rw [hmap j (hj.trans (by decide))]
      exact decide_eq_true hj
  have hclear := numClear_fresh hmap
  rcases create_ok hm hR mem name (Or.inl ⟨h0, h1⟩) with
    ⟨disk', i, s, l, hcreate, -, -, habs, hC⟩ | ⟨-, ⟨i, hi, hhas⟩ | hfull | hroom⟩
  · have hs5 : s = 5 := by
      have hge := hR.le_of_clear (hC.free s List.mem_cons_self).2
      by_contra hne
      have hmark := hC.least 5 (by omega)
      rw [hmap 5 (by decide)] at hmark
      cases hmark
    subst hs5
    exact ⟨disk', i, l, hcreate, habs, hC⟩
  · have := hhas.1
    rw [hunused i hi] at this
    cases this
  · have := hfull 0 (by decide)
    rw [hunused 0 (by decide)] at this
    cases this
  · rw [FileHeader.divRoundUp_of_nonneg h0] at hroom
    simp only [maxFileSize, numDirect, Disk.numSectors, Disk.sectorsPerTrack, Disk.numTracks,
      Disk.sectorSize] at *
    omega

/-! ### The capacity of a header -/

/-- A header whose table holds the sectors that its length needs. -/
structure FileHeader.InCapacity (hdr : FileHeader) (numBits : ℕ) : Prop where
  numSectors : hdr.numSectors = divRoundUp hdr.numBytes Disk.sectorSize
  fits : hdr.numSectors ≤ numDirect
  byteToSector : ∀ offset, 0 ≤ offset → offset < hdr.fileLength →
    ∃ s, hdr.byteToSector offset = .ok s ∧ 0 ≤ s ∧ s < numBits

/-- `ByteToSector` within a table of sectors that `Allocate` has taken. -/
theorem FileHeader.inCapacity_of_sectors {l : List ℕ} {numBits : ℕ}
    (hnum : hdr.numSectors = divRoundUp hdr.numBytes Disk.sectorSize)
    (hfits : hdr.numSectors ≤ numDirect) (hds : hdr.sectors = l.map Nat.cast)
    (hl : ∀ j ∈ l, j < numBits) :
    hdr.InCapacity numBits := by
  refine ⟨hnum, hfits, fun offset h0 h1 => ?_⟩
  unfold FileHeader.fileLength at h1
  have hlt : offset / 128 < hdr.numSectors := by
    rw [hnum, FileHeader.divRoundUp_of_nonneg (by omega)]
    omega
  obtain ⟨i, hi⟩ : ∃ i : ℕ, offset / 128 = i := ⟨(offset / 128).toNat, by omega⟩
  have hsec : hdr.byteToSector offset = hdr.byteToSector (i * Disk.sectorSize) := by
    unfold FileHeader.byteToSector
    rw [Int.mul_tdiv_cancel _ (by decide), OpenFile.sectorSize_cast,
      Int.tdiv_eq_ediv_of_nonneg h0, hi]
  have hmem : hdr.dataSectors i ∈ hdr.sectors :=
    List.mem_map.mpr ⟨i, List.mem_range.mpr (by omega), rfl⟩
  rw [hds] at hmem
  obtain ⟨j, hj, he⟩ := List.mem_map.mp hmem
  rw [hsec, OpenFile.byteToSector_ok (by omega), ← he]
  exact ⟨j, rfl, by omega, by exact_mod_cast hl j hj⟩

/-- What `Allocate` has answered TRUE to. -/
theorem FileHeader.allocate_true {hdr' : FileHeader} {freeMap freeMap' : Bitmap} {fileSize : ℤ}
    (h : hdr.allocate freeMap fileSize = .ok (hdr', freeMap', true)) :
    hdr'.numBytes = fileSize ∧ fileSize ≤ maxFileSize ∧ hdr'.InCapacity freeMap.numBits := by
  by_cases hc : (freeMap.numClear : ℤ) < divRoundUp fileSize Disk.sectorSize
  · obtain ⟨hdr1, hfull⟩ := FileHeader.allocate_full hdr hc
    rw [hfull] at h
    cases h
  rw [not_lt] at hc
  by_cases hneg : fileSize < 0
  · rw [FileHeader.allocate_neg hdr hneg] at h
    cases h
    have hnonpos := FileHeader.divRoundUp_of_nonpos (le_of_lt hneg)
    have hmax : (0 : ℤ) ≤ maxFileSize := by decide
    refine ⟨rfl, by omega, rfl, ?_, fun offset h0 h1 => ?_⟩
    · simp only [numDirect]
      omega
    · unfold FileHeader.fileLength at h1
      simp only at h1
      omega
  by_cases hmax : fileSize ≤ maxFileSize
  · obtain ⟨l, ds, hok, hds, -, -, hl, -⟩ :=
      FileHeader.allocate_ok hdr freeMap (not_lt.mp hneg) hmax hc
    rw [hok] at h
    cases h
    have hfits := FileHeader.divRoundUp_le_numDirect (not_lt.mp hneg) hmax
    exact ⟨rfl, hmax, FileHeader.inCapacity_of_sectors rfl hfits hds fun j hj => (hl j hj).1⟩
  · rw [FileHeader.allocate_overrun hdr (not_le.mp hmax) hc] at h
    cases h

/-- **Capacity of a header.** `Allocate` stays inside the table and answers
TRUE only to a length between 0 and `MaxFileSize`, with a header that its
table covers, exactly if the length is such or the map has too few clear bits.
A header that `Create` writes is one that `Allocate` has answered TRUE to. -/
theorem header_capacity (hdr : FileHeader) (freeMap : Bitmap) (fileSize : ℤ) :
    ((hdr.allocate freeMap fileSize ≠ .error .overrun ∧
        ∀ hdr' freeMap', hdr.allocate freeMap fileSize = .ok (hdr', freeMap', true) →
          0 ≤ fileSize ∧ fileSize ≤ maxFileSize ∧ hdr'.InCapacity freeMap.numBits) ↔
      (0 ≤ fileSize ∧ fileSize ≤ maxFileSize) ∨
        (freeMap.numClear : ℤ) < divRoundUp fileSize Disk.sectorSize) ∧
    ∀ (fs : FileSystem) (mem : ℕ → Store) (name : CString) (initialSize : ℤ) (disk disk' : Store),
      0 ≤ initialSize → fs.create mem name initialSize disk = .ok (true, disk') →
      initialSize ≤ maxFileSize ∧
      ∃ (hdr : FileHeader) (sector : ℤ) (directory : Directory) (freeMap : Bitmap) (d1 d2 : Store),
        hdr.numBytes = initialSize ∧ hdr.InCapacity Disk.numSectors ∧
        hdr.writeBack disk sector = .ok d1 ∧
        directory.writeBack d1 fs.directoryFile (fun i => mem (4 + i)) = .ok d2 ∧
        PersistentBitmap.writeBack freeMap d2 fs.freeMapFile (fun i => mem (7 + i)) =
          .ok disk' := by
  refine ⟨⟨fun ⟨hin, htrue⟩ => ?_, fun hfits => ?_⟩, ?_⟩
  · by_contra hbad
    rw [not_or, not_lt] at hbad
    obtain ⟨hsize, hroom⟩ := hbad
    by_cases hneg : fileSize < 0
    · have := (htrue _ _ (FileHeader.allocate_neg hdr hneg)).1
      omega
    · exact hin (FileHeader.allocate_overrun hdr (by omega) hroom)
  · rcases hfits with ⟨h0, h1⟩ | hfull
    · refine ⟨fun herr => ?_, fun hdr' freeMap' h => ⟨h0, (FileHeader.allocate_true h).2⟩⟩
      by_cases hroom : divRoundUp fileSize Disk.sectorSize ≤ freeMap.numClear
      · obtain ⟨l, ds, hok, -⟩ := FileHeader.allocate_ok hdr freeMap h0 h1 hroom
        rw [hok] at herr
        cases herr
      · obtain ⟨hdr', hok⟩ := FileHeader.allocate_full hdr (not_le.mp hroom)
        rw [hok] at herr
        cases herr
    · obtain ⟨hdr', hok⟩ := FileHeader.allocate_full hdr hfull
      rw [hok]
      refine ⟨fun herr => ?_, fun hdr1 freeMap1 h => ?_⟩
      · cases herr
      · cases h
  · intro fs mem name initialSize disk disk' h0 h
    unfold FileSystem.create at h
    obtain ⟨directory, -, h⟩ := Fs.of_read_bind h
    split_ifs at h
    · cases h
    obtain ⟨freeMap, hfetch, h⟩ := Fs.of_read_bind h
    simp only at h
    split_ifs at h
    · cases h
    · cases h
    obtain ⟨⟨hdr, freeMap', success⟩, halloc, h⟩ := Fs.of_read_bind h
    simp only at h
    split_ifs at h with hs
    · cases h
    obtain rfl : success = true := by simpa using hs
    obtain ⟨d1, hd1, h⟩ := Fs.of_write_bind h
    obtain ⟨d2, hd2, h⟩ := Fs.of_write_bind h
    obtain ⟨d3, hd3, h⟩ := Fs.of_write_bind h
    obtain rfl : d3 = disk' := by
      cases h
      rfl
    obtain ⟨hbytes, hmax, hcap⟩ := FileHeader.allocate_true halloc
    rw [Bitmap.numBits_findAndSet, numBits_fetch hfetch] at hcap
    exact ⟨hmax, hdr, _, _, _, d1, d2, hbytes, hcap, hd1, hd2, hd3⟩

/-- A file of 200 bytes is created on a formatted disk. -/
theorem header_capacity_created :
    ∃ (fs : FileSystem) (disk disk' d1 : Store) (hdr : FileHeader) (sector : ℤ),
    fs.create (fun _ _ => 0) ⟨[97], by decide⟩ 200 disk = .ok (true, disk') ∧ hdr.numBytes = 200 ∧
      hdr.InCapacity Disk.numSectors ∧ hdr.writeBack disk sector = .ok d1 := by
  obtain ⟨fs, disk, -, hm, -, -, hunused, hmap⟩ := format_ok (fun _ _ => 0) fun _ => 0
  obtain ⟨disk', -, -, hcreate, -⟩ :=
    create_formatted hm hunused hmap (fun _ _ => 0) ⟨[97], by decide⟩
      (show (0 : ℤ) ≤ 200 by decide) (by decide)
  obtain ⟨-, hdr, sector, -, -, d1, -, hbytes, hcap, hwrite, -⟩ :=
    (header_capacity ⟨0, 0, fun _ => 0⟩ (Bitmap.new Disk.numSectors) 200).2 fs _ _ _ disk disk'
      (by decide) hcreate
  exact ⟨fs, disk, disk', d1, hdr, sector, hcreate, hbytes, hcap, hwrite⟩

/-- On an empty disk one byte more than the capacity runs over the table, and a
length of -1 is answered TRUE. -/
theorem capacity_exceeded :
    FileHeader.allocate ⟨0, 0, fun _ => 0⟩ (Bitmap.new Disk.numSectors) 3841 = .error .overrun ∧
      ∃ hdr', FileHeader.allocate ⟨0, 0, fun _ => 0⟩ (Bitmap.new Disk.numSectors) (-1) =
        .ok (hdr', Bitmap.new Disk.numSectors, true) := by
  refine ⟨FileHeader.allocate_overrun _ (by decide) ?_, _, FileHeader.allocate_neg _ (by omega)⟩
  rw [Bitmap.numClear_new]
  decide

end Nachos.Filesys
