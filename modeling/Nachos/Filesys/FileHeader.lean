/-
# File headers (`filesys/filehdr.cc`)

A file header is one sector: the length of the file in bytes, the number of
its data sectors, and a table of `NumDirect` sector numbers. In memory it is an
object of the same 32 words, so `FetchFrom` and `WriteBack` move its bytes as
they are. `Allocate` takes the data sectors from the free map, `Deallocate`
gives them back.

A call may stop: at an `ASSERT`, or at an access outside the object or buffer
it goes to (`Stop`). An index into `dataSectors` that stays inside the object
reads what is there.

* `writeBack_ok`: a header is read back as it was written.
* `allocate_ok`: within the capacity and with enough free sectors `Allocate`
  takes different free sectors and marks them.
* `deallocate_ok`: `Deallocate` clears the sectors of the header.

Key definitions: `readSector`, `writeSector`, `FileHeader`, `FileHeader.allocate`,
`FileHeader.deallocate`, `FileHeader.fetchFrom`, `FileHeader.writeBack`,
`FileHeader.byteToSector`, `FileHeader.sectors`.
-/
import Mathlib
import Nachos.Base.Bytes
import Nachos.Lib.Bitmap
import Nachos.Filesys.SynchDisk

namespace Nachos.Filesys

open Bytes (Byte Store)

/-- Why a call of the file system does not come back. -/
inductive Stop
  /-- an `ASSERT` fails -/
  | assert
  /-- an access outside the object or the buffer -/
  | overrun
  deriving DecidableEq

/-! ### Sectors -/

/-- `SynchDisk::ReadSector` into `buf + p`. -/
def readSector (disk : Store) (sectorNumber : ℤ) (buf : Store) (p : ℤ) : Except Stop Store :=
  if 0 ≤ sectorNumber ∧ sectorNumber < Disk.numSectors then
    .ok (Bytes.copy disk (Disk.offset sectorNumber) buf p Disk.sectorSize)
  else .error .assert

/-- `SynchDisk::WriteSector` from `buf + p`. -/
def writeSector (disk : Store) (sectorNumber : ℤ) (buf : Store) (p : ℤ) : Except Stop Store :=
  if 0 ≤ sectorNumber ∧ sectorNumber < Disk.numSectors then
    .ok (Bytes.copy buf p disk (Disk.offset sectorNumber) Disk.sectorSize)
  else .error .assert

/-- A byte of the disk file lies in a sector. -/
def InSector (n y : ℤ) : Prop := Disk.offset n ≤ y ∧ y < Disk.offset n + Disk.sectorSize

instance (n y : ℤ) : Decidable (InSector n y) := inferInstanceAs (Decidable (_ ∧ _))

variable {disk disk' buf : Store} {n m p y : ℤ}

theorem InSector.unique (hn : InSector n y) (hm : InSector m y) : n = m := by
  simp only [InSector, Disk.offset, Disk.sectorSize, Disk.magicSize] at hn hm
  omega

theorem inSector_offset {k : ℤ} (h0 : 0 ≤ k) (h1 : k < Disk.sectorSize) :
    InSector n (Disk.offset n + k) := by
  unfold InSector
  omega

/-- The bytes of a sector decide what is read from it. -/
theorem sector_congr (h : ∀ y, InSector n y → disk' y = disk y) :
    Disk.sector disk' n = Disk.sector disk n := by
  refine Subtype.ext (List.map_congr_left fun i hi => h _ (inSector_offset (by omega) ?_))
  exact_mod_cast List.mem_range.mp hi

theorem readSector_ok (h0 : 0 ≤ n) (h1 : n < Disk.numSectors) :
    readSector disk n buf p = .ok (Bytes.copy disk (Disk.offset n) buf p Disk.sectorSize) :=
  if_pos ⟨h0, h1⟩

theorem writeSector_ok (h0 : 0 ≤ n) (h1 : n < Disk.numSectors) :
    writeSector disk n buf p = .ok (Bytes.copy buf p disk (Disk.offset n) Disk.sectorSize) :=
  if_pos ⟨h0, h1⟩

/-- `WriteSector` is the request of the disk with the bytes of the buffer. -/
theorem writeSector_request (x : Disk) (h0 : 0 ≤ n) (h1 : n < Disk.numSectors) :
    writeSector x.fileno n buf p =
      .ok (x.writeRequest n
        ⟨(List.range Disk.sectorSize).map fun i : ℕ => buf (p + i), by simp⟩).fileno := by
  rw [writeSector_ok h0 h1]
  congr 1
  funext y
  simp only [Disk.writeRequest]
  by_cases hy : InSector n y
  · rw [Bytes.copy_inside hy.1 hy.2, Bytes.write_inside hy.1 (by simpa [InSector] using hy.2)]
    have hlt : (y - Disk.offset n).toNat < Disk.sectorSize := by
      unfold InSector at hy
      omega
    have hcast : ((y - Disk.offset n).toNat : ℤ) = y - Disk.offset n := by
      unfold InSector at hy
      omega
    simp [hlt, hcast]
  · unfold InSector at hy
    rw [Bytes.copy_outside (by omega), Bytes.write_outside (by simp; omega)]

/-- `ReadSector` puts the sector that the request answers into the buffer. -/
theorem readSector_request (x : Disk) (h0 : 0 ≤ n) (h1 : n < Disk.numSectors) :
    readSector x.fileno n buf p = .ok (Bytes.write buf p (x.readRequest n).2.1) := by
  rw [readSector_ok h0 h1]
  congr 1
  funext y
  simp only [Disk.readRequest, Disk.sector]
  by_cases hy : p ≤ y ∧ y < p + Disk.sectorSize
  · rw [Bytes.copy_inside hy.1 hy.2, Bytes.write_inside hy.1 (by simpa using hy.2)]
    have hlt : (y - p).toNat < Disk.sectorSize := by omega
    have hcast : ((y - p).toNat : ℤ) = y - p := by omega
    simp [hlt, hcast]
  · rw [Bytes.copy_outside (by omega), Bytes.write_outside (by simp; omega)]

/-! ### The header -/

/-- `NumDirect`: the words of a sector, less two. -/
def numDirect : ℕ := 30

/-- `MaxFileSize`. -/
def maxFileSize : ℤ := numDirect * Disk.sectorSize

/-- `divRoundDown(n, s)` of `utility.h`. -/
def divRoundDown (n s : ℤ) : ℤ := n.tdiv s

/-- `class FileHeader`. The table has `numDirect` entries. -/
structure FileHeader where
  numBytes : ℤ
  numSectors : ℤ
  dataSectors : ℕ → ℤ

namespace FileHeader

variable {hdr : FileHeader} {freeMap : Bitmap}

/-- The object as an array of words. -/
def word (hdr : FileHeader) (k : ℤ) : ℤ :=
  if k = 0 then hdr.numBytes else if k = 1 then hdr.numSectors else hdr.dataSectors (k - 2).toNat

/-- The bytes of the object. -/
def bytes (hdr : FileHeader) : Store := Bytes.ofWords fun k => BitVec.ofInt 32 (hdr.word k)

/-- The object whose bytes are at `a`. -/
def ofBytes (m : Store) (a : ℤ) : FileHeader where
  numBytes := (Bytes.wordAt m a).toInt
  numSectors := (Bytes.wordAt m (a + 4)).toInt
  dataSectors i := if i < numDirect then (Bytes.wordAt m (a + 4 * (i + 2))).toInt else 0

/-- `FileHeader::FetchFrom`. -/
def fetchFrom (disk : Store) (sector : ℤ) : Except Stop FileHeader :=
  (readSector disk sector (fun _ => 0) 0).map fun m => ofBytes m 0

/-- `FileHeader::WriteBack`. -/
def writeBack (hdr : FileHeader) (disk : Store) (sector : ℤ) : Except Stop Store :=
  writeSector disk sector hdr.bytes 0

/-- `FileHeader::ByteToSector`: `dataSectors` begins at the third word. -/
def byteToSector (hdr : FileHeader) (offset : ℤ) : Except Stop ℤ :=
  let k := offset.tdiv Disk.sectorSize + 2
  if 0 ≤ k ∧ k < numDirect + 2 then .ok (hdr.word k) else .error .overrun

/-- `FileHeader::FileLength`. -/
def fileLength (hdr : FileHeader) : ℤ := hdr.numBytes

/-- The first `n` rounds of the loop of `Allocate`. -/
def allocateLoop (hdr : FileHeader) (freeMap : Bitmap) : ℕ → Except Stop (FileHeader × Bitmap)
  | 0 => .ok (hdr, freeMap)
  | n + 1 => do
    let (hdr, freeMap) ← allocateLoop hdr freeMap n
    if n < numDirect then
      let (freeMap, sector) := freeMap.findAndSet
      if 0 ≤ sector then
        .ok ({ hdr with dataSectors := Function.update hdr.dataSectors n sector }, freeMap)
      else .error .assert
    else .error .overrun

/-- `FileHeader::Allocate` on a header that holds what its memory held. -/
def allocate (hdr : FileHeader) (freeMap : Bitmap) (fileSize : ℤ) :
    Except Stop (FileHeader × Bitmap × Bool) :=
  let hdr := { hdr with numBytes := fileSize, numSectors := divRoundUp fileSize Disk.sectorSize }
  if (freeMap.numClear : ℤ) < hdr.numSectors then .ok (hdr, freeMap, false)
  else (allocateLoop hdr freeMap hdr.numSectors.toNat).map fun r => (r.1, r.2, true)

/-- The first `n` rounds of the loop of `Deallocate`; `Test` and `Clear` assert
that there is such a bit. -/
def deallocateLoop (hdr : FileHeader) (freeMap : Bitmap) : ℕ → Except Stop Bitmap
  | 0 => .ok freeMap
  | n + 1 => do
    let freeMap ← deallocateLoop hdr freeMap n
    if n < numDirect then
      let sector := hdr.dataSectors n
      if 0 ≤ sector ∧ sector < freeMap.numBits ∧ freeMap.test sector.toNat then
        .ok (freeMap.clear sector.toNat)
      else .error .assert
    else .error .overrun

/-- `FileHeader::Deallocate`. -/
def deallocate (hdr : FileHeader) (freeMap : Bitmap) : Except Stop Bitmap :=
  deallocateLoop hdr freeMap hdr.numSectors.toNat

/-- The data sectors of the file, in order. -/
def sectors (hdr : FileHeader) : List ℤ := (List.range hdr.numSectors.toNat).map hdr.dataSectors

/-- A header of a file of this disk: as many different sectors as the length
needs, within the table and on the disk. -/
structure Good (hdr : FileHeader) : Prop where
  numSectors : hdr.numSectors = divRoundUp hdr.numBytes Disk.sectorSize
  fits : hdr.numSectors ≤ numDirect
  onDisk : ∀ s ∈ hdr.sectors, 0 ≤ s ∧ s < Disk.numSectors
  nodup : hdr.sectors.Nodup

theorem divRoundUp_of_nonneg {x : ℤ} (hx : 0 ≤ x) :
    divRoundUp x Disk.sectorSize = (x + 127) / 128 := by
  lift x to ℕ using hx
  have h := divRoundUp_natCast x Disk.sectorSize (by decide)
  rw [h]
  simp [Disk.sectorSize]

theorem divRoundUp_of_nonpos {x : ℤ} (hx : x ≤ 0) : divRoundUp x Disk.sectorSize ≤ 0 := by
  obtain ⟨y, rfl⟩ : ∃ y : ℕ, x = -y := ⟨(-x).toNat, by omega⟩
  have h1 : (0 : ℤ) ≤ (y : ℤ).tmod Disk.sectorSize := Int.tmod_nonneg _ (by omega)
  have h2 : (0 : ℤ) ≤ (y : ℤ).tdiv Disk.sectorSize :=
    Int.tdiv_nonneg (Int.natCast_nonneg y) (Int.natCast_nonneg _)
  unfold divRoundUp
  rw [Int.neg_tmod, Int.neg_tdiv, if_neg (by omega)]
  omega

/-- A length within the capacity needs no more sectors than the table has. -/
theorem divRoundUp_le_numDirect {x : ℤ} (h0 : 0 ≤ x) (h1 : x ≤ maxFileSize) :
    divRoundUp x Disk.sectorSize ≤ numDirect := by
  rw [divRoundUp_of_nonneg h0]
  simp only [maxFileSize, numDirect, Disk.sectorSize] at *
  omega

/-- The length is within the capacity. -/
theorem numBytes_le (hdr : FileHeader) (hG : hdr.Good) : hdr.numBytes ≤ maxFileSize := by
  have h1 := hG.fits
  by_cases hpos : 0 ≤ hdr.numBytes
  · rw [hG.numSectors, divRoundUp_of_nonneg hpos] at h1
    simp only [numDirect, maxFileSize, Disk.sectorSize] at *
    omega
  · have : (0 : ℤ) ≤ maxFileSize := by decide
    omega

/-! ### On the disk -/

/-- The header in a sector. -/
def headerAt (disk : Store) (sector : ℤ) : FileHeader := ofBytes disk (Disk.offset sector)

theorem ofBytes_congr {m m' : Store} {a b : ℤ}
    (h : ∀ i : ℤ, 0 ≤ i → i < Disk.sectorSize → m (a + i) = m' (b + i)) :
    ofBytes m a = ofBytes m' b := by
  have hw : ∀ k, 0 ≤ k → k < 32 → Bytes.wordAt m (a + 4 * k) = Bytes.wordAt m' (b + 4 * k) := by
    intro k h0 h1
    refine Bytes.wordAt_congr fun i hi0 hi1 => ?_
    rw [add_assoc, add_assoc]
    exact h _ (by omega) (by unfold Disk.sectorSize; omega)
  have h0 := hw 0 (by omega) (by omega)
  have h1 := hw 1 (by omega) (by omega)
  rw [mul_zero, add_zero, add_zero] at h0
  rw [mul_one] at h1
  unfold ofBytes
  congr 1
  · rw [h0]
  · rw [h1]
  · funext i
    by_cases hi : i < numDirect
    · rw [if_pos hi, if_pos hi, hw _ (by omega) (by unfold numDirect at hi; omega)]
    · rw [if_neg hi, if_neg hi]

theorem headerAt_congr (h : ∀ y, InSector n y → disk' y = disk y) :
    headerAt disk' n = headerAt disk n :=
  ofBytes_congr fun _ h0 h1 => h _ (inSector_offset h0 h1)

theorem fetchFrom_ok (h0 : 0 ≤ n) (h1 : n < Disk.numSectors) :
    fetchFrom disk n = .ok (headerAt disk n) := by
  unfold fetchFrom
  rw [readSector_ok h0 h1]
  refine congrArg Except.ok (ofBytes_congr fun i hi0 hi1 => ?_)
  rw [Bytes.copy_inside (by omega) (by omega)]
  congr 1
  omega

/-- What the words of the object are after a write and a read. -/
def stored (hdr : FileHeader) : FileHeader where
  numBytes := (BitVec.ofInt 32 hdr.numBytes).toInt
  numSectors := (BitVec.ofInt 32 hdr.numSectors).toInt
  dataSectors i := if i < numDirect then (BitVec.ofInt 32 (hdr.dataSectors i)).toInt else 0

theorem wordAt_bytes (hdr : FileHeader) (k : ℤ) :
    Bytes.wordAt hdr.bytes (4 * k) = BitVec.ofInt 32 (hdr.word k) :=
  Bytes.wordAt_ofWords _ k

theorem ofBytes_bytes (hdr : FileHeader) : ofBytes hdr.bytes 0 = hdr.stored := by
  have h0 := wordAt_bytes hdr 0
  have h1 := wordAt_bytes hdr 1
  unfold ofBytes stored
  congr 1
  · rw [mul_zero] at h0
    rw [h0]
    rfl
  · rw [mul_one] at h1
    rw [zero_add, h1]
    rfl
  · funext i
    have hi : hdr.word (i + 2) = hdr.dataSectors i := by
      have h2 : (i : ℤ) + 2 ≠ 0 := by omega
      have h3 : (i : ℤ) + 2 ≠ 1 := by omega
      simp [word, h2, h3]
    rw [zero_add, wordAt_bytes, hi]

/-- `WriteBack` changes its sector, which then holds the header. -/
theorem writeBack_ok (hdr : FileHeader) (disk : Store) (h0 : 0 ≤ n) (h1 : n < Disk.numSectors) :
    ∃ disk', hdr.writeBack disk n = .ok disk' ∧ headerAt disk' n = hdr.stored ∧
      ∀ y, ¬ InSector n y → disk' y = disk y := by
  refine ⟨_, writeSector_ok h0 h1, ?_, fun y hy => Bytes.copy_outside ?_⟩
  · rw [← ofBytes_bytes]
    refine ofBytes_congr fun i hi0 hi1 => ?_
    rw [Bytes.copy_inside (by omega) (by omega)]
    congr 1
    omega
  · unfold InSector at hy
    omega

theorem toInt_ofInt_of_range {x : ℤ} (h0 : -2 ^ 31 ≤ x) (h1 : x < 2 ^ 31) :
    (BitVec.ofInt 32 x).toInt = x := by
  rw [BitVec.toInt_ofInt, Int.bmod_eq_of_le] <;> omega

/-- A header within the ranges comes back with its length and its sectors. -/
theorem sectors_stored (hG : hdr.Good) (hpos : 0 ≤ hdr.numBytes) :
    hdr.stored.numBytes = hdr.numBytes ∧ hdr.stored.numSectors = hdr.numSectors ∧
    hdr.stored.sectors = hdr.sectors := by
  have hmax := hdr.numBytes_le hG
  simp only [maxFileSize, numDirect, Disk.sectorSize] at hmax
  have hfits := hG.fits
  unfold numDirect at hfits
  have h2 : 0 ≤ hdr.numSectors := by
    rw [hG.numSectors, divRoundUp_of_nonneg hpos]
    omega
  have hnum : hdr.stored.numSectors = hdr.numSectors := toInt_ofInt_of_range (by omega) (by omega)
  refine ⟨toInt_ofInt_of_range (by omega) (by omega), hnum, ?_⟩
  unfold sectors
  rw [hnum]
  refine List.map_congr_left fun i hi => ?_
  have hlt := List.mem_range.mp hi
  obtain ⟨h3, h4⟩ := hG.onDisk (hdr.dataSectors i) (List.mem_map.mpr ⟨i, hi, rfl⟩)
  simp only [Disk.numSectors, Disk.sectorsPerTrack, Disk.numTracks] at h4
  simp only [stored, if_pos (show i < numDirect by unfold numDirect; omega)]
  exact toInt_ofInt_of_range (by omega) (by push_cast at h4; omega)

/-! ### Allocation -/

/-- Within the table and with enough free sectors, the loop takes different
free sectors, the first ones there are. -/
theorem allocateLoop_ok (hdr : FileHeader) (freeMap : Bitmap) (k : ℕ) (hk : k ≤ numDirect)
    (hc : k ≤ freeMap.numClear) :
    ∃ (l : List ℕ) (ds : ℕ → ℤ), allocateLoop hdr freeMap k =
      .ok ({ hdr with dataSectors := ds }, l.foldl Bitmap.mark freeMap) ∧
      (List.range k).map ds = l.map Nat.cast ∧ l.length = k ∧ l.Nodup ∧
      (∀ j ∈ l, j < freeMap.numBits ∧ freeMap.test j = false) ∧
      ∀ n ∈ l, ∀ j < n, freeMap.test j = true ∨ j ∈ l := by
  induction k with
  | zero => exact ⟨[], hdr.dataSectors, rfl, rfl, rfl, List.nodup_nil, by simp, by simp⟩
  | succ k ih =>
    obtain ⟨l, ds, hloop, hds, hlen, hnd, hl, hfirst⟩ := ih (by omega) (by omega)
    have hclear := Bitmap.numClear_foldl_mark l hnd hl
    obtain ⟨i, hfind, hlt, htest, hleast⟩ :=
      Bitmap.findAndSet_of_numClear (b := l.foldl Bitmap.mark freeMap) (by omega)
    rw [Bitmap.numBits_foldl_mark] at hlt
    rw [Bitmap.test_foldl_mark l freeMap fun j hj => (hl j hj).1] at htest
    simp only [Bool.or_eq_false_iff, decide_eq_false_iff_not] at htest
    refine ⟨l ++ [i], Function.update ds k i, ?_, ?_, by simp [hlen], ?_, ?_, fun n hn j hj => ?_⟩
    · rw [allocateLoop, hloop]
      simp only [bind, Except.bind, if_pos (show k < numDirect by omega), hfind, List.foldl_append,
        List.foldl_cons, List.foldl_nil]
      rw [if_pos (by omega)]
    · rw [List.range_succ, List.map_append, List.map_append, ← hds]
      congr 1
      · refine List.map_congr_left fun j hj => Function.update_of_ne ?_ _ _
        exact ne_of_lt (List.mem_range.mp hj)
      · simp
    · exact List.nodup_append.mpr ⟨hnd, List.nodup_singleton i, by
        intro a ha b hb he
        rw [List.mem_singleton] at hb
        exact htest.1 (hb ▸ he ▸ ha)⟩
    · intro j hj
      rcases List.mem_append.mp hj with hj | hj
      · exact hl j hj
      · rw [List.mem_singleton] at hj
        exact hj ▸ ⟨hlt, htest.2⟩
    · rcases List.mem_append.mp hn with hn | hn
      · exact (hfirst n hn j hj).imp_right (List.mem_append_left _)
      · rw [List.mem_singleton] at hn
        have := hleast j (hn ▸ hj)
        rw [Bitmap.test_foldl_mark l freeMap fun j hj => (hl j hj).1, Bool.or_eq_true,
          decide_eq_true_eq] at this
        exact this.symm.imp_right (List.mem_append_left _)

/-- Past the table, the loop writes outside the object. -/
theorem allocateLoop_overrun (hdr : FileHeader) (k : ℕ) (hk : numDirect < k)
    (hc : k ≤ freeMap.numClear) :
    allocateLoop hdr freeMap k = .error .overrun := by
  induction k with
  | zero => omega
  | succ k ih =>
    rw [allocateLoop]
    by_cases hlt : numDirect < k
    · rw [ih hlt (by omega)]
      rfl
    · obtain ⟨l, ds, hloop, -⟩ := allocateLoop_ok hdr freeMap k (by omega) (by omega)
      rw [hloop]
      simp only [bind, Except.bind, if_neg (show ¬ k < numDirect by omega)]

/-- **Allocate within the capacity**: it takes as many free sectors as the
length needs, or reports that there are too few. -/
theorem allocate_ok (hdr : FileHeader) (freeMap : Bitmap) {fileSize : ℤ} (h0 : 0 ≤ fileSize)
    (h1 : fileSize ≤ maxFileSize) (hc : divRoundUp fileSize Disk.sectorSize ≤ freeMap.numClear) :
    ∃ (l : List ℕ) (ds : ℕ → ℤ), allocate hdr freeMap fileSize =
        .ok (⟨fileSize, divRoundUp fileSize Disk.sectorSize, ds⟩,
          l.foldl Bitmap.mark freeMap, true) ∧
      sectors ⟨fileSize, divRoundUp fileSize Disk.sectorSize, ds⟩ = l.map Nat.cast ∧
      (l.length : ℤ) = divRoundUp fileSize Disk.sectorSize ∧ l.Nodup ∧
      (∀ j ∈ l, j < freeMap.numBits ∧ freeMap.test j = false) ∧
      ∀ n ∈ l, ∀ j < n, freeMap.test j = true ∨ j ∈ l := by
  have hd := divRoundUp_le_numDirect h0 h1
  obtain ⟨l, ds, hloop, hds, hlen, hnd, hl, hfirst⟩ := allocateLoop_ok
    { hdr with numBytes := fileSize, numSectors := divRoundUp fileSize Disk.sectorSize } freeMap
    (divRoundUp fileSize Disk.sectorSize).toNat (by omega) (by omega)
  have hnonneg := divRoundUp_of_nonneg h0
  refine ⟨l, ds, ?_, hds, by omega, hnd, hl, hfirst⟩
  unfold allocate
  rw [if_neg (by simp only; omega), hloop]
  rfl

theorem allocate_full (hdr : FileHeader) {fileSize : ℤ}
    (hc : (freeMap.numClear : ℤ) < divRoundUp fileSize Disk.sectorSize) :
    ∃ hdr', allocate hdr freeMap fileSize = .ok (hdr', freeMap, false) := ⟨_, if_pos hc⟩

/-- A length below zero needs no sector, and passes. -/
theorem allocate_neg (hdr : FileHeader) {fileSize : ℤ} (h : fileSize < 0) :
    allocate hdr freeMap fileSize =
      .ok ({ hdr with numBytes := fileSize, numSectors := divRoundUp fileSize Disk.sectorSize },
        freeMap, true) := by
  have hn := divRoundUp_of_nonpos (le_of_lt h)
  unfold allocate
  rw [if_neg (by simp only; omega), show (divRoundUp fileSize Disk.sectorSize).toNat = 0 by omega]
  rfl

/-- A length above the capacity that the disk has room for runs over the table. -/
theorem allocate_overrun (hdr : FileHeader) {fileSize : ℤ} (h : maxFileSize < fileSize)
    (hc : divRoundUp fileSize Disk.sectorSize ≤ freeMap.numClear) :
    allocate hdr freeMap fileSize = .error .overrun := by
  have hd := divRoundUp_of_nonneg (show 0 ≤ fileSize by
    simp only [maxFileSize, numDirect, Disk.sectorSize] at h
    omega)
  unfold allocate
  rw [if_neg (by simp only; omega), allocateLoop_overrun]
  · rfl
  · simp only [maxFileSize, numDirect, Disk.sectorSize] at *
    omega
  · simp only
    omega

/-- The loop of `Deallocate` clears the sectors it goes over. -/
theorem deallocateLoop_ok (l : List ℕ) (hdr : FileHeader) (freeMap : Bitmap) (k : ℕ)
    (hk : k ≤ numDirect) (hds : (List.range k).map hdr.dataSectors = l.map Nat.cast) (hnd : l.Nodup)
    (hl : ∀ j ∈ l, j < freeMap.numBits ∧ freeMap.test j = true) :
    deallocateLoop hdr freeMap k = .ok (l.foldl Bitmap.clear freeMap) := by
  induction k generalizing l with
  | zero =>
    have : l = [] := by simpa using hds.symm
    rw [this]
    rfl
  | succ k ih =>
    rcases List.eq_nil_or_concat l with rfl | ⟨l, i, rfl⟩
    · simp at hds
    · rw [List.concat_eq_append] at *
      rw [List.range_succ, List.map_append, List.map_append, List.map_singleton,
        List.map_singleton] at hds
      obtain ⟨hds, hi⟩ := List.append_inj' hds rfl
      obtain ⟨hnd, -, hne⟩ := List.nodup_append.mp hnd
      obtain ⟨hlt, htest⟩ := hl i (by simp)
      have hi : hdr.dataSectors k = i := by simpa using hi
      have htest' : (l.foldl Bitmap.clear freeMap).test i = true := by
        rw [Bitmap.test_foldl_clear l freeMap fun j hj => (hl j (by simp [hj])).1]
        simp only [htest, Bool.and_true, Bool.not_eq_true', decide_eq_false_iff_not]
        exact fun hmem => hne i hmem i (List.mem_singleton_self i) rfl
      rw [deallocateLoop, ih l (by omega) hds hnd fun j hj => hl j (by simp [hj])]
      simp only [bind, Except.bind, if_pos (show k < numDirect by omega), hi, Int.toNat_natCast,
        Bitmap.numBits_foldl_clear]
      rw [if_pos ⟨by omega, by omega, htest'⟩, List.foldl_append]
      rfl

/-- **Deallocate** clears the sectors of the header, which have to be marked. -/
theorem deallocate_ok {l : List ℕ} (hfits : hdr.numSectors ≤ numDirect)
    (hds : hdr.sectors = l.map Nat.cast) (hnd : l.Nodup)
    (hl : ∀ j ∈ l, j < freeMap.numBits ∧ freeMap.test j = true) :
    hdr.deallocate freeMap = .ok (l.foldl Bitmap.clear freeMap) :=
  deallocateLoop_ok l hdr freeMap hdr.numSectors.toNat (by omega) hds hnd hl

end FileHeader
end Nachos.Filesys
