/-
# Open files (`filesys/openfile.cc`)

The disk moves whole sectors, a request any range of bytes. `ReadAt` reads
the sectors that the request touches into a buffer and copies the part wanted
out of it. `WriteAt` reads the first and the last sector if they are to be
changed in part, copies the data over them and writes the sectors back. A
buffer starts as its memory was (`new` and `news`); what `WriteAt` has not
filled of it when the file ends inside the last sector goes to the disk as it
is, past the end of the file.

The loops are specified once, by the bytes they have moved after `k` rounds
(`readLoop_ok`, `writeLoop_ok`), and both calls against the content of the
file, a function from positions to bytes.

* `readAt_ok`, `writeAt_ok`: reading and writing a range of the content.
* `readAt_writeAt_slice`: both calls as slice read and slice update.

Key definitions: `OpenFile.readAt`, `OpenFile.writeAt`, `FileHeader.content`,
`OpenFile.clip`.
Key theorems: `OpenFile.readAt_ok`, `OpenFile.writeAt_ok`,
`OpenFile.readAt_writeAt_slice`.
-/
import Mathlib
import Nachos.Base.Bytes
import Nachos.Filesys.FileHeader

namespace Nachos.Filesys

open Bytes (Byte Store)

namespace OpenFile

/-! ### The code -/

/-- The first `k` rounds of the loop of `ReadAt`. -/
def readLoop (disk : Store) (hdr : FileHeader) (firstSector : ℤ) (buf : Store) :
    ℕ → Except Stop Store
  | 0 => .ok buf
  | k + 1 => do
    let buf ← readLoop disk hdr firstSector buf k
    let sector ← hdr.byteToSector ((firstSector + k) * Disk.sectorSize)
    readSector disk sector buf (k * Disk.sectorSize)

/-- `bcopy(&buf[a], into, n)` from a buffer of `size` bytes. -/
def bcopyOut (buf : Store) (a size : ℤ) (into : Store) (p n : ℤ) : Except Stop Store :=
  if 0 ≤ a ∧ a + n ≤ size then .ok (Bytes.copy buf a into p n) else .error .overrun

/-- `bcopy(from, &buf[a], n)` to a buffer of `size` bytes. -/
def bcopyIn (src : Store) (q : ℤ) (buf : Store) (a size n : ℤ) : Except Stop Store :=
  if 0 ≤ a ∧ a + n ≤ size then .ok (Bytes.copy src q buf a n) else .error .overrun

/-- `OpenFile::ReadAt` into `into + p`, with a buffer that holds `new`. -/
def readAt (disk : Store) (hdr : FileHeader) (new into : Store) (p numBytes position : ℤ) :
    Except Stop (Store × ℤ) :=
  let fileLength := hdr.fileLength
  if numBytes ≤ 0 ∨ position ≥ fileLength then .ok (into, 0)
  else
    let numBytes := if position + numBytes > fileLength then fileLength - position else numBytes
    let firstSector := divRoundDown position Disk.sectorSize
    let lastSector := divRoundDown (position + numBytes - 1) Disk.sectorSize
    let numSectors := 1 + lastSector - firstSector
    do
      let buf ← readLoop disk hdr firstSector new numSectors.toNat
      let into ← bcopyOut buf (position - firstSector * Disk.sectorSize)
          (numSectors * Disk.sectorSize) into p numBytes
      .ok (into, numBytes)

/-- The first `k` rounds of the loop of `WriteAt`. -/
def writeLoop (disk : Store) (hdr : FileHeader) (firstSector : ℤ) (buf : Store) :
    ℕ → Except Stop Store
  | 0 => .ok disk
  | k + 1 => do
    let disk ← writeLoop disk hdr firstSector buf k
    let sector ← hdr.byteToSector ((firstSector + k) * Disk.sectorSize)
    writeSector disk sector buf (k * Disk.sectorSize)

/-- `WriteAt` reads in the first and the last sector, if they are to be
partially modified. -/
def readEnds (disk : Store) (hdr : FileHeader) (news : ℕ → Store) (firstSector lastSector : ℤ)
    (firstAligned lastAligned : Bool) : Except Stop Store := do
  let buf ←
    if !firstAligned then
      (readAt disk hdr (news 1) (news 0) 0 Disk.sectorSize (firstSector * Disk.sectorSize)).map
        Prod.fst
    else .ok (news 0)
  if !lastAligned && (firstSector != lastSector || firstAligned) then
    (readAt disk hdr (news 2) buf ((lastSector - firstSector) * Disk.sectorSize) Disk.sectorSize
      (lastSector * Disk.sectorSize)).map Prod.fst
  else .ok buf

/-- `OpenFile::WriteAt` from `src + q`. The buffers of the call and of its two
calls of `ReadAt` hold `news`. -/
def writeAt (disk : Store) (hdr : FileHeader) (news : ℕ → Store) (src : Store)
    (q numBytes position : ℤ) :
    Except Stop (Store × ℤ) :=
  let fileLength := hdr.fileLength
  if numBytes ≤ 0 ∨ position ≥ fileLength then .ok (disk, 0)
  else
    let numBytes := if position + numBytes > fileLength then fileLength - position else numBytes
    let firstSector := divRoundDown position Disk.sectorSize
    let lastSector := divRoundDown (position + numBytes - 1) Disk.sectorSize
    let numSectors := 1 + lastSector - firstSector
    let firstAligned : Bool := position = firstSector * Disk.sectorSize
    let lastAligned : Bool := position + numBytes = (lastSector + 1) * Disk.sectorSize
    do
      let buf ← readEnds disk hdr news firstSector lastSector firstAligned lastAligned
      let buf ← bcopyIn src q buf (position - firstSector * Disk.sectorSize)
          (numSectors * Disk.sectorSize) numBytes
      let disk ← writeLoop disk hdr firstSector buf numSectors.toNat
      .ok (disk, numBytes)

end OpenFile

/-! ### The content of a file -/

/-- The byte of the disk file that holds byte `x` of the file. -/
def FileHeader.place (hdr : FileHeader) (x : ℤ) : ℤ :=
  Disk.offset (hdr.dataSectors (x / Disk.sectorSize).toNat) + x % Disk.sectorSize

/-- The content of a file on a disk. -/
def FileHeader.content (hdr : FileHeader) (disk : Store) : Store := fun x => disk (hdr.place x)

namespace OpenFile

variable {disk disk' buf : Store} {hdr : FileHeader} {first x : ℤ}

/-- The bytes that a request for `numBytes` at `position` moves. -/
def clip (len numBytes position : ℤ) : ℤ :=
  if numBytes ≤ 0 ∨ position ≥ len then 0 else min numBytes (len - position)

theorem byteToSector_ok {i : ℕ} (hi : i < numDirect) :
    hdr.byteToSector (i * Disk.sectorSize) = .ok (hdr.dataSectors i) := by
  have hdiv : ((i : ℤ) * Disk.sectorSize).tdiv Disk.sectorSize = i :=
    Int.mul_tdiv_cancel _ (by decide)
  unfold FileHeader.byteToSector FileHeader.word
  rw [hdiv, if_pos ⟨by omega, by omega⟩, if_neg (by omega), if_neg (by omega)]
  congr 2
  omega

/-- Sector `i` of the file, for a header of this disk. -/
theorem sector_of_lt (hG : hdr.Good) {i : ℕ} (hi : (i : ℤ) < hdr.numSectors) :
    hdr.dataSectors i ∈ hdr.sectors ∧ i < numDirect ∧ 0 ≤ hdr.dataSectors i ∧
    hdr.dataSectors i < Disk.numSectors := by
  have hmem : hdr.dataSectors i ∈ hdr.sectors :=
    List.mem_map.mpr ⟨i, List.mem_range.mpr (by omega), rfl⟩
  have hfits := hG.fits
  exact ⟨hmem, by omega, hG.onDisk _ hmem⟩

/-- Different sectors of the file are different sectors of the disk. -/
theorem sector_inj (hG : hdr.Good) {i j : ℕ} (hi : (i : ℤ) < hdr.numSectors)
    (hj : (j : ℤ) < hdr.numSectors) (h : hdr.dataSectors i = hdr.dataSectors j) : i = j :=
  List.inj_on_of_nodup_map hG.nodup (List.mem_range.mpr (by omega))
    (List.mem_range.mpr (by omega)) h

/-- The sector that byte `x` of the file is in. -/
theorem inSector_place (hdr : FileHeader) (x : ℤ) :
    InSector (hdr.dataSectors (x / Disk.sectorSize).toNat) (hdr.place x) := by
  have hpos : (0 : ℤ) < Disk.sectorSize := by decide
  exact inSector_offset (Int.emod_nonneg _ (by omega)) (Int.emod_lt_of_pos _ hpos)

/-- After `k` rounds the buffer holds `k` sectors of the content. -/
theorem readLoop_ok (hG : hdr.Good) (h0 : 0 ≤ first) (k : ℕ) (hk : first + k ≤ hdr.numSectors) :
    readLoop disk hdr first buf k =
      .ok (Bytes.copy (hdr.content disk) (first * Disk.sectorSize) buf 0
        (k * Disk.sectorSize)) := by
  induction k with
  | zero =>
    refine congrArg Except.ok (funext fun x => ?_)
    rw [Bytes.copy_outside (by omega)]
  | succ k ih =>
    obtain ⟨i, hi⟩ : ∃ i : ℕ, first + k = i := ⟨(first + k).toNat, by omega⟩
    obtain ⟨-, h1, h2, h3⟩ := sector_of_lt hG (i := i) (by omega)
    rw [readLoop, ih (by omega)]
    simp only [bind, Except.bind, hi, byteToSector_ok h1]
    rw [readSector_ok h2 h3]
    refine congrArg Except.ok (funext fun x => ?_)
    simp only [Disk.sectorSize] at *
    by_cases hx : (k : ℤ) * 128 ≤ x ∧ x < k * 128 + 128
    · rw [Bytes.copy_inside (by omega) (by push_cast; omega), Bytes.copy_inside (by omega)
        (by push_cast; omega)]
      have hd : (first * (128 : ℕ) + (x - 0)) / 128 = i := by push_cast; omega
      have hm : (first * (128 : ℕ) + (x - 0)) % 128 = x - k * 128 := by push_cast; omega
      simp only [FileHeader.content, FileHeader.place, Disk.sectorSize]
      push_cast at hd hm ⊢
      rw [hd, hm]
      rfl
    · rw [Bytes.copy_outside (by push_cast; omega)]
      by_cases hx' : 0 ≤ x ∧ x < k * 128
      · rw [Bytes.copy_inside hx'.1 (by push_cast; omega),
          Bytes.copy_inside hx'.1 (by push_cast; omega)]
      · rw [Bytes.copy_outside (by push_cast; omega), Bytes.copy_outside (by push_cast; omega)]

theorem sectorSize_cast : ((Disk.sectorSize : ℕ) : ℤ) = 128 := rfl

theorem bcopyOut_ok {into : Store} {a size p n : ℤ} (h0 : 0 ≤ a) (h1 : a + n ≤ size) :
    bcopyOut buf a size into p n = .ok (Bytes.copy buf a into p n) := if_pos ⟨h0, h1⟩

theorem bcopyIn_ok {src : Store} {q a size n : ℤ} (h0 : 0 ≤ a) (h1 : a + n ≤ size) :
    bcopyIn src q buf a size n = .ok (Bytes.copy src q buf a n) := if_pos ⟨h0, h1⟩

theorem divRoundDown_of_nonneg (h : 0 ≤ x) : divRoundDown x Disk.sectorSize = x / 128 :=
  Int.tdiv_eq_ediv_of_nonneg h

/-- A position below the length is in one of the file's sectors. -/
theorem sector_of_position (hG : hdr.Good) (h0 : 0 ≤ x) (h1 : x < hdr.fileLength) :
    x / 128 < hdr.numSectors := by
  unfold FileHeader.fileLength at h1
  rw [hG.numSectors, FileHeader.divRoundUp_of_nonneg (by omega)]
  omega

/-- The content of a file is read from its sectors. -/
theorem content_congr (hG : hdr.Good) (h : ∀ n ∈ hdr.sectors, ∀ y, InSector n y → disk' y = disk y)
    (h0 : 0 ≤ x) (h1 : x < hdr.fileLength) : hdr.content disk' x = hdr.content disk x := by
  have hlt := sector_of_position hG h0 h1
  refine h _ (sector_of_lt hG (i := (x / 128).toNat) ?_).1 _ (inSector_place hdr x)
  omega

theorem clip_of_request {len numBytes position : ℤ} (h : ¬ (numBytes ≤ 0 ∨ position ≥ len)) :
    (if position + numBytes > len then len - position else numBytes) = clip len numBytes position ∧
      0 < clip len numBytes position ∧ position + clip len numBytes position ≤ len := by
  unfold clip
  rw [if_neg h]
  split_ifs <;> omega

/-- **ReadAt** copies the part of the request that is inside the file. -/
theorem readAt_ok (hG : hdr.Good) (new into : Store) (p numBytes : ℤ) {position : ℤ}
    (h0 : 0 ≤ position) :
    readAt disk hdr new into p numBytes position =
      .ok (Bytes.copy (hdr.content disk) position into p (clip hdr.fileLength numBytes position),
        clip hdr.fileLength numBytes position) := by
  unfold readAt
  simp only
  by_cases hreq : numBytes ≤ 0 ∨ position ≥ hdr.fileLength
  · have hr : clip hdr.fileLength numBytes position = 0 := if_pos hreq
    rw [if_pos hreq, hr]
    refine congrArg Except.ok (Prod.ext (funext fun x => ?_) rfl)
    exact (Bytes.copy_outside (by omega)).symm
  · obtain ⟨hr, hpos, hle⟩ := clip_of_request hreq
    rw [if_neg hreq, hr]
    generalize clip hdr.fileLength numBytes position = r at *
    have hlast := sector_of_position hG (x := position + r - 1) (by omega) (by omega)
    rw [divRoundDown_of_nonneg h0, divRoundDown_of_nonneg (by omega), readLoop_ok hG (by omega)
      _ (by omega)]
    simp only [bind, Except.bind]
    rw [bcopyOut_ok (by rw [sectorSize_cast]; omega) (by rw [sectorSize_cast]; omega),
      sectorSize_cast]
    refine congrArg Except.ok (Prod.ext (funext fun x => ?_) rfl)
    simp only
    by_cases hx : p ≤ x ∧ x < p + r
    · rw [Bytes.copy_inside hx.1 hx.2, Bytes.copy_inside hx.1 hx.2,
        Bytes.copy_inside (by omega) (by omega)]
      congr 1
      omega
    · rw [Bytes.copy_outside (by omega), Bytes.copy_outside (by omega)]

/-- After `k` rounds `k` sectors of the content are those of the buffer, and
every other sector is as it was. -/
theorem writeLoop_ok (disk buf : Store) (hG : hdr.Good) (h0 : 0 ≤ first) (k : ℕ)
    (hk : first + k ≤ hdr.numSectors) :
    ∃ disk', writeLoop disk hdr first buf k = .ok disk' ∧
      (∀ x, first * 128 ≤ x → x < (first + k) * 128 → hdr.content disk' x = buf (x - first * 128)) ∧
      ∀ y, (∀ i : ℕ, first ≤ i → i < first + k → ¬ InSector (hdr.dataSectors i) y) →
      disk' y = disk y := by
  induction k with
  | zero => exact ⟨disk, rfl, by intros; omega, by intros; rfl⟩
  | succ k ih =>
    obtain ⟨d1, hd1, hin, hout⟩ := ih (by omega)
    obtain ⟨i, hi⟩ : ∃ i : ℕ, first + k = i := ⟨(first + k).toNat, by omega⟩
    obtain ⟨-, h1, h2, h3⟩ := sector_of_lt hG (i := i) (by omega)
    refine ⟨Bytes.copy buf (k * Disk.sectorSize) d1 (Disk.offset (hdr.dataSectors i))
      Disk.sectorSize, ?_, fun x hx0 hx1 => ?_, fun y hy => ?_⟩
    · rw [writeLoop, hd1]
      simp only [bind, Except.bind, hi, byteToSector_ok h1]
      exact writeSector_ok h2 h3
    · have hpl := inSector_place hdr x
      obtain ⟨j, hj⟩ : ∃ j : ℕ, x / 128 = j := ⟨(x / 128).toNat, by omega⟩
      rw [show x / (Disk.sectorSize : ℤ) = j from hj, Int.toNat_natCast] at hpl
      by_cases he : j = i
      · subst he
        rw [FileHeader.content, Bytes.copy_inside hpl.1 hpl.2]
        simp only [FileHeader.place, Disk.sectorSize]
        push_cast at *
        rw [hj, Int.toNat_natCast]
        congr 1
        omega
      · have hne : ¬ InSector (hdr.dataSectors i) (hdr.place x) := by
          intro h
          exact he (sector_inj hG (by omega) (by omega) (hpl.unique h))
        unfold InSector at hne
        rw [FileHeader.content, Bytes.copy_outside (by omega)]
        exact hin x hx0 (by push_cast at hx1; omega)
    · have hne := hy i (by omega) (by push_cast; omega)
      unfold InSector at hne
      rw [Bytes.copy_outside (by omega)]
      exact hout y fun j hj0 hj1 => hy j hj0 (by push_cast; omega)

theorem clip_sector (len s : ℤ) (h : s * 128 < len) :
    clip len 128 (s * 128) = min 128 (len - s * 128) := by
  unfold clip
  rw [if_neg (by omega)]

/-- Both reads take what the file has of their sector. -/
theorem readEnds_ok (hG : hdr.Good) (news : ℕ → Store) {last : ℤ} (h0 : 0 ≤ first) (h1 : 0 ≤ last)
    (fa la : Bool) :
    readEnds disk hdr news first last fa la =
      let buf := if fa then news 0
        else Bytes.copy (hdr.content disk) (first * 128) (news 0) 0
          (clip hdr.fileLength 128 (first * 128))
      .ok (if la || (first == last && !fa) then buf
        else Bytes.copy (hdr.content disk) (last * 128) buf ((last - first) * 128)
          (clip hdr.fileLength 128 (last * 128))) := by
  have hfirst : ∀ into : Store, readAt disk hdr (news 1) into 0 128 (first * 128) = .ok _ :=
    fun into => readAt_ok hG (news 1) into 0 128 (by omega)
  have hlast : ∀ into : Store, readAt disk hdr (news 2) into ((last - first) * 128) 128
      (last * 128) = .ok _ :=
    fun into => readAt_ok hG (news 2) into _ 128 (by omega)
  unfold readEnds
  rw [sectorSize_cast]
  by_cases he : first = last
  · subst he
    simp only [sub_self, zero_mul] at hlast
    cases fa <;> cases la <;> simp [hfirst, hlast, bind, Except.bind, Except.map]
  · cases fa <;> cases la <;> simp [hfirst, hlast, he, bind, Except.bind, Except.map]

/-- The part of the first and last sector that the request leaves is in the
buffer: the first sector is read unless the request starts with it, the last
one unless it ends with it or is the first and read already. -/
theorem readEnds_content (disk : Store) (hG : hdr.Good) (news : ℕ → Store) {position r : ℤ}
    (h0 : 0 ≤ position) (hr : 0 < r) (hle : position + r ≤ hdr.fileLength) :
    ∃ buf, readEnds disk hdr news (position / 128) ((position + r - 1) / 128)
        (decide (position = position / 128 * 128))
        (decide (position + r = ((position + r - 1) / 128 + 1) * 128)) = .ok buf ∧
      ∀ x, position / 128 * 128 ≤ x → x < ((position + r - 1) / 128 + 1) * 128 →
      x < hdr.fileLength →
        x < position ∨ position + r ≤ x → buf (x - position / 128 * 128) = hdr.content disk x := by
  refine ⟨_, readEnds_ok hG news (by omega) (by omega) _ _, fun x hx0 hx1 hx2 hx => ?_⟩
  have hc1 := clip_sector hdr.fileLength (position / 128) (by omega)
  have hc2 := clip_sector hdr.fileLength ((position + r - 1) / 128) (by omega)
  rcases hx with hx | hx
  · -- in the first sector, which the request does not start with
    have hf : ¬ position = position / 128 * 128 := by omega
    simp only [decide_eq_false hf, Bool.false_eq_true, if_false, Bool.not_false, Bool.and_true]
    split_ifs with hc
    · rw [Bytes.copy_inside (by omega) (by omega)]
      congr 1
      omega
    · have hne : position / 128 ≠ (position + r - 1) / 128 := by
        intro he
        simp [he] at hc
      rw [Bytes.copy_outside (by omega), Bytes.copy_inside (by omega) (by omega)]
      congr 1
      omega
  · -- in the last sector, which the request does not end with
    have hl : ¬ position + r = ((position + r - 1) / 128 + 1) * 128 := by omega
    simp only [decide_eq_false hl, Bool.false_or]
    by_cases hc : position / 128 = (position + r - 1) / 128 ∧ ¬ position = position / 128 * 128
    · obtain ⟨he, hf⟩ := hc
      rw [if_pos (by simp [← he, hf]), decide_eq_false hf, if_neg Bool.false_ne_true,
        Bytes.copy_inside (by omega) (by omega)]
      congr 1
      omega
    · rw [if_neg (by simpa using hc), Bytes.copy_inside (by omega) (by omega)]
      congr 1
      omega

/-- **WriteAt** replaces the part of the request that is inside the file, and
changes no sector but the file's. -/
theorem writeAt_ok (disk : Store) (hG : hdr.Good) (news : ℕ → Store) (src : Store) (q numBytes : ℤ)
    {position : ℤ} (h0 : 0 ≤ position) :
    ∃ disk', writeAt disk hdr news src q numBytes position =
      .ok (disk', clip hdr.fileLength numBytes position) ∧
      (∀ x, 0 ≤ x → x < hdr.fileLength → hdr.content disk' x =
        Bytes.copy src q (hdr.content disk) position (clip hdr.fileLength numBytes position) x) ∧
      ∀ y, (∀ s ∈ hdr.sectors, ¬ InSector s y) → disk' y = disk y := by
  unfold writeAt
  simp only
  by_cases hreq : numBytes ≤ 0 ∨ position ≥ hdr.fileLength
  · have hr : clip hdr.fileLength numBytes position = 0 := if_pos hreq
    rw [if_pos hreq, hr]
    refine ⟨disk, rfl, fun x _ _ => ?_, fun y _ => rfl⟩
    rw [Bytes.copy_outside (by omega)]
  · obtain ⟨hr, hpos, hle⟩ := clip_of_request hreq
    rw [if_neg hreq, hr]
    generalize clip hdr.fileLength numBytes position = r at *
    have hlast := sector_of_position hG (x := position + r - 1) (by omega) (by omega)
    obtain ⟨buf, hbuf, hends⟩ := readEnds_content disk hG news h0 hpos hle
    rw [divRoundDown_of_nonneg h0, divRoundDown_of_nonneg (by omega), sectorSize_cast, hbuf]
    simp only [bind, Except.bind]
    rw [bcopyIn_ok (by omega) (by omega)]
    simp only
    obtain ⟨disk', hdisk, hin, hout⟩ :=
      writeLoop_ok disk (Bytes.copy src q buf (position - position / 128 * 128) r)
      hG (show 0 ≤ position / 128 by omega) (1 + (position + r - 1) / 128 - position / 128).toNat
        (by omega)
    rw [hdisk]
    refine ⟨disk', rfl, fun x hx0 hx1 => ?_, fun y hy => hout y fun i _ hi =>
      hy _ (sector_of_lt hG (by omega)).1⟩
    by_cases hx : position / 128 * 128 ≤ x ∧ x < ((position + r - 1) / 128 + 1) * 128
    · rw [hin x hx.1 (by omega)]
      by_cases hmid : position ≤ x ∧ x < position + r
      · rw [Bytes.copy_inside (by omega) (by omega), Bytes.copy_inside hmid.1 hmid.2]
        congr 1
        omega
      · rw [Bytes.copy_outside (by omega), Bytes.copy_outside (by omega)]
        exact hends x hx.1 hx.2 hx1 (by omega)
    · -- a sector of the file that the request does not touch
      rw [Bytes.copy_outside (by omega)]
      refine hout _ fun i hi0 hi1 hin => ?_
      have hsec := sector_of_position hG hx0 hx1
      obtain ⟨j, hj⟩ : ∃ j : ℕ, x / 128 = j := ⟨(x / 128).toNat, by omega⟩
      have hpl := inSector_place hdr x
      rw [show x / (Disk.sectorSize : ℤ) = j from hj, Int.toNat_natCast] at hpl
      have := sector_inj hG (by omega) (by omega) (hin.unique hpl)
      omega

/-- **Slice read and slice update.** With `r` the part of the request that is
inside the file, `ReadAt` returns `r` and fills `r` bytes with the content;
`WriteAt` returns `r` and replaces `r` bytes of the content, and leaves the
rest of the file and every sector that is not the file's alone. -/
theorem readAt_writeAt_slice (hdr : FileHeader) (hG : hdr.Good) (disk : Store)
    (numBytes position : ℤ) (h0 : 0 ≤ position) :
    let len := hdr.fileLength
    let r := if numBytes ≤ 0 ∨ position ≥ len then 0 else min numBytes (len - position)
    (∀ (new into : Store) (p : ℤ), ∃ into',
        readAt disk hdr new into p numBytes position = .ok (into', r) ∧
        (∀ k, 0 ≤ k → k < r → into' (p + k) = hdr.content disk (position + k)) ∧
        ∀ x, ¬ (p ≤ x ∧ x < p + r) → into' x = into x) ∧
      ∀ (news : ℕ → Store) (src : Store) (q : ℤ), ∃ disk',
        writeAt disk hdr news src q numBytes position = .ok (disk', r) ∧
        (∀ k, 0 ≤ k → k < r → hdr.content disk' (position + k) = src (q + k)) ∧
        (∀ x, 0 ≤ x → x < len → ¬ (position ≤ x ∧ x < position + r) →
          hdr.content disk' x = hdr.content disk x) ∧
        ∀ n ∉ hdr.sectors, Disk.sector disk' n = Disk.sector disk n := by
  intro len r
  have hr : r = clip hdr.fileLength numBytes position := rfl
  clear_value r
  subst hr
  refine ⟨fun new into p =>
    ⟨_, readAt_ok hG new into p numBytes h0, fun k hk0 hk1 => ?_, fun x hx => ?_⟩, fun news src q =>
      ?_⟩
  · rw [Bytes.copy_inside (by omega) (by omega)]
    congr 1
    omega
  · exact Bytes.copy_outside (by omega)
  · obtain ⟨disk', hdisk, hcontent, hframe⟩ := writeAt_ok disk hG news src q numBytes h0
    have hle : clip hdr.fileLength numBytes position ≤ 0 ∨
        position + clip hdr.fileLength numBytes position ≤ hdr.fileLength := by
      by_cases hreq : numBytes ≤ 0 ∨ position ≥ hdr.fileLength
      · exact Or.inl (le_of_eq (if_pos hreq))
      · exact Or.inr (clip_of_request hreq).2.2
    refine ⟨disk', hdisk, fun k hk0 hk1 => ?_, fun x hx0 hx1 hx => ?_,
      fun n hn => sector_congr fun y hy => ?_⟩
    · rw [hcontent _ (by omega) (by omega), Bytes.copy_inside (by omega) (by omega)]
      congr 1
      omega
    · rw [hcontent x hx0 hx1]
      exact Bytes.copy_outside (by omega)
    · exact hframe y fun s hs hys => hn (hy.unique hys ▸ hs)

/-- 250 bytes at 100 of a file of 300 bytes in the sectors 7, 5 and 9. -/
theorem readAt_writeAt_slice_three :
    let hdr : FileHeader := ⟨300, 3, fun i => [7, 5, 9].getD i 0⟩
    hdr.Good ∧ ∃ disk', writeAt (fun _ => 0) hdr (fun _ _ => 1) (fun _ => 2) 0 250 100 =
      .ok (disk', 200) ∧
      (∀ k, 0 ≤ k → k < 200 → hdr.content disk' (100 + k) = 2) ∧
      (∀ x, 0 ≤ x → x < 300 → ¬ (100 ≤ x ∧ x < 100 + 200) → hdr.content disk' x = 0) ∧
      ∀ n ∉ [7, 5, 9], Disk.sector disk' n = Disk.sector (fun _ => 0) n := by
  intro hdr
  have hG : hdr.Good := ⟨by decide, by decide, by decide, by decide⟩
  exact ⟨hG, (readAt_writeAt_slice hdr hG (fun _ => 0) 250 100 (by omega)).2 (fun _ _ => 1)
    (fun _ => 2) 0⟩

end OpenFile
end Nachos.Filesys
