/-
# The arithmetic of a request (`filesys/openfile.cc`)

`ReadAt` and `WriteAt` once more, with the `int`s of the machine: every sum,
difference and product wraps modulo 2^32, and a buffer of a negative size is
not allocated. A run notes the indices that the call and the calls it makes
hand to `ByteToSector`, also if it stops (`Traced`).

A request whose end is below 2^31 does what `OpenFile.readAt` and
`OpenFile.writeAt` do (`readAt_fits`, `writeAt_fits`). The end of a longer one
wraps to a negative number, so the test against the length of the file lets it
pass unclipped, and what follows depends on the size of the buffer:

* the end is 2^31 and the request starts past the first sector: the loop goes on
  past the last sector of the file;
* the end is above 2^31 and the size wraps twice, to a positive one
  (`Escapes`): the loop of `ReadAt` does nothing, and the whole request is
  copied out of a buffer that holds nothing; `WriteAt` returns as many bytes, or
  reads its last sector at a negative index;
* in every other case the size is negative and the allocation throws.

Key definitions: `Clipping.readAt`, `Clipping.writeAt`,
`Clipping.Clipped`, `Clipping.Escapes`.
Key theorems: `Clipping.readAt_fits`, `Clipping.writeAt_fits`,
`Clipping.clipped_iff`.
-/
import Mathlib
import Nachos.Base.Bytes
import Nachos.Base.Traced
import Nachos.Userprog.AddrSpace
import Nachos.Filesys.OpenFile

namespace Nachos.Filesys.Clipping

open Bytes (Byte Store)
open Traced (note stop pure_eq bind_ok bind_error stop_bind log_bind)

/-! ### Runs -/

/-- Why a call does not come back: it stops, or `new` throws. -/
inductive Abort
  | stop (why : Stop)
  | badAlloc
  deriving DecidableEq

/-- A call, and the indices `i` of its `ByteToSector(i * SectorSize)`. -/
abbrev Run (α : Type) := Traced Abort ℤ α

/-- A call that hands no index on. -/
def lift {α : Type} (x : Except Stop α) : Run α := Traced.lift (x.mapError .stop)

/-- The index of the next sector. -/
def handOn (i : ℤ) : Run Unit := note i

/-- `new char[size]`. -/
def newChar (size : ℤ) : Run Unit := if size < 0 then stop .badAlloc else pure ()

theorem lift_ok {α : Type} (a : α) : lift (.ok a) = (pure a : Run α) := rfl

theorem newChar_of_neg {size : ℤ} (h : size < 0) : newChar size = stop .badAlloc := if_pos h

theorem newChar_of_nonneg {size : ℤ} (h : 0 ≤ size) : newChar size = pure () := if_neg (by omega)

/-! ### The code -/

/-- `numBytes`, after `if ((position + numBytes) > fileLength)`. -/
def clipBytes (fileLength numBytes position : ℤ) : ℤ :=
  if wrap32 (position + numBytes) > fileLength then wrap32 (fileLength - position) else numBytes

/-- `divRoundDown(position + numBytes - 1, SectorSize)`. -/
def lastSectorOf (numBytes position : ℤ) : ℤ :=
  divRoundDown (wrap32 (wrap32 (position + numBytes) - 1)) Disk.sectorSize

/-- `numSectors * SectorSize`, with `numSectors = 1 + lastSector - firstSector`. -/
def bufSize (firstSector lastSector : ℤ) : ℤ :=
  wrap32 (wrap32 (wrap32 (1 + lastSector) - firstSector) * Disk.sectorSize)

/-- The first `k` rounds of `for (i = firstSector; i <= lastSector; i++)` in
`ReadAt`. -/
def readLoop (disk : Store) (hdr : FileHeader) (firstSector : ℤ) (buf : Store) : ℕ → Run Store
  | 0 => pure buf
  | k + 1 => do
    let buf ← readLoop disk hdr firstSector buf k
    let i := wrap32 (firstSector + k)
    handOn i
    let sector ← lift (hdr.byteToSector (wrap32 (i * Disk.sectorSize)))
    lift (readSector disk sector buf (wrap32 (wrap32 (i - firstSector) * Disk.sectorSize)))

/-- The rounds of the loops. -/
def rounds (firstSector lastSector : ℤ) : ℕ := (lastSector + 1 - firstSector).toNat

/-- `OpenFile::ReadAt` into `into + p`, with a buffer that holds `new`. -/
def readAt (disk : Store) (hdr : FileHeader) (new into : Store) (p numBytes position : ℤ) :
    Run (Store × ℤ) :=
  let fileLength := hdr.fileLength
  if numBytes ≤ 0 ∨ position ≥ fileLength then pure (into, 0)
  else
    let numBytes := clipBytes fileLength numBytes position
    let firstSector := divRoundDown position Disk.sectorSize
    let lastSector := lastSectorOf numBytes position
    do
      newChar (bufSize firstSector lastSector)
      let buf ← readLoop disk hdr firstSector new (rounds firstSector lastSector)
      let into ← lift
          (OpenFile.bcopyOut buf (wrap32 (position - wrap32 (firstSector * Disk.sectorSize)))
        (bufSize firstSector lastSector) into p numBytes)
      pure (into, numBytes)

/-- The first `k` rounds of the loop of `WriteAt`. -/
def writeLoop (disk : Store) (hdr : FileHeader) (firstSector : ℤ) (buf : Store) : ℕ → Run Store
  | 0 => pure disk
  | k + 1 => do
    let disk ← writeLoop disk hdr firstSector buf k
    let i := wrap32 (firstSector + k)
    handOn i
    let sector ← lift (hdr.byteToSector (wrap32 (i * Disk.sectorSize)))
    lift (writeSector disk sector buf (wrap32 (wrap32 (i - firstSector) * Disk.sectorSize)))

/-- `WriteAt` reads in the first sector, if it is to be partially modified. -/
def readFirst (disk : Store) (hdr : FileHeader) (news : ℕ → Store) (firstSector : ℤ)
    (firstAligned : Bool) : Run Store :=
  if !firstAligned then do
    let (buf, _) ← readAt disk hdr (news 1) (news 0) 0 Disk.sectorSize
        (wrap32 (firstSector * Disk.sectorSize))
    pure buf
  else pure (news 0)

/-- It reads in the last sector, if it is to be partially modified and not read
yet. -/
def readLast (disk : Store) (hdr : FileHeader) (news : ℕ → Store) (buf : Store)
    (firstSector lastSector : ℤ) (firstAligned lastAligned : Bool) : Run Store :=
  if !lastAligned && (firstSector != lastSector || firstAligned) then do
    let (buf, _) ← readAt disk hdr (news 2) buf
        (wrap32 (wrap32 (lastSector - firstSector) * Disk.sectorSize))
      Disk.sectorSize (wrap32 (lastSector * Disk.sectorSize))
    pure buf
  else pure buf

/-- `OpenFile::WriteAt` from `src + q`. The buffers of the call and of its two
calls of `ReadAt` hold `news`. -/
def writeAt (disk : Store) (hdr : FileHeader) (news : ℕ → Store) (src : Store)
    (q numBytes position : ℤ) :
    Run (Store × ℤ) :=
  let fileLength := hdr.fileLength
  if numBytes ≤ 0 ∨ position ≥ fileLength then pure (disk, 0)
  else
    let numBytes := clipBytes fileLength numBytes position
    let firstSector := divRoundDown position Disk.sectorSize
    let lastSector := lastSectorOf numBytes position
    let firstAligned : Bool := position = wrap32 (firstSector * Disk.sectorSize)
    let lastAligned : Bool :=
      wrap32 (position + numBytes) = wrap32 (wrap32 (lastSector + 1) * Disk.sectorSize)
    do
      newChar (bufSize firstSector lastSector)
      let buf ← readFirst disk hdr news firstSector firstAligned
      let buf ← readLast disk hdr news buf firstSector lastSector firstAligned lastAligned
      let buf ← lift (OpenFile.bcopyIn src q buf
        (wrap32 (position - wrap32 (firstSector * Disk.sectorSize)))
        (bufSize firstSector lastSector) numBytes)
      let disk ← writeLoop disk hdr firstSector buf (rounds firstSector lastSector)
      pure (disk, numBytes)

/-! ### A request whose end is below 2^31 -/

variable {disk buf : Store} {hdr : FileHeader} {first last : ℤ}

/-- The indices of `k` rounds. -/
def indices (first : ℤ) (k : ℕ) : List ℤ := (List.range k).map fun j : ℕ => first + j

theorem indices_succ (first : ℤ) (k : ℕ) :
    indices first (k + 1) = indices first k ++ [first + k] := by
  simp [indices, List.range_succ]

theorem mem_indices {k : ℕ} {i : ℤ} (h : i ∈ indices first k) : first ≤ i ∧ i < first + k := by
  obtain ⟨j, hj, rfl⟩ := List.mem_map.mp h
  have := List.mem_range.mp hj
  omega

/-- The numbers of a round with an index below 2^24. -/
theorem round_fits (k : ℕ) (h0 : 0 ≤ first) (hk : first + k < 2 ^ 24) :
    wrap32 (first + k) =
      first + k ∧ wrap32 ((first + k) * Disk.sectorSize) = (first + k) * Disk.sectorSize ∧
      wrap32 (wrap32 (first + k - first) * Disk.sectorSize) = k * Disk.sectorSize := by
  have h1 : wrap32 (first + k - first) = k := by
    rw [add_sub_cancel_left]
    exact wrap32_of_lt (by omega) (by omega)
  rw [h1, OpenFile.sectorSize_cast]
  exact ⟨wrap32_of_lt (by omega) (by omega), wrap32_of_lt (by omega) (by omega),
    wrap32_of_lt (by omega) (by omega)⟩

theorem readLoop_fits (h0 : 0 ≤ first) (k : ℕ) (hk : first + k ≤ 2 ^ 24) {b : Store}
    (h : OpenFile.readLoop disk hdr first buf k = .ok b) :
    readLoop disk hdr first buf k = ⟨.ok b, indices first k⟩ := by
  induction k generalizing b with
  | zero =>
    cases h
    rfl
  | succ k ih =>
    obtain ⟨b', hb, h⟩ := bind_eq_ok h
    obtain ⟨sector, hs, h⟩ := bind_eq_ok h
    obtain ⟨h1, h2, h3⟩ := round_fits k h0 (by push_cast at hk; omega)
    simp only [readLoop, ih (by push_cast at hk; omega) hb, h1, h2, h3, hs, h, bind_ok, lift_ok,
      handOn, note, pure_eq, indices_succ, List.append_nil]

theorem writeLoop_fits (h0 : 0 ≤ first) (k : ℕ) (hk : first + k ≤ 2 ^ 24) {d : Store}
    (h : OpenFile.writeLoop disk hdr first buf k = .ok d) :
    writeLoop disk hdr first buf k = ⟨.ok d, indices first k⟩ := by
  induction k generalizing d with
  | zero =>
    cases h
    rfl
  | succ k ih =>
    obtain ⟨d', hd, h⟩ := bind_eq_ok h
    obtain ⟨sector, hs, h⟩ := bind_eq_ok h
    obtain ⟨h1, h2, h3⟩ := round_fits k h0 (by push_cast at hk; omega)
    simp only [writeLoop, ih (by push_cast at hk; omega) hd, h1, h2, h3, hs, h, bind_ok, lift_ok,
      handOn, note, pure_eq, indices_succ, List.append_nil]

/-- A request of `numBytes` at `position`, as the caller may make it: the end is
below 2^31, or the request is refused. -/
def Fits (len numBytes position : ℤ) : Prop :=
  numBytes ≤ 0 ∨ len ≤ position ∨ position + numBytes < 2 ^ 31

instance (len numBytes position : ℤ) : Decidable (Fits len numBytes position) :=
  inferInstanceAs (Decidable (_ ∨ _))

/-- The numbers of a request that is clipped. -/
theorem request_fits {len numBytes position : ℤ} (h0 : 0 ≤ position) (hlen : len ≤ maxFileSize)
    (hfits : Fits len numBytes position) (hreq : ¬ (numBytes ≤ 0 ∨ position ≥ len)) :
    let r := if position + numBytes > len then len - position else numBytes
    let firstSector := divRoundDown position Disk.sectorSize
    let lastSector := divRoundDown (position + r - 1) Disk.sectorSize
    clipBytes len numBytes position = r ∧ lastSectorOf r position = lastSector ∧
      bufSize firstSector lastSector = (1 + lastSector - firstSector) * Disk.sectorSize ∧
      0 ≤ firstSector ∧ firstSector ≤ lastSector ∧ lastSector * 128 < len ∧
      wrap32 (firstSector * Disk.sectorSize) = firstSector * Disk.sectorSize ∧
      wrap32 (position - firstSector * Disk.sectorSize) = position - firstSector *
      Disk.sectorSize := by
  have hmax : maxFileSize = 3840 := rfl
  have hend : position + numBytes < 2 ^ 31 := by
    unfold Fits at hfits
    omega
  intro r firstSector lastSector
  have hclip : clipBytes len numBytes position = r := by
    unfold clipBytes
    rw [wrap32_of_lt (by omega) (by omega), wrap32_of_lt (by omega) (by omega)]
  have hr : 0 < r ∧ position + r ≤ len := by
    unfold r
    split_ifs <;> omega
  clear_value r
  have hfirst : firstSector = position / 128 := OpenFile.divRoundDown_of_nonneg h0
  have hlast : lastSector = (position + r - 1) / 128 := OpenFile.divRoundDown_of_nonneg (by omega)
  refine ⟨hclip, ?_, ?_, ?_, ?_, ?_, ?_, ?_⟩
  · unfold lastSectorOf
    rw [wrap32_of_lt (x := position + r) (by omega) (by omega), wrap32_of_lt (by omega) (by omega)]
  · unfold bufSize
    rw [hfirst, hlast, OpenFile.sectorSize_cast, wrap32_of_lt (x := 1 + _) (by omega) (by omega),
      wrap32_of_lt (x := _ - _) (by omega) (by omega), wrap32_of_lt (by omega) (by omega)]
  · omega
  · omega
  · omega
  · rw [hfirst, OpenFile.sectorSize_cast]
    exact wrap32_of_lt (by omega) (by omega)
  · rw [hfirst, OpenFile.sectorSize_cast]
    exact wrap32_of_lt (by omega) (by omega)

/-- An index of a sector of a file of `len` bytes. -/
def InFile (len i : ℤ) : Prop := 0 ≤ i ∧ i < divRoundUp len Disk.sectorSize

theorem inFile_of_mul_lt {len i : ℤ} (h0 : 0 ≤ i) (h1 : i * 128 < len) : InFile len i := by
  refine ⟨h0, ?_⟩
  rw [FileHeader.divRoundUp_of_nonneg (by omega)]
  omega

/-- The rounds of a clipped request stay inside the file. -/
theorem inFile_of_indices {len i : ℤ} (h0 : 0 ≤ first) (hlast : last * 128 < len)
    (h : i ∈ indices first (rounds first last)) : InFile len i := by
  have := mem_indices h
  unfold rounds at this
  exact inFile_of_mul_lt (by omega) (by omega)

theorem toNat_eq_rounds (first last : ℤ) : (1 + last - first).toNat = rounds first last := by
  unfold rounds
  omega

/-- The buffer of a request over the sectors from `first` to `last`. -/
theorem newChar_sectors (h : first ≤ last) :
    newChar ((1 + last - first) * Disk.sectorSize) = pure () :=
  newChar_of_nonneg (mul_nonneg (by omega) (by decide))

/-- **ReadAt** does what it does without bounds on the numbers. -/
theorem readAt_fits {new into : Store} {p numBytes position : ℤ} {out : Store × ℤ}
    (h0 : 0 ≤ position) (hlen : hdr.fileLength ≤ maxFileSize)
    (hfits : Fits hdr.fileLength numBytes position)
    (h : OpenFile.readAt disk hdr new into p numBytes position = .ok out) :
    ∃ l, readAt disk hdr new into p numBytes position = ⟨.ok out, l⟩ ∧
    ∀ i ∈ l, InFile hdr.fileLength i := by
  have hmax : maxFileSize = 3840 := rfl
  unfold readAt
  unfold OpenFile.readAt at h
  simp only at h ⊢
  by_cases hreq : numBytes ≤ 0 ∨ position ≥ hdr.fileLength
  · rw [if_pos hreq] at h ⊢
    cases h
    exact ⟨[], rfl, by simp⟩
  · rw [if_neg hreq] at h ⊢
    obtain ⟨hclip, hl, hsize, h1, h2, h3, hw, hw'⟩ := request_fits h0 hlen hfits hreq
    rw [hclip, hl, hsize, hw, hw']
    generalize (if position + numBytes > hdr.fileLength then hdr.fileLength - position
      else numBytes) = r at *
    generalize divRoundDown position Disk.sectorSize = firstSector at *
    generalize divRoundDown (position + r - 1) Disk.sectorSize = lastSector at *
    rw [toNat_eq_rounds] at h
    obtain ⟨b, hb, h⟩ := bind_eq_ok h
    obtain ⟨into', hinto, h⟩ := bind_eq_ok h
    cases h
    refine ⟨indices firstSector (rounds firstSector lastSector), ?_,
      fun i hi => inFile_of_indices h1 h3 hi⟩
    rw [newChar_sectors h2, pure_bind, readLoop_fits h1 _ (by unfold rounds; omega) hb, bind_ok,
      hinto, lift_ok, pure_bind]
    simp [pure_eq]

/-- A read of one whole sector of the file fits. -/
theorem fits_sector {len i : ℤ} (hlen : len ≤ maxFileSize) :
    Fits len Disk.sectorSize (i * Disk.sectorSize) := by
  have hmax : maxFileSize = 3840 := rfl
  unfold Fits
  rw [OpenFile.sectorSize_cast]
  omega

theorem wrap32_sector {i : ℤ} (h0 : 0 ≤ i) (h1 : i < 2 ^ 24) :
    wrap32 (i * Disk.sectorSize) = i * Disk.sectorSize := by
  rw [OpenFile.sectorSize_cast]
  exact wrap32_of_lt (by omega) (by omega)

/-- The two reads of `WriteAt`, one after the other. -/
theorem readEnds_ok {news : ℕ → Store} {fa la : Bool} {buf' : Store}
    (h : OpenFile.readEnds disk hdr news first last fa la = .ok buf') :
    ∃ buf,
      (if !fa then
        (OpenFile.readAt disk hdr (news 1) (news 0) 0 Disk.sectorSize (first * Disk.sectorSize)).map
        Prod.fst
        else .ok (news 0)) = .ok buf ∧
      (if !la && (first != last || fa) then
        (OpenFile.readAt disk hdr (news 2) buf ((last - first) * Disk.sectorSize) Disk.sectorSize
          (last * Disk.sectorSize)).map Prod.fst
        else .ok buf) = .ok buf' := by
  unfold OpenFile.readEnds at h
  rcases fa with _ | _
  · exact bind_eq_ok h
  · exact bind_eq_ok h

theorem readFirst_fits {news : ℕ → Store} {fa : Bool} (hlen : hdr.fileLength ≤ maxFileSize)
    (h0 : 0 ≤ first) (h1 : first < 2 ^ 24)
    (h : (if !fa then
      (OpenFile.readAt disk hdr (news 1) (news 0) 0 Disk.sectorSize (first * Disk.sectorSize)).map
      Prod.fst
      else .ok (news 0)) = .ok buf) :
    ∃ l, readFirst disk hdr news first fa = ⟨.ok buf, l⟩ ∧ ∀ i ∈ l, InFile hdr.fileLength i := by
  unfold readFirst
  rw [wrap32_sector h0 h1]
  rcases fa with _ | _
  · obtain ⟨out, hout, rfl⟩ := except_map_ok h
    have hnonneg : 0 ≤ first * Disk.sectorSize := mul_nonneg h0 (by decide)
    obtain ⟨l, hl, hin⟩ := readAt_fits hnonneg hlen (fits_sector hlen) hout
    refine ⟨l, ?_, hin⟩
    rw [Bool.not_false, if_pos rfl, hl, bind_ok]
    simp [pure_eq]
  · cases h
    exact ⟨[], rfl, by simp⟩

theorem readLast_fits {news : ℕ → Store} {buf' : Store} {fa la : Bool}
    (hlen : hdr.fileLength ≤ maxFileSize) (h0 : 0 ≤ first) (hle : first ≤ last) (h1 : last < 2 ^ 24)
    (h : (if !la && (first != last || fa) then
      (OpenFile.readAt disk hdr (news 2) buf ((last - first) * Disk.sectorSize) Disk.sectorSize
        (last * Disk.sectorSize)).map Prod.fst
      else .ok buf) = .ok buf') :
    ∃ l, readLast disk hdr news buf
      first last fa la = ⟨.ok buf', l⟩ ∧ ∀ i ∈ l, InFile hdr.fileLength i := by
  have hsub : wrap32 (last - first) = last - first := wrap32_of_lt (by omega) (by omega)
  unfold readLast
  rw [wrap32_sector (by omega) h1, hsub, wrap32_sector (by omega) (by omega)]
  by_cases hread : (!la && (first != last || fa)) = true
  · rw [if_pos hread] at h ⊢
    obtain ⟨out, hout, rfl⟩ := except_map_ok h
    have hnonneg : 0 ≤ last * Disk.sectorSize := mul_nonneg (by omega) (by decide)
    obtain ⟨l, hl, hin⟩ := readAt_fits hnonneg hlen (fits_sector hlen) hout
    refine ⟨l, ?_, hin⟩
    rw [hl, bind_ok]
    simp [pure_eq]
  · rw [if_neg hread] at h ⊢
    cases h
    exact ⟨[], rfl, by simp⟩

/-- **WriteAt** does what it does without bounds on the numbers. -/
theorem writeAt_fits {news : ℕ → Store} {src : Store} {q numBytes position : ℤ} {out : Store × ℤ}
    (h0 : 0 ≤ position) (hlen : hdr.fileLength ≤ maxFileSize)
    (hfits : Fits hdr.fileLength numBytes position)
    (h : OpenFile.writeAt disk hdr news src q numBytes position = .ok out) :
    ∃ l, writeAt disk hdr news src q numBytes position = ⟨.ok out, l⟩ ∧
    ∀ i ∈ l, InFile hdr.fileLength i := by
  have hmax : maxFileSize = 3840 := rfl
  unfold writeAt
  unfold OpenFile.writeAt at h
  simp only at h ⊢
  by_cases hreq : numBytes ≤ 0 ∨ position ≥ hdr.fileLength
  · rw [if_pos hreq] at h ⊢
    cases h
    exact ⟨[], rfl, by simp⟩
  · rw [if_neg hreq] at h ⊢
    obtain ⟨hclip, hl, hsize, h1, h2, h3, hw, hw'⟩ := request_fits h0 hlen hfits hreq
    rw [hclip, hl, hsize, hw, hw']
    have hr : 0 < (if position + numBytes > hdr.fileLength then hdr.fileLength - position
        else numBytes) ∧
        position + (if position + numBytes > hdr.fileLength then hdr.fileLength - position
          else numBytes)
          ≤ hdr.fileLength := by
      split_ifs <;> omega
    generalize (if position + numBytes > hdr.fileLength then hdr.fileLength - position
      else numBytes) = r at *
    generalize divRoundDown position Disk.sectorSize = firstSector at *
    generalize divRoundDown (position + r - 1) Disk.sectorSize = lastSector at *
    have hend : wrap32 (position + r) = position + r := wrap32_of_lt (by omega) (by omega)
    have hlast : wrap32 (lastSector + 1) = lastSector + 1 := wrap32_of_lt (by omega) (by omega)
    rw [toNat_eq_rounds] at h
    rw [newChar_sectors h2, pure_bind, hend, hlast, wrap32_sector (by omega) (by omega)]
    obtain ⟨b, hb, h⟩ := bind_eq_ok h
    obtain ⟨b1, hb1, hb⟩ := readEnds_ok hb
    obtain ⟨b2, hb2, h⟩ := bind_eq_ok h
    obtain ⟨d, hd, h⟩ := bind_eq_ok h
    cases h
    obtain ⟨l1, hl1, hin1⟩ := readFirst_fits hlen h1 (by omega) hb1
    obtain ⟨l2, hl2, hin2⟩ := readLast_fits hlen h1 h2 (by omega) hb
    refine ⟨l1 ++ (l2 ++ indices firstSector (rounds firstSector lastSector)), ?_, fun i hi => ?_⟩
    · rw [hl1, bind_ok, hl2, bind_ok, hb2, lift_ok, pure_bind,
        writeLoop_fits h1 _ (by unfold rounds; omega) hd, bind_ok]
      simp [pure_eq]
    · rcases List.mem_append.mp hi with hi | hi
      · exact hin1 i hi
      · rcases List.mem_append.mp hi with hi | hi
        · exact hin2 i hi
        · exact inFile_of_indices h1 h3 hi

/-! ### A request whose end wraps -/

/-- The requests that wrap and for which the size of the buffer is positive: the
end is 2^31 and the start past the first sector, or the size wraps as well. -/
def Escapes (len numBytes position : ℤ) : Prop :=
  ¬ Fits len numBytes position ∧
    (position + numBytes = 2 ^ 31 ∧ Disk.sectorSize ≤ position ∨
      2 ^ 31 < position + numBytes ∧ numBytes + position % Disk.sectorSize ≤ 2 ^ 31 - 255)

instance (len numBytes position : ℤ) : Decidable (Escapes len numBytes position) :=
  inferInstanceAs (Decidable (_ ∧ _))

variable {len numBytes position : ℤ}

/-- The test against the length lets the request pass as it is. -/
theorem clipBytes_wraps (hlen : 0 ≤ len) (h0 : 0 ≤ position) (h1 : numBytes < 2 ^ 31)
    (hlt : position < 2 ^ 31) (hend : 2 ^ 31 ≤ position + numBytes) :
    clipBytes len numBytes position = numBytes := by
  unfold clipBytes
  rw [wrap32_of_ge hend (by omega), if_neg (by omega)]

/-- The end is 2^31: the last sector is that of the last `int`. -/
theorem wraps_exact (h0 : 0 ≤ position) (hlt : position < 3840)
    (hend : position + numBytes = 2 ^ 31) :
    lastSectorOf numBytes position = 2 ^ 24 - 1 ∧
      bufSize (position / 128) (2 ^ 24 - 1) = if position < 128 then -2 ^ 31
      else 2 ^ 31 - position / 128 * 128 := by
  constructor
  · unfold lastSectorOf
    rw [wrap32_of_ge (x := position + numBytes) (by omega) (by omega), wrap32_of_lt_neg (by omega)
      (by omega), hend]
    rfl
  · unfold bufSize
    rw [OpenFile.sectorSize_cast, wrap32_of_lt (x := 1 + _) (by omega) (by omega),
      wrap32_of_lt (x := _ - _) (by omega) (by omega)]
    by_cases hp : position < 128
    · rw [if_pos hp, wrap32_of_ge (by omega) (by omega)]
      omega
    · rw [if_neg hp, wrap32_of_lt (by omega) (by omega)]
      omega

theorem divRoundDown_of_neg {x : ℤ} (h : x < 0) : divRoundDown x Disk.sectorSize = -(-x / 128) := by
  unfold divRoundDown
  rw [← Int.neg_neg x, Int.neg_tdiv, Int.tdiv_eq_ediv_of_nonneg (by omega)]
  simp [OpenFile.sectorSize_cast]

/-- The end is above 2^31: the last sector has a negative number. -/
theorem wraps_past (h0 : 0 ≤ position) (hlt : position < 3840) (h1 : numBytes < 2 ^ 31)
    (hend : 2 ^ 31 < position + numBytes) :
    lastSectorOf numBytes position = -((2 ^ 32 + 1 - position - numBytes) / 128) ∧
      bufSize (position / 128) (-((2 ^ 32 + 1 - position - numBytes) / 128)) =
        128 * (1 - (2 ^ 32 + 1 - position - numBytes) / 128 - position / 128) +
          if numBytes + position % 128 ≤ 2 ^ 31 - 255 then 2 ^ 32 else 0 := by
  constructor
  · unfold lastSectorOf
    rw [wrap32_of_ge (x := position + numBytes) (by omega) (by omega),
      wrap32_of_range (by omega) (by omega), divRoundDown_of_neg (by omega)]
    congr 2
    omega
  · unfold bufSize
    rw [OpenFile.sectorSize_cast, wrap32_of_range (x := 1 + _) (by omega) (by omega),
      wrap32_of_range (x := _ - _) (by omega) (by omega)]
    by_cases hp : numBytes + position % 128 ≤ 2 ^ 31 - 255
    · rw [if_pos hp, wrap32_of_lt_neg (by omega) (by omega)]
      omega
    · rw [if_neg hp, wrap32_of_range (by omega) (by omega)]
      omega

/-- A loop that goes past the last sector of the file hands on the next index. -/
theorem readLoop_past (disk buf : Store) (hG : hdr.Good) (h0 : 0 ≤ first)
    (hle : first ≤ hdr.numSectors) (k : ℕ) (hk : hdr.numSectors < first + k) :
    hdr.numSectors ∈ (readLoop disk hdr first buf k).log := by
  have hfits : hdr.numSectors ≤ 30 := hG.fits
  induction k with
  | zero => omega
  | succ k ih =>
    unfold readLoop
    by_cases hlt : hdr.numSectors < first + k
    · exact log_bind (ih hlt)
    · have heq : first + k = hdr.numSectors := by
        push_cast at hk
        omega
      rw [readLoop_fits h0 k (by omega) (OpenFile.readLoop_ok hG h0 k (by omega)), bind_ok,
        (round_fits k h0 (by omega)).1, heq]
      exact List.mem_append_right _ (log_bind (List.mem_singleton_self _))

theorem writeLoop_past (disk buf : Store) (hG : hdr.Good) (h0 : 0 ≤ first)
    (hle : first ≤ hdr.numSectors) (k : ℕ) (hk : hdr.numSectors < first + k) :
    hdr.numSectors ∈ (writeLoop disk hdr first buf k).log := by
  have hfits : hdr.numSectors ≤ 30 := hG.fits
  induction k with
  | zero => omega
  | succ k ih =>
    unfold writeLoop
    by_cases hlt : hdr.numSectors < first + k
    · exact log_bind (ih hlt)
    · have heq : first + k = hdr.numSectors := by
        push_cast at hk
        omega
      obtain ⟨d, hd, -⟩ := OpenFile.writeLoop_ok disk buf hG h0 k (by omega)
      rw [writeLoop_fits h0 k (by omega) hd, bind_ok, (round_fits k h0 (by omega)).1, heq]
      exact List.mem_append_right _ (log_bind (List.mem_singleton_self _))

/-- A read of a sector with a negative number hands its number on. -/
theorem readAt_negative (disk : Store) (hdr : FileHeader) (new into : Store) (p : ℤ) {i : ℤ}
    (hlen : 0 ≤ hdr.fileLength) (h0 : -2 ^ 24 ≤ i) (h1 : i < 0) :
    i ∈ (readAt disk hdr new into p Disk.sectorSize (i * Disk.sectorSize)).log := by
  have hclip : clipBytes hdr.fileLength 128 (i * 128) = 128 := by
    unfold clipBytes
    rw [wrap32_of_range (by omega) (by omega), if_neg (by omega)]
  have hfirst : divRoundDown (i * 128) 128 = i := by
    have h := divRoundDown_of_neg (x := i * 128) (by omega)
    rw [OpenFile.sectorSize_cast] at h
    omega
  have hlast : lastSectorOf 128 (i * 128) = i + 1 := by
    unfold lastSectorOf
    rw [wrap32_of_range (x := _ + 128) (by omega) (by omega), wrap32_of_range (by omega) (by omega),
      divRoundDown_of_neg (by omega)]
    omega
  have hsize : bufSize i (i + 1) = 256 := by
    unfold bufSize
    rw [OpenFile.sectorSize_cast, wrap32_of_range (x := 1 + _) (by omega) (by omega),
      wrap32_of_range (x := _ - _) (by omega) (by omega), wrap32_of_range (by omega) (by omega)]
    omega
  have hrounds : rounds i (i + 1) = 2 := by
    unfold rounds
    omega
  unfold readAt
  rw [OpenFile.sectorSize_cast]
  simp only
  rw [if_neg (by omega), hclip, hfirst, hlast, hsize, hrounds,
    newChar_of_nonneg (by omega), pure_bind]
  refine log_bind (log_bind ?_)
  have hround : wrap32 (i + (0 : ℕ)) = i := by
    rw [Nat.cast_zero, add_zero]
    exact wrap32_of_range (by omega) (by omega)
  rw [readLoop, readLoop, pure_bind, hround]
  exact log_bind (List.mem_singleton_self _)

/-- A call that stays inside the file: no index of another sector, and no more
bytes than the file has from `position` on. -/
def Clipped (len position : ℤ) (r : Run (Store × ℤ)) : Prop :=
  (∀ i ∈ r.log, InFile len i) ∧ ∀ out m, r.result = .ok (out, m) → m ≤ max 0 (len - position)

theorem not_inFile_numSectors (hG : hdr.Good) : ¬ InFile hdr.fileLength hdr.numSectors := by
  unfold InFile FileHeader.fileLength
  rw [← hG.numSectors]
  omega

/-- Where a request starts in its first sector. -/
theorem start_in_sector (h0 : 0 ≤ position) (hlt : position < 2 ^ 31) :
    wrap32 (position - wrap32 (position / 128 * Disk.sectorSize)) = position % 128 := by
  rw [wrap32_sector (by omega) (by omega), OpenFile.sectorSize_cast,
    wrap32_of_lt (by omega) (by omega)]
  omega

/-- The call with its numbers, for a request that is not clipped. -/
theorem readAt_unclipped (disk : Store) (new into : Store) (p : ℤ) (hlen : 0 ≤ hdr.fileLength)
    (hmax : hdr.fileLength ≤ maxFileSize) (h0 : 0 ≤ position) (h1 : numBytes < 2 ^ 31)
    (hfits : ¬ Fits hdr.fileLength numBytes position) :
    readAt disk hdr new into p numBytes position =
      newChar (bufSize (position / 128) (lastSectorOf numBytes position)) >>= fun _ =>
      readLoop disk hdr (position / 128) new
      (rounds (position / 128) (lastSectorOf numBytes position)) >>= fun buf =>
      lift (OpenFile.bcopyOut buf (position % 128)
        (bufSize (position / 128) (lastSectorOf numBytes position)) into p
        numBytes) >>= fun into =>
      pure (into, numBytes) := by
  have hbound : maxFileSize = 3840 := rfl
  unfold Fits at hfits
  have hstart := start_in_sector h0 (by omega)
  unfold readAt
  simp only
  rw [if_neg (by omega), clipBytes_wraps hlen h0 h1 (by omega) (by omega),
    OpenFile.divRoundDown_of_nonneg h0, hstart]

/-- The buffer of a request that escapes holds all of it. -/
theorem bufSize_of_escapes (hlen : len ≤ maxFileSize) (h0 : 0 ≤ position) (h1 : numBytes < 2 ^ 31)
    (h : Escapes len numBytes position) :
    position % 128 + numBytes ≤ bufSize (position / 128) (lastSectorOf numBytes position) := by
  have hbound : maxFileSize = 3840 := rfl
  obtain ⟨hfits, h⟩ := h
  unfold Fits at hfits
  rw [OpenFile.sectorSize_cast] at h
  rcases h with ⟨hend, hp⟩ | ⟨hend, hsize⟩
  · obtain ⟨hlast, hbuf⟩ := wraps_exact h0 (by omega) hend
    rw [hlast, hbuf, if_neg (by omega)]
    omega
  · obtain ⟨hlast, hbuf⟩ := wraps_past h0 (by omega) h1 hend
    rw [hlast, hbuf, if_pos hsize]
    omega

/-- Every other request that wraps asks for a negative size. -/
theorem bufSize_of_not_escapes (hlen : len ≤ maxFileSize) (h0 : 0 ≤ position)
    (h1 : numBytes < 2 ^ 31) (hfits : ¬ Fits len numBytes position)
    (h : ¬ Escapes len numBytes position) :
    bufSize (position / 128) (lastSectorOf numBytes position) < 0 := by
  have hbound : maxFileSize = 3840 := rfl
  unfold Escapes at h
  rw [and_iff_right hfits, OpenFile.sectorSize_cast] at h
  unfold Fits at hfits
  by_cases hend : position + numBytes = 2 ^ 31
  · obtain ⟨hlast, hbuf⟩ := wraps_exact h0 (by omega) hend
    rw [hlast, hbuf, if_pos (by omega)]
    omega
  · obtain ⟨hlast, hbuf⟩ := wraps_past h0 (by omega) h1 (by omega)
    rw [hlast, hbuf, if_neg (by omega)]
    omega

theorem readAt_throws (disk : Store) (new into : Store) (p : ℤ) (hlen : 0 ≤ hdr.fileLength)
    (hmax : hdr.fileLength ≤ maxFileSize) (h0 : 0 ≤ position) (h1 : numBytes < 2 ^ 31)
    (hfits : ¬ Fits hdr.fileLength numBytes position)
    (h : ¬ Escapes hdr.fileLength numBytes position) :
    readAt disk hdr new into p numBytes position = stop .badAlloc := by
  rw [readAt_unclipped disk new into p hlen hmax h0 h1 hfits,
    newChar_of_neg (bufSize_of_not_escapes hmax h0 h1 hfits h), stop_bind]

/-- **ReadAt** goes past the last sector, or returns more than the file has. -/
theorem readAt_escapes (disk : Store) (hG : hdr.Good) (new into : Store) (p : ℤ)
    (hlen : 0 ≤ hdr.fileLength) (h0 : 0 ≤ position) (h1 : numBytes < 2 ^ 31)
    (h : Escapes hdr.fileLength numBytes position) :
    ¬ Clipped hdr.fileLength position (readAt disk hdr new into p numBytes position) := by
  have hmax : hdr.fileLength ≤ maxFileSize := hdr.numBytes_le hG
  have hbound : maxFileSize = 3840 := rfl
  have hsize := bufSize_of_escapes hmax h0 h1 h
  have hsector := hG.numSectors
  obtain ⟨hfits, h⟩ := h
  rw [readAt_unclipped disk new into p hlen hmax h0 h1 hfits]
  unfold Fits at hfits
  rw [newChar_of_nonneg (by omega), pure_bind]
  rintro ⟨hin, hres⟩
  rw [OpenFile.sectorSize_cast] at h
  have hpos := OpenFile.sector_of_position hG h0 (by omega)
  rcases h with ⟨hend, hp⟩ | ⟨hend, -⟩
  · -- the end is 2^31
    obtain ⟨hlast, -⟩ := wraps_exact h0 (by omega) hend
    have hfits : hdr.numSectors ≤ 30 := hG.fits
    refine not_inFile_numSectors hG
      (hin _ (log_bind (readLoop_past disk new hG (by omega) (by omega) _ ?_)))
    rw [hlast]
    unfold rounds
    omega
  · -- the last sector is negative, so the loop is over at once
    obtain ⟨hlast, -⟩ := wraps_past h0 (by omega) h1 hend
    have hrounds : rounds (position / 128) (lastSectorOf numBytes position) = 0 := by
      rw [hlast]
      unfold rounds
      omega
    rw [hrounds] at hres
    unfold readLoop at hres
    rw [pure_bind, OpenFile.bcopyOut_ok (by omega) hsize, lift_ok, pure_bind] at hres
    have := hres _ numBytes rfl
    omega

/-- The call with its numbers, for a request that is not clipped. -/
theorem writeAt_unclipped (disk : Store) (news : ℕ → Store) (src : Store) (q : ℤ)
    (hlen : 0 ≤ hdr.fileLength) (hmax : hdr.fileLength ≤ maxFileSize) (h0 : 0 ≤ position)
    (h1 : numBytes < 2 ^ 31) (hfits : ¬ Fits hdr.fileLength numBytes position) :
    ∃ fa : Bool, writeAt disk hdr news src q numBytes position =
      let last := lastSectorOf numBytes position
      newChar (bufSize (position / 128) last) >>= fun _ =>
      readFirst disk hdr news (position / 128) fa >>= fun buf =>
      readLast disk hdr news buf (position / 128) last fa
        (decide (position + numBytes - 2 ^ 32 = wrap32 (wrap32 (last + 1) * Disk.sectorSize)))
        >>= fun buf =>
      lift (OpenFile.bcopyIn src q buf (position % 128) (bufSize (position / 128) last) numBytes)
        >>= fun buf =>
      writeLoop disk hdr (position / 128) buf (rounds (position / 128) last) >>= fun disk =>
      pure (disk, numBytes) := by
  have hbound : maxFileSize = 3840 := rfl
  unfold Fits at hfits
  have hstart := start_in_sector h0 (by omega)
  have hend : wrap32 (position + numBytes) = position + numBytes - 2 ^ 32 :=
    wrap32_of_ge (by omega) (by omega)
  refine ⟨decide (position = wrap32 (position / 128 * Disk.sectorSize)), ?_⟩
  unfold writeAt
  simp only
  rw [if_neg (by omega), clipBytes_wraps hlen h0 h1 (by omega) (by omega),
    OpenFile.divRoundDown_of_nonneg h0, hstart, hend]

theorem writeAt_throws (disk : Store) (news : ℕ → Store) (src : Store) (q : ℤ)
    (hlen : 0 ≤ hdr.fileLength) (hmax : hdr.fileLength ≤ maxFileSize) (h0 : 0 ≤ position)
    (h1 : numBytes < 2 ^ 31) (hfits : ¬ Fits hdr.fileLength numBytes position)
    (h : ¬ Escapes hdr.fileLength numBytes position) :
    writeAt disk hdr news src q numBytes position = stop .badAlloc := by
  obtain ⟨fa, hcall⟩ := writeAt_unclipped disk news src q hlen hmax h0 h1 hfits
  simp only at hcall
  rw [hcall, newChar_of_neg (bufSize_of_not_escapes hmax h0 h1 hfits h), stop_bind]

/-- The first sector of a request inside the file is read. -/
theorem readFirst_ok (disk : Store) (hG : hdr.Good) (news : ℕ → Store) (fa : Bool) (h0 : 0 ≤ first)
    (h1 : first < 2 ^ 24) :
    ∃ buf l, readFirst disk hdr news first fa = ⟨.ok buf, l⟩ := by
  have hnonneg : 0 ≤ first * Disk.sectorSize := mul_nonneg h0 (by decide)
  have hread : ∃ buf, (if !fa then
      (OpenFile.readAt disk hdr (news 1) (news 0) 0 Disk.sectorSize (first * Disk.sectorSize)).map
        Prod.fst
      else .ok (news 0)) = .ok buf := by
    rw [OpenFile.readAt_ok hG _ _ _ _ hnonneg]
    rcases fa with _ | _
    · exact ⟨_, rfl⟩
    · exact ⟨_, rfl⟩
  obtain ⟨buf, hbuf⟩ := hread
  obtain ⟨l, hl, -⟩ := readFirst_fits (hdr.numBytes_le hG) h0 h1 hbuf
  exact ⟨buf, l, hl⟩

/-- **WriteAt** goes past the last sector, reads a negative one, or returns more
than the file has. -/
theorem writeAt_escapes (disk : Store) (hG : hdr.Good) (news : ℕ → Store) (src : Store) (q : ℤ)
    (hlen : 0 ≤ hdr.fileLength) (h0 : 0 ≤ position) (h1 : numBytes < 2 ^ 31)
    (h : Escapes hdr.fileLength numBytes position) :
    ¬ Clipped hdr.fileLength position (writeAt disk hdr news src q numBytes position) := by
  have hmax : hdr.fileLength ≤ maxFileSize := hdr.numBytes_le hG
  have hbound : maxFileSize = 3840 := rfl
  have hsize := bufSize_of_escapes hmax h0 h1 h
  obtain ⟨hfits, h⟩ := h
  obtain ⟨fa, hcall⟩ := writeAt_unclipped disk news src q hlen hmax h0 h1 hfits
  simp only at hcall
  unfold Fits at hfits
  obtain ⟨buf, l, hfirst⟩ :=
    readFirst_ok disk hG news fa (show 0 ≤ position / 128 by omega) (by omega)
  rw [hcall, newChar_of_nonneg (by omega), pure_bind, hfirst, bind_ok]
  rintro ⟨hin, hres⟩
  simp only at hin hres
  rw [OpenFile.sectorSize_cast] at h
  have hpos := OpenFile.sector_of_position hG h0 (by omega)
  rcases h with ⟨hend, hp⟩ | ⟨hend, -⟩
  · -- the end is 2^31, and that of a sector
    obtain ⟨hlast, -⟩ := wraps_exact h0 (by omega) hend
    have hfits : hdr.numSectors ≤ 30 := hG.fits
    have haligned : position + numBytes - 2 ^ 32 =
        wrap32 (wrap32 (lastSectorOf numBytes position + 1) * Disk.sectorSize) := by
      rw [hlast, hend]
      rfl
    unfold readLast at hin
    rw [decide_eq_true haligned, Bool.not_true, Bool.false_and,
      if_neg Bool.false_ne_true, pure_bind, OpenFile.bcopyIn_ok (by omega) hsize, lift_ok,
      pure_bind] at hin
    refine not_inFile_numSectors hG (hin _ (List.mem_append_right _
      (log_bind (writeLoop_past disk _ hG (by omega) (by omega) _ ?_))))
    rw [hlast]
    unfold rounds
    omega
  · -- the last sector is negative
    obtain ⟨hlast, -⟩ := wraps_past h0 (by omega) h1 hend
    generalize lastSectorOf numBytes position = last at *
    by_cases haligned : position + numBytes - 2 ^ 32 = wrap32 (wrap32 (last + 1) * Disk.sectorSize)
    · have hrounds : rounds (position / 128) last = 0 := by
        unfold rounds
        omega
      unfold readLast at hres
      rw [decide_eq_true haligned, Bool.not_true, Bool.false_and,
        if_neg Bool.false_ne_true, pure_bind, OpenFile.bcopyIn_ok (by omega) hsize, lift_ok,
        pure_bind, hrounds] at hres
      have := hres disk numBytes rfl
      omega
    · have hne : (position / 128 != last) = true := by
        simp only [bne_iff_ne]
        omega
      have hwrap : wrap32 (last * Disk.sectorSize) = last * Disk.sectorSize := by
        rw [OpenFile.sectorSize_cast]
        exact wrap32_of_range (by omega) (by omega)
      unfold readLast at hin
      rw [decide_eq_false haligned, hne, Bool.not_false, Bool.true_or, Bool.true_and, if_pos rfl,
        hwrap] at hin
      have hbad := hin last (List.mem_append_right _ (log_bind (log_bind
        (readAt_negative disk hdr _ _ _ hlen (by omega) (by omega)))))
      have := hbad.1
      omega

theorem clip_le_max (len numBytes position : ℤ) :
    OpenFile.clip len numBytes position ≤ max 0 (len - position) := by
  unfold OpenFile.clip
  split_ifs <;> omega

/-- A call `r` of which each kind of request is known, against the result `x`
without bounds on the numbers. -/
theorem clipped_iff_of_cases {r : Run (Store × ℤ)} {x : Except Stop (Store × ℤ)} {d : Store}
    (hx : x = .ok (d, OpenFile.clip len numBytes position))
    (hfits : Fits len numBytes position →
      ∃ l, r = ⟨.ok (d, OpenFile.clip len numBytes position), l⟩ ∧ ∀ i ∈ l, InFile len i)
    (hthrows : ¬ Fits len numBytes position → ¬ Escapes len numBytes position → r = stop .badAlloc)
    (hescapes : Escapes len numBytes position → ¬ Clipped len position r) :
    (Clipped len position r ↔ ¬ Escapes len numBytes position) ∧
      (Fits len numBytes position → r.result = x.mapError .stop) := by
  by_cases hf : Fits len numBytes position
  · obtain ⟨l, rfl, hin⟩ := hfits hf
    rw [hx]
    refine ⟨iff_of_true ⟨hin, fun out m hm => ?_⟩ fun h => h.1 hf, fun _ => rfl⟩
    cases hm
    exact clip_le_max _ _ _
  · refine ⟨?_, fun h => absurd h hf⟩
    by_cases h : Escapes len numBytes position
    · exact iff_of_false (hescapes h) fun hn => hn h
    · rw [hthrows hf h]
      exact iff_of_true ⟨by simp [stop], by simp [stop]⟩ h

/-- **Clipping with machine integers.** For a file of this disk both calls stay
inside it, in the indices they hand to `ByteToSector` and in the bytes they
return, exactly if the request does not escape; and they do what the calls on
unbounded numbers do if the end of the request is below 2^31. -/
theorem clipped_iff (disk : Store) (hdr : FileHeader) (hG : hdr.Good) (hlen : 0 ≤ hdr.fileLength)
    (numBytes position : ℤ) (hbytes : -2 ^ 31 ≤ numBytes ∧ numBytes < 2 ^ 31)
    (hpos : 0 ≤ position ∧ position < 2 ^ 31) :
    (∀ (new into : Store) (p : ℤ),
      (Clipped hdr.fileLength position (readAt disk hdr new into p numBytes position) ↔
        ¬ Escapes hdr.fileLength numBytes position) ∧
      (Fits hdr.fileLength numBytes position →
        (readAt disk hdr new into p numBytes position).result =
          (OpenFile.readAt disk hdr new into p numBytes position).mapError .stop)) ∧
    ∀ (news : ℕ → Store) (src : Store) (q : ℤ),
      (Clipped hdr.fileLength position (writeAt disk hdr news src q numBytes position) ↔
        ¬ Escapes hdr.fileLength numBytes position) ∧
      (Fits hdr.fileLength numBytes position →
        (writeAt disk hdr news src q numBytes position).result =
          (OpenFile.writeAt disk hdr news src q numBytes position).mapError .stop) := by
  have hmax : hdr.fileLength ≤ maxFileSize := hdr.numBytes_le hG
  refine ⟨fun new into p => ?_, fun news src q => ?_⟩
  · have hread : OpenFile.readAt disk hdr new into p numBytes position = .ok _ :=
      OpenFile.readAt_ok hG _ _ _ _ hpos.1
    exact clipped_iff_of_cases hread (fun hfits => readAt_fits hpos.1 hmax hfits hread)
      (fun hfits h => readAt_throws disk new into p hlen hmax hpos.1 hbytes.2 hfits h)
      fun h => readAt_escapes disk hG new into p hlen hpos.1 hbytes.2 h
  · obtain ⟨disk', hwrite, -⟩ := OpenFile.writeAt_ok disk hG news src q numBytes hpos.1
    exact clipped_iff_of_cases hwrite (fun hfits => writeAt_fits hpos.1 hmax hfits hwrite)
      (fun hfits h => writeAt_throws disk news src q hlen hmax hpos.1 hbytes.2 hfits h)
      fun h => writeAt_escapes disk hG news src q hlen hpos.1 hbytes.2 h

/-- A file of 300 bytes in the sectors 7, 5 and 9. -/
def threeSectors : FileHeader := ⟨300, 3, fun i => [7, 5, 9].getD i 0⟩

theorem good_threeSectors : threeSectors.Good := ⟨by decide, by decide, by decide, by decide⟩

/-- 250 bytes at 100 stay inside the file, 2^31 - 255 bytes at 256 do not. -/
theorem clipped_iff_threeSectors :
    threeSectors.Good ∧ 0 ≤ threeSectors.fileLength ∧
      Clipped 300 100 (readAt (fun _ => 0) threeSectors (fun _ => 0) (fun _ => 0) 0 250 100) ∧
      ¬ Clipped 300 256
      (writeAt (fun _ => 0) threeSectors (fun _ _ => 0) (fun _ => 0) 0 (2 ^ 31 - 255) 256) := by
  refine ⟨good_threeSectors, by decide, ?_, ?_⟩
  · exact (((clipped_iff _ threeSectors good_threeSectors (by decide) 250 100 (by decide)
      (by decide)).1 _ _ _).1).mpr
      (by decide)
  · intro h
    exact (((clipped_iff _ threeSectors good_threeSectors (by decide) (2 ^ 31 - 255) 256 (by decide)
      (by decide)).2
      _ _ _).1).mp h (by decide)

/-- `ReadAt` of 2^31 - 255 bytes at 256, where the file has 44 more, returns
2^31 - 255; `WriteAt` of 2^31 - 128 bytes at 128 goes outside the file too. -/
theorem request_escapes :
    (∃ out, (readAt (fun _ => 0) threeSectors (fun _ => 0) (fun _ => 0) 0
      (2 ^ 31 - 255) 256).result = .ok (out, 2 ^ 31 - 255)) ∧
      max 0 (threeSectors.fileLength - 256) = 44 ∧
      ¬ Clipped 300 128
      (writeAt (fun _ => 0) threeSectors (fun _ _ => 0) (fun _ => 0) 0 (2 ^ 31 - 128) 128) :=
  ⟨⟨_, rfl⟩, by decide, writeAt_escapes _ good_threeSectors _ _ _ (by decide) (by decide)
    (by decide) (by decide)⟩

end Nachos.Filesys.Clipping
