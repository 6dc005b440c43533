/-
# The loader on any header (`userprog/addrspace.cc`)

`Load` with a trace of its accesses: the bytes that each `ReadAt` moves into
the buffer, and every index of `pageTable[i]`. The trace ends where the call
does: an access outside the buffer or the table is the last one, for what comes
after it is undefined.

The sizes of the header are added as `int`s and the sum is rounded up to pages
and compared as an unsigned number (`numPages_cases`): a sum of -128 or less
asks for more pages than there are, one from -127 to 0 for none at all, and a
sum that has wrapped to a small number passes. `virtualAddr` is compared with
nothing.

* `loadLocked_result`: the trace does not change the call.
* `stays_iff`: no access leaves the buffer or the table exactly if the load is
  refused or the twelve words fit together (`Fits`).

Key definitions: `LoadTrace.Access`, `LoadTrace.loadLocked`, `LoadTrace.Stays`,
`LoadTrace.Fits`.
Key theorems: `LoadTrace.loadLocked_result`, `LoadTrace.stays_iff`.
-/
import Mathlib
import Nachos.Base.Bytes
import Nachos.Base.Traced
import Nachos.Userprog.AddrSpace

namespace Nachos.LoadTrace

open Bytes (Byte Store)
open Traced (note stop result_bind result_foldlM)

/-! ### The code -/

/-- An access of `Load`. -/
inductive Access
  /-- `ReadAt` moves `n` bytes to `buffer + start` -/
  | bytes (start : ℤ) (n : ℕ)
  /-- `pageTable[i]` -/
  | entry (i : ℕ)

/-- A part of `Load`, with its accesses. -/
abbrev Run (α : Type) := Traced LoadFault Access α

/-- What `ReadAt(..., seg.size, seg.inFileAddr)` finds in the file. -/
def found (file : List Byte) (seg : Segment) : ℕ :=
  ((file.drop seg.inFileAddr.toNat).take seg.size.toNat).length

/-- `if (seg.size > 0) executable->ReadAt(...)`: `Lseek` asserts the position
before anything is moved. -/
def readSegment (size : ℤ) (file : List Byte) (buffer : Store) (seg : Segment) : Run Store :=
  if 0 < seg.size then
    if seg.inFileAddr < 0 then stop .abort
    else do
      note (.bytes seg.virtualAddr (found file seg))
      Traced.lift (Nachos.readSegment size file buffer seg)
  else pure buffer

/-- One page of the copy loop. -/
def copyPage (pt : PageTable) (buffer : Store) (size : ℤ) (mem : Store) (i : ℕ) : Run Store := do
  note (.entry i)
  Traced.lift (Nachos.copyPage pt buffer size mem i)

/-- The entries that the allocation loop fills. -/
def allocEntries (numPages : ℕ) : Run Unit := ⟨.ok (), (List.range numPages).map .entry⟩

/-- `Load` with its pages: the buffer, the segments and the copy loop. -/
def loadRest (h : NoffHeader) (file : List Byte) (r : Alloc) :
    Run (Option (AddrSpace × Bitmap × Store)) :=
  -- `new char[actualSegmentSize]` of a negative size throws
  if h.actualSegmentSize < 0 then stop .abort
  else do
    let buffer ← h.segments.foldlM (readSegment h.actualSegmentSize file) fun _ => 0
    let mem ← (List.range (divRoundUp h.actualSegmentSize pageSize).toNat).foldlM
      (copyPage r.table buffer h.actualSegmentSize) r.mem
    pure (some (⟨r.table⟩, r.bm, mem))

/-- The part of `Load` between `addrLock->P()` and `addrLock->V()`; it returns
FALSE with `none`. -/
def loadLocked (h : NoffHeader) (file : List Byte) (bm : Bitmap) (mem : Store) :
    Run (Option (AddrSpace × Bitmap × Store)) :=
  if bm.numClear < h.numPages then pure none
  else do
    allocEntries h.numPages
    loadRest h file (allocPages bm mem h.numPages)

/-! ### The same call -/

variable {h : NoffHeader} {file : List Byte} {bm : Bitmap} {mem buffer : Store} {size : ℤ}

theorem readSegment_result (size : ℤ) (file : List Byte) (buffer : Store) (seg : Segment) :
    (readSegment size file buffer seg).result = Nachos.readSegment size file buffer seg := by
  by_cases h1 : 0 < seg.size
  · by_cases h2 : seg.inFileAddr < 0
    · simp [readSegment, Nachos.readSegment, h1, h2, stop]
    · simp only [readSegment, if_pos h1, if_neg h2, Traced.note_bind, Traced.lift]
  · simp [readSegment, Nachos.readSegment, h1, Traced.pure_eq]

/-- The trace does not change the call. -/
theorem loadLocked_result (h : NoffHeader) (file : List Byte) (bm : Bitmap) (mem : Store) :
    (loadLocked h file bm mem).result =
      match Nachos.loadLocked h file bm mem with
      | .noMemory => .ok none
      | .fault f => .error f
      | .ok sp bm' mem' => .ok (some (sp, bm', mem')) := by
  unfold loadLocked Nachos.loadLocked
  by_cases hfree : bm.numClear < h.numPages
  · rw [if_pos hfree, if_pos hfree]
    rfl
  · rw [if_neg hfree, if_neg hfree, result_bind]
    unfold loadRest
    by_cases hneg : h.actualSegmentSize < 0
    · simp only [if_pos hneg]
      rfl
    · simp only [if_neg hneg]
      have hread : (h.segments.foldlM (readSegment h.actualSegmentSize file) fun _ => 0).result =
          readSegments h file :=
        result_foldlM _ _ (readSegment_result _ _) _ _
      have hcopy :
          ∀ buffer : Store, ((List.range (divRoundUp h.actualSegmentSize pageSize).toNat).foldlM
          (copyPage (allocPages bm mem h.numPages).table buffer h.actualSegmentSize)
            (allocPages bm mem h.numPages).mem).result =
          copyPages (allocPages bm mem h.numPages).table buffer h.actualSegmentSize
            (allocPages bm mem h.numPages).mem :=
        fun buffer => result_foldlM _ _ (fun _ _ => rfl) _ _
      show (Traced.result (_ >>= _) : Except LoadFault _) = _
      rw [result_bind, hread]
      rcases readSegments h file with f | buffer
      · rfl
      · show (Traced.result (_ >>= _) : Except LoadFault _) = _
        rw [result_bind, hcopy]
        rcases hm : copyPages (allocPages bm mem h.numPages).table buffer h.actualSegmentSize
          (allocPages bm mem h.numPages).mem with f | m
        · simp only [hm]
          rfl
        · simp only [hm]
          rfl

/-! ### Accesses that stay inside -/

/-- The bytes lie in the buffer, the entry in the page table. -/
def Inside (h : NoffHeader) : Access → Prop
  | .bytes start n => n = 0 ∨ 0 ≤ start ∧ start + n ≤ h.actualSegmentSize
  | .entry i => i < h.numPages

/-- `Load` returns FALSE, or its buffer has a size and no access leaves the
buffer or the page table. -/
def Stays (h : NoffHeader) (file : List Byte) (bm : Bitmap) (mem : Store) : Prop :=
  (loadLocked h file bm mem).result = .ok none ∨
    0 ≤ h.actualSegmentSize ∧ ∀ a ∈ (loadLocked h file bm mem).log, Inside h a

/-- The segments that are read: those with a size, up to the first whose
position is negative. -/
def readOf : List Segment → List Segment
  | [] => []
  | seg :: segs =>
    if 0 < seg.size then
      if seg.inFileAddr < 0 then [] else seg :: readOf segs
    else readOf segs

/-- No segment with a size has a negative position. -/
def Seekable (segs : List Segment) : Prop := ∀ seg ∈ segs, 0 < seg.size → 0 ≤ seg.inFileAddr

/-- What the file has of the segment lies in the buffer. -/
def SegmentFits (h : NoffHeader) (file : List Byte) (seg : Segment) : Prop :=
  Inside h (.bytes seg.virtualAddr (found file seg))

theorem readSegment_of_fits (h : NoffHeader) (file : List Byte) (buffer : Store) {seg : Segment}
    (h1 : 0 < seg.size) (h2 : ¬ seg.inFileAddr < 0) (hfit : SegmentFits h file seg) :
    ∃ b, Nachos.readSegment h.actualSegmentSize file buffer seg = .ok b := by
  refine ⟨Bytes.write buffer seg.virtualAddr ((file.drop seg.inFileAddr.toNat).take seg.size.toNat),
    ?_⟩
  unfold Nachos.readSegment
  rw [if_pos h1, if_neg h2]
  simp only
  rw [if_pos ?_]
  rcases hfit with h0 | hin
  · exact Or.inl (List.eq_nil_of_length_eq_zero h0)
  · exact Or.inr hin

/-- Every `ReadAt` stays in the buffer just if every segment that is read fits. -/
theorem reads_inside (h : NoffHeader) (file : List Byte) (l : List Segment) (buffer : Store) :
    (∀ a ∈ (l.foldlM (readSegment h.actualSegmentSize file) buffer).log, Inside h a) ↔
      ∀ seg ∈ readOf l, SegmentFits h file seg := by
  induction l generalizing buffer with
  | nil => simp [readOf, Traced.pure_eq]
  | cons seg l ih =>
    rw [List.foldlM_cons, readOf, readSegment]
    by_cases h1 : 0 < seg.size
    · rw [if_pos h1, if_pos h1]
      by_cases h2 : seg.inFileAddr < 0
      · rw [if_pos h2, if_pos h2, Traced.stop_bind]
        simp [stop]
      · rw [if_neg h2, if_neg h2, bind_assoc, Traced.note_bind, List.forall_mem_cons,
          List.forall_mem_cons]
        refine and_congr_right fun hfit => ?_
        obtain ⟨b, hb⟩ := readSegment_of_fits h file buffer h1 h2 hfit
        rw [hb, Traced.lift_ok, pure_bind]
        exact ih b
    · rw [if_neg h1, if_neg h1, pure_bind]
      exact ih buffer

/-- If they fit, the reads end well just if every position can be sought. -/
theorem reads_end (h : NoffHeader) (file : List Byte) (l : List Segment) (buffer : Store)
    (hfit : ∀ seg ∈ readOf l, SegmentFits h file seg) :
    (∃ b, (l.foldlM (readSegment h.actualSegmentSize file) buffer).result = .ok b) ↔
    Seekable l := by
  induction l generalizing buffer with
  | nil => exact iff_of_true ⟨buffer, rfl⟩ (by simp [Seekable])
  | cons seg l ih =>
    unfold readOf at hfit
    rw [List.foldlM_cons, readSegment]
    have hcons : Seekable (seg :: l) ↔ (0 < seg.size → 0 ≤ seg.inFileAddr) ∧ Seekable l :=
      List.forall_mem_cons
    rw [hcons]
    by_cases h1 : 0 < seg.size
    · rw [if_pos h1] at hfit ⊢
      by_cases h2 : seg.inFileAddr < 0
      · rw [if_pos h2, Traced.stop_bind]
        refine iff_of_false ?_ fun hs => absurd (hs.1 h1) (by omega)
        rintro ⟨b, hb⟩
        cases hb
      · rw [if_neg h2] at hfit ⊢
        obtain ⟨hseg, hrest⟩ := List.forall_mem_cons.mp hfit
        obtain ⟨b, hb⟩ := readSegment_of_fits h file buffer h1 h2 hseg
        rw [bind_assoc, Traced.note_bind, hb, Traced.lift_ok, pure_bind, ih b hrest]
        exact (and_iff_right fun _ => by omega).symm
    · rw [if_neg h1] at hfit ⊢
      rw [pure_bind, ih buffer hfit]
      exact (and_iff_right fun h => absurd h h1).symm

/-- The copy loop uses the entries below its number of pages, to the first that
is not there. -/
theorem copies_inside (pt : PageTable) (hlen : pt.length = h.numPages) (buffer : Store) (size : ℤ)
    (mem : Store) (n : ℕ) :
    (∀ a ∈ ((List.range n).foldlM (copyPage pt buffer size) mem).log, Inside h a) ↔
    n ≤ h.numPages := by
  have hloop : ∀ n ≤ h.numPages, ∃ m, ((List.range n).foldlM (copyPage pt buffer size) mem).result =
      .ok m := by
    intro n hn
    obtain ⟨m, hm⟩ : ∃ m, (List.range n).foldlM (Nachos.copyPage pt buffer size) mem = .ok m :=
      copyLoop_ok buffer size n mem (hlen ▸ hn)
    exact ⟨m, (result_foldlM _ _ (fun _ _ => rfl) _ _).trans hm⟩
  induction n with
  | zero => simp [Traced.pure_eq]
  | succ n ih =>
    rw [List.range_succ, List.foldlM_append, Traced.forall_log_bind]
    refine (and_congr_left' ih).trans ?_
    have hlast : ∀ m, (∀ a ∈ ([n].foldlM (copyPage pt buffer size) m).log, Inside h a) ↔
        n < h.numPages := by
      intro m
      rw [List.foldlM_cons, copyPage, bind_assoc, Traced.note_bind, List.forall_mem_cons]
      refine and_iff_left ?_
      rcases Nachos.copyPage pt buffer size m n with f | m'
      · rw [Traced.lift_error, Traced.stop_bind]
        simp [stop]
      · rw [Traced.lift_ok, pure_bind]
        simp [Traced.pure_eq]
    simp only [hlast]
    constructor
    · rintro ⟨hn, hm⟩
      obtain ⟨m, hres⟩ := hloop n hn
      exact hm m hres
    · intro hn
      exact ⟨by omega, fun _ _ => by omega⟩

/-! ### The words of the header -/

/-- A sum of -128 or less asks for more pages than there can be, and one from
-127 to 0 for none. -/
theorem numPages_cases (h : NoffHeader) :
    (h.addressSpaceSize ≤ -128 → 2 ^ 31 ≤ h.numPages) ∧
      (-128 < h.addressSpaceSize → (h.numPages : ℤ) = (max 0 h.addressSpaceSize + 127) / 128) := by
  have hrange : -2 ^ 31 ≤ h.addressSpaceSize ∧ h.addressSpaceSize < 2 ^ 31 := wrap32_range _
  unfold NoffHeader.numPages
  generalize h.addressSpaceSize = b at *
  rw [show ((pageSize : ℕ) : ℤ) = 128 from rfl]
  by_cases hpos : 0 ≤ b
  · lift b to ℕ using hpos
    have hdiv := divRoundUp_natCast b 128 (by norm_num)
    push_cast at hdiv
    rw [hdiv]
    exact ⟨fun _ => by omega, fun _ => by omega⟩
  · have hdiv : divRoundUp b 128 = -(-b / 128) := by
      unfold divRoundUp
      rw [← Int.neg_neg b, Int.neg_tdiv, Int.neg_tmod, Int.tdiv_eq_ediv_of_nonneg (by omega),
        Int.tmod_eq_emod_of_nonneg (by omega), if_neg (by omega)]
      simp
    rw [hdiv]
    exact ⟨fun _ => by omega, fun _ => by omega⟩

/-- The load is refused just if the sum is too small or too large. -/
theorem refused_iff (h : NoffHeader) (hbm : bm.numBits = numPhysPages) :
    bm.numClear < h.numPages ↔ h.addressSpaceSize ≤ -128 ∨
    bm.numClear * 128 < h.addressSpaceSize := by
  have hclear : bm.numClear ≤ 128 := by
    have hsum := bm.numClear_add_card
    have hnum : numPhysPages = 128 := rfl
    omega
  obtain ⟨h1, h2⟩ := numPages_cases h
  by_cases hb : h.addressSpaceSize ≤ -128
  · have := h1 hb
    omega
  · have := h2 (by omega)
    omega

/-- The words fit together: the load is refused, or the buffer has a size, what
the file has of each segment that is read lies in it, and its pages, if the
loader comes to copy them, are no more than those of the address space. -/
def Fits (h : NoffHeader) (file : List Byte) (bm : Bitmap) : Prop :=
  (h.addressSpaceSize ≤ -128 ∨ bm.numClear * 128 < h.addressSpaceSize) ∨
    0 ≤ h.actualSegmentSize ∧ (∀ seg ∈ readOf h.segments, SegmentFits h file seg) ∧
      (Seekable h.segments → h.actualSegmentSize ≤ (max 0 h.addressSpaceSize + 127) / 128 * 128)

/-- The accesses of a load that is not refused. -/
theorem log_inside (hfree : h.numPages ≤ bm.numClear) (hnn : 0 ≤ h.actualSegmentSize) :
    (∀ a ∈ (loadLocked h file bm mem).log, Inside h a) ↔
    (∀ seg ∈ readOf h.segments, SegmentFits h file seg) ∧
      (Seekable h.segments → (divRoundUp h.actualSegmentSize pageSize).toNat ≤ h.numPages) := by
  have halloc := allocPages_spec bm mem h.numPages hfree
  unfold loadLocked
  rw [if_neg (by omega), Traced.forall_log_bind]
  have hentries : ∀ a ∈ (allocEntries h.numPages).log, Inside h a := by
    intro a ha
    obtain ⟨i, hi, rfl⟩ := List.mem_map.mp ha
    exact List.mem_range.mp hi
  rw [and_iff_right hentries]
  have hrest : (∀ a ∈ (loadRest h file (allocPages bm mem h.numPages)).log, Inside h a) ↔
      (∀ seg ∈ readOf h.segments, SegmentFits h file seg) ∧
        (Seekable h.segments → (divRoundUp h.actualSegmentSize pageSize).toNat ≤ h.numPages) := by
    unfold loadRest
    rw [if_neg (by omega), Traced.forall_log_bind, reads_inside]
    refine and_congr_right fun hfit => ?_
    rw [← reads_end h file h.segments (fun _ => 0) hfit]
    have hcopies : ∀ buffer,
        (∀ a ∈ ((List.range (divRoundUp h.actualSegmentSize pageSize).toNat).foldlM
            (copyPage (allocPages bm mem h.numPages).table buffer h.actualSegmentSize)
            (allocPages bm mem h.numPages).mem >>= fun m => (pure
              (some (⟨(allocPages bm mem h.numPages).table⟩, (allocPages bm mem h.numPages).bm,
                m)) : Run (Option (AddrSpace × Bitmap × Store)))).log, Inside h a) ↔
        (divRoundUp h.actualSegmentSize pageSize).toNat ≤ h.numPages := by
      intro buffer
      rw [Traced.forall_log_bind, copies_inside _ halloc.length]
      exact and_iff_left fun _ _ => by simp [Traced.pure_eq]
    constructor
    · rintro hall ⟨b, hb⟩
      exact (hcopies b).mp (hall b hb)
    · intro hle b hb
      exact (hcopies b).mpr (hle ⟨b, hb⟩)
  constructor
  · intro hall
    exact hrest.mp (hall () rfl)
  · intro hfit _ _
    exact hrest.mpr hfit

theorem not_refused (hfree : ¬ bm.numClear < h.numPages) :
    (loadLocked h file bm mem).result ≠ .ok none := by
  rw [loadLocked_result]
  unfold Nachos.loadLocked
  rw [if_neg hfree]
  simp only
  split_ifs
  · simp
  · rcases readSegments h file with f | buffer
    · simp
    · rcases hm : copyPages (allocPages bm mem h.numPages).table buffer h.actualSegmentSize
        (allocPages bm mem h.numPages).mem with f | m
      · simp [hm]
      · simp [hm]

/-- **The loader on any header.** No access of `Load` leaves the buffer or the
page table exactly if the words of the header fit together; and a load that
succeeds writes to pages only that were free. -/
theorem stays_iff (h : NoffHeader) (file : List Byte) (bm : Bitmap) (mem : Store)
    (hbm : bm.numBits = numPhysPages) :
    (Stays h file bm mem ↔ Fits h file bm) ∧
      ∀ sp bm' mem', (loadLocked h file bm mem).result = .ok (some (sp, bm', mem')) →
        (∀ x, ¬ InPages sp.pageTable x → mem' x = mem x) ∧
          ∀ e ∈ sp.pageTable, ∃ p : ℕ, e.physicalPage = p ∧ p < bm.numBits ∧ bm.test p = false := by
  constructor
  · unfold Stays Fits
    by_cases hfree : bm.numClear < h.numPages
    · have hfalse : loadLocked h file bm mem = pure none := if_pos hfree
      exact iff_of_true (Or.inl (by rw [hfalse]; rfl)) (Or.inl ((refused_iff h hbm).mp hfree))
    · have hb : ¬ (h.addressSpaceSize ≤ -128 ∨ bm.numClear * 128 < h.addressSpaceSize) :=
        fun hb => hfree ((refused_iff h hbm).mpr hb)
      have hpages := (numPages_cases h).2 (by omega)
      rw [or_iff_right hb]
      by_cases hneg : h.actualSegmentSize < 0
      · -- `new` of a negative size throws
        have hres : (loadLocked h file bm mem).result = .error .abort := by
          rw [loadLocked_result, Nachos.loadLocked, if_neg hfree]
          simp only [if_pos hneg]
        rw [hres]
        refine iff_of_false ?_ fun hfits => by omega
        rintro (hf | ⟨hnn, -⟩)
        · cases hf
        · omega
      · rw [or_iff_right (not_refused hfree), and_iff_right (by omega), and_iff_right (by omega),
          log_inside (by omega) (by omega)]
        refine and_congr_right fun _ => imp_congr_right fun _ => ?_
        have hcopy := lt_pages_iff (show 0 ≤ h.actualSegmentSize by omega) h.numPages
        rw [show ((pageSize : ℕ) : ℤ) = 128 from rfl] at hcopy ⊢
        omega
  · intro sp bm' mem' hres
    rw [loadLocked_result] at hres
    rcases hl : Nachos.loadLocked h file bm mem with _ | f | ⟨sp1, bm1, mem1⟩
    · rw [hl] at hres
      cases hres
    · rw [hl] at hres
      cases hres
    · rw [hl] at hres
      cases hres
      obtain ⟨-, -, ⟨m, halloc⟩, hframe, -⟩ := loadLocked_ok hl
      exact ⟨hframe, halloc.fresh⟩

/-- A NOFF file with one word of code for address `virtualAddr`, and a size of
uninitialised data. -/
def image (virtualAddr size uninit : BitVec 32) : List Byte :=
  ([0xbadfad, virtualAddr, 52, size, 0, 0, 0, 0, 0, 0, 0, 0, uninit, 0x0800000c] : List
    (BitVec 32)).flatMap Bytes.wordBytes

/-- The image of one word at address 0 stays inside. -/
theorem stays_iff_image : (Bitmap.new numPhysPages).numBits = numPhysPages ∧
    Stays (readHeader (image 0 4 0) fun _ => 0) (image 0 4 0)
    (Bitmap.new numPhysPages) fun _ => 0 := by
  have hh : readHeader (image 0 4 0) (fun _ => 0) =
      ⟨0xbadfad, ⟨0, 52, 4⟩, ⟨0, 0, 0⟩, ⟨0, 0, 0⟩, ⟨0, 0, 0⟩⟩ := by decide
  have hbm := Bitmap.numBits_new numPhysPages
  refine ⟨hbm, (stays_iff _ _ _ _ hbm).1.mpr (Or.inr ?_)⟩
  rw [hh]
  refine ⟨by decide, fun seg hseg => ?_, fun _ => by decide⟩
  obtain rfl : seg = ⟨0, 52, 4⟩ := by simpa [readOf, NoffHeader.segments] using hseg
  exact Or.inr (by decide)

/-- Of two headers with the right magic number, one sends its four bytes of code
to address 4096 of a buffer of four bytes; the other asks for 2^20 bytes of
code and -2^20 of uninitialised data, and its buffer is copied to pages that the
table does not have. -/
theorem header_escapes :
    (readHeader (image 4096 4 0) fun _ => 0).noffMagic = noffMagicNumber ∧
      ¬ Stays (readHeader (image 4096 4 0) fun _ => 0) (image 4096 4 0) (Bitmap.new numPhysPages)
      (fun _ => 0) ∧
    (readHeader (image 0 (2 ^ 20) (-2 ^ 20)) fun _ => 0).noffMagic = noffMagicNumber ∧
      ¬ Stays (readHeader (image 0 (2 ^ 20) (-2 ^ 20)) fun _ => 0) (image 0 (2 ^ 20) (-2 ^ 20))
      (Bitmap.new numPhysPages)
        fun _ => 0 := by
  have h1 : readHeader (image 4096 4 0) (fun _ => 0) =
      ⟨0xbadfad, ⟨4096, 52, 4⟩, ⟨0, 0, 0⟩, ⟨0, 0, 0⟩, ⟨0, 0, 0⟩⟩ := by decide
  have h2 : readHeader (image 0 (2 ^ 20) (-2 ^ 20)) (fun _ => 0) =
      ⟨0xbadfad, ⟨0, 52, 2 ^ 20⟩, ⟨0, 0, 0⟩, ⟨0, 0, 0⟩, ⟨0, 0, -2 ^ 20⟩⟩ := by decide
  have hclear := Bitmap.numClear_new numPhysPages
  refine ⟨by rw [h1]; rfl, ?_, by rw [h2]; rfl, ?_⟩
  · rw [h1]
    rintro (hfalse | ⟨hnn, hlog⟩)
    · exact not_refused (by rw [hclear]; decide) hfalse
    · have hfit := ((log_inside (by rw [hclear]; decide) hnn).mp hlog).1 ⟨4096, 52, 4⟩ (by decide)
      revert hfit
      unfold SegmentFits Inside
      decide
  · rw [h2]
    rintro (hfalse | ⟨hnn, hlog⟩)
    · exact not_refused (by rw [hclear]; decide) hfalse
    · have hle := ((log_inside (by rw [hclear]; decide) hnn).mp hlog).2 (by unfold Seekable; decide)
      revert hle
      decide

end Nachos.LoadTrace
