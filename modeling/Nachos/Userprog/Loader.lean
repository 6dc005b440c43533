/-
# What the loader loads (`userprog/addrspace.cc`)

`AddrSpace::Load` reads the three initialized segments of an executable into a
buffer and copies the buffer to the pages. The buffer has as many bytes as the
three segments together, and a segment goes into it at its virtual address. So
an image is loaded as it was linked if its segments fill the first bytes of the
address space; a segment behind a gap is written past the end of the buffer and
is not copied.

* `load_correct_iff`: of an image that is linked inside its pages, `Load` gives
  the bytes of every segment and zeros elsewhere exactly if no segment reaches
  beyond the sum of the three sizes (or there is too little memory).
* `load_gap_wrong`: an image with its data at the second page.

Key definitions: `Segment.Covers`, `Linked`, `Loaded`, `LoadResult.Allows`.
Key theorems: `readSegments_ok`, `readSegments_overrun`, `load_correct_iff`.
-/
import Mathlib
import Nachos.Base.Bytes
import Nachos.Lib.Bitmap
import Nachos.Userprog.AddrSpace

namespace Nachos

open Bytes (Byte Store)

/-- Address `v` is in the segment. -/
def Segment.Covers (seg : Segment) (v : ℤ) : Prop :=
  seg.virtualAddr ≤ v ∧ v < seg.virtualAddr + seg.size

/-- An image as a linker makes it: segments apart, inside the pages that `Load`
takes, with all their bytes in the file. -/
structure Linked (h : NoffHeader) (file : List Byte) : Prop where
  nonneg : ∀ seg ∈ h.segments, 0 ≤ seg.size
  disjoint : h.segments.Pairwise fun a b => ∀ v, a.Covers v → ¬ b.Covers v
  inside : ∀ seg ∈ h.segments, ∀ v, seg.Covers v → 0 ≤ v ∧ v < h.numPages * pageSize
  present : ∀ seg ∈ h.segments, 0 < seg.size → 0 ≤ seg.inFileAddr ∧
    seg.inFileAddr + seg.size ≤ file.length

/-- The address space shows the segments of the file, and zeros elsewhere. -/
structure Loaded (h : NoffHeader) (file : List Byte) (sp : AddrSpace) (mem : Store) : Prop where
  bytes : ∀ seg ∈ h.segments, ∀ k : ℕ, (k : ℤ) < seg.size →
    vbyte mem sp.pageTable (seg.virtualAddr + k).toNat = file[(seg.inFileAddr + k).toNat]?
  zero : ∀ v < h.numPages * pageSize, (∀ seg ∈ h.segments, ¬ seg.Covers v) →
    vbyte mem sp.pageTable v = some 0

/-- What a call can be seen to return. A write outside the buffer goes to
whatever else is on the heap, and nothing is known of the call from there on. -/
def LoadResult.Allows : LoadResult → LoadResult → Prop
  | .fault .overrun, _ => True
  | r, r' => r = r'

/-! ### The buffer -/

variable {file : List Byte} {seg : Segment} {l : List Segment} {size : ℤ} {buffer : Store}

/-- The bytes that `ReadAt` finds of a segment that is in the file. -/
theorem length_segmentBytes (h0 : 0 ≤ seg.inFileAddr) (h1 : seg.inFileAddr + seg.size ≤ file.length)
    (hpos : 0 < seg.size) :
    (((file.drop seg.inFileAddr.toNat).take seg.size.toNat).length : ℤ) = seg.size := by
  rw [List.length_take, List.length_drop]
  omega

/-- A segment inside the buffer is put at its address. -/
theorem readSegment_ok (hin : ∀ v, seg.Covers v → 0 ≤ v ∧ v < size)
    (hfile : 0 < seg.size → 0 ≤ seg.inFileAddr ∧ seg.inFileAddr + seg.size ≤ file.length)
    (buffer : Store) :
    ∃ buffer', readSegment size file buffer seg = .ok buffer' ∧
      (∀ k : ℕ, (k : ℤ) < seg.size →
        some (buffer' (seg.virtualAddr + k)) = file[(seg.inFileAddr + k).toNat]?) ∧
      ∀ v, ¬ seg.Covers v → buffer' v = buffer v := by
  by_cases hpos : 0 < seg.size
  · obtain ⟨h0, h1⟩ := hfile hpos
    have hlen := length_segmentBytes h0 h1 hpos
    have hfirst := hin seg.virtualAddr ⟨le_refl _, by omega⟩
    have hlast := hin (seg.virtualAddr + seg.size - 1) ⟨by omega, by omega⟩
    refine ⟨Bytes.write buffer seg.virtualAddr
      ((file.drop seg.inFileAddr.toNat).take seg.size.toNat), ?_, fun k hk => ?_, fun v hv => ?_⟩
    · unfold readSegment
      rw [if_pos hpos, if_neg (by omega)]
      simp only
      rw [if_pos (Or.inr ⟨hfirst.1, by omega⟩)]
    · rw [Bytes.write_inside (by omega) (by omega)]
      have hlt : k < ((file.drop seg.inFileAddr.toNat).take seg.size.toNat).length := by omega
      rw [show (seg.virtualAddr + k - seg.virtualAddr).toNat = k by omega,
        List.getD_eq_getElem?_getD, List.getElem?_eq_getElem hlt, Option.getD_some,
        ← List.getElem?_eq_getElem hlt, List.getElem?_take_of_lt (by omega), List.getElem?_drop]
      congr 1
      omega
    · unfold Segment.Covers at hv
      exact Bytes.write_outside (by omega)
  · refine ⟨buffer, ?_, fun k hk => ?_, fun _ _ => rfl⟩
    · unfold readSegment
      rw [if_neg hpos]
    · omega

/-- A segment that leaves the buffer. -/
theorem readSegment_overrun
    (hfile : 0 < seg.size → 0 ≤ seg.inFileAddr ∧ seg.inFileAddr + seg.size ≤ file.length) {v : ℤ}
    (hv : seg.Covers v) (hout : ¬ (0 ≤ v ∧ v < size)) (buffer : Store) :
    readSegment size file buffer seg = .error .overrun := by
  unfold Segment.Covers at hv
  have hpos : 0 < seg.size := by omega
  obtain ⟨h0, h1⟩ := hfile hpos
  have hlen := length_segmentBytes h0 h1 hpos
  unfold readSegment
  rw [if_pos hpos, if_neg (by omega)]
  simp only
  refine if_neg ?_
  rintro (hnil | hin)
  · rw [hnil, List.length_nil] at hlen
    omega
  · omega

/-- Segments apart and inside the buffer are put there one after the other. -/
theorem readSegments_ok (hdis : l.Pairwise fun a b => ∀ v, a.Covers v → ¬ b.Covers v)
    (hin : ∀ seg ∈ l, ∀ v, seg.Covers v → 0 ≤ v ∧ v < size)
    (hfile : ∀ seg ∈ l, 0 < seg.size → 0 ≤ seg.inFileAddr ∧ seg.inFileAddr + seg.size ≤ file.length)
    (buffer : Store) :
    ∃ buffer', l.foldlM (readSegment size file) buffer = .ok buffer' ∧
      (∀ seg ∈ l, ∀ k : ℕ, (k : ℤ) < seg.size →
        some (buffer' (seg.virtualAddr + k)) = file[(seg.inFileAddr + k).toNat]?) ∧
      ∀ v, (∀ seg ∈ l, ¬ seg.Covers v) → buffer' v = buffer v := by
  induction l generalizing buffer with
  | nil => exact ⟨buffer, rfl, by simp, fun _ _ => rfl⟩
  | cons seg l ih =>
    obtain ⟨hhead, htail⟩ := List.pairwise_cons.mp hdis
    obtain ⟨b1, hb1, hbytes1, hframe1⟩ :=
      readSegment_ok (hin seg List.mem_cons_self) (hfile seg List.mem_cons_self) buffer
    obtain ⟨b2, hb2, hbytes2, hframe2⟩ := ih htail (fun s hs => hin s (List.mem_cons_of_mem _ hs))
      (fun s hs => hfile s (List.mem_cons_of_mem _ hs)) b1
    refine ⟨b2, ?_, fun s hs k hk => ?_, fun v hv => ?_⟩
    · rw [List.foldlM_cons, hb1]
      exact hb2
    · rcases List.mem_cons.mp hs with rfl | hs
      · -- the later segments do not touch it
        have hcovers : s.Covers (s.virtualAddr + k) := ⟨by omega, by omega⟩
        rw [hframe2 _ fun s' hs' => hhead s' hs' _ hcovers]
        exact hbytes1 k hk
      · exact hbytes2 s hs k hk
    · rw [hframe2 v fun s hs => hv s (List.mem_cons_of_mem _ hs),
        hframe1 v (hv seg List.mem_cons_self)]

/-- One segment that leaves the buffer is enough. -/
theorem readSegments_overrun
    (hfile : ∀ seg ∈ l, 0 < seg.size → 0 ≤ seg.inFileAddr ∧ seg.inFileAddr + seg.size ≤ file.length)
    (hout : ∃ seg ∈ l, ∃ v, seg.Covers v ∧ ¬ (0 ≤ v ∧ v < size)) (buffer : Store) :
    l.foldlM (readSegment size file) buffer = .error .overrun := by
  induction l generalizing buffer with
  | nil => simp at hout
  | cons seg l ih =>
    rw [List.foldlM_cons]
    by_cases hseg : ∃ v, seg.Covers v ∧ ¬ (0 ≤ v ∧ v < size)
    · obtain ⟨v, hv, hvout⟩ := hseg
      rw [readSegment_overrun (hfile seg List.mem_cons_self) hv hvout]
      rfl
    · have hin : ∀ v, seg.Covers v → 0 ≤ v ∧ v < size :=
        fun v hv => not_not.mp fun h => hseg ⟨v, hv, h⟩
      obtain ⟨b1, hb1, -⟩ := readSegment_ok hin (hfile seg List.mem_cons_self) buffer
      rw [hb1]
      refine ih (fun s hs => hfile s (List.mem_cons_of_mem _ hs)) ?_ b1
      obtain ⟨s, hs, hbad⟩ := hout
      rcases List.mem_cons.mp hs with rfl | hs
      · exact absurd hbad hseg
      · exact ⟨s, hs, hbad⟩

/-! ### The sizes -/

namespace Linked

variable {h : NoffHeader}

/-- A segment has no byte, or both its ends are in the pages. -/
theorem range (hl : Linked h file) (seg : Segment) (hs : seg ∈ h.segments) :
    seg.size = 0 ∨
    (0 < seg.size ∧ 0 ≤ seg.virtualAddr ∧ seg.virtualAddr + seg.size ≤ h.numPages * pageSize) := by
  have h0 := hl.nonneg seg hs
  by_cases hpos : 0 < seg.size
  · have hfirst := hl.inside seg hs seg.virtualAddr ⟨le_refl _, by omega⟩
    have hlast := hl.inside seg hs (seg.virtualAddr + seg.size - 1) ⟨by omega, by omega⟩
    exact Or.inr ⟨hpos, hfirst.1, by omega⟩
  · exact Or.inl (by omega)

/-- Two segments that share no address. -/
theorem apart {a b : Segment} (hd : ∀ v, a.Covers v → ¬ b.Covers v) :
    a.size ≤ 0 ∨ b.size ≤ 0 ∨ a.virtualAddr + a.size ≤ b.virtualAddr ∨
    b.virtualAddr + b.size ≤ a.virtualAddr := by
  by_contra hno
  have h1 : a.Covers (max a.virtualAddr b.virtualAddr) := ⟨by omega, by omega⟩
  exact hd _ h1 ⟨by omega, by omega⟩

theorem sum_nonneg (hl : Linked h file) :
    0 ≤ h.code.size + h.initData.size + h.readonlyData.size := by
  have hc := hl.nonneg h.code (by simp [NoffHeader.segments])
  have hi := hl.nonneg h.initData (by simp [NoffHeader.segments])
  have hr := hl.nonneg h.readonlyData (by simp [NoffHeader.segments])
  omega

/-- The three segments fit into the pages together. -/
theorem sum_le (hl : Linked h file) :
    h.code.size + h.initData.size + h.readonlyData.size ≤ h.numPages * pageSize := by
  have hpair := hl.disjoint
  simp only [NoffHeader.segments, List.pairwise_cons, List.mem_cons, List.not_mem_nil, or_false,
    forall_eq_or_imp, forall_eq, List.Pairwise.nil] at hpair
  obtain ⟨⟨hab, hac⟩, hbc, -⟩ := hpair
  have hab := apart hab
  have hac := apart hac
  have hbc := apart hbc
  have ha := hl.range h.code (by simp [NoffHeader.segments])
  have hb := hl.range h.initData (by simp [NoffHeader.segments])
  have hc := hl.range h.readonlyData (by simp [NoffHeader.segments])
  have hn : (0 : ℤ) ≤ h.numPages * pageSize := by positivity
  generalize (h.numPages : ℤ) * pageSize = n at *
  omega

/-- With pages enough the sizes are small, and their sum does not wrap. -/
theorem actualSegmentSize_eq (hl : Linked h file) (hpages : h.numPages ≤ numPhysPages) :
    h.actualSegmentSize = h.code.size + h.initData.size + h.readonlyData.size := by
  have hsum := hl.sum_le
  unfold numPhysPages at hpages
  unfold pageSize at hsum
  exact wrap32_of_lt hl.sum_nonneg (by push_cast at hsum; omega)

end Linked

/-! ### The load -/

variable {stack : ℕ → Byte} {bm : Bitmap}

theorem numPages_le (hb : bm.numBits = numPhysPages) {n : ℕ} (henough : n ≤ bm.numClear) :
    n ≤ numPhysPages := by
  have := Bitmap.numClear_add_card bm
  omega

/-- An image inside the buffer is loaded. -/
theorem load_inside (mem : Store) (hm : (readHeader file stack).noffMagic = noffMagicNumber)
    (hl : Linked (readHeader file stack) file) (hb : bm.numBits = numPhysPages)
    (henough : (readHeader file stack).numPages ≤ bm.numClear)
    (hin : ∀ seg ∈ (readHeader file stack).segments, ∀ v, seg.Covers v →
      v < (readHeader file stack).code.size +
      (readHeader file stack).initData.size + (readHeader file stack).readonlyData.size) :
    ∃ sp bm' mem', load file stack bm mem = .ok sp bm' mem' ∧
    Loaded (readHeader file stack) file sp mem' := by
  obtain ⟨h, hh⟩ : ∃ h, readHeader file stack = h := ⟨_, rfl⟩
  rw [hh] at hm hl henough hin ⊢
  have hsize := hl.actualSegmentSize_eq (numPages_le hb henough)
  have hnonneg : 0 ≤ h.actualSegmentSize := hsize ▸ hl.sum_nonneg
  have hin' : ∀ seg ∈ h.segments, ∀ v, seg.Covers v → 0 ≤ v ∧ v < h.actualSegmentSize :=
    fun seg hs v hv => ⟨(hl.inside seg hs v hv).1, hsize ▸ hin seg hs v hv⟩
  obtain ⟨buffer, hread, hbytes, hframe⟩ := readSegments_ok hl.disjoint hin' hl.present fun _ => 0
  have hread' : readSegments h file = .ok buffer := hread
  have ha := allocPages_spec bm mem h.numPages henough
  have hpages : (divRoundUp h.actualSegmentSize pageSize).toNat ≤ h.numPages := by
    by_contra hc
    have h1 := (lt_pages_iff hnonneg h.numPages).mp (by omega)
    have h2 := hl.sum_le
    omega
  obtain ⟨m, hcopy⟩ :=
    copyLoop_ok buffer h.actualSegmentSize (divRoundUp h.actualSegmentSize pageSize).toNat
    (allocPages bm mem h.numPages).mem (by rw [ha.length]; exact hpages)
  have hcopy' : copyPages (allocPages bm mem h.numPages).table buffer h.actualSegmentSize
      (allocPages bm mem h.numPages).mem = .ok m := hcopy
  have hlocked : loadLocked h file bm mem = .ok ⟨(allocPages bm mem h.numPages).table⟩
      (allocPages bm mem h.numPages).bm m := by
    simp [loadLocked, not_lt.mpr henough, not_lt.mpr hnonneg, hread', hcopy']
  refine ⟨⟨(allocPages bm mem h.numPages).table⟩, (allocPages bm mem h.numPages).bm, m, ?_, ?_⟩
  · rw [load, hh, if_neg (not_not.mpr hm), hlocked]
  · obtain ⟨buffer', hread'', hseen⟩ := (loadLocked_ok hlocked).bytes
    obtain rfl : buffer = buffer' := Except.ok.inj (hread'.symm.trans hread'')
    refine ⟨fun seg hs k hk => ?_, fun v hv hnone => ?_⟩
    · have hcovers : seg.Covers (seg.virtualAddr + k) := ⟨by omega, by omega⟩
      have hpage := hl.inside seg hs _ hcovers
      have hbuf := hin' seg hs _ hcovers
      rw [hseen _ (by omega), if_pos (by omega), ← hbytes seg hs k hk,
        Int.toNat_of_nonneg (by omega)]
    · rw [hseen v hv, hframe v hnone, ite_self]

/-- An image that leaves the buffer. -/
theorem load_outside (mem : Store) (hm : (readHeader file stack).noffMagic = noffMagicNumber)
    (hl : Linked (readHeader file stack) file) (hb : bm.numBits = numPhysPages)
    (henough : (readHeader file stack).numPages ≤ bm.numClear)
    (hout : ∃ seg ∈ (readHeader file stack).segments, ∃ v, seg.Covers v ∧
      (readHeader file stack).code.size +
      (readHeader file stack).initData.size + (readHeader file stack).readonlyData.size ≤ v) :
    load file stack bm mem = .fault .overrun := by
  obtain ⟨h, hh⟩ : ∃ h, readHeader file stack = h := ⟨_, rfl⟩
  rw [hh] at hm hl henough hout
  have hsize := hl.actualSegmentSize_eq (numPages_le hb henough)
  have hnonneg : 0 ≤ h.actualSegmentSize := hsize ▸ hl.sum_nonneg
  obtain ⟨seg, hs, v, hv, hge⟩ := hout
  have hread : readSegments h file = .error .overrun :=
    readSegments_overrun hl.present ⟨seg, hs, v, hv, by omega⟩ fun _ => 0
  rw [load, hh, if_neg (not_not.mpr hm)]
  simp [loadLocked, not_lt.mpr henough, not_lt.mpr hnonneg, hread]

/-- **The loader.** For every image that is linked inside its pages: whatever
`Load` returns TRUE with shows the bytes of the segments and zeros elsewhere,
exactly if it returns FALSE for lack of memory or no segment reaches beyond
the sum of the three sizes. -/
theorem load_correct_iff (file : List Byte) (stack : ℕ → Byte) (bm : Bitmap) (mem : Store)
    (hm : (readHeader file stack).noffMagic = noffMagicNumber)
    (hl : Linked (readHeader file stack) file) (hb : bm.numBits = numPhysPages) :
    (∀ sp bm' mem', (load file stack bm mem).Allows (.ok sp bm' mem') →
      Loaded (readHeader file stack) file sp mem') ↔
      bm.numClear < (readHeader file stack).numPages ∨
        ∀ seg ∈ (readHeader file stack).segments, ∀ v, seg.Covers v →
          v < (readHeader file stack).code.size +
            (readHeader file stack).initData.size + (readHeader file stack).readonlyData.size := by
  constructor
  · intro hright
    by_contra hbad
    rw [not_or, not_lt] at hbad
    obtain ⟨henough, hbad⟩ := hbad
    have hout : ∃ seg ∈ (readHeader file stack).segments, ∃ v, seg.Covers v ∧
        (readHeader file stack).code.size +
        (readHeader file stack).initData.size + (readHeader file stack).readonlyData.size ≤ v := by
      by_contra hno
      refine hbad fun seg hs v hv => ?_
      by_contra hge
      exact hno ⟨seg, hs, v, hv, by omega⟩
    have hfault := load_outside mem hm hl hb henough hout
    -- nothing is known of the result, so it may have no page at all
    have hloaded := hright AddrSpace.new bm mem (by rw [hfault]; trivial)
    obtain ⟨seg, hs, v, hv, -⟩ := hout
    unfold Segment.Covers at hv
    have hpos : 0 < seg.size := by omega
    obtain ⟨h0, h1⟩ := hl.present seg hs hpos
    have hbyte := hloaded.bytes seg hs 0 (by exact_mod_cast hpos)
    rw [List.getElem?_eq_getElem (by push_cast; omega)] at hbyte
    simp [vbyte, AddrSpace.new] at hbyte
  · rintro (hnone | hin) sp bm' mem' hres
    · have hno : load file stack bm mem = .noMemory := by
        rw [load, if_neg (not_not.mpr hm), loadLocked, if_pos hnone]
      rw [hno] at hres
      cases hres
    · by_cases henough : (readHeader file stack).numPages ≤ bm.numClear
      · obtain ⟨sp1, bm1, mem1, hload, hloaded⟩ := load_inside mem hm hl hb henough hin
        rw [hload] at hres
        cases hres
        exact hloaded
      · have hno : load file stack bm mem = .noMemory := by
          rw [load, if_neg (not_not.mpr hm), loadLocked, if_pos (not_le.mp henough)]
        rw [hno] at hres
        cases hres

/-- An executable: the header, then four bytes of code and four of data, which
go to `dataAddr`. -/
def twoSegments (dataAddr : Byte) : List Byte :=
  [0xad, 0xdf, 0xba, 0, 0, 0, 0, 0, 52, 0, 0, 0, 4, 0, 0, 0, dataAddr, 0, 0, 0, 56, 0, 0,
    0, 4, 0, 0, 0, 0, 0, 0, 0, 0, 0, 0, 0, 0, 0, 0, 0, 0, 0, 0, 0, 0, 0, 0, 0, 0, 0, 0, 0, 1, 2, 3,
    4, 5, 6, 7, 8]

/-- The header of this executable. -/
def twoSegmentsHeader (dataAddr : ℤ) : NoffHeader :=
  ⟨noffMagicNumber, ⟨0, 52, 4⟩, ⟨dataAddr, 56, 4⟩, ⟨0, 0, 0⟩, ⟨0, 0, 0⟩⟩

theorem linked_twoSegments {a : ℤ} (h0 : 4 ≤ a) (h1 : a ≤ 128) (dataAddr : Byte) :
    Linked (twoSegmentsHeader a) (twoSegments dataAddr) := by
  have hpages : (twoSegmentsHeader a).numPages * (pageSize : ℤ) = 1152 := rfl
  refine ⟨?_, ?_, ?_, ?_⟩
  · simp [twoSegmentsHeader, NoffHeader.segments]
  · simp only [twoSegmentsHeader, NoffHeader.segments, List.pairwise_cons, List.mem_cons,
      List.not_mem_nil, or_false, forall_eq_or_imp, forall_eq, List.Pairwise.nil, Segment.Covers]
    refine ⟨⟨fun v => ?_, fun v => ?_⟩, fun v => ?_, by simp⟩
    all_goals omega
  · rw [hpages]
    simp only [twoSegmentsHeader, NoffHeader.segments, List.mem_cons, List.not_mem_nil, or_false,
      forall_eq_or_imp, forall_eq, Segment.Covers]
    refine ⟨fun v => ?_, fun v => ?_, fun v => ?_⟩
    all_goals omega
  · simp [twoSegmentsHeader, NoffHeader.segments, twoSegments]

/-- The data right behind the code: it is loaded. -/
theorem load_correct_iff_adjacent :
    readHeader (twoSegments 4) (fun _ => 0) = twoSegmentsHeader 4 ∧ ∀ sp bm' mem',
    (load (twoSegments 4) (fun _ => 0) (Bitmap.new numPhysPages) fun _ => 7).Allows
    (.ok sp bm' mem') →
    Loaded (readHeader (twoSegments 4) fun _ => 0) (twoSegments 4) sp mem' := by
  have hh : readHeader (twoSegments 4) (fun _ => 0) = twoSegmentsHeader 4 := by decide
  refine ⟨hh, ?_⟩
  refine (load_correct_iff (twoSegments 4) (fun _ => 0) (Bitmap.new numPhysPages) (fun _ => 7)
    (by rw [hh]; rfl)
    (hh ▸ linked_twoSegments (by omega) (by omega) 4) (Bitmap.numBits_new _)).mpr (Or.inr ?_)
  rw [hh]
  simp only [twoSegmentsHeader, NoffHeader.segments, List.mem_cons, List.not_mem_nil, or_false,
    forall_eq_or_imp, forall_eq, Segment.Covers]
  refine ⟨fun v => ?_, fun v => ?_, fun v => ?_⟩
  all_goals omega

set_option maxRecDepth 20000 in
/-- The data at the second page: it is written 120 bytes past the buffer of
eight, and the eight bytes are copied, so address 128 shows 0 and not 5. -/
theorem load_gap_wrong :
    let file := twoSegments 128
    let table := (allocPages (Bitmap.new numPhysPages) (fun _ => 7) 9).table
    let mem' : Store := Bytes.write (fun _ => 0) 0 [1, 2, 3, 4]
    (readHeader file fun _ => 0).noffMagic = noffMagicNumber ∧
      Linked (readHeader file fun _ => 0) file ∧
      load file (fun _ => 0) (Bitmap.new numPhysPages) (fun _ => 7) = .fault .overrun ∧
      vbyte mem' table 0 = some 1 ∧ vbyte mem' table 128 = some 0 ∧
      ∃ bm', (load file (fun _ => 0) (Bitmap.new numPhysPages) fun _ => 7).Allows
        (.ok ⟨table⟩ bm' mem') ∧
        ¬ Loaded (readHeader file fun _ => 0) file ⟨table⟩ mem' := by
  intro file table mem'
  have hh : readHeader file (fun _ => 0) = twoSegmentsHeader 128 := by decide
  have hl := linked_twoSegments (show (4 : ℤ) ≤ 128 by omega) (le_refl _) 128
  have hm : (readHeader file fun _ => 0).noffMagic = noffMagicNumber := by rw [hh]; rfl
  have hfault : load file (fun _ => 0) (Bitmap.new numPhysPages) (fun _ => 7) =
      .fault .overrun := by
    refine load_outside _ hm (hh ▸ hl) (Bitmap.numBits_new _) ?_ ?_
    · rw [hh, Bitmap.numClear_new]
      decide
    · rw [hh]
      exact ⟨⟨128, 56, 4⟩, by simp [twoSegmentsHeader, NoffHeader.segments],
        128, by simp [Segment.Covers], by decide⟩
  have hzero : vbyte mem' table 128 = some 0 := by decide
  refine ⟨hm, hh ▸ hl, hfault, by decide, hzero, Bitmap.new numPhysPages, by rw [hfault]; trivial,
    fun hloaded => ?_⟩
  have hbyte := hloaded.bytes ⟨128, 56, 4⟩
    (by rw [hh]; simp [twoSegmentsHeader, NoffHeader.segments]) 0 (by simp)
  rw [show ((128 : ℤ) + (0 : ℕ)).toNat = 128 from rfl, hzero] at hbyte
  exact absurd hbyte (by decide)

end Nachos
