/-
# coff2noff and the loader agree

A COFF file whose sections lie one behind the other from address 0, with
`.bss` behind them, comes out of `coff2noff` and `AddrSpace::Load` as an
address space that shows the sections of the COFF file, then zeros up to the
end of the stack, provided no section that is copied has a negative file
pointer: `main` does not look at the result of `lseek`, so for a negative
`s_scnptr` it copies from wherever the file happens to be
(`agrees_iff`, `negative_scnptr_accepted`).

Key definitions: `Contiguous`, `Layout`, `Fits`, `Agrees`.
Key theorems: `readSegments_copied`, `agrees_iff`.
-/
import Mathlib
import Nachos.Coff2noff.Convert

namespace Nachos

open Bytes (Byte Store)

/-! ### What is asked of the COFF file -/

/-- The sections lie one behind the other from address `a` on. -/
def Contiguous : ℤ → List ScnHdr → Prop
  | _, [] => True
  | a, x :: l => x.s_paddr = a ∧ 0 < x.s_size ∧ Contiguous (a + x.s_size) l

/-- At most one section of each kind; the non-empty ones are in some order
contiguous from address 0, and `.bss` follows them. -/
structure Layout (secs : List ScnHdr) : Prop where
  once : secs.Pairwise fun x y => ∀ K, x.kind = some K → y.kind ≠ some K
  order : ∃ l, l.Perm (secs.filter ScnHdr.IsData) ∧ Contiguous 0 l
  bss : ∀ x ∈ secs, x.IsBss → x.s_paddr = dataSize secs ∧ 0 < x.s_size

/-- The pages of the sections and of the stack are free. -/
def Fits (secs : List ScnHdr) (bm : Bitmap) : Prop :=
  divRoundUp (dataSize secs + bssSize secs + userStackSize) pageSize ≤ bm.numClear

/-- The byte at position `i` of a file, if it has one. -/
def byteAt (file : List Byte) (i : ℤ) : Option Byte := if i < 0 then none else file[i.toNat]?

/-- The address space `Load` makes of `noff` shows the sections of `coff`, and
zeros in `.bss` and in the stack above it. -/
def Agrees (coff : List Byte) (secs : List ScnHdr) (noff : List Byte) (stack : ℕ → Byte)
    (bm : Bitmap) (mem : Store) :
    Prop :=
  ∃ sp bm' mem', load noff stack bm mem = .ok sp bm' mem' ∧
    (∀ x ∈ secs, x.IsData → ∀ k : ℕ, k < x.s_size → ∃ b,
      vbyte mem' sp.pageTable (x.s_paddr.toNat + k) = some b ∧
      byteAt coff (x.s_scnptr + k) = some b) ∧
    (∀ x ∈ secs, x.IsBss → ∀ k : ℕ, k < x.s_size →
      vbyte mem' sp.pageTable (x.s_paddr.toNat + k) = some 0) ∧
    ∀ k : ℕ, k < userStackSize →
      vbyte mem' sp.pageTable ((dataSize secs + bssSize secs).toNat + k) = some 0

/-! ### Contiguous sections -/

theorem Contiguous.bounds {l : List ScnHdr} {a : ℤ} (h : Contiguous a l) :
    0 ≤ (l.map ScnHdr.s_size).sum ∧
    ∀ x ∈ l, a ≤ x.s_paddr ∧ 0 < x.s_size ∧
    x.s_paddr + x.s_size ≤ a + (l.map ScnHdr.s_size).sum := by
  induction l generalizing a with
  | nil => simp
  | cons x l ih =>
    obtain ⟨ha, hx, hl⟩ := h
    obtain ⟨h0, hb⟩ := ih hl
    rw [List.map_cons, List.sum_cons]
    refine ⟨by omega, fun y hy => ?_⟩
    rcases List.mem_cons.mp hy with rfl | hy
    · omega
    · obtain ⟨h1, h2, h3⟩ := hb y hy
      omega

/-- Two of them do not meet. -/
theorem Contiguous.disjoint {l : List ScnHdr} {a : ℤ} (h : Contiguous a l) :
    l.Pairwise fun x y => x.s_paddr + x.s_size ≤ y.s_paddr := by
  induction l generalizing a with
  | nil => exact List.Pairwise.nil
  | cons x l ih =>
    obtain ⟨ha, hx, hl⟩ := h
    refine List.Pairwise.cons (fun y hy => ?_) (ih hl)
    have := (hl.bounds.2 y hy).1
    omega

/-! ### Reading segments that do not meet -/

/-- The bytes of `seg` are in the file and its place is in the buffer. -/
def SegFits (size : ℤ) (file : List Byte) (seg : Segment) : Prop :=
  0 < seg.size → 0 ≤ seg.inFileAddr ∧ seg.inFileAddr + seg.size ≤ file.length ∧
    0 ≤ seg.virtualAddr ∧
    seg.virtualAddr + seg.size ≤ size

/-- Address `v` is in the segment. -/
def Segment.Has (seg : Segment) (v : ℤ) : Prop :=
  seg.virtualAddr ≤ v ∧ v < seg.virtualAddr + seg.size

theorem readSegment_fits {size : ℤ} {file : List Byte} {seg : Segment} (h : SegFits size file seg)
    (buffer : Store) :
    ∃ b, readSegment size file buffer seg = .ok b ∧
      (∀ v, ¬ seg.Has v → b v = buffer v) ∧
      ∀ v, seg.Has v → some (b v) = file[(seg.inFileAddr + (v - seg.virtualAddr)).toNat]? := by
  unfold readSegment
  by_cases hs : 0 < seg.size
  · obtain ⟨h1, h2, h3, h4⟩ := h hs
    have hlen : ((file.drop seg.inFileAddr.toNat).take seg.size.toNat).length = seg.size.toNat := by
      rw [List.length_take, List.length_drop]
      omega
    rw [if_pos hs, if_neg (not_lt.mpr h1)]
    simp only
    rw [if_pos (Or.inr ⟨h3, by rw [hlen]; omega⟩)]
    refine ⟨_, rfl, fun v hv => ?_, fun v hv => ?_⟩
    · apply Bytes.write_outside
      rw [hlen]
      unfold Segment.Has at hv
      omega
    · obtain ⟨hv1, hv2⟩ := hv
      rw [Bytes.write_inside hv1 (by rw [hlen]; omega)]
      have hk : (v - seg.virtualAddr).toNat < seg.size.toNat := by omega
      rw [List.getD_eq_getElem?_getD, List.getElem?_take_of_lt hk, List.getElem?_drop]
      have hidx : (seg.inFileAddr + (v - seg.virtualAddr)).toNat =
          seg.inFileAddr.toNat + (v - seg.virtualAddr).toNat := by omega
      rw [hidx, List.getElem?_eq_getElem (by omega)]
      rfl
  · rw [if_neg hs]
    refine ⟨buffer, rfl, fun _ _ => rfl, fun v hv => ?_⟩
    unfold Segment.Has at hv
    omega

/-- A list of segments no two of which meet: each shows its bytes. -/
theorem readSegments_copied {size : ℤ} {file : List Byte} (l : List Segment) (buffer : Store)
    (hfit : ∀ seg ∈ l, SegFits size file seg)
    (hdis : l.Pairwise fun a b => ∀ v, a.Has v → ¬ b.Has v) :
    ∃ b, l.foldlM (readSegment size file) buffer = .ok b ∧
      (∀ v, (∀ seg ∈ l, ¬ seg.Has v) → b v = buffer v) ∧
      ∀ seg ∈ l, ∀ v, seg.Has v →
      some (b v) = file[(seg.inFileAddr + (v - seg.virtualAddr)).toNat]? := by
  induction l generalizing buffer with
  | nil => exact ⟨buffer, rfl, fun _ _ => rfl, fun _ h => absurd h List.not_mem_nil⟩
  | cons seg l ih =>
    obtain ⟨b1, hr1, hout1, hin1⟩ := readSegment_fits (hfit seg List.mem_cons_self) buffer
    obtain ⟨hd, hdis⟩ := List.pairwise_cons.mp hdis
    obtain ⟨b, hr, hout, hin⟩ := ih b1 (fun s hs => hfit s (List.mem_cons_of_mem _ hs)) hdis
    refine ⟨b, ?_, fun v hv => ?_, fun s hs v hv => ?_⟩
    · rw [List.foldlM_cons, hr1]
      exact hr
    · rw [hout v fun s hs => hv s (List.mem_cons_of_mem _ hs)]
      exact hout1 v (hv seg List.mem_cons_self)
    · rcases List.mem_cons.mp hs with rfl | hs
      · rw [hout v fun s' hs' => hd s' hs' v hv]
        exact hin1 v hv
      · exact hin s hs v hv

/-! ### The sizes -/

section Sizes

variable {secs : List ScnHdr} {x y : ScnHdr}

theorem Layout.dataSize_eq {l : List ScnHdr} (hp : l.Perm (secs.filter ScnHdr.IsData)) :
    (l.map ScnHdr.s_size).sum = dataSize secs := (hp.map ScnHdr.s_size).sum_eq

theorem mem_data {l : List ScnHdr} (hp : l.Perm (secs.filter ScnHdr.IsData)) :
    x ∈ l ↔ x ∈ secs ∧ x.IsData := by
  rw [hp.mem_iff, List.mem_filter, decide_eq_true_eq]

theorem Layout.dataSize_nonneg (hL : Layout secs) : 0 ≤ dataSize secs := by
  obtain ⟨l, hp, hc⟩ := hL.order
  rw [← Layout.dataSize_eq hp]
  exact hc.bounds.1

/-- A section that is copied lies below the end of the data. -/
theorem Layout.data_bounds (hL : Layout secs) (hx : x ∈ secs) (hd : x.IsData) :
    0 ≤ x.s_paddr ∧ 0 < x.s_size ∧ x.s_paddr + x.s_size ≤ dataSize secs := by
  obtain ⟨l, hp, hc⟩ := hL.order
  have := hc.bounds.2 x ((mem_data hp).mpr ⟨hx, hd⟩)
  rw [Layout.dataSize_eq hp] at this
  omega

theorem Layout.data_disjoint (hL : Layout secs) (hx : x ∈ secs) (hxd : x.IsData) (hy : y ∈ secs)
    (hyd : y.IsData) (hne : x ≠ y) :
    x.s_paddr + x.s_size ≤ y.s_paddr ∨ y.s_paddr + y.s_size ≤ x.s_paddr := by
  obtain ⟨l, hp, hc⟩ := hL.order
  let R : ScnHdr → ScnHdr → Prop :=
    fun x y => x.s_paddr + x.s_size ≤ y.s_paddr ∨ y.s_paddr + y.s_size ≤ x.s_paddr
  have : Std.Symm R := ⟨fun _ _ => Or.symm⟩
  have hpw : l.Pairwise R := hc.disjoint.imp Or.inl
  exact hpw.forall ((mem_data hp).mpr ⟨hx, hxd⟩) ((mem_data hp).mpr ⟨hy, hyd⟩) hne

theorem Layout.bssSize_nonneg (hL : Layout secs) : 0 ≤ bssSize secs := by
  refine List.sum_nonneg fun n hn => ?_
  obtain ⟨x, hx, rfl⟩ := List.mem_map.mp hn
  obtain ⟨hx, hb⟩ := List.mem_filter.mp hx
  exact (hL.bss x hx (of_decide_eq_true hb)).2.le

/-- There is one `.bss` at most. -/
theorem Layout.bss_le (hL : Layout secs) (hx : x ∈ secs) (hb : x.IsBss) :
    x.s_size ≤ bssSize secs := by
  refine List.single_le_sum (fun n hn => ?_) _
    (List.mem_map.mpr ⟨x, List.mem_filter.mpr ⟨hx, decide_eq_true hb⟩, rfl⟩)
  obtain ⟨y, hy, rfl⟩ := List.mem_map.mp hn
  obtain ⟨hy, hyb⟩ := List.mem_filter.mp hy
  exact (hL.bss y hy (of_decide_eq_true hyb)).2.le

theorem Layout.size_nonneg (hL : Layout secs) (hx : x ∈ secs) {K : Kind} (hK : x.kind = some K) :
    0 ≤ x.s_size := by
  by_cases h0 : x.s_size = 0
  · exact h0.ge
  · by_cases hb : K = .bss
    · exact (hL.bss x hx ⟨h0, hb ▸ hK⟩).2.le
    · refine (hL.data_bounds hx ⟨h0, ?_⟩).2.1.le
      cases K <;> simp_all

/-- What fits is small. -/
theorem Fits.bound {bm : Bitmap} (hL : Layout secs) (hbm : bm.numBits = numPhysPages)
    (hF : Fits secs bm) :
    dataSize secs + bssSize secs + userStackSize ≤ numPhysPages * pageSize := by
  have h1 := hL.dataSize_nonneg
  have h2 := hL.bssSize_nonneg
  have h3 := bm.numClear_add_card
  obtain ⟨n, hn⟩ :=
    Int.eq_ofNat_of_zero_le (show 0 ≤ dataSize secs + bssSize secs + userStackSize by
    unfold userStackSize; omega)
  unfold Fits at hF
  rw [hn, divRoundUp_natCast n pageSize (by decide)] at hF
  rw [hn]
  unfold pageSize numPhysPages at *
  omega

end Sizes

/-! ### From COFF to memory -/

section Load

variable {file : List Byte} {secs : List ScnHdr} {c : Conv} {bm : Bitmap}

/-- A segment of the header is empty or holds a section. -/
theorem ConvInv.seg_cases (hI : ConvInv file secs c) {K : Kind} (hK : K ≠ .bss) :
    (c.noffH.seg K).size = 0 ∨
    ∃ x ∈ secs, x.IsData ∧ x.kind = some K ∧ ∃ o, Copied file c x (c.noffH.seg K) o := by
  by_cases h : ∃ x ∈ secs, x.s_size ≠ 0 ∧ x.kind = some K
  · obtain ⟨x, hx, h0, hk⟩ := h
    have hd : x.IsData := ⟨h0, by cases K <;> simp_all⟩
    exact Or.inr ⟨x, hx, hd, hk, hI.placed x hx hd K hk⟩
  · push Not at h
    exact Or.inl (hI.absent K h)

theorem mem_segments {h : NoffHeader} {seg : Segment} :
    seg ∈ h.segments ↔ ∃ K, K ≠ .bss ∧ seg = h.seg K := by
  constructor
  · intro hs
    simp only [NoffHeader.segments, List.mem_cons, List.not_mem_nil, or_false] at hs
    rcases hs with rfl | rfl | rfl
    · exact ⟨.text, by simp, rfl⟩
    · exact ⟨.data, by simp, rfl⟩
    · exact ⟨.rdata, by simp, rfl⟩
  · rintro ⟨K, hK, rfl⟩
    cases K <;> simp_all [NoffHeader.segments, NoffHeader.seg]

/-- The header written is that of a good image. -/
theorem ConvInv.good (hI : ConvInv file secs c) (hL : Layout secs) (hbm : bm.numBits = numPhysPages)
    (hF : Fits secs bm) : GoodImage c.noffH := by
  have hbound := hF.bound hL hbm
  have hseg : ∀ K, K ≠ .bss → 0 ≤ (c.noffH.seg K).size ∧ (0 < (c.noffH.seg K).size →
      0 ≤ (c.noffH.seg K).virtualAddr ∧ (c.noffH.seg K).virtualAddr + (c.noffH.seg K).size ≤
      dataSize secs) := by
    intro K hK
    rcases hI.seg_cases hK with h0 | ⟨x, hx, hd, -, o, ho⟩
    · omega
    · have := hL.data_bounds hx hd
      rw [ho.seg]
      exact ⟨by show 0 ≤ x.s_size; omega, fun _ => ⟨this.1, this.2.2⟩⟩
  have htotal := hI.total
  have hbss := hI.bss
  refine
    { code := (hseg .text (by simp)).1
      initData := (hseg .data (by simp)).1
      readonlyData := (hseg .rdata (by simp)).1
      uninitData := by rw [hbss]; exact hL.bssSize_nonneg
      total := ?_
      inside := fun seg hs hpos => ?_ }
  · unfold numPhysPages pageSize at hbound
    omega
  · obtain ⟨K, hK, rfl⟩ := mem_segments.mp hs
    rw [htotal]
    exact (hseg K hK).2 hpos

/-- The offset of a segment in the file. -/
theorem Copied.offset {x : ScnHdr} {s : Segment} {o : ℕ} (hI : ConvInv file secs c)
    (hL : Layout secs) (hbm : bm.numBits = numPhysPages) (hF : Fits secs bm)
    (h : Copied file c x s o) :
    s.inFileAddr = sizeofNoffHeader + o := by
  have hbound := hF.bound hL hbm
  have hin := h.inside
  have hlen := hI.length
  have hb := hL.bssSize_nonneg
  unfold userStackSize numPhysPages pageSize at hbound
  have hw : wrap32 ((sizeofNoffHeader : ℤ) + o) = sizeofNoffHeader + o :=
    wrap32_of_lt (by omega) (by unfold sizeofNoffHeader; omega)
  have hs := congrArg Segment.inFileAddr h.seg
  simp only at hs
  rw [hs, hw]

/-- The segments of the header do not meet, and their bytes are in the file. -/
theorem ConvInv.segFits (hI : ConvInv file secs c) (hL : Layout secs)
    (hbm : bm.numBits = numPhysPages) (hF : Fits secs bm) {K : Kind} (hK : K ≠ .bss) :
    SegFits c.noffH.actualSegmentSize (headerBytes c.noffH ++ c.out) (c.noffH.seg K) := by
  intro hpos
  have hg := hI.good hL hbm hF
  rcases hI.seg_cases hK with h0 | ⟨x, hx, hd, -, o, ho⟩
  · omega
  · have hoff := ho.offset hI hL hbm hF
    have hin := ho.inside
    have hsize : (c.noffH.seg K).size = x.s_size := congrArg Segment.size ho.seg
    have hin' := hg.inside _ (mem_segments.mpr ⟨K, hK, rfl⟩) hpos
    rw [hg.actualSegmentSize_eq, List.length_append, length_headerBytes, hoff]
    refine ⟨by omega, ?_, hin'.1, hin'.2⟩
    push_cast
    omega

theorem ConvInv.segDisjoint (hI : ConvInv file secs c) (hL : Layout secs) (K K' : Kind)
    (hK : K ≠ .bss) (hK' : K' ≠ .bss) (hne : K ≠ K') (v : ℤ) (hv : (c.noffH.seg K).Has v) :
    ¬ (c.noffH.seg K').Has v := by
  intro hv'
  unfold Segment.Has at hv hv'
  rcases hI.seg_cases hK with h0 | ⟨x, hx, hd, hk, o, ho⟩
  · omega
  · rcases hI.seg_cases hK' with h0 | ⟨y, hy, hyd, hk', o', ho'⟩
    · omega
    · have hxy : x ≠ y := by
        rintro rfl
        rw [hk] at hk'
        exact hne (Option.some.inj hk')
      rw [ho.seg] at hv
      rw [ho'.seg] at hv'
      rcases hL.data_disjoint hx hd hy hyd hxy with h | h <;> simp only at hv hv' <;> omega

/-- `Load` reads the segments to where the sections belong. -/
theorem ConvInv.readSegments (hI : ConvInv file secs c) (hL : Layout secs)
    (hbm : bm.numBits = numPhysPages) (hF : Fits secs bm) :
    ∃ b, Nachos.readSegments c.noffH (headerBytes c.noffH ++ c.out) = .ok b ∧
      ∀ x ∈ secs, x.IsData → 0 ≤ x.s_scnptr → ∀ k : ℕ, k < x.s_size →
        some (b (x.s_paddr + k)) = byteAt file (x.s_scnptr + k) := by
  have hfits : ∀ seg ∈ c.noffH.segments, SegFits c.noffH.actualSegmentSize
      (headerBytes c.noffH ++ c.out) seg := by
    intro seg hs
    obtain ⟨K, hK, rfl⟩ := mem_segments.mp hs
    exact hI.segFits hL hbm hF hK
  have hdis : c.noffH.segments.Pairwise fun a b => ∀ v, a.Has v → ¬ b.Has v := by
    simp only [NoffHeader.segments, List.pairwise_cons, List.mem_cons, List.not_mem_nil, or_false,
      forall_eq_or_imp, forall_eq, List.Pairwise.nil, and_true, false_imp_iff, implies_true]
    exact ⟨⟨hI.segDisjoint hL .text .data (by simp) (by simp) (by simp),
      hI.segDisjoint hL .text .rdata (by simp) (by simp) (by simp)⟩,
      hI.segDisjoint hL .data .rdata (by simp) (by simp) (by simp)⟩
  obtain ⟨b, hb, -, hbytes⟩ := readSegments_copied c.noffH.segments (fun _ => 0) hfits hdis
  refine ⟨b, hb, fun x hx hd h0 k hk => ?_⟩
  obtain ⟨K, hk', hK⟩ : ∃ K, x.kind = some K ∧ K ≠ .bss := by
    rcases hd.2 with h | h | h
    · exact ⟨_, h, by simp⟩
    · exact ⟨_, h, by simp⟩
    · exact ⟨_, h, by simp⟩
  obtain ⟨o, ho⟩ := hI.placed x hx hd K hk'
  have hoff := ho.offset hI hL hbm hF
  have hva : (c.noffH.seg K).virtualAddr = x.s_paddr := congrArg Segment.virtualAddr ho.seg
  have hsize : (c.noffH.seg K).size = x.s_size := congrArg Segment.size ho.seg
  have hin := ho.inside
  rw [hbytes _ (mem_segments.mpr ⟨K, hK, rfl⟩) (x.s_paddr + k) ⟨by omega, by omega⟩, hoff, hva]
  have hidx : ((sizeofNoffHeader : ℤ) + o + (x.s_paddr + k - x.s_paddr)).toNat =
      (headerBytes c.noffH).length + (o + k) := by
    rw [length_headerBytes]
    omega
  have hpos : (x.s_scnptr + k).toNat = x.s_scnptr.toNat + k := by omega
  rw [hidx, List.getElem?_append_right (Nat.le_add_right _ _), Nat.add_sub_cancel_left,
    ho.bytes h0 k (by omega), byteAt, if_neg (by omega), hpos]

end Load

/-- For every COFF file that `coff2noff` takes, of this layout and small enough:
what is loaded agrees with the file just when no section that is copied has a
negative `s_scnptr`. -/
theorem agrees_iff {coff noff : List Byte} {secs : List ScnHdr} {pos : ℕ} {stack stack' : ℕ → Byte}
    {bm : Bitmap} {mem : Store} (hsec : readSections coff = some (secs, pos))
    (hnoff : coff2noff stack coff = some noff) (hL : Layout secs) (hbm : bm.numBits = numPhysPages)
    (hF : Fits secs bm) :
    Agrees coff secs noff stack' bm mem ↔ ∀ x ∈ secs, x.IsData → 0 ≤ x.s_scnptr := by
  constructor
  · rintro ⟨sp, bm', mem', -, hdata, -⟩ x hx hd
    obtain ⟨b, -, hb⟩ := hdata x hx hd 0 (hL.data_bounds hx hd).2.1
    by_contra hneg
    rw [byteAt, if_pos (by omega)] at hb
    cases hb
  · intro hptr
    obtain ⟨c, hI, rfl⟩ :=
      coff2noff_eq_some hsec hnoff (fun x hx K hK => hL.size_nonneg hx hK) hL.once
    have hg := hI.good hL hbm hF
    have hhdr : readHeader (headerBytes c.noffH ++ c.out) stack' = c.noffH :=
      readHeader_headerBytes hI.ints _ _
    obtain ⟨b, hb, hbytes⟩ := hI.readSegments hL hbm hF
    have hseg : c.noffH.actualSegmentSize = dataSize secs := hg.actualSegmentSize_eq.trans hI.total
    have hspace : c.noffH.addressSpaceSize = dataSize secs + bssSize secs + userStackSize := by
      rw [hg.addressSpaceSize_eq, ← hI.total, ← hI.bss]
      ring
    have hfree : c.noffH.numPages ≤ bm.numClear := by
      rw [hg.numPages_eq, hspace]
      unfold Fits at hF
      omega
    obtain ⟨sp, bm', mem', hload⟩ := load_good hhdr hg hI.magic hb hfree mem
    have hspec : LoadSpec c.noffH (headerBytes c.noffH ++ c.out) bm mem sp bm' mem' := by
      apply loadLocked_ok
      simpa [load, hhdr, hI.magic] using hload
    obtain ⟨b', hb', hshow⟩ := hspec.bytes
    rw [hb] at hb'
    cases hb'
    rw [hseg] at hshow
    have h1 := hL.dataSize_nonneg
    have h2 := hL.bssSize_nonneg
    -- behind the data and below the end of the stack there are zeros
    have hzero : ∀ v : ℕ, dataSize secs ≤ v → v < dataSize secs + bssSize secs + userStackSize →
        vbyte mem' sp.pageTable v = some 0 := by
      intro v hv1 hv2
      rw [hshow v (hg.lt_pages (hspace.symm ▸ hv2)), if_neg (not_lt.mpr hv1)]
    refine ⟨sp, bm', mem', hload, fun x hx hd k hk => ?_, fun x hx hbss k hk => ?_, fun k hk => ?_⟩
    · obtain ⟨hp0, -, hend⟩ := hL.data_bounds hx hd
      have hv : ((x.s_paddr.toNat + k : ℕ) : ℤ) = x.s_paddr + k := by omega
      refine ⟨b (x.s_paddr + k), ?_, (hbytes x hx hd (hptr x hx hd) k hk).symm⟩
      rw [hshow _ (hg.lt_pages (by unfold userStackSize at hspace; omega)), hv, if_pos (by omega)]
    · obtain ⟨hp, -⟩ := hL.bss x hx hbss
      have hle := hL.bss_le hx hbss
      exact hzero _ (by omega) (by unfold userStackSize; omega)
    · exact hzero _ (by omega) (by omega)

/-- A COFF file with the four bytes 1, 2, 3, 4 behind its headers and one
section, `.text` at address 0, of four bytes from `s_scnptr` on. -/
def oneSection (s_scnptr : ℤ) : List Byte :=
  [0x62, 0x01, 1, 0] ++ List.replicate 16 0 ++ ([0x07, 0x01] ++ List.replicate 54 0) ++
    ([46, 116, 101, 120, 116, 0, 0, 0] ++ List.replicate 8 0 ++ Bytes.wordBytes 4 ++
      Bytes.wordBytes (BitVec.ofInt 32 s_scnptr) ++ List.replicate 16 0) ++ [1, 2, 3, 4]

/-- Its section header. -/
def textHeader (s_scnptr : ℤ) : ScnHdr := ⟨[46, 116, 101, 120, 116], 0, 4, s_scnptr⟩

theorem layout_oneSection (p : ℤ) : Layout [textHeader p] where
  once := List.pairwise_singleton _ _
  order := ⟨[textHeader p], List.Perm.refl _, rfl, (show (0 : ℤ) < 4 by decide), trivial⟩
  bss := fun x hx hb => by
    rw [List.mem_singleton.mp hx] at hb
    exact absurd hb.2 (by simp [textHeader, ScnHdr.kind])

set_option maxRecDepth 20000 in
theorem fits_oneSection (p : ℤ) : Fits [textHeader p] (Bitmap.new numPhysPages) := by
  have h1 : dataSize [textHeader p] = 4 := rfl
  have h2 : bssSize [textHeader p] = 0 := rfl
  unfold Fits
  rw [h1, h2]
  decide

/-- With its file pointer behind the headers the file is loaded as it is. -/
theorem agrees_iff_oneSection :
    ∃ noff, readSections (oneSection 116) = some ([textHeader 116], 116) ∧
    coff2noff (fun _ => 0) (oneSection 116) = some noff ∧
    Agrees (oneSection 116) [textHeader 116] noff (fun _ => 0) (Bitmap.new numPhysPages)
    (fun _ => 0) := by
  have hsec : readSections (oneSection 116) = some ([textHeader 116], 116) := by decide
  have hsome : (coff2noff (fun _ => 0) (oneSection 116)).isSome = true := by decide
  obtain ⟨noff, hnoff⟩ := Option.isSome_iff_exists.mp hsome
  refine ⟨noff, hsec, hnoff, (agrees_iff hsec hnoff (layout_oneSection 116) (Bitmap.numBits_new _)
    (fits_oneSection 116)).mpr fun x hx _ => ?_⟩
  rw [List.mem_singleton.mp hx]
  decide

set_option maxRecDepth 20000 in
/-- With `s_scnptr = -1` the file is taken as well; address 1 then shows 2, and
byte `-1 + 1` of the file is `0x62`. -/
theorem negative_scnptr_accepted :
    ∃ noff, readSections (oneSection (-1)) = some ([textHeader (-1)], 116) ∧
    Layout [textHeader (-1)] ∧ Fits [textHeader (-1)] (Bitmap.new numPhysPages) ∧
    coff2noff (fun _ => 0) (oneSection (-1)) = some noff ∧
    (∃ sp bm' mem', load noff (fun _ => 0) (Bitmap.new numPhysPages) (fun _ => 0) =
      .ok sp bm' mem' ∧
      vbyte mem' sp.pageTable 1 = some 2 ∧ byteAt (oneSection (-1)) (-1 + 1) = some 0x62) ∧
    ¬ Agrees (oneSection (-1)) [textHeader (-1)] noff (fun _ => 0) (Bitmap.new numPhysPages)
    (fun _ => 0) := by
  have hsec : readSections (oneSection (-1)) = some ([textHeader (-1)], 116) := by decide
  have hrun : ((coff2noff (fun _ => 0) (oneSection (-1))).any fun noff =>
      match load noff (fun _ => 0) (Bitmap.new numPhysPages) (fun _ => 0) with
      | .ok sp _ mem' => decide (vbyte mem' sp.pageTable 1 = some 2)
      | _ => false) = true := by decide
  obtain ⟨noff, hnoff, hload⟩ := (Option.any_eq_true _ _).mp hrun
  split at hload
  · rename_i sp bm' mem' hok
    have hv := of_decide_eq_true hload
    have hb : byteAt (oneSection (-1)) (-1 + 1) = some 0x62 := by decide
    refine ⟨noff, hsec, layout_oneSection _, fits_oneSection _, hnoff,
      ⟨sp, bm', mem', hok, hv, hb⟩, ?_⟩
    rintro ⟨sp1, bm1, mem1, hok1, hdata, -⟩
    rw [hok] at hok1
    cases hok1
    obtain ⟨b, h1, h2⟩ := hdata (textHeader (-1)) List.mem_cons_self (by decide) 1 (by decide)
    rw [show (textHeader (-1)).s_paddr.toNat + 1 = 1 from rfl, hv] at h1
    rw [show (textHeader (-1)).s_scnptr + ((1 : ℕ) : ℤ) = -1 + 1 from rfl, hb] at h2
    rw [← h1] at h2
    exact absurd h2 (by decide)
  · cases hload

end Nachos
