/-
# coff2noff (`coff2noff/coff2noff.c`)

The converter that makes the files `AddrSpace::Load` reads: the section
headers of a COFF file are read, every non-empty section is copied behind the
room for the NOFF header, and the header is written last. Built with `-DRDATA
-m32` on a little-endian host: `long` is 32 bits, the `...ToHost` functions do
nothing.

The host file is a list of bytes with a position. `lseek` to a negative
offset fails and leaves the position, which `main` does not look at; `read`
returns the bytes that are there, and -1 for a count that is negative.

`ConvInv` says what the loop over the sections has written after any number of
them.

Key definitions: `ScnHdr`, `readSections`, `copySection`, `coff2noff`, `ConvInv`.
Key theorems: `copySections_inv`, `readHeader_headerBytes`.
-/
import Mathlib
import Nachos.Userprog.AddrSpace

namespace Nachos

open Bytes (Byte)

/-! ### The COFF file -/

/-- `struct scnhdr`, the fields `main` uses; `s_name` up to its NUL. -/
structure ScnHdr where
  s_name : List Byte
  s_paddr : ℤ
  s_size : ℤ
  s_scnptr : ℤ
  deriving DecidableEq

/-- The section names `main` knows. -/
inductive Kind
  | text | data | rdata | bss
  deriving DecidableEq

/-- The `strcmp`s on the name: `.text`, `.data`, `.rdata`, `.bss`. -/
def ScnHdr.kind (x : ScnHdr) : Option Kind :=
  if x.s_name = [46, 116, 101, 120, 116] then some .text
  else if x.s_name = [46, 100, 97, 116, 97] then some .data
  else if x.s_name = [46, 114, 100, 97, 116, 97] then some .rdata
  else if x.s_name = [46, 98, 115, 115] then some .bss
  else none

/-- `MIPSELMAGIC`. -/
def mipselMagic : BitVec 16 := 0x0162
/-- `OMAGIC`, octal 407. -/
def oMagic : BitVec 16 := 263
/-- `sizeof(struct filehdr)`. -/
def sizeofFilehdr : ℕ := 20
/-- `sizeof(struct aouthdr)`. -/
def sizeofAouthdr : ℕ := 56
/-- `sizeof(struct scnhdr)`. -/
def sizeofScnhdr : ℕ := 40

/-- The `short` at byte `o`. -/
def shortAt (b : ℕ → Byte) (o : ℕ) : BitVec 16 := b (o + 1) ++ b o

/-- The layout of a section header. -/
def scnhdrAt (b : ℕ → Byte) (o : ℕ) : ScnHdr where
  s_name := ((List.range 8).map fun k => b (o + k)).takeWhile (· ≠ 0)
  s_paddr := intAt b (o + 8)
  s_size := intAt b (o + 16)
  s_scnptr := intAt b (o + 20)

/-- The position of `fdIn` after `lseek(fdIn, offset, 0)`. -/
def lseek (pos : ℕ) (offset : ℤ) : ℕ := if offset < 0 then pos else offset.toNat

/-- `Read(fdIn, buf, nBytes)` at `pos`; `none` is the error exit. -/
def read (file : List Byte) (pos : ℕ) (nBytes : ℤ) : Option (List Byte) :=
  if nBytes < 0 then if nBytes = -1 then some [] else none
  else
    let buf := (file.drop pos).take nBytes.toNat
    if buf.length = nBytes.toNat then some buf else none

/-- `main` to the end of the section headers; the position is then behind them. -/
def readSections (file : List Byte) : Option (List ScnHdr × ℕ) :=
  (read file 0 sizeofFilehdr).bind fun fileh =>
    if shortAt (fun k => fileh.getD k 0) 0 ≠ mipselMagic then none
    else (read file sizeofFilehdr sizeofAouthdr).bind fun systemh =>
      if shortAt (fun k => systemh.getD k 0) 0 ≠ oMagic then none
      else
        let numsections := (shortAt (fun k => fileh.getD k 0) 2).toNat
        let pos := sizeofFilehdr + sizeofAouthdr
        (read file pos (numsections * sizeofScnhdr : ℕ)).map fun sections =>
          ((List.range numsections).map fun i => scnhdrAt (fun k => sections.getD k 0)
            (i * sizeofScnhdr), pos + numsections * sizeofScnhdr)

/-! ### The NOFF file -/

/-- The segment a section goes to. -/
def NoffHeader.seg (h : NoffHeader) : Kind → Segment
  | .text => h.code
  | .data => h.initData
  | .rdata => h.readonlyData
  | .bss => h.uninitData

def NoffHeader.setSeg (h : NoffHeader) (s : Segment) : Kind → NoffHeader
  | .text => { h with code := s }
  | .data => { h with initData := s }
  | .rdata => { h with readonlyData := s }
  | .bss => { h with uninitData := s }

theorem NoffHeader.seg_setSeg (h : NoffHeader) (s : Segment) (K K' : Kind) :
    (h.setSeg s K).seg K' = if K' = K then s else h.seg K' := by
  cases K <;> cases K' <;> rfl

theorem NoffHeader.magic_setSeg (h : NoffHeader) (s : Segment) (K : Kind) :
    (h.setSeg s K).noffMagic = h.noffMagic := by
  cases K <;> rfl

/-- What the loop over the sections carries: the header, `inNoffFile`, the
position of `fdIn`, and the bytes written behind the header. -/
structure Conv where
  noffH : NoffHeader
  inNoffFile : ℤ
  pos : ℕ
  out : List Byte

/-- The header before the loop: the sizes are set, the rest is what the stack held. -/
def startHeader (stack : ℕ → Byte) : NoffHeader :=
  let h := noffHeaderAt stack
  { noffMagic := noffMagicNumber
    code := { h.code with size := 0 }
    initData := { h.initData with size := 0 }
    readonlyData := { h.readonlyData with size := 0 }
    uninitData := { h.uninitData with size := 0 } }

/-- The branch for `.text`, `.data` and `.rdata`, which do the same with three
segments of the header. -/
def copySegment (file : List Byte) (c : Conv) (x : ScnHdr) (kind : Kind) : Option Conv :=
  (read file (lseek c.pos x.s_scnptr) x.s_size).map fun buffer =>
    { noffH := c.noffH.setSeg ⟨x.s_paddr, c.inNoffFile, x.s_size⟩ kind
      inNoffFile := wrap32 (c.inNoffFile + x.s_size)
      pos := lseek c.pos x.s_scnptr + buffer.length
      out := c.out ++ buffer }

/-- The branch for `.bss`. -/
def copyBss (c : Conv) (x : ScnHdr) : Option Conv :=
  let s := c.noffH.uninitData
  if s.size ≠ 0 then
    if x.s_paddr = wrap32 (s.virtualAddr + s.size) then none
    else some { c with noffH := c.noffH.setSeg { s with size := wrap32 (s.size + x.s_size) } .bss }
  else some
    { c with noffH := c.noffH.setSeg { s with virtualAddr := x.s_paddr, size := x.s_size } .bss }

/-- One pass of the loop. -/
def copySection (file : List Byte) (c : Conv) (x : ScnHdr) : Option Conv :=
  if x.s_size = 0 then some c
  else
    match x.kind with
    | some .bss => copyBss c x
    | some kind => copySegment file c x kind
    | none => none

/-- The fields of the header in their order. -/
def NoffHeader.ints (h : NoffHeader) : List ℤ :=
  [h.noffMagic, h.code.virtualAddr, h.code.inFileAddr, h.code.size,
    h.initData.virtualAddr, h.initData.inFileAddr, h.initData.size,
    h.readonlyData.virtualAddr, h.readonlyData.inFileAddr, h.readonlyData.size,
    h.uninitData.virtualAddr, h.uninitData.inFileAddr, h.uninitData.size]

theorem NoffHeader.mem_ints {h : NoffHeader} {y : ℤ} : y ∈ h.ints ↔ y = h.noffMagic ∨
    ∃ K, y = (h.seg K).virtualAddr ∨ y = (h.seg K).inFileAddr ∨ y = (h.seg K).size := by
  constructor
  · intro hy
    simp only [NoffHeader.ints, List.mem_cons, List.not_mem_nil, or_false] at hy
    rcases hy with h | h | h | h | h | h | h | h | h | h | h | h | h
    · exact Or.inl h
    · exact Or.inr ⟨.text, Or.inl h⟩
    · exact Or.inr ⟨.text, Or.inr (Or.inl h)⟩
    · exact Or.inr ⟨.text, Or.inr (Or.inr h)⟩
    · exact Or.inr ⟨.data, Or.inl h⟩
    · exact Or.inr ⟨.data, Or.inr (Or.inl h)⟩
    · exact Or.inr ⟨.data, Or.inr (Or.inr h)⟩
    · exact Or.inr ⟨.rdata, Or.inl h⟩
    · exact Or.inr ⟨.rdata, Or.inr (Or.inl h)⟩
    · exact Or.inr ⟨.rdata, Or.inr (Or.inr h)⟩
    · exact Or.inr ⟨.bss, Or.inl h⟩
    · exact Or.inr ⟨.bss, Or.inr (Or.inl h)⟩
    · exact Or.inr ⟨.bss, Or.inr (Or.inr h)⟩
  · rintro (rfl | ⟨K, h⟩)
    · simp [NoffHeader.ints]
    · cases K <;> rcases h with rfl | rfl | rfl <;> simp [NoffHeader.ints, NoffHeader.seg]

/-- `Write(fdOut, &noffH, sizeof(NoffHeader))`. -/
def headerBytes (h : NoffHeader) : List Byte :=
  h.ints.flatMap fun x => Bytes.wordBytes (BitVec.ofInt 32 x)

/-- `main`: the file it writes, or `none` for `exit(1)`. -/
def coff2noff (stack : ℕ → Byte) (file : List Byte) : Option (List Byte) :=
  (readSections file).bind fun r =>
    (r.1.foldlM (copySection file) ⟨startHeader stack, sizeofNoffHeader, r.2, []⟩).map fun c =>
      headerBytes c.noffH ++ c.out

/-! ### Header and file -/

/-- A 32-bit integer. -/
def IsInt (x : ℤ) : Prop := wrap32 x = x

theorem isInt_wrap32 (x : ℤ) : IsInt (wrap32 x) := by
  unfold IsInt wrap32
  exact Int.bmod_bmod

theorem isInt_intAt (b : ℕ → Byte) (o : ℕ) : IsInt (intAt b o) := by
  unfold IsInt wrap32 intAt
  exact BitVec.toInt_bmod_cancel _

/-- The words of a file, read back one at a time. -/
theorem intAt_flatMap (l : List ℤ) (i : ℕ) (hi : i < l.length) (out : List Byte) (d : ℕ → Byte) :
    intAt (fun k => ((l.flatMap fun x => Bytes.wordBytes (BitVec.ofInt 32 x)) ++ out).getD k (d k))
    (4 * i) =
      (BitVec.ofInt 32 l[i]).toInt := by
  induction l generalizing i d with
  | nil => exact absurd hi (Nat.not_lt_zero i)
  | cons x l ih =>
    cases i with
    | zero =>
      simp only [intAt, List.flatMap_cons, Bytes.wordBytes, List.cons_append, List.nil_append,
        Nat.mul_zero, Nat.zero_add, List.getD_cons_zero, List.getD_cons_succ,
        List.getElem_cons_zero, Bytes.word_wordBytes]
    | succ i =>
      rw [List.getElem_cons_succ, ← ih i (by simpa using hi) fun k => d (k + 4)]
      simp only [intAt, List.flatMap_cons, Bytes.wordBytes, List.cons_append, List.nil_append,
        Nat.mul_add, Nat.add_right_comm _ 4, List.getD_cons_succ]

/-- What is read back from the bytes of a header is the header. -/
theorem readHeader_headerBytes {h : NoffHeader} (hi : ∀ x ∈ h.ints, IsInt x) (out : List Byte)
    (stack : ℕ → Byte) :
    readHeader (headerBytes h ++ out) stack = h := by
  have hw : ∀ (i : ℕ) (hl : i < 13),
      intAt (fun k => (headerBytes h ++ out).getD k (stack k)) (4 * i) = h.ints.get ⟨i, hl⟩ := by
    intro i hl
    rw [headerBytes, intAt_flatMap h.ints i hl, BitVec.toInt_ofInt]
    exact hi _ (List.getElem_mem hl)
  obtain ⟨magic, ⟨v1, f1, s1⟩, ⟨v2, f2, s2⟩, ⟨v3, f3, s3⟩, ⟨v4, f4, s4⟩⟩ := h
  simp only [readHeader, noffHeaderAt, segmentAt, NoffHeader.mk.injEq, Segment.mk.injEq]
  exact ⟨hw 0 (by decide), ⟨hw 1 (by decide), hw 2 (by decide), hw 3 (by decide)⟩,
    ⟨hw 4 (by decide), hw 5 (by decide), hw 6 (by decide)⟩,
    ⟨hw 7 (by decide), hw 8 (by decide), hw 9 (by decide)⟩,
    ⟨hw 10 (by decide), hw 11 (by decide), hw 12 (by decide)⟩⟩

theorem length_headerBytes (h : NoffHeader) : (headerBytes h).length = sizeofNoffHeader := rfl

/-! ### The loop -/

/-- A non-empty section that is copied. -/
def ScnHdr.IsData (x : ScnHdr) : Prop :=
  x.s_size ≠ 0 ∧ (x.kind = some .text ∨ x.kind = some .data ∨ x.kind = some .rdata)

def ScnHdr.IsBss (x : ScnHdr) : Prop := x.s_size ≠ 0 ∧ x.kind = some .bss

instance : DecidablePred ScnHdr.IsData := fun _ => inferInstanceAs (Decidable (_ ∧ _))

instance : DecidablePred ScnHdr.IsBss := fun _ => inferInstanceAs (Decidable (_ ∧ _))

/-- The bytes of the sections that are copied. -/
def dataSize (secs : List ScnHdr) : ℤ := ((secs.filter ScnHdr.IsData).map ScnHdr.s_size).sum

def bssSize (secs : List ScnHdr) : ℤ := ((secs.filter ScnHdr.IsBss).map ScnHdr.s_size).sum

/-- The segment holds section `x`: it is in the output from byte `o` on. -/
structure Copied (file : List Byte) (c : Conv) (x : ScnHdr) (s : Segment) (o : ℕ) : Prop where
  seg : s = ⟨x.s_paddr, wrap32 (sizeofNoffHeader + o), x.s_size⟩
  inside : o + x.s_size.toNat ≤ c.out.length
  bytes : 0 ≤ x.s_scnptr → ∀ k < x.s_size.toNat, c.out[o + k]? = file[x.s_scnptr.toNat + k]?

/-- After the sections `done`. -/
structure ConvInv (file : List Byte) (done : List ScnHdr) (c : Conv) : Prop where
  magic : c.noffH.noffMagic = noffMagicNumber
  ints : ∀ x ∈ c.noffH.ints, IsInt x
  offset : c.inNoffFile = wrap32 (sizeofNoffHeader + c.out.length)
  length : (c.out.length : ℤ) = dataSize done
  total : c.noffH.code.size + c.noffH.initData.size + c.noffH.readonlyData.size = dataSize done
  bss : c.noffH.uninitData.size = bssSize done
  absent : ∀ K, (∀ x ∈ done, x.s_size ≠ 0 → x.kind ≠ some K) → (c.noffH.seg K).size = 0
  placed : ∀ x ∈ done, x.IsData → ∀ K, x.kind = some K → ∃ o, Copied file c x (c.noffH.seg K) o

theorem dataSize_concat (done : List ScnHdr) (x : ScnHdr) :
    dataSize (done ++ [x]) = dataSize done + if x.IsData then x.s_size else 0 := by
  simp only [dataSize, List.filter_append, List.map_append, List.sum_append, List.filter_singleton]
  split_ifs <;> simp_all

theorem bssSize_concat (done : List ScnHdr) (x : ScnHdr) :
    bssSize (done ++ [x]) = bssSize done + if x.IsBss then x.s_size else 0 := by
  simp only [bssSize, List.filter_append, List.map_append, List.sum_append, List.filter_singleton]
  split_ifs <;> simp_all

theorem Copied.append {file : List Byte} {c : Conv} {x : ScnHdr} {s : Segment} {o : ℕ}
    (h : Copied file c x s o) (buffer : List Byte) {h' : NoffHeader} {n : ℤ} {pos : ℕ} :
    Copied file ⟨h', n, pos, c.out ++ buffer⟩ x s o := by
  have hin := h.inside
  refine ⟨h.seg, by rw [List.length_append]; omega, fun h0 k hk => ?_⟩
  rw [← h.bytes h0 k hk]
  exact List.getElem?_append_left (by omega)

theorem ints_setSeg {h : NoffHeader} {s : Segment} {K : Kind} (hi : ∀ x ∈ h.ints, IsInt x)
    (hs : IsInt s.virtualAddr ∧ IsInt s.inFileAddr ∧ IsInt s.size) :
    ∀ x ∈ (h.setSeg s K).ints, IsInt x := by
  intro y hy
  rcases NoffHeader.mem_ints.mp hy with rfl | ⟨K', h'⟩
  · rw [NoffHeader.magic_setSeg]
    exact hi _ (NoffHeader.mem_ints.mpr (Or.inl rfl))
  · rw [NoffHeader.seg_setSeg] at h'
    split_ifs at h'
    · rcases h' with rfl | rfl | rfl
      · exact hs.1
      · exact hs.2.1
      · exact hs.2.2
    · exact hi y (NoffHeader.mem_ints.mpr (Or.inr ⟨K', h'⟩))

/-- An empty section changes nothing. -/
theorem ConvInv.skip {file : List Byte} {done : List ScnHdr} {c : Conv} {x : ScnHdr}
    (hI : ConvInv file done c) (hx : x.s_size = 0) : ConvInv file (done ++ [x]) c := by
  have hd : dataSize (done ++ [x]) = dataSize done := by
    rw [dataSize_concat, if_neg fun h => h.1 hx, add_zero]
  have hb : bssSize (done ++ [x]) = bssSize done := by
    rw [bssSize_concat, if_neg fun h => h.1 hx, add_zero]
  refine
    { magic := hI.magic
      ints := hI.ints
      offset := hI.offset
      length := by rw [hd]; exact hI.length
      total := by rw [hd]; exact hI.total
      bss := by rw [hb]; exact hI.bss
      absent := fun K h => hI.absent K fun y hy => h y (List.mem_append_left _ hy)
      placed := fun y hy hyd => ?_ }
  rcases List.mem_append.mp hy with hy | hy
  · exact hI.placed y hy hyd
  · rw [List.mem_singleton.mp hy] at hyd
    exact absurd hx hyd.1

theorem read_eq_some {file buf : List Byte} {pos : ℕ} {n : ℤ} (hn : 0 ≤ n)
    (h : read file pos n = some buf) :
    buf = (file.drop pos).take n.toNat ∧ buf.length = n.toNat := by
  unfold read at h
  rw [if_neg (not_lt.mpr hn)] at h
  simp only at h
  split_ifs at h with hl
  cases h
  exact ⟨rfl, hl⟩

/-- `.text`, `.data` or `.rdata`, the first of its kind. -/
theorem ConvInv.segment {file : List Byte} {done : List ScnHdr} {c c' : Conv}
    {x : ScnHdr} {K : Kind} (hI : ConvInv file done c) (hx : 0 < x.s_size) (hp : IsInt x.s_paddr)
    (hs : IsInt x.s_size) (hK : x.kind = some K) (hbss : K ≠ .bss)
    (hnew : ∀ y ∈ done, y.kind ≠ some K) (h : copySegment file c x K = some c') :
    ConvInv file (done ++ [x]) c' := by
  obtain ⟨buffer, hread, rfl⟩ := Option.map_eq_some_iff.mp h
  obtain ⟨hbuf, hlen⟩ := read_eq_some hx.le hread
  have hdata : x.IsData := ⟨hx.ne', by cases K <;> simp_all⟩
  have hd : dataSize (done ++ [x]) = dataSize done + x.s_size := by
    rw [dataSize_concat, if_pos hdata]
  have hb : bssSize (done ++ [x]) = bssSize done := by
    rw [bssSize_concat, if_neg, add_zero]
    rintro ⟨-, h⟩
    rw [hK] at h
    exact hbss (Option.some.inj h)
  have hzero : (c.noffH.seg K).size = 0 := hI.absent K fun y hy _ => hnew y hy
  have hsize : ((c.out ++ buffer).length : ℤ) = c.out.length + x.s_size := by
    rw [List.length_append, hlen]
    push_cast
    omega
  have hoff : IsInt c.inNoffFile := hI.offset ▸ isInt_wrap32 _
  refine
    { magic := by rw [NoffHeader.magic_setSeg]; exact hI.magic
      ints := ints_setSeg hI.ints ⟨hp, hoff, hs⟩
      offset := ?_
      length := by rw [hd, hsize, hI.length]
      total := ?_
      bss := ?_
      absent := fun K' h' => ?_
      placed := fun y hy hyd K' hK' => ?_ }
  · show wrap32 (c.inNoffFile + x.s_size) = wrap32
      (sizeofNoffHeader + ((c.out ++ buffer).length : ℤ))
    rw [hsize, hI.offset, ← add_assoc]
    exact Int.bmod_add_bmod ..
  · have ht := hI.total
    rw [hd, ← ht]
    cases K <;> simp only [NoffHeader.seg] at hzero <;> simp only [NoffHeader.setSeg] <;>
      first | omega | exact absurd rfl hbss
  · have := (c.noffH.seg_setSeg ⟨x.s_paddr, c.inNoffFile, x.s_size⟩ K .bss)
    rw [if_neg hbss.symm] at this
    rw [hb, ← hI.bss]
    exact congrArg Segment.size this
  · have hne : K' ≠ K := by
      rintro rfl
      exact h' x (by simp) hx.ne' hK
    rw [NoffHeader.seg_setSeg, if_neg hne]
    exact hI.absent K' fun y hy => h' y (List.mem_append_left _ hy)
  · rw [NoffHeader.seg_setSeg]
    rcases List.mem_append.mp hy with hy | hy
    · have hne : K' ≠ K := by
        rintro rfl
        exact hnew y hy hK'
      rw [if_neg hne]
      obtain ⟨o, ho⟩ := hI.placed y hy hyd K' hK'
      exact ⟨o, ho.append buffer⟩
    · rw [List.mem_singleton.mp hy] at hK' ⊢
      rw [if_pos (Option.some.inj (hK'.symm.trans hK))]
      refine ⟨c.out.length, by rw [hI.offset], by simp [hlen], fun h0 k hk => ?_⟩
      rw [List.getElem?_append_right (Nat.le_add_right _ _), Nat.add_sub_cancel_left, hbuf, lseek,
        if_neg (not_lt.mpr h0), List.getElem?_take_of_lt hk, List.getElem?_drop]

/-- `.bss`, the first of its kind. -/
theorem ConvInv.copyBss {file : List Byte} {done : List ScnHdr} {c c' : Conv} {x : ScnHdr}
    (hI : ConvInv file done c) (hx : 0 < x.s_size) (hp : IsInt x.s_paddr) (hs : IsInt x.s_size)
    (hK : x.kind = some .bss) (hnew : ∀ y ∈ done, y.kind ≠ some .bss)
    (h : Nachos.copyBss c x = some c') :
    ConvInv file (done ++ [x]) c' := by
  have hzero : c.noffH.uninitData.size = 0 := hI.absent .bss fun y hy _ => hnew y hy
  simp only [Nachos.copyBss, hzero, ne_eq, not_true_eq_false, if_false] at h
  cases h
  have hd : dataSize (done ++ [x]) = dataSize done := by
    rw [dataSize_concat, if_neg, add_zero]
    rintro ⟨-, h⟩
    rw [hK] at h
    simp at h
  have hb : bssSize (done ++ [x]) = x.s_size := by
    rw [bssSize_concat, if_pos ⟨hx.ne', hK⟩, ← hI.bss, hzero, zero_add]
  refine
    { magic := hI.magic
      ints := ints_setSeg hI.ints
        ⟨hp, hI.ints _ (NoffHeader.mem_ints.mpr (Or.inr ⟨.bss, Or.inr (Or.inl rfl)⟩)), hs⟩
      offset := hI.offset
      length := by rw [hd]; exact hI.length
      total := by rw [hd]; exact hI.total
      bss := hb.symm
      absent := fun K' h' => ?_
      placed := fun y hy hyd K' hK' => ?_ }
  · have hne : K' ≠ .bss := by
      rintro rfl
      exact h' x (by simp) hx.ne' hK
    rw [NoffHeader.seg_setSeg, if_neg hne]
    exact hI.absent K' fun y hy => h' y (List.mem_append_left _ hy)
  · have hne : K' ≠ .bss := by
      rintro rfl
      have := hyd.2
      rw [hK'] at this
      simp at this
    rw [NoffHeader.seg_setSeg, if_neg hne]
    rcases List.mem_append.mp hy with hy | hy
    · obtain ⟨o, ho⟩ := hI.placed y hy hyd K' hK'
      exact ⟨o, ho.seg, ho.inside, ho.bytes⟩
    · rw [List.mem_singleton.mp hy, hK] at hK'
      exact absurd (Option.some.inj hK').symm hne

/-- Section headers of 32-bit fields, no section of a known kind with a
negative size, and no two of one kind. -/
structure Plain (secs : List ScnHdr) : Prop where
  ints : ∀ x ∈ secs, IsInt x.s_paddr ∧ IsInt x.s_size
  size : ∀ x ∈ secs, ∀ K, x.kind = some K → 0 ≤ x.s_size
  once : secs.Pairwise fun x y => ∀ K, x.kind = some K → y.kind ≠ some K

/-- The loop over the sections left. -/
theorem copySections_inv {file : List Byte} (l done : List ScnHdr) {c c' : Conv}
    (hP : Plain (done ++ l)) (hI : ConvInv file done c)
    (h : l.foldlM (copySection file) c = some c') : ConvInv file (done ++ l) c' := by
  induction l generalizing done c with
  | nil =>
    cases h
    rw [List.append_nil]
    exact hI
  | cons x l ih =>
    rw [List.foldlM_cons] at h
    obtain ⟨c1, h1, h2⟩ := Option.bind_eq_some_iff.mp h
    have hsplit : done ++ x :: l = (done ++ [x]) ++ l := by simp
    have hmem : x ∈ done ++ x :: l := by simp
    have hnew : ∀ K, x.kind = some K → ∀ y ∈ done, y.kind ≠ some K := fun K hK y hy hyK =>
      (List.pairwise_append.mp hP.once).2.2 y hy x List.mem_cons_self K hyK hK
    rw [hsplit] at hP ⊢
    refine ih (done ++ [x]) hP ?_ h2
    unfold copySection at h1
    split_ifs at h1 with h0
    · cases h1
      exact hI.skip h0
    · obtain ⟨hp, hs⟩ := hP.ints x (by simp)
      have hpos : ∀ K, x.kind = some K → 0 < x.s_size := fun K hK =>
        lt_of_le_of_ne (hP.size x (by simp) K hK) (Ne.symm h0)
      split at h1
      · rename_i hK
        exact hI.copyBss (hpos _ hK) hp hs hK (hnew _ hK) h1
      · rename_i K hbss hK
        exact hI.segment (hpos _ hK) hp hs hK hbss (hnew _ hK) h1
      · cases h1

theorem convInv_start (file : List Byte) (stack : ℕ → Byte) (pos : ℕ) :
    ConvInv file [] ⟨startHeader stack, sizeofNoffHeader, pos, []⟩ := by
  have h0 : IsInt 0 := show wrap32 0 = 0 by decide
  have hmagic : IsInt noffMagicNumber := show wrap32 noffMagicNumber = noffMagicNumber by decide
  have hoff : (sizeofNoffHeader : ℤ) = wrap32 sizeofNoffHeader := by decide
  refine ⟨rfl, fun y hy => ?_, hoff, rfl, rfl, rfl, fun K _ => by cases K <;> rfl,
    fun x hx => absurd hx List.not_mem_nil⟩
  rcases NoffHeader.mem_ints.mp hy with rfl | ⟨K, h⟩
  · exact hmagic
  · rcases h with rfl | rfl | rfl
    · cases K <;> exact isInt_intAt _ _
    · cases K <;> exact isInt_intAt _ _
    · cases K <;> exact h0

theorem scnhdrAt_ints (b : ℕ → Byte) (o : ℕ) :
    IsInt (scnhdrAt b o).s_paddr ∧ IsInt (scnhdrAt b o).s_size :=
  ⟨isInt_intAt b (o + 8), isInt_intAt b (o + 16)⟩

theorem readSections_ints {file : List Byte} {secs : List ScnHdr} {pos : ℕ}
    (h : readSections file = some (secs, pos)) :
    ∀ x ∈ secs, IsInt x.s_paddr ∧ IsInt x.s_size := by
  obtain ⟨fileh, -, h⟩ := Option.bind_eq_some_iff.mp h
  split at h
  · cases h
  · obtain ⟨systemh, -, h⟩ := Option.bind_eq_some_iff.mp h
    split at h
    · cases h
    · obtain ⟨sections, -, h⟩ := Option.map_eq_some_iff.mp h
      intro x hx
      have hs := congrArg Prod.fst h
      simp only at hs
      rw [← hs] at hx
      obtain ⟨i, -, hi⟩ := List.mem_map.mp hx
      rw [← hi]
      exact scnhdrAt_ints _ _

/-- The file written: the header and what the loop has written. -/
theorem coff2noff_eq_some {stack : ℕ → Byte} {file noff : List Byte} {secs : List ScnHdr} {pos : ℕ}
    (hsec : readSections file = some (secs, pos)) (h : coff2noff stack file = some noff)
    (hsize : ∀ x ∈ secs, ∀ K, x.kind = some K → 0 ≤ x.s_size)
    (honce : secs.Pairwise fun x y => ∀ K, x.kind = some K → y.kind ≠ some K) :
    ∃ c, ConvInv file secs c ∧ noff = headerBytes c.noffH ++ c.out := by
  rw [coff2noff, hsec] at h
  obtain ⟨c, hc, rfl⟩ := Option.map_eq_some_iff.mp h
  exact ⟨c, copySections_inv secs [] ⟨readSections_ints hsec, hsize, honce⟩
    (convInv_start file stack pos) hc, rfl⟩

end Nachos
