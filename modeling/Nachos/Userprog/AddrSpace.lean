/-
# Address spaces (`userprog/addrspace.cc`)

`AddrSpace::Load` reads the NOFF header of an executable, takes a free
physical page for every page of the address space and zeroes it, reads the
three initialized segments into a buffer and copies the buffer page by page
into the new pages. The header's fields are 32-bit `int`s and their sums wrap.
A file is the list of its bytes; what a short file does not fill of the header
is left as the stack had it.

* `allocPages_spec`: with enough clear bits the pages of the table are
  distinct, were clear, are the only bits set, and are zeroed; nothing else
  changes.
* `copyLoop_spec`: the copy of the buffer shows through the table.
* `loadLocked_ok`: so a load that succeeds gives a table whose virtual byte `v`
  is the buffer's byte `v`, and 0 above the buffer, and it leaves every other
  address of main memory alone.

Key definitions: `NoffHeader`, `noffHeaderAt`, `allocPages`, `readSegment`,
`copyPage`, `loadLocked`, `load`, `AddrSpace.delete`, `vbyte`.
-/
import Mathlib
import Nachos.Base.Int32
import Nachos.Lib.Bitmap
import Nachos.Machine.Translate

namespace Nachos

open Bytes (Byte Store)

/-! ### The header -/

/-- `struct segment` of `noff.h`. -/
structure Segment where
  virtualAddr : ℤ
  inFileAddr : ℤ
  size : ℤ
  deriving DecidableEq

/-- `struct noffHeader` of `noff.h`, with `RDATA`. -/
structure NoffHeader where
  noffMagic : ℤ
  code : Segment
  initData : Segment
  readonlyData : Segment
  uninitData : Segment
  deriving DecidableEq

/-- `NOFFMAGIC`. -/
def noffMagicNumber : ℤ := 0xbadfad
/-- `sizeof(NoffHeader)`: thirteen `int`s. -/
def sizeofNoffHeader : ℕ := 52
/-- `UserStackSize` of `addrspace.h`. -/
def userStackSize : ℤ := 1024

/-- The `int` at byte `o`. -/
def intAt (b : ℕ → Byte) (o : ℕ) : ℤ := (Bytes.word (b o) (b (o + 1)) (b (o + 2)) (b (o + 3))).toInt

def segmentAt (b : ℕ → Byte) (o : ℕ) : Segment := ⟨intAt b o, intAt b (o + 4), intAt b (o + 8)⟩

/-- The layout of the header. -/
def noffHeaderAt (b : ℕ → Byte) : NoffHeader :=
  ⟨intAt b 0, segmentAt b 4, segmentAt b 16, segmentAt b 28, segmentAt b 40⟩

/-- `executable->ReadAt(&noffH, sizeof(noffH), 0)`: bytes past the end of the
file keep what the stack held. -/
def readHeader (file : List Byte) (stack : ℕ → Byte) : NoffHeader :=
  noffHeaderAt fun k => file.getD k (stack k)

namespace NoffHeader

/-- `int addressSpaceSize`. -/
def addressSpaceSize (h : NoffHeader) : ℤ :=
  wrap32 (h.code.size + h.initData.size + h.uninitData.size + h.readonlyData.size + userStackSize)

/-- `unsigned int numPages = divRoundUp(addressSpaceSize, PageSize)`. -/
def numPages (h : NoffHeader) : ℕ := (divRoundUp h.addressSpaceSize pageSize % 2 ^ 32).toNat

/-- `int actualSegmentSize`. -/
def actualSegmentSize (h : NoffHeader) : ℤ :=
  wrap32 (h.code.size + h.initData.size + h.readonlyData.size)

/-- The segments `Load` reads, in its order. -/
def segments (h : NoffHeader) : List Segment := [h.code, h.initData, h.readonlyData]

end NoffHeader

/-! ### Load -/

/-- `class AddrSpace`: `numPages` is the length of the page table. -/
structure AddrSpace where
  pageTable : PageTable
  deriving DecidableEq

/-- `AddrSpace::AddrSpace`. -/
def AddrSpace.new : AddrSpace := ⟨[]⟩

/-- What the allocation loop carries. -/
structure Alloc where
  table : PageTable
  bm : Bitmap
  mem : Store

/-- One page: `FindAndSet`, a valid writable entry, `bzero`. -/
def allocPage (r : Alloc) (i : ℕ) : Alloc where
  table := r.table ++ [⟨i, r.bm.findAndSet.2, true, false, false, false⟩]
  bm := r.bm.findAndSet.1
  mem := Bytes.fill r.mem (r.bm.findAndSet.2 * pageSize) pageSize 0

/-- The allocation loop of `Load`. -/
def allocPages (bm : Bitmap) (mem : Store) (numPages : ℕ) : Alloc :=
  (List.range numPages).foldl allocPage ⟨[], bm, mem⟩

/-- The ways `Load` can leave the rails: an `ASSERT` (or `new`) stops the
kernel, or an access leaves the buffer or the page table. -/
inductive LoadFault
  | abort | overrun
  deriving DecidableEq

/-- `if (seg.size > 0) executable->ReadAt(buffer + seg.virtualAddr, seg.size,
seg.inFileAddr)` into a buffer of `size` bytes. `Lseek` asserts the position;
the host returns the bytes the file has. -/
def readSegment (size : ℤ) (file : List Byte) (buffer : Store) (seg : Segment) :
    Except LoadFault Store :=
  if 0 < seg.size then
    if seg.inFileAddr < 0 then .error .abort
    else
      let bytes := (file.drop seg.inFileAddr.toNat).take seg.size.toNat
      if bytes = [] ∨ (0 ≤ seg.virtualAddr ∧ seg.virtualAddr + bytes.length ≤ size) then
        .ok (Bytes.write buffer seg.virtualAddr bytes)
      else .error .overrun
  else .ok buffer

/-- The bytes of page `i` that the buffer fills. -/
def pageBytes (size : ℤ) (i : ℕ) : ℤ :=
  if (i * pageSize + pageSize : ℤ) > size then size - i * pageSize else pageSize

/-- One page of the copy loop: `bcopy(buffer + offset, main_mem + paddr, size)`. -/
def copyPage (pt : PageTable) (buffer : Store) (size : ℤ) (mem : Store) (i : ℕ) :
    Except LoadFault Store :=
  match pt[i]? with
  | none => .error .overrun
  | some e =>
    .ok (Bytes.copy buffer (i * pageSize) mem (e.physicalPage * pageSize) (pageBytes size i))

/-- `bzero(buffer, actualSegmentSize)`, then the three segments. -/
def readSegments (h : NoffHeader) (file : List Byte) : Except LoadFault Store :=
  h.segments.foldlM (readSegment h.actualSegmentSize file) fun _ => 0

/-- The copy loop over `actualPages` pages. -/
def copyPages (pt : PageTable) (buffer : Store) (size : ℤ) (mem : Store) : Except LoadFault Store :=
  (List.range (divRoundUp size pageSize).toNat).foldlM (copyPage pt buffer size) mem

/-- What `Load` leaves. -/
inductive LoadResult
  | noMemory
  | fault (f : LoadFault)
  | ok (space : AddrSpace) (bm : Bitmap) (mem : Store)

/-- The part of `Load` between `addrLock->P()` and `addrLock->V()`. -/
def loadLocked (h : NoffHeader) (file : List Byte) (bm : Bitmap) (mem : Store) : LoadResult :=
  if bm.numClear < h.numPages then .noMemory
  else
    let r := allocPages bm mem h.numPages
    -- `new char[actualSegmentSize]` of a negative size throws
    if h.actualSegmentSize < 0 then .fault .abort
    else
      match readSegments h file with
      | .error f => .fault f
      | .ok buffer =>
        match copyPages r.table buffer h.actualSegmentSize r.mem with
        | .error f => .fault f
        | .ok mem' => .ok ⟨r.table⟩ r.bm mem'

/-- `AddrSpace::Load` on a file that opens. On a little-endian host
`WordToHost` is the identity and the header is never swapped. -/
def load (file : List Byte) (stack : ℕ → Byte) (bm : Bitmap) (mem : Store) : LoadResult :=
  if (readHeader file stack).noffMagic ≠ noffMagicNumber then .fault .abort
  else loadLocked (readHeader file stack) file bm mem

/-- `AddrSpace::~AddrSpace`: every page of the table is set free. -/
def AddrSpace.delete (sp : AddrSpace) (bm : Bitmap) : Bitmap :=
  sp.pageTable.foldl (fun b e => b.clear e.physicalPage.toNat) bm

/-! ### The allocation loop -/

theorem allocPages_succ (bm : Bitmap) (mem : Store) (n : ℕ) :
    allocPages bm mem (n + 1) = allocPage (allocPages bm mem n) n := by
  simp [allocPages, List.range_succ]

/-- What `n` pages taken from `bm` leave. -/
structure AllocSpec (bm : Bitmap) (mem : Store) (n : ℕ) (r : Alloc) : Prop where
  length : r.table.length = n
  numBits : r.bm.numBits = bm.numBits
  entry : ∀ (i : ℕ) (e : TranslationEntry), r.table[i]? = some e →
    e = ⟨i, e.physicalPage, true, false, false, false⟩
  fresh : ∀ e ∈ r.table, ∃ p : ℕ, e.physicalPage = p ∧ p < bm.numBits ∧ bm.test p = false
  nodup : (r.table.map (·.physicalPage)).Nodup
  test : ∀ j : ℕ, r.bm.test j = true ↔ bm.test j = true ∨ ∃ e ∈ r.table, e.physicalPage = j
  numClear : r.bm.numClear + n = bm.numClear
  zeroed : ∀ x, InPages r.table x → r.mem x = 0
  frame : ∀ x, ¬ InPages r.table x → r.mem x = mem x

theorem onPage_fill {mem : Store} {p x : ℤ} (h : OnPage p x) :
    Bytes.fill mem (p * pageSize) pageSize 0 x = 0 := by
  obtain ⟨h1, h2⟩ := h
  exact Bytes.fill_inside h1 (by rw [add_mul] at h2; omega)

theorem not_onPage_fill {mem : Store} {p x : ℤ} (h : ¬ OnPage p x) :
    Bytes.fill mem (p * pageSize) pageSize 0 x = mem x := by
  apply Bytes.fill_outside
  by_contra hc
  exact h ⟨by omega, by rw [add_mul]; omega⟩

theorem inPages_append_singleton {pt : PageTable} {e : TranslationEntry} {x : ℤ} :
    InPages (pt ++ [e]) x ↔ InPages pt x ∨ OnPage e.physicalPage x := by
  simp only [InPages, List.mem_append, List.mem_singleton]
  constructor
  · rintro ⟨e', h | rfl, hx⟩
    · exact Or.inl ⟨e', h, hx⟩
    · exact Or.inr hx
  · rintro (⟨e', h, hx⟩ | hx)
    · exact ⟨e', Or.inl h, hx⟩
    · exact ⟨e, Or.inr rfl, hx⟩

/-- One page more. -/
theorem AllocSpec.nextPage {bm : Bitmap} {mem : Store} {n : ℕ} {r : Alloc}
    (hs : AllocSpec bm mem n r) (hn : n < bm.numClear) :
    AllocSpec bm mem (n + 1) (allocPage r n) := by
  have hleft : 0 < r.bm.numClear := by
    have := hs.numClear
    omega
  obtain ⟨q, hq, hlt, hclear, -⟩ := Bitmap.findAndSet_of_numClear hleft
  have hbm : bm.test q = false := by
    by_contra hc
    have := (hs.test q).mpr (Or.inl (by simpa using hc))
    rw [hclear] at this
    cases this
  have hnew : ∀ e ∈ r.table, e.physicalPage ≠ q := by
    intro e he heq
    have := (hs.test q).mpr (Or.inr ⟨e, he, heq⟩)
    rw [hclear] at this
    cases this
  have e1 : allocPage r n = ⟨r.table ++ [⟨n, q, true, false, false, false⟩], r.bm.mark q,
      Bytes.fill r.mem (q * pageSize) pageSize 0⟩ := by simp [allocPage, hq]
  rw [e1]
  refine
    { length := by simp [hs.length]
      numBits := hs.numBits
      entry := fun i e he => ?_
      fresh := fun e he => ?_
      nodup := ?_
      test := fun j => ?_
      numClear := ?_
      zeroed := fun x hx => ?_
      frame := fun x hx => ?_ }
  · rcases Nat.lt_or_ge i n with hi | hi
    · rw [List.getElem?_append_left (by rw [hs.length]; exact hi)] at he
      exact hs.entry i e he
    · rw [List.getElem?_append_right (by rw [hs.length]; exact hi), hs.length] at he
      have h0 : i - n = 0 := by
        by_contra h0
        rw [List.getElem?_eq_none (by simp; omega)] at he
        cases he
      rw [h0] at he
      simp only [List.getElem?_cons_zero, Option.some.injEq] at he
      rw [← he, show i = n by omega]
  · simp only [List.mem_append, List.mem_singleton] at he
    rcases he with he | rfl
    · exact hs.fresh e he
    · exact ⟨q, rfl, hs.numBits ▸ hlt, hbm⟩
  · simp only [List.map_append, List.map_cons, List.map_nil]
    rw [List.nodup_append]
    refine ⟨hs.nodup, List.nodup_singleton _, ?_⟩
    rintro a ha b hb rfl
    obtain ⟨e, he, hea⟩ := List.mem_map.mp ha
    exact hnew e he (hea.trans (List.mem_singleton.mp hb))
  · rw [Bitmap.test_mark hlt]
    simp only [Bool.or_eq_true, decide_eq_true_eq, hs.test j, List.mem_append, List.mem_singleton]
    constructor
    · rintro (rfl | h | ⟨e, he, hej⟩)
      · exact Or.inr ⟨_, Or.inr rfl, rfl⟩
      · exact Or.inl h
      · exact Or.inr ⟨e, Or.inl he, hej⟩
    · rintro (h | ⟨e, he | rfl, hej⟩)
      · exact Or.inr (Or.inl h)
      · exact Or.inr (Or.inr ⟨e, he, hej⟩)
      · simp only [Nat.cast_inj] at hej
        exact Or.inl hej.symm
  · have h1 := Bitmap.numClear_mark hlt hclear
    have h2 := hs.numClear
    simp only
    omega
  · by_cases hx1 : OnPage q x
    · exact onPage_fill hx1
    · simp only
      rw [not_onPage_fill hx1]
      exact hs.zeroed x ((inPages_append_singleton.mp hx).resolve_right hx1)
  · rw [inPages_append_singleton, not_or] at hx
    simp only
    rw [not_onPage_fill hx.2]
    exact hs.frame x hx.1

/-- The pages of the loop. -/
theorem allocPages_spec (bm : Bitmap) (mem : Store) :
    ∀ n ≤ bm.numClear, AllocSpec bm mem n (allocPages bm mem n) := by
  intro n
  induction n with
  | zero =>
    intro _
    refine ⟨rfl, rfl, ?_, ?_, ?_, ?_, rfl, ?_, fun _ _ => rfl⟩ <;> simp [allocPages, InPages]
  | succ n ih =>
    intro hn
    rw [allocPages_succ]
    exact (ih (Nat.le_of_succ_le hn)).nextPage hn

/-! ### The copy loop -/

/-- The byte a process sees at virtual address `v`. -/
def vbyte (mem : Store) (pt : PageTable) (v : ℕ) : Option Byte :=
  pt[v / pageSize]?.map fun e => mem (e.physicalPage * pageSize + (v % pageSize : ℕ))

theorem bind_eq_ok {ε α β : Type} {x : Except ε α} {f : α → Except ε β} {r : β}
    (h : x >>= f = .ok r) :
    ∃ a, x = .ok a ∧ f a = .ok r := by
  cases x with
  | error e => cases h
  | ok a => exact ⟨a, rfl, h⟩

theorem except_map_ok {ε α β : Type} {x : Except ε α} {f : α → β} {b : β} (h : x.map f = .ok b) :
    ∃ a, x = .ok a ∧ f a = b := by
  rcases x with e | a
  · cases h
  · exact ⟨a, rfl, Except.ok.inj h⟩

theorem onPage_offset {p : ℤ} {k : ℕ} (hk : k < pageSize) : OnPage p (p * pageSize + k) :=
  ⟨by omega, by rw [add_mul]; omega⟩

theorem onPage_unique {p q x : ℤ} (hp : OnPage p x) (hq : OnPage q x) : p = q := by
  obtain ⟨h1, h2⟩ := hp
  obtain ⟨h3, h4⟩ := hq
  have h5 : p < q + 1 := lt_of_mul_lt_mul_right (lt_of_le_of_lt h1 h4) (by positivity)
  have h6 : q < p + 1 := lt_of_mul_lt_mul_right (lt_of_le_of_lt h3 h2) (by positivity)
  omega

theorem entry_unique {pt : PageTable} (hn : (pt.map (·.physicalPage)).Nodup) {i j : ℕ}
    {e e' : TranslationEntry} (hi : pt[i]? = some e) (hj : pt[j]? = some e')
    (h : e.physicalPage = e'.physicalPage) : i = j := by
  have hlt : i < (pt.map (·.physicalPage)).length := by
    rw [List.length_map]; exact (List.getElem?_eq_some_iff.mp hi).1
  refine (List.getElem?_inj hlt hn).mp ?_
  rw [List.getElem?_map, List.getElem?_map, hi, hj]
  exact congrArg some h

theorem pageBytes_le (size : ℤ) (i : ℕ) : pageBytes size i ≤ pageSize := by
  unfold pageBytes
  split_ifs <;> omega

theorem copyLoop_succ (pt : PageTable) (buffer mem : Store) (size : ℤ) (n : ℕ) :
    (List.range (n + 1)).foldlM (copyPage pt buffer size) mem =
      (List.range n).foldlM (copyPage pt buffer size) mem >>= fun m =>
      copyPage pt buffer size m n := by
  rw [List.range_succ, List.foldlM_append]
  simp

/-- The loop after `n` pages: the pages below `n` show the buffer, the others
and the rest of memory are as they were. -/
theorem copyLoop_spec {pt : PageTable} (hn : (pt.map (·.physicalPage)).Nodup) {buffer mem : Store}
    {size : ℤ} :
    ∀ (n : ℕ) {mem' : Store}, (List.range n).foldlM (copyPage pt buffer size) mem = .ok mem' →
      (∀ (i : ℕ) (e : TranslationEntry), pt[i]? = some e → ∀ k < pageSize,
        mem' (e.physicalPage * pageSize + k) =
          if i < n ∧ (k : ℤ) < pageBytes size i then buffer (i * pageSize + k)
          else mem (e.physicalPage * pageSize + k)) ∧
      ∀ x, ¬ InPages pt x → mem' x = mem x := by
  intro n
  induction n with
  | zero =>
    intro mem' h
    cases h
    exact ⟨fun i e _ k _ => by simp, fun _ _ => rfl⟩
  | succ n ih =>
    intro mem' h
    rw [copyLoop_succ] at h
    obtain ⟨mem1, h1, h3⟩ := bind_eq_ok h
    obtain ⟨hpage, hframe⟩ := ih h1
    unfold copyPage at h3
    cases hen : pt[n]? with
    | none => rw [hen] at h3; cases h3
    | some en =>
      rw [hen] at h3
      cases h3
      have hle := pageBytes_le size n
      refine ⟨fun i e he k hk => ?_, fun x hx => ?_⟩
      · by_cases hin : i = n
        · -- the page copied now
          subst hin
          rw [hen] at he
          cases he
          by_cases hkb : (k : ℤ) < pageBytes size i
          · rw [Bytes.copy_inside (by omega) (by omega), if_pos ⟨by omega, hkb⟩]
            congr 1; ring
          · rw [Bytes.copy_outside (by omega), if_neg (by tauto), hpage i en hen k hk,
              if_neg (by tauto)]
        · -- another page: its addresses are not those of page `n`
          have hout : ¬ OnPage en.physicalPage (e.physicalPage * pageSize + k) := fun hon =>
            hin (entry_unique hn he hen (onPage_unique (onPage_offset hk) hon))
          rw [Bytes.copy_outside, hpage i e he k hk]
          · simp only [show i < n + 1 ↔ i < n by omega]
          · by_contra hc
            exact hout ⟨by omega, by rw [add_mul]; omega⟩
      · rw [Bytes.copy_outside, hframe x hx]
        by_contra hc
        exact hx ⟨en, List.mem_of_getElem? hen, by omega, by rw [add_mul]; omega⟩

/-- With a table long enough the loop runs to its end. -/
theorem copyLoop_ok {pt : PageTable} (buffer : Store) (size : ℤ) :
    ∀ (n : ℕ) (mem : Store), n ≤ pt.length →
      ∃ mem', (List.range n).foldlM (copyPage pt buffer size) mem = .ok mem' := by
  intro n mem
  induction n with
  | zero => intro _; exact ⟨mem, rfl⟩
  | succ n ih =>
    intro hn
    obtain ⟨mem1, h1⟩ := ih (by omega)
    have hen := List.getElem?_eq_getElem (l := pt) (i := n) (by omega)
    refine ⟨Bytes.copy buffer (n * pageSize) mem1 (pt[n].physicalPage * pageSize)
      (pageBytes size n), ?_⟩
    rw [copyLoop_succ, h1]
    show copyPage pt buffer size mem1 n = _
    unfold copyPage
    rw [hen]

/-! ### Load as a whole -/

/-- What a load that succeeds leaves. -/
structure LoadSpec (h : NoffHeader) (file : List Byte) (bm : Bitmap) (mem : Store) (sp : AddrSpace)
    (bm' : Bitmap) (mem' : Store) : Prop where
  nonneg : 0 ≤ h.actualSegmentSize
  enough : h.numPages ≤ bm.numClear
  alloc : ∃ m, AllocSpec bm mem h.numPages ⟨sp.pageTable, bm', m⟩
  frame : ∀ x, ¬ InPages sp.pageTable x → mem' x = mem x
  bytes : ∃ buffer, readSegments h file = .ok buffer ∧ ∀ v < h.numPages * pageSize,
    vbyte mem' sp.pageTable v = some (if (v : ℤ) < h.actualSegmentSize then buffer v else 0)

theorem lt_pages_iff {size : ℤ} (hs : 0 ≤ size) (i : ℕ) :
    i < (divRoundUp size pageSize).toNat ↔ (i * pageSize : ℤ) < size := by
  obtain ⟨n, rfl⟩ := Int.eq_ofNat_of_zero_le hs
  rw [divRoundUp_natCast n pageSize (by decide), Int.toNat_natCast]
  unfold pageSize
  omega

/-- The loop reaches byte `v` and page `v / pageSize` has room for it just when
the buffer has it. -/
theorem copied_iff {size : ℤ} (hs : 0 ≤ size) (v : ℕ) :
    (v / pageSize < (divRoundUp size pageSize).toNat ∧ ((v % pageSize : ℕ) : ℤ) < pageBytes size
      (v / pageSize)) ↔
      (v : ℤ) < size := by
  rw [lt_pages_iff hs]
  unfold pageBytes pageSize
  split_ifs <;> omega

theorem loadLocked_ok {h : NoffHeader} {file : List Byte} {bm bm' : Bitmap} {mem mem' : Store}
    {sp : AddrSpace} (hl : loadLocked h file bm mem = .ok sp bm' mem') :
    LoadSpec h file bm mem sp bm' mem' := by
  unfold loadLocked at hl
  split at hl
  · cases hl
  rename_i henough
  have henough : h.numPages ≤ bm.numClear := by omega
  have ha := allocPages_spec bm mem h.numPages henough
  simp only at hl
  split at hl
  · cases hl
  rename_i hneg
  have hneg : 0 ≤ h.actualSegmentSize := by omega
  split at hl
  · cases hl
  rename_i buffer hbuf
  split at hl
  · cases hl
  rename_i m2 hcopy
  cases hl
  obtain ⟨hpage, hframe⟩ := copyLoop_spec ha.nodup _ hcopy
  refine ⟨hneg, henough, ⟨_, ha⟩, fun x hx => ?_, buffer, hbuf, fun v hv => ?_⟩
  · rw [hframe x hx, ha.frame x hx]
  · have hlen : v / pageSize < (allocPages bm mem h.numPages).table.length := by
      rw [ha.length]; exact Nat.div_lt_of_lt_mul (by rwa [mul_comm])
    have he := List.getElem?_eq_getElem hlen
    have hk : v % pageSize < pageSize := Nat.mod_lt _ (by decide)
    unfold vbyte
    rw [he, Option.map_some, hpage _ _ he _ hk]
    simp only [copied_iff hneg v]
    split_ifs with hlt
    · have hv : ((v / pageSize : ℕ) : ℤ) * pageSize + (v % pageSize : ℕ) = v := by
        exact_mod_cast Nat.div_add_mod' v pageSize
      rw [hv]
    · rw [ha.zeroed _ ⟨_, List.mem_of_getElem? he, onPage_offset hk⟩]

/-- The images the loader is written for: no negative size, a total that is an
`int`, and the segments it reads inside its buffer. -/
structure GoodImage (h : NoffHeader) : Prop where
  code : 0 ≤ h.code.size
  initData : 0 ≤ h.initData.size
  readonlyData : 0 ≤ h.readonlyData.size
  uninitData : 0 ≤ h.uninitData.size
  total : h.code.size + h.initData.size + h.uninitData.size + h.readonlyData.size +
    userStackSize < 2 ^ 31
  inside : ∀ seg ∈ h.segments, 0 < seg.size →
    0 ≤ seg.virtualAddr ∧ seg.virtualAddr + seg.size ≤ h.code.size + h.initData.size +
    h.readonlyData.size

namespace GoodImage

variable {h : NoffHeader}

theorem actualSegmentSize_eq (hg : GoodImage h) :
    h.actualSegmentSize = h.code.size + h.initData.size + h.readonlyData.size := by
  obtain ⟨h1, h2, h3, h4, h5, -⟩ := hg
  unfold userStackSize at h5
  exact wrap32_of_lt (by omega) (by omega)

theorem actualSegmentSize_nonneg (hg : GoodImage h) : 0 ≤ h.actualSegmentSize := by
  rw [hg.actualSegmentSize_eq]
  obtain ⟨h1, h2, h3, -, -, -⟩ := hg
  omega

theorem addressSpaceSize_eq (hg : GoodImage h) : h.addressSpaceSize =
    h.code.size + h.initData.size + h.uninitData.size + h.readonlyData.size + userStackSize := by
  obtain ⟨h1, h2, h3, h4, h5, -⟩ := hg
  exact wrap32_of_lt (by unfold userStackSize; omega) h5

theorem addressSpaceSize_nonneg (hg : GoodImage h) : 0 ≤ h.addressSpaceSize := by
  rw [hg.addressSpaceSize_eq]
  obtain ⟨h1, h2, h3, h4, -, -⟩ := hg
  unfold userStackSize; omega

theorem numPages_eq (hg : GoodImage h) :
    h.numPages = (divRoundUp h.addressSpaceSize pageSize).toNat := by
  have h1 : h.addressSpaceSize < 2 ^ 31 := by rw [hg.addressSpaceSize_eq]; exact hg.total
  unfold NoffHeader.numPages
  obtain ⟨n, hn⟩ := Int.eq_ofNat_of_zero_le hg.addressSpaceSize_nonneg
  rw [hn] at h1 ⊢
  rw [divRoundUp_natCast n pageSize (by decide)]
  unfold pageSize
  rw [Int.emod_eq_of_lt (by omega) (by omega)]

/-- A page for every byte of the segments and of the stack. -/
theorem lt_numPages_iff (hg : GoodImage h) (v : ℕ) :
    v / pageSize < h.numPages ↔ ((v / pageSize * pageSize : ℕ) : ℤ) < h.addressSpaceSize := by
  rw [hg.numPages_eq, lt_pages_iff hg.addressSpaceSize_nonneg]
  push_cast
  rfl

/-- Every byte of the address space has its page. -/
theorem lt_pages (hg : GoodImage h) {v : ℕ} (hv : (v : ℤ) < h.addressSpaceSize) :
    v < h.numPages * pageSize := by
  have hle : v / pageSize * pageSize ≤ v := Nat.div_mul_le_self v pageSize
  have := (hg.lt_numPages_iff v).mpr (by omega)
  exact (Nat.div_lt_iff_lt_mul (by decide)).mp this

end GoodImage

/-- A good image never leaves the buffer: reading a segment of it succeeds or
`Lseek` stops the kernel. -/
theorem readSegment_good {h : NoffHeader} (hg : GoodImage h) (file : List Byte) (buffer : Store)
    {seg : Segment} (hs : seg ∈ h.segments) :
    readSegment h.actualSegmentSize file buffer seg ≠ .error .overrun := by
  unfold readSegment
  split_ifs with h1 h2
  · simp
  · obtain ⟨h3, h4⟩ := hg.inside seg hs h1
    have h5 : ((file.drop seg.inFileAddr.toNat).take seg.size.toNat).length ≤ seg.size := by
      rw [List.length_take]; omega
    rw [hg.actualSegmentSize_eq]
    simp only
    rw [if_pos (Or.inr ⟨h3, by omega⟩)]
    simp
  · simp

theorem foldlM_ne_overrun {h : NoffHeader} (hg : GoodImage h) (file : List Byte) (l : List Segment)
    (buffer : Store) (hl : ∀ seg ∈ l, seg ∈ h.segments) :
    l.foldlM (readSegment h.actualSegmentSize file) buffer ≠ .error .overrun := by
  induction l generalizing buffer with
  | nil => simp [List.foldlM, pure, Except.pure]
  | cons seg l ih =>
    have hseg := readSegment_good hg file buffer (hl seg (by simp))
    rw [List.foldlM_cons]
    cases hr : readSegment h.actualSegmentSize file buffer seg with
    | error f =>
      rw [hr] at hseg
      exact hseg
    | ok b => exact ih b fun s hs => hl s (by simp [hs])

theorem GoodImage.pages_le {h : NoffHeader} (hg : GoodImage h) :
    (divRoundUp h.actualSegmentSize pageSize).toNat ≤ h.numPages := by
  by_contra hc
  have h1 := (lt_pages_iff hg.actualSegmentSize_nonneg h.numPages).mp (by omega)
  have h2 := hg.lt_numPages_iff (h.numPages * pageSize)
  rw [Nat.mul_div_cancel _ (by decide), hg.addressSpaceSize_eq] at h2
  rw [hg.actualSegmentSize_eq] at h1
  have h3 := hg.uninitData
  unfold userStackSize at h2
  push_cast at h2
  omega

/-- A good image whose segments can be read and whose pages are free is loaded. -/
theorem load_good {file : List Byte} {stack : ℕ → Byte} {h : NoffHeader} {buffer : Store}
    {bm : Bitmap} (hh : readHeader file stack = h) (hg : GoodImage h)
    (hm : h.noffMagic = noffMagicNumber) (hr : readSegments h file = .ok buffer)
    (hfree : h.numPages ≤ bm.numClear) (mem : Store) :
    ∃ sp bm' mem', load file stack bm mem = .ok sp bm' mem' := by
  unfold load loadLocked
  rw [hh]
  have ha := allocPages_spec bm mem h.numPages hfree
  obtain ⟨m, hcopy⟩ :=
    copyLoop_ok buffer h.actualSegmentSize (divRoundUp h.actualSegmentSize pageSize).toNat
    (allocPages bm mem h.numPages).mem (by rw [ha.length]; exact hg.pages_le)
  have hcopy' : copyPages (allocPages bm mem h.numPages).table buffer h.actualSegmentSize
      (allocPages bm mem h.numPages).mem = .ok m := hcopy
  have hnn := hg.actualSegmentSize_nonneg
  refine ⟨⟨(allocPages bm mem h.numPages).table⟩, (allocPages bm mem h.numPages).bm, m, ?_⟩
  simp [hm, not_lt.mpr hfree, not_lt.mpr hnn, hr, hcopy']

/-- So a load of a good image stays in its buffer and in its page table. -/
theorem load_ne_overrun {file : List Byte} {stack : ℕ → Byte}
    (hg : GoodImage (readHeader file stack)) (bm : Bitmap) (mem : Store) :
    load file stack bm mem ≠ .fault .overrun := by
  by_cases hm : (readHeader file stack).noffMagic = noffMagicNumber
  · by_cases hfree : (readHeader file stack).numPages ≤ bm.numClear
    · have hread :=
        foldlM_ne_overrun hg file (readHeader file stack).segments (fun _ => 0) fun _ hs => hs
      cases hr : readSegments (readHeader file stack) file with
      | error f =>
        have hf : f ≠ .overrun := fun h => hread (h ▸ hr)
        have hnn := hg.actualSegmentSize_nonneg
        simp [load, loadLocked, hm, not_lt.mpr hfree, not_lt.mpr hnn, hr, hf]
      | ok buffer =>
        obtain ⟨sp, bm', mem', h⟩ := load_good rfl hg hm hr hfree mem
        rw [h]
        simp
    · simp [load, loadLocked, hm, not_le.mp hfree]
  · simp [load, hm]

end Nachos
