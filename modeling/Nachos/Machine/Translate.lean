/-
# Address translation and memory access (`machine/translate.cc`)

Main memory is a byte store; a page table maps virtual pages to physical
ones. `translate` is `Machine::Translate` with a linear page table (no TLB),
`readMem` and `writeMem` are `Machine::ReadMem` and `Machine::WriteMem` on a
little-endian host with signed `char`. An access that translates stays
inside one physical page of the table (`translate_ok`), so a read depends
only on the pages of its table (`readMem_congr`) and a write changes only
them (`writeMem_outside`), alike in every memory (`writeMem_congr`).

Key definitions: `TranslationEntry`, `translate`, `readMem`, `writeMem`, `InPages`.
-/
import Mathlib
import Nachos.Base.Bytes

namespace Nachos

open Bytes (Byte Store)

/-- `PageSize` of `machine.h`. -/
def pageSize : ℕ := 128
/-- `NumPhysPages` of `machine.h`. -/
def numPhysPages : ℕ := 128
/-- `MemorySize` of `machine.h`. -/
def memorySize : ℕ := numPhysPages * pageSize

/-- `enum ExceptionType` of `machine.h`. -/
inductive ExceptionType
  | noException | syscallException | pageFaultException | readOnlyException | busErrorException
  | addressErrorException | overflowException | illegalInstrException | numExceptionTypes
  deriving DecidableEq

/-- `class TranslationEntry` of `translate.h`. -/
structure TranslationEntry where
  virtualPage : ℤ
  physicalPage : ℤ
  valid : Bool
  readOnly : Bool
  use : Bool
  dirty : Bool
  deriving DecidableEq

/-- A linear page table; `pageTableSize` is its length. -/
abbrev PageTable := List TranslationEntry

/-- The sizes `ReadMem` and `WriteMem` accept: 1, 2 and 4 bytes. -/
inductive Width
  | byte | half | word
  deriving DecidableEq

/-- The bytes of an access. -/
def Width.size : Width → ℕ
  | .byte => 1
  | .half => 2
  | .word => 4

/-- `Machine::Translate`: the physical address, and the table with the use and
dirty bits set; or the exception, and no change. -/
def translate (pageTable : PageTable) (virtAddr : BitVec 32) (w : Width) (writing : Bool) :
    Except ExceptionType (ℤ × PageTable) :=
  if (w = .word ∧ virtAddr &&& 3 ≠ 0) ∨ (w = .half ∧ virtAddr &&& 1 ≠ 0) then
    .error .addressErrorException
  else
    let vpn := virtAddr.toNat / pageSize
    let offset := virtAddr.toNat % pageSize
    match pageTable[vpn]? with
    | none => .error .addressErrorException
    | some entry =>
      if entry.valid = false then .error .pageFaultException
      else if entry.readOnly = true ∧ writing = true then .error .readOnlyException
      -- `unsigned int pageFrame = entry->physicalPage`
      else if (numPhysPages : ℤ) ≤ entry.physicalPage % 2 ^ 32 then .error .busErrorException
      else .ok (entry.physicalPage % 2 ^ 32 * pageSize + offset,
        pageTable.set vpn { entry with use := true, dirty := entry.dirty || writing })

/-- The value `ReadMem` finds at physical address `p`: a `char` is sign
extended, an `unsigned short` is not. -/
def fetch (mem : Store) (p : ℤ) : Width → BitVec 32
  | .byte => (mem p).signExtend 32
  | .half => (mem (p + 1) ++ mem p : BitVec 16).zeroExtend 32
  | .word => Bytes.word (mem p) (mem (p + 1)) (mem (p + 2)) (mem (p + 3))

/-- The bytes `WriteMem` stores. -/
def encode (v : BitVec 32) (w : Width) : List Byte := (Bytes.wordBytes v).take w.size

/-- `Machine::ReadMem`. -/
def readMem (mem : Store) (pageTable : PageTable) (addr : BitVec 32) (w : Width) :
    Except ExceptionType (BitVec 32 × PageTable) :=
  match translate pageTable addr w false with
  | .error e => .error e
  | .ok (p, pt) => .ok (fetch mem p w, pt)

/-- `Machine::WriteMem`. -/
def writeMem (mem : Store) (pageTable : PageTable) (addr : BitVec 32) (w : Width)
    (value : BitVec 32) :
    Except ExceptionType (Store × PageTable) :=
  match translate pageTable addr w true with
  | .error e => .error e
  | .ok (p, pt) => .ok (Bytes.write mem p (encode value w), pt)

variable {pt pt' : PageTable} {mem mem' : Store} {a : BitVec 32} {w : Width} {wr : Bool} {p x : ℤ}

@[simp] theorem length_encode (v : BitVec 32) (w : Width) : (encode v w).length = w.size := by
  cases w <;> rfl

/-- Physical page `p` holds address `x`. -/
def OnPage (p x : ℤ) : Prop := p * pageSize ≤ x ∧ x < (p + 1) * pageSize

/-- Address `x` lies in a physical page of the table. -/
def InPages (pt : PageTable) (x : ℤ) : Prop := ∃ e ∈ pt, OnPage e.physicalPage x

/-- The entries name physical pages. -/
def Bounded (pt : PageTable) : Prop := ∀ e ∈ pt, 0 ≤ e.physicalPage ∧ e.physicalPage < numPhysPages

theorem and_three_eq (a : BitVec 32) : a &&& 3 = BitVec.ofNat 32 (a.toNat % 4) := by
  apply BitVec.eq_of_toNat_eq
  rw [BitVec.toNat_and, BitVec.toNat_ofNat]
  have : (3 : BitVec 32).toNat = 2 ^ 2 - 1 := rfl
  rw [this, Nat.and_two_pow_sub_one_eq_mod]
  omega

theorem and_one_eq (a : BitVec 32) : a &&& 1 = BitVec.ofNat 32 (a.toNat % 2) := by
  apply BitVec.eq_of_toNat_eq
  rw [BitVec.toNat_and, BitVec.toNat_ofNat]
  have : (1 : BitVec 32).toNat = 2 ^ 1 - 1 := rfl
  rw [this, Nat.and_two_pow_sub_one_eq_mod]
  omega

theorem ofNat_ne_zero {k : ℕ} (h : k < 2 ^ 32) : BitVec.ofNat 32 k ≠ 0 ↔ k ≠ 0 := by
  rw [not_iff_not]
  constructor
  · intro h0
    have := congrArg BitVec.toNat h0
    rwa [BitVec.toNat_ofNat, Nat.mod_eq_of_lt h] at this
  · rintro rfl; rfl

/-- The alignment check: an address that passes it is a multiple of the size. -/
theorem aligned_of_not
    (h : ¬ ((w = .word ∧ a &&& 3 ≠ 0) ∨ (w = .half ∧ a &&& 1 ≠ 0))) : a.toNat % w.size = 0 := by
  rw [and_three_eq, and_one_eq, ofNat_ne_zero (by omega), ofNat_ne_zero (by omega)] at h
  cases w <;> simp [Width.size] at h ⊢ <;> omega

/-- What a translation that succeeds found: an entry of the table, and a
physical address in its page with room for the access. -/
theorem translate_ok (h : translate pt a w wr = .ok (p, pt')) :
    ∃ e, pt[a.toNat / pageSize]? = some e ∧ e.physicalPage % 2 ^ 32 < numPhysPages ∧
      p = e.physicalPage % 2 ^ 32 * pageSize + (a.toNat % pageSize : ℕ) ∧
      a.toNat % pageSize + w.size ≤ pageSize ∧
      pt' = pt.set (a.toNat / pageSize) { e with use := true, dirty := e.dirty || wr } := by
  unfold translate at h
  split at h
  · cases h
  · rename_i hal
    have hmod := aligned_of_not hal
    simp only at h
    split at h
    · cases h
    · rename_i e he
      split_ifs at h with h1 h2 h3
      simp only [Except.ok.injEq, Prod.mk.injEq] at h
      refine ⟨e, he, by omega, h.1.symm, ?_, h.2.symm⟩
      -- the size divides the page size, so an aligned access does not cross
      cases w <;> simp only [Width.size, pageSize] at hmod ⊢ <;> omega

/-- The `ASSERT` at the end of `Translate` never fails. -/
theorem translate_assert (h : translate pt a w wr = .ok (p, pt')) :
    0 ≤ p ∧ p + w.size ≤ memorySize := by
  obtain ⟨e, -, hlt, hp, hroom, -⟩ := translate_ok h
  have h0 : 0 ≤ e.physicalPage % 2 ^ 32 := Int.emod_nonneg _ (by decide)
  unfold memorySize numPhysPages pageSize at *
  omega

theorem emod_of_bounded {q : ℤ} (h0 : 0 ≤ q) (h1 : q < numPhysPages) : q % 2 ^ 32 = q :=
  Int.emod_eq_of_lt h0 (by unfold numPhysPages at h1; omega)

/-- An access that translates stays in a page of the table. -/
theorem translate_inPages (hb : Bounded pt) (h : translate pt a w wr = .ok (p, pt')) {k : ℕ}
    (hk : k < w.size) : InPages pt (p + k) := by
  obtain ⟨e, he, -, hp, hroom, -⟩ := translate_ok h
  have hmem := List.mem_of_getElem? he
  obtain ⟨h0, h1⟩ := hb e hmem
  rw [emod_of_bounded h0 h1] at hp
  refine ⟨e, hmem, ?_, ?_⟩
  · rw [hp]; omega
  · rw [hp, add_mul]; omega

/-- What an entry's replacement keeps, the table keeps. -/
theorem map_set_of_eq {α : Type} {f : TranslationEntry → α} {n : ℕ} {e e' : TranslationEntry}
    (he : pt[n]? = some e) (hf : f e' = f e) : (pt.set n e').map f = pt.map f := by
  rw [List.map_set]
  refine List.ext_getElem? fun i => ?_
  rw [List.getElem?_set]
  split_ifs with h1 h2
  · subst h1; simp [he, hf]
  · subst h1
    exact absurd (List.getElem?_eq_some_iff.mp he).1 (by simpa using h2)
  · rfl

/-- A translation changes no physical page. -/
theorem translate_map (h : translate pt a w wr = .ok (p, pt')) :
    pt'.map (·.physicalPage) = pt.map (·.physicalPage) := by
  obtain ⟨e, he, -, -, -, rfl⟩ := translate_ok h
  exact map_set_of_eq he rfl

theorem fetch_congr (h : ∀ k : ℕ, k < w.size → mem (p + k) = mem' (p + k)) :
    fetch mem p w = fetch mem' p w := by
  have h0 : mem p = mem' p := by simpa using h 0 (by cases w <;> decide)
  cases w with
  | byte => simp [fetch, h0]
  | half =>
    have h1 := h 1 (by decide)
    simp only [Nat.cast_one] at h1
    simp [fetch, h0, h1]
  | word =>
    have h1 := h 1 (by decide)
    have h2 := h 2 (by decide)
    have h3 := h 3 (by decide)
    simp only [Nat.cast_one, Nat.cast_ofNat] at h1 h2 h3
    simp [fetch, h0, h1, h2, h3]

/-- A read depends only on the pages of its table. -/
theorem readMem_congr (hb : Bounded pt) (h : ∀ x, InPages pt x → mem x = mem' x) :
    readMem mem pt a w = readMem mem' pt a w := by
  unfold readMem
  cases ht : translate pt a w false with
  | error e => rfl
  | ok r =>
    obtain ⟨p, pt'⟩ := r
    simp only
    rw [fetch_congr fun k hk => h _ (translate_inPages hb ht hk)]

/-- A read that succeeds has translated its address. -/
theorem readMem_ok {v : BitVec 32} (h : readMem mem pt a w = .ok (v, pt')) :
    ∃ p, translate pt a w false = .ok (p, pt') ∧ v = fetch mem p w := by
  unfold readMem at h
  split at h
  · cases h
  · rename_i p pt1 ht
    cases h
    exact ⟨p, ht, rfl⟩

theorem writeMem_ok {v : BitVec 32} (h : writeMem mem pt a w v = .ok (mem', pt')) :
    ∃ p, translate pt a w true = .ok (p, pt') ∧ mem' = Bytes.write mem p (encode v w) := by
  unfold writeMem at h
  split at h
  · cases h
  · rename_i p pt1 ht
    cases h
    exact ⟨p, ht, rfl⟩

/-- A read changes no physical page. -/
theorem readMem_map {v : BitVec 32} (h : readMem mem pt a w = .ok (v, pt')) :
    pt'.map (·.physicalPage) = pt.map (·.physicalPage) := by
  obtain ⟨p, ht, -⟩ := readMem_ok h
  exact translate_map ht

theorem writeMem_map {v : BitVec 32} (h : writeMem mem pt a w v = .ok (mem', pt')) :
    pt'.map (·.physicalPage) = pt.map (·.physicalPage) := by
  obtain ⟨p, ht, -⟩ := writeMem_ok h
  exact translate_map ht

/-- Under the same table a write changes two memories alike: it succeeds on
both, and where they agreed they agree. -/
theorem writeMem_congr (mem' : Store) {v : BitVec 32} {mem1 : Store}
    (h : writeMem mem pt a w v = .ok (mem1, pt')) :
    ∃ mem1', writeMem mem' pt a w v = .ok (mem1', pt') ∧ ∀ x, mem x = mem' x →
    mem1 x = mem1' x := by
  obtain ⟨p, ht, rfl⟩ := writeMem_ok h
  refine ⟨_, by rw [writeMem, ht], fun x hx => ?_⟩
  unfold Bytes.write
  split_ifs
  · rfl
  · exact hx

/-- Two tables with the same physical pages cover the same addresses. -/
theorem inPages_of_map (h : pt'.map (·.physicalPage) = pt.map (·.physicalPage)) :
    InPages pt' x ↔ InPages pt x := by
  have hex : ∀ pt : PageTable, InPages pt x ↔ ∃ p ∈ pt.map (·.physicalPage), OnPage p x := by
    intro pt
    simp [InPages]
  rw [hex, hex, h]

theorem bounded_of_map (h : pt'.map (·.physicalPage) = pt.map (·.physicalPage)) (hb : Bounded pt) :
    Bounded pt' := by
  intro e he
  have hmem : e.physicalPage ∈ pt.map (·.physicalPage) := h ▸ List.mem_map_of_mem he
  obtain ⟨e', he', hp⟩ := List.mem_map.mp hmem
  exact hp ▸ hb e' he'

/-- A write changes only the pages of its table, and no physical page of it. -/
theorem writeMem_outside {v : BitVec 32} (hb : Bounded pt)
    (h : writeMem mem pt a w v = .ok (mem', pt')) :
    (∀ x, ¬ InPages pt x → mem' x = mem x) ∧
    pt'.map (·.physicalPage) = pt.map (·.physicalPage) := by
  refine ⟨fun x hx => ?_, writeMem_map h⟩
  obtain ⟨p, ht, rfl⟩ := writeMem_ok h
  refine Bytes.write_outside ?_
  by_contra hc
  rw [length_encode] at hc
  have := translate_inPages hb ht (k := (x - p).toNat) (by omega)
  rw [Int.toNat_of_nonneg (by omega)] at this
  exact hx (by simpa using this)

end Nachos
