/-
# Two address translations (`AddrSpace::Translate` in `userprog/addrspace.cc`)

The kernel has an address translation of its own, written apart from that of
the machine: it takes the address as `unsigned`, compares the page frame as an
`int`, and does not look at the valid bit. On a table with valid entries and
frames in main memory, such as `Load` makes (`built_load`), the two are the
same function (`translations_agree`). On others they are not: behind an
invalid entry the kernel finds memory where the machine faults
(`translate_invalid`).

Key definitions: `AddrSpace.translate`, `Machine.restoreState`, `Built`.
Key theorems: `built_load`, `AddrSpace.translate_eq`, `translations_agree`.
-/
import Mathlib
import Nachos.Machine.VirtualMemory
import Nachos.Userprog.UserMemory

namespace Nachos

open Bytes (Byte Store)

/-! ### The kernel's translation -/

/-- How `AddrSpace::Translate` ends. -/
inductive Translation
  /-- the exception is returned, and nothing has changed -/
  | exception (e : ExceptionType)
  /-- `NoException`, with `*paddr` -/
  | ok (paddr : BitVec 32) (space : AddrSpace)
  /-- the `ASSERT` fails -/
  | abort

/-- `AddrSpace::Translate`. `pfn` is an `int`, and `*paddr` an `unsigned int`. -/
def AddrSpace.translate (space : AddrSpace) (vaddr : BitVec 32) (isReadWrite : BitVec 32) :
    Translation :=
  let vpn := vaddr.toNat / pageSize
  let offset := vaddr.toNat % pageSize
  match space.pageTable[vpn]? with
  | none => .exception .addressErrorException
  | some pte =>
    if isReadWrite ≠ 0 ∧ pte.readOnly = true then .exception .readOnlyException
    else
      let pfn := pte.physicalPage
      if (numPhysPages : ℤ) ≤ pfn then .exception .busErrorException
      else
        let paddr := BitVec.ofInt 32 (pfn * pageSize + offset)
        let dirty := if isReadWrite ≠ 0 then true else pte.dirty
        if paddr.toNat < memorySize then
          .ok paddr ⟨space.pageTable.set vpn { pte with use := true, dirty }⟩
        else .abort

/-- `AddrSpace::RestoreState`. -/
def Machine.restoreState (m : Machine) (space : AddrSpace) : Machine :=
  { m with pageTable := space.pageTable }

variable {pt : PageTable} {space : AddrSpace} {mem mem' : Store}

/-! ### Tables that `Load` makes -/

/-- Every entry is valid and names a page of main memory; the read-only, use
and dirty bits are arbitrary. -/
def Built (pt : PageTable) : Prop :=
  ∀ e ∈ pt, e.valid = true ∧ 0 ≤ e.physicalPage ∧ e.physicalPage < numPhysPages

instance (pt : PageTable) : Decidable (Built pt) := inferInstanceAs (Decidable (∀ e ∈ pt, _))

theorem built_load {h : NoffHeader} {file : List Byte} {bm bm' : Bitmap}
    (hb : bm.numBits = numPhysPages) (hl : loadLocked h file bm mem = .ok space bm' mem') :
    Built space.pageTable := by
  intro e he
  obtain ⟨hv, -, h0, h1⟩ := (userSpace_load hb hl).pages e he
  exact ⟨hv, h0, h1⟩

/-! ### Comparison -/

/-- A place in main memory is the same as an `int` and as an `unsigned int`. -/
theorem toNat_paddr {p : ℤ} (h0 : 0 ≤ p) (h1 : p < memorySize) :
    ((BitVec.ofInt 32 p).toNat : ℤ) = p := by
  rw [BitVec.toNat_ofInt]
  have hm : p % ((2 ^ 32 : ℕ) : ℤ) = p :=
    Int.emod_eq_of_lt h0 (by unfold memorySize numPhysPages pageSize at h1; omega)
  rw [hm]
  exact Int.toNat_of_nonneg h0

/-- What the kernel finds behind an entry that names a page of main memory,
valid or not. -/
theorem AddrSpace.translate_eq {vaddr isReadWrite : BitVec 32} {pte : TranslationEntry}
    (he : space.pageTable[vaddr.toNat / pageSize]? = some pte)
    (hro : ¬ (isReadWrite ≠ 0 ∧ pte.readOnly = true)) (h0 : 0 ≤ pte.physicalPage)
    (h1 : pte.physicalPage < numPhysPages) :
    ∃ paddr : BitVec 32, (paddr.toNat : ℤ) = pte.physicalPage * pageSize +
    (vaddr.toNat % pageSize : ℕ) ∧
      space.translate vaddr isReadWrite = .ok paddr ⟨space.pageTable.set (vaddr.toNat / pageSize)
        { pte with use := true, dirty := if isReadWrite ≠ 0 then true else pte.dirty }⟩ := by
  have hoff : vaddr.toNat % pageSize < pageSize := Nat.mod_lt _ (by decide)
  have hp0 : 0 ≤ pte.physicalPage * pageSize + (vaddr.toNat % pageSize : ℕ) := by positivity
  have hp1 : pte.physicalPage * pageSize + (vaddr.toNat % pageSize : ℕ) < memorySize := by
    unfold memorySize pageSize numPhysPages at *
    omega
  have hplace := toNat_paddr hp0 hp1
  refine ⟨_, hplace, ?_⟩
  -- the `ASSERT`
  have hroom : (BitVec.ofInt 32
      (pte.physicalPage * pageSize + (vaddr.toNat % pageSize : ℕ))).toNat < memorySize := by
    have := hplace.trans_lt hp1
    exact_mod_cast this
  unfold AddrSpace.translate
  simp only [he, if_neg hro, if_neg (not_le.mpr h1), if_pos hroom]

/-- The two agree on an access of one byte: the same exception, or the same
place and the same table. -/
def Translation.Agrees : Translation → Except ExceptionType (ℤ × PageTable) → Prop
  | .exception e, .error e' => e = e'
  | .ok paddr space, .ok (p, pt) => (paddr.toNat : ℤ) = p ∧ space.pageTable = pt
  | _, _ => False

/-- **The translations agree.** -/
theorem translations_agree (hb : Built space.pageTable) (m : Machine)
    (vaddr isReadWrite : BitVec 32) :
    (space.translate vaddr isReadWrite).Agrees
      (translate (m.restoreState space).pageTable vaddr .byte (isReadWrite ≠ 0)) := by
  have hal :
      ¬ ((Width.byte = .word ∧ vaddr &&& 3 ≠ 0) ∨ (Width.byte = .half ∧ vaddr &&& 1 ≠ 0)) := by
    simp
  unfold translate Machine.restoreState
  rw [if_neg hal]
  cases he : space.pageTable[vaddr.toNat / pageSize]? with
  | none =>
    unfold AddrSpace.translate
    simp only [he]
    exact rfl
  | some pte =>
    obtain ⟨hv, h0, h1⟩ := hb pte (List.mem_of_getElem? he)
    have hpage : ¬ (numPhysPages : ℤ) ≤ pte.physicalPage % 2 ^ 32 := by
      rw [emod_of_bounded h0 h1]
      exact not_le.mpr h1
    have hvalid : ¬ pte.valid = false := by simp [hv]
    have hiff : (pte.readOnly = true ∧ decide (isReadWrite ≠ 0) = true) ↔ isReadWrite ≠ 0 ∧
        pte.readOnly = true := by
      rw [decide_eq_true_eq, and_comm]
    simp only [he, if_neg hvalid, if_neg hpage, hiff]
    by_cases hro : isReadWrite ≠ 0 ∧ pte.readOnly = true
    · unfold AddrSpace.translate
      simp only [he, if_pos hro]
      exact rfl
    · obtain ⟨paddr, hplace, heq⟩ := AddrSpace.translate_eq he hro h0 h1
      rw [heq, if_neg hro, emod_of_bounded h0 h1]
      have hdirty : (if isReadWrite ≠ 0 then true else pte.dirty) =
          (pte.dirty || decide (isReadWrite ≠ 0)) := by
        split_ifs with hw
        · rw [decide_eq_true hw, Bool.or_true]
        · rw [decide_eq_false hw, Bool.or_false]
      exact ⟨hplace, by rw [hdirty]⟩

/-- A write near the end of the second page, of a table with all kinds of bits. -/
theorem translations_agree_write :
    let space : AddrSpace := ⟨[⟨0, 7, true, true, false, false⟩, ⟨1, 3, true, false, true, false⟩]⟩
    let m : Machine := ⟨fun _ => 0, fun _ => 0, []⟩
    (space.translate 255 1).Agrees (translate (m.restoreState space).pageTable 255 .byte true) := by
  intro space m
  have hb : Built space.pageTable := by decide
  exact translations_agree hb m 255 1

/-- Behind an invalid entry the kernel finds memory, and the machine faults. -/
theorem translate_invalid {vaddr isReadWrite : BitVec 32} {pte : TranslationEntry}
    (he : space.pageTable[vaddr.toNat / pageSize]? = some pte) (hv : pte.valid = false)
    (hro : ¬ (isReadWrite ≠ 0 ∧ pte.readOnly = true)) (h0 : 0 ≤ pte.physicalPage)
    (h1 : pte.physicalPage < numPhysPages) :
    (∃ paddr space', space.translate vaddr isReadWrite = .ok paddr space') ∧
      translate space.pageTable vaddr .byte (isReadWrite ≠ 0) = .error .pageFaultException := by
  obtain ⟨paddr, -, heq⟩ := AddrSpace.translate_eq he hro h0 h1
  refine ⟨⟨paddr, _, heq⟩, ?_⟩
  unfold translate
  rw [if_neg (by simp)]
  simp only [he, if_pos hv]

end Nachos
