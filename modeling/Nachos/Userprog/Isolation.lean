/-
# Isolation of address spaces

Any number of address spaces are created, loaded, destroyed and accessed
through `ReadMem` and `WriteMem`, in any order. The pages of the tables that
exist are distinct, in range and marked in `gPhysPageBitMap`: `Load` takes
clear pages, the destructor clears only its own, and an access changes the
use and dirty bits of its table. So a write under one table is seen by no
read under another (`MemSys.isolation`).

Key definitions: `MemSys`, `MemSys.step`, `MemSys.Isolated`.
Key theorems: `MemSys.isolated_step`, `MemSys.isolation`.
-/
import Mathlib
import Nachos.Base.Runs
import Nachos.Userprog.AddrSpace

namespace Nachos

open Bytes (Byte Store)

/-- The physical pages of an address space, in the order of its table. -/
def AddrSpace.pages (sp : AddrSpace) : List ℤ := sp.pageTable.map (·.physicalPage)

/-- Main memory, its bitmap, and the address spaces that exist, by the order
of their creation. -/
structure MemSys where
  gPhysPageBitMap : Bitmap
  mainMemory : Store
  spaces : ℕ → Option AddrSpace
  next : ℕ

namespace MemSys

/-- The operations; a file that does not open is `none`. -/
inductive Label
  | new
  | load (k : ℕ) (file : Option (List Byte)) (stack : ℕ → Byte)
  | delete (k : ℕ)
  | read (k : ℕ) (addr : BitVec 32) (w : Width)
  | write (k : ℕ) (addr : BitVec 32) (w : Width) (value : BitVec 32)

def setSpace (s : MemSys) (k : ℕ) (sp : Option AddrSpace) : MemSys :=
  { s with spaces := Function.update s.spaces k sp }

/-- A load that stops the kernel has no next state. -/
def step (s : MemSys) : Label → Option MemSys
  | .new => some { s.setSpace s.next (some AddrSpace.new) with next := s.next + 1 }
  | .load k file stack => (s.spaces k).bind fun _ =>
    match file with
    | none => some s
    | some f =>
      match Nachos.load f stack s.gPhysPageBitMap s.mainMemory with
      -- `numPages = 0`
      | .noMemory => some (s.setSpace k (some ⟨[]⟩))
      | .fault _ => none
      | .ok sp bm mem =>
        some { s.setSpace k (some sp) with gPhysPageBitMap := bm, mainMemory := mem }
  | .delete k => (s.spaces k).map fun sp =>
    { s.setSpace k none with gPhysPageBitMap := sp.delete s.gPhysPageBitMap }
  | .read k addr w => (s.spaces k).map fun sp =>
    match readMem s.mainMemory sp.pageTable addr w with
    | .error _ => s
    | .ok (_, pt) => s.setSpace k (some ⟨pt⟩)
  | .write k addr w value => (s.spaces k).map fun sp =>
    match writeMem s.mainMemory sp.pageTable addr w value with
    | .error _ => s
    | .ok (mem, pt) => { s.setSpace k (some ⟨pt⟩) with mainMemory := mem }

def initial : MemSys := ⟨Bitmap.new numPhysPages, fun _ => 0, fun _ => none, 0⟩

/-- Every file that is loaded is a good image. -/
def GoodLoads (_ : MemSys) : Label → Prop
  | .load _ (some f) stack => GoodImage (readHeader f stack)
  | _ => True

/-- The states of the runs in which every image is good. -/
abbrev Reach : MemSys → Prop := Runs.Reach step (· = initial) GoodLoads

/-! ### The invariant -/

/-- The pages of space `k`; none when it does not exist. -/
def pages (s : MemSys) (k : ℕ) : List ℤ := ((s.spaces k).map AddrSpace.pages).getD []

/-- The pages in use are distinct physical pages, and marked. -/
structure Isolated (s : MemSys) : Prop where
  numBits : s.gPhysPageBitMap.numBits = numPhysPages
  nodup : ∀ k, (s.pages k).Nodup
  marked : ∀ k, ∀ p ∈ s.pages k, ∃ q : ℕ, p = q ∧ q < numPhysPages ∧ s.gPhysPageBitMap.test q = true
  disjoint : ∀ k l, k ≠ l → List.Disjoint (s.pages k) (s.pages l)

variable {s s' : MemSys} {k l : ℕ} {sp : AddrSpace}

theorem pages_of_eq (h : s.spaces k = some sp) : s.pages k = sp.pages := by simp [pages, h]

theorem spaces_setSpace (s : MemSys) (k : ℕ) (o : Option AddrSpace) (l : ℕ) :
    (s.setSpace k o).spaces l = if l = k then o else s.spaces l := by
  simp [setSpace, Function.update_apply]

theorem isolated_initial : Isolated initial := by
  refine ⟨Bitmap.numBits_new _, ?_, ?_, ?_⟩ <;> simp [initial, pages, List.Disjoint]

/-- What every operation does to the pages: those of one space are replaced by
pages that are distinct, marked and taken from it or from the clear ones,
and no page of another space is cleared. -/
theorem Isolated.replace (hI : Isolated s) (k : ℕ) (ps : List ℤ)
    (hbits : s'.gPhysPageBitMap.numBits = s.gPhysPageBitMap.numBits)
    (hpages : ∀ l, s'.pages l = if l = k then ps else s.pages l) (hnd : ps.Nodup)
    (hmark : ∀ p ∈ ps, ∃ q : ℕ, p = q ∧ q < numPhysPages ∧ s'.gPhysPageBitMap.test q = true)
    (hfrom : ∀ p ∈ ps, p ∈ s.pages k ∨ s.gPhysPageBitMap.test p.toNat = false)
    (hkeep : ∀ l ≠ k, ∀ p ∈ s.pages l, s'.gPhysPageBitMap.test p.toNat =
      s.gPhysPageBitMap.test p.toNat) :
    Isolated s' := by
  have hdis : ∀ l ≠ k, List.Disjoint ps (s.pages l) := by
    intro l hl p hp hpl
    rcases hfrom p hp with h | h
    · exact hI.disjoint k l hl.symm h hpl
    · obtain ⟨q, rfl, -, hq⟩ := hI.marked l p hpl
      rw [Int.toNat_natCast, hq] at h
      cases h
  refine ⟨hbits.trans hI.numBits, fun l => ?_, fun l p hp => ?_, fun l m hlm => ?_⟩
  · rw [hpages]
    split_ifs with h
    · exact hnd
    · exact hI.nodup l
  · rw [hpages] at hp
    split_ifs at hp with h
    · exact hmark p hp
    · obtain ⟨q, rfl, hq, ht⟩ := hI.marked l p hp
      refine ⟨q, rfl, hq, ?_⟩
      have := hkeep l h q hp
      rwa [Int.toNat_natCast, ht] at this
  · rw [hpages, hpages]
    split_ifs with h1 h2 h2
    · exact absurd (h1.trans h2.symm) hlm
    · exact hdis m h2
    · exact (hdis l h1).symm
    · exact hI.disjoint l m hlm

/-- The case of an operation that allocates nothing: the bitmap stays. -/
theorem Isolated.shrink (hI : Isolated s) (k : ℕ) (ps : List ℤ)
    (hbm : s'.gPhysPageBitMap = s.gPhysPageBitMap)
    (hpages : ∀ l, s'.pages l = if l = k then ps else s.pages l) (hnd : ps.Nodup)
    (hsub : ∀ p ∈ ps, p ∈ s.pages k) : Isolated s' := by
  refine hI.replace k ps (by rw [hbm]) hpages hnd (fun p hp => ?_) (fun p hp => Or.inl (hsub p hp))
    (fun _ _ _ _ => by rw [hbm])
  rw [hbm]
  exact hI.marked k p (hsub p hp)

theorem pages_setSpace (s : MemSys) (k : ℕ) (o : Option AddrSpace) (l : ℕ) :
    (s.setSpace k o).pages l = if l = k then (o.map AddrSpace.pages).getD [] else s.pages l := by
  unfold pages
  rw [spaces_setSpace]
  split_ifs <;> rfl

/-- A load of a new table. -/
theorem Isolated.load (hI : Isolated s) {h : NoffHeader} {file : List Byte} {bm : Bitmap}
    {mem : Store} (hs : LoadSpec h file s.gPhysPageBitMap s.mainMemory sp bm mem) :
    Isolated { s.setSpace k (some sp) with gPhysPageBitMap := bm, mainMemory := mem } := by
  obtain ⟨m, ha⟩ := hs.alloc
  have hbits := ha.numBits
  have hfresh : ∀ p ∈ sp.pages, ∃ q : ℕ, p = q ∧ q < numPhysPages ∧
      s.gPhysPageBitMap.test q = false := by
    intro p hp
    obtain ⟨e, he, rfl⟩ := List.mem_map.mp hp
    have := ha.fresh e he
    rwa [hI.numBits] at this
  refine hI.replace k sp.pages hbits (fun l => pages_setSpace s k _ l) ha.nodup (fun p hp => ?_)
    (fun p hp => ?_)
    (fun l _ p hp => ?_)
  · obtain ⟨q, rfl, hq, -⟩ := hfresh p hp
    obtain ⟨e, he, hep⟩ := List.mem_map.mp hp
    exact ⟨q, rfl, hq, (ha.test q).mpr (Or.inr ⟨e, he, hep⟩)⟩
  · obtain ⟨q, rfl, -, hq⟩ := hfresh p hp
    exact Or.inr (by rwa [Int.toNat_natCast])
  · obtain ⟨q, rfl, -, hq⟩ := hI.marked l p hp
    rw [Int.toNat_natCast, hq]
    exact (ha.test q).mpr (Or.inl hq)

/-- The destructor. -/
theorem Isolated.delete (hI : Isolated s) (hk : s.spaces k = some sp) :
    Isolated { s.setSpace k none with gPhysPageBitMap := sp.delete s.gPhysPageBitMap } := by
  have hfold : sp.delete s.gPhysPageBitMap =
      (sp.pages.map Int.toNat).foldl Bitmap.clear s.gPhysPageBitMap := by
    simp [AddrSpace.delete, AddrSpace.pages, List.foldl_map]
  have hlt : ∀ i ∈ sp.pages.map Int.toNat, i < s.gPhysPageBitMap.numBits := by
    intro i hi
    obtain ⟨p, hp, rfl⟩ := List.mem_map.mp hi
    obtain ⟨q, rfl, hq, -⟩ := hI.marked k p (by rwa [pages_of_eq hk])
    rwa [Int.toNat_natCast, hI.numBits]
  refine hI.replace k [] ?_ (fun l => pages_setSpace s k none l) List.nodup_nil (by simp) (by simp)
    (fun l hl p hp => ?_)
  · simp only [hfold, Bitmap.numBits_foldl_clear]
  · simp only [hfold]
    rw [Bitmap.test_foldl_clear _ _ hlt]
    -- a page of another space is not among those cleared
    have hout : p.toNat ∉ sp.pages.map Int.toNat := by
      intro hmem
      obtain ⟨p', hp', he⟩ := List.mem_map.mp hmem
      rw [← pages_of_eq hk] at hp'
      obtain ⟨q, rfl, -, -⟩ := hI.marked l p hp
      obtain ⟨q', rfl, -, -⟩ := hI.marked k p' hp'
      simp only [Int.toNat_natCast] at he
      rw [he] at hp'
      exact hI.disjoint k l hl.symm hp' hp
    simp [hout]

/-- An access: the table keeps its pages. -/
theorem Isolated.access (hI : Isolated s) (hk : s.spaces k = some sp) {pt : PageTable} (mem : Store)
    (hm : pt.map (·.physicalPage) = sp.pageTable.map (·.physicalPage)) :
    Isolated { s.setSpace k (some ⟨pt⟩) with mainMemory := mem } := by
  refine hI.shrink k (s.pages k) rfl (fun l => ?_) (hI.nodup k) fun p hp => hp
  refine (pages_setSpace s k _ l).trans ?_
  rw [pages_of_eq hk]
  simp only [Option.map_some, Option.getD_some, AddrSpace.pages, hm]

theorem Isolated.bounded (hI : Isolated s) (hk : s.spaces k = some sp) : Bounded sp.pageTable := by
  intro e he
  obtain ⟨q, hq, hlt, -⟩ := hI.marked k e.physicalPage (by
    rw [pages_of_eq hk]; exact List.mem_map_of_mem he)
  rw [hq]
  omega

/-- The cases of a load that has a next state. -/
theorem step_load {file : List Byte} {stack : ℕ → Byte}
    (h : s.step (.load k (some file) stack) = some s') :
    (Nachos.load file stack s.gPhysPageBitMap s.mainMemory = .noMemory ∧
      s' = s.setSpace k (some ⟨[]⟩)) ∨
    ∃ sp bm mem, LoadSpec (readHeader file stack) file s.gPhysPageBitMap s.mainMemory sp bm mem ∧
      s' = { s.setSpace k (some sp) with gPhysPageBitMap := bm, mainMemory := mem } := by
  simp only [step] at h
  obtain ⟨_, -, h⟩ := Option.bind_eq_some_iff.mp h
  split at h
  · rename_i hl
    cases h
    exact Or.inl ⟨hl, rfl⟩
  · cases h
  · rename_i sp bm mem hl
    cases h
    refine Or.inr ⟨sp, bm, mem, loadLocked_ok ?_, rfl⟩
    unfold Nachos.load at hl
    split at hl
    · cases hl
    · exact hl

theorem isolated_step (hI : Isolated s) (lab : Label) (hs : s.step lab = some s') :
    Isolated s' := by
  cases lab with
  | new =>
    cases hs
    exact hI.shrink s.next [] rfl (fun l => pages_setSpace s _ _ l) List.nodup_nil (by simp)
  | load k file stack =>
    cases file with
    | none =>
      obtain ⟨_, -, h⟩ := Option.bind_eq_some_iff.mp hs
      cases h
      exact hI
    | some f =>
      rcases step_load hs with ⟨-, rfl⟩ | ⟨sp, bm, mem, hl, rfl⟩
      · exact hI.shrink k [] rfl (fun l => pages_setSpace s _ _ l) List.nodup_nil (by simp)
      · exact hI.load hl
  | delete k =>
    obtain ⟨sp, hk, rfl⟩ := Option.map_eq_some_iff.mp hs
    exact hI.delete hk
  | read k addr w =>
    obtain ⟨sp, hk, rfl⟩ := Option.map_eq_some_iff.mp hs
    cases hr : readMem s.mainMemory sp.pageTable addr w with
    | error e => exact hI
    | ok r => exact hI.access hk s.mainMemory (readMem_map hr)
  | write k addr w value =>
    obtain ⟨sp, hk, rfl⟩ := Option.map_eq_some_iff.mp hs
    cases hr : writeMem s.mainMemory sp.pageTable addr w value with
    | error e => exact hI
    | ok r => exact hI.access hk r.1 (writeMem_outside (hI.bounded hk) hr).2

theorem isolated_reach (h : Reach s) : Isolated s := by
  refine h.inv Isolated ?_ fun _ lab _ _ hI _ hs => isolated_step hI lab hs
  intro s0 h0
  rw [h0]
  exact isolated_initial

/-! ### Isolation -/

/-- A load changes memory only in pages that were clear and are now its own. -/
theorem load_frame {file : List Byte} {stack : ℕ → Byte}
    (hs : s.step (.load k (some file) stack) = some s') {x : ℤ}
    (hx : s'.mainMemory x ≠ s.mainMemory x) :
    ∃ p : ℕ, OnPage p x ∧ (p : ℤ) ∈ s'.pages k ∧ s.gPhysPageBitMap.test p = false ∧
      s'.gPhysPageBitMap.test p = true := by
  rcases step_load hs with ⟨-, rfl⟩ | ⟨sp, bm, mem, hl, rfl⟩
  · exact absurd rfl hx
  · have hin : InPages sp.pageTable x := by
      by_contra hc
      exact hx (hl.frame x hc)
    obtain ⟨e, he, hon⟩ := hin
    obtain ⟨m, ha⟩ := hl.alloc
    obtain ⟨p, hp, -, hclear⟩ := ha.fresh e he
    refine ⟨p, hp ▸ hon, ?_, hclear, (ha.test p).mpr (Or.inr ⟨e, he, hp⟩)⟩
    have := pages_setSpace s k (some sp) k
    rw [if_pos rfl] at this
    exact this ▸ List.mem_map.mpr ⟨e, he, hp⟩

/-- A write under one table is seen by no read under another. -/
theorem write_invisible (hI : Isolated s) (hkl : k ≠ l) {a : BitVec 32} {w : Width} {v : BitVec 32}
    (hs : s.step (.write k a w v) = some s') {sp' : AddrSpace} (hl : s.spaces l = some sp') :
    s'.spaces l = some sp' ∧
      ∀ b w', readMem s'.mainMemory sp'.pageTable b w' = readMem s.mainMemory
      sp'.pageTable b w' := by
  obtain ⟨sp, hk, rfl⟩ := Option.map_eq_some_iff.mp hs
  cases hr : writeMem s.mainMemory sp.pageTable a w v with
  | error e => exact ⟨hl, fun _ _ => rfl⟩
  | ok r =>
    refine ⟨(spaces_setSpace s k _ l).trans ((if_neg hkl.symm).trans hl), fun b w' => ?_⟩
    refine readMem_congr (hI.bounded hl) fun x hx => ?_
    refine (writeMem_outside (hI.bounded hk) hr).1 x fun hx' => ?_
    -- an address of both tables would be a page of both
    obtain ⟨e, he, hon⟩ := hx
    obtain ⟨e', he', hon'⟩ := hx'
    have h1 : e.physicalPage ∈ s.pages l := by rw [pages_of_eq hl]; exact List.mem_map_of_mem he
    have h2 : e'.physicalPage ∈ s.pages k := by rw [pages_of_eq hk]; exact List.mem_map_of_mem he'
    rw [onPage_unique hon hon'] at h1
    exact hI.disjoint k l hkl h2 h1

/-- **Physical memory isolation.** In every state of a run: (a) the tables are
injective, disjoint, in range and marked; (b) a load changes memory only
inside pages it has just allocated, and never leaves its buffer; (c) a write
under one table changes no read under another. -/
theorem isolation {s : MemSys} (h : Reach s) :
    (∀ k sp, s.spaces k = some sp → sp.pages.Nodup ∧ ∀ p ∈ sp.pages,
      0 ≤ p ∧ p < numPhysPages ∧ s.gPhysPageBitMap.test p.toNat = true) ∧
    (∀ k l sp sp', k ≠ l → s.spaces k = some sp → s.spaces l = some sp' →
      List.Disjoint sp.pages sp'.pages) ∧
    (∀ k file stack, GoodImage (readHeader file stack) →
      Nachos.load file stack s.gPhysPageBitMap s.mainMemory ≠ .fault .overrun ∧
      ∀ s' x, s.step (.load k (some file) stack) = some s' → s'.mainMemory x ≠ s.mainMemory x →
        ∃ p : ℕ, OnPage p x ∧ (p : ℤ) ∈ s'.pages k ∧ s.gPhysPageBitMap.test p = false ∧
          s'.gPhysPageBitMap.test p = true) ∧
    (∀ k l a w v s' sp', k ≠ l → s.step (.write k a w v) = some s' → s.spaces l = some sp' →
      s'.spaces l = some sp' ∧
      ∀ b w', readMem s'.mainMemory sp'.pageTable b w' =
        readMem s.mainMemory sp'.pageTable b w') := by
  have hI := isolated_reach h
  refine ⟨fun k sp hk => ?_, fun k l sp sp' hkl hk hl => ?_, fun k file stack hg => ?_, ?_⟩
  · rw [← pages_of_eq hk]
    refine ⟨hI.nodup k, fun p hp => ?_⟩
    obtain ⟨q, rfl, hq, ht⟩ := hI.marked k p hp
    exact ⟨by omega, by omega, by rwa [Int.toNat_natCast]⟩
  · rw [← pages_of_eq hk, ← pages_of_eq hl]
    exact hI.disjoint k l hkl
  · exact ⟨load_ne_overrun hg _ _, fun s' x hs hx => load_frame hs hx⟩
  · intro k l a w v s' sp' hkl hs hl
    exact write_invisible hI hkl hs hl

/-- The NOFF file of one instruction word of code. -/
def oneWordImage : List Byte :=
  ([0xbadfad, 0, 52, 4, 0, 0, 0, 0, 0, 0, 0, 0, 0, 0x0800000c] : List (BitVec 32)).flatMap
    Bytes.wordBytes

theorem goodImage_oneWord : GoodImage (readHeader oneWordImage fun _ => 0) := by
  have h : readHeader oneWordImage (fun _ => 0) =
      ⟨0xbadfad, ⟨0, 52, 4⟩, ⟨0, 0, 0⟩, ⟨0, 0, 0⟩, ⟨0, 0, 0⟩⟩ := by decide
  rw [h]
  refine ⟨?_, ?_, ?_, ?_, ?_, ?_⟩ <;> simp [NoffHeader.segments, userStackSize]

set_option maxRecDepth 20000 in
/-- Two processes of one image: nine pages each, none shared. -/
theorem isolation_two_loads : ∃ s sp sp', Reach s ∧ s.spaces 0 = some sp ∧ s.spaces 1 = some sp' ∧
    sp.pages.length = 9 ∧ sp'.pages.length = 9 ∧ List.Disjoint sp.pages sp'.pages := by
  obtain ⟨s, hs, ht⟩ := Runs.Reach.of_exec (C := GoodLoads) step (· = initial) rfl
    [.new, .new, .load 0 (some oneWordImage) fun _ => 0, .load 1 (some oneWordImage) fun _ => 0]
    ⟨trivial, fun _ _ => ⟨trivial, fun _ _ => ⟨goodImage_oneWord, fun _ _ => ⟨goodImage_oneWord,
      fun _ _ => trivial⟩⟩⟩⟩
    (fun s => (s.spaces 0).any (·.pages.length = 9) && (s.spaces 1).any (·.pages.length = 9))
    (by decide)
  simp only [Bool.and_eq_true, Option.any_eq_true, decide_eq_true_eq] at ht
  obtain ⟨⟨sp, h0, hn0⟩, sp', h1, hn1⟩ := ht
  exact ⟨s, sp, sp', hs, h0, h1, hn0, hn1, (isolation hs).2.1 0 1 sp sp' (by decide) h0 h1⟩

end MemSys
end Nachos
