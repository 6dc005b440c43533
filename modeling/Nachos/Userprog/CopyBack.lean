/-
# Copying back what was copied in (`userprog/ksyscall.h`)

`SysWrite` copies the buffer of the user in, and afterwards out to where it came
from. The loop of `User2System` stops at a zero byte after it has read it; that
of `System2User` stops at one after it has written it. So both pass the same
addresses, and every byte is written where it was read: the copies cancel,
wherever the zeros and the page boundaries are.

`UserSpace` is a table where all pages are there. Here some pages may be missing
or read-only, as long as none of the buffer is (`Accessible`); then neither copy
fails. As no two pages share a frame (`OwnFrames`), a buffer is no longer than
memory, and `User2System` has room for it (`OwnFrames.length_le`). A program that
`Load` has loaded is a case of this (`UserSpace.ownFrames`, `UserSpace.accessible`).
That the second copy changes nothing holds of any table, if it returns
(`copyOut_back`).

Key definitions: `Accessible`, `OwnFrames`, `UserMem.charAt`, `UserMem.chars`, `kernelBuf`.
Key theorems: `copyIn_chars`, `copyOut_count`, `copyOut_back`, `Io.sysWrite_mem`, `copy_back`.
-/
import Mathlib
import Nachos.Base.Bytes
import Nachos.Machine.Translate
import Nachos.Machine.VirtualMemory
import Nachos.Userprog.UserMemory
import Nachos.Userprog.Ksyscall

namespace Nachos

open Bytes (Byte Store)

/-- `pageFrame` of `Translate`. -/
def TranslationEntry.frame (e : TranslationEntry) : ℤ := e.physicalPage % 2 ^ 32

/-- The program may read and write at `a`. -/
def Accessible (pt : PageTable) (a : BitVec 32) : Prop :=
  ∃ e, pt[a.toNat / pageSize]? = some e ∧ e.valid = true ∧ e.readOnly = false ∧
    e.frame < numPhysPages

instance (pt : PageTable) (a : BitVec 32) : Decidable (Accessible pt a) :=
  decidable_of_iff (∃ e ∈ pt[a.toNat / pageSize]?, e.valid = true ∧ e.readOnly = false ∧
    e.frame < numPhysPages) Iff.rfl

/-- No two pages that are there share a frame. -/
def OwnFrames (pt : PageTable) : Prop :=
  pt.Pairwise fun e e' => e.valid = true → e'.valid = true → e.frame ≠ e'.frame

instance (pt : PageTable) : Decidable (OwnFrames pt) :=
  inferInstanceAs (Decidable (List.Pairwise _ pt))

/-- The byte that the program reads at `a`; 0 where it reads none. -/
def UserMem.charAt (u : UserMem) (a : BitVec 32) : Byte :=
  match readMem u.mem u.pageTable a .byte with
  | .error _ => 0
  | .ok (oneChar, _) => oneChar.setWidth 8

/-- The `n` bytes from `a` on. -/
def UserMem.chars (u : UserMem) (a : BitVec 32) : ℕ → List Byte
  | 0 => []
  | n + 1 => u.charAt a :: u.chars (a + 1) n

/-- What `User2System` makes of the bytes of the user: those before the first
zero, and zeros up to the end of a buffer with one byte more. -/
def kernelBuf (l : List Byte) : List Byte :=
  l.takeWhile (· ≠ 0) ++ List.replicate (l.length + 1 - (l.takeWhile (· ≠ 0)).length) 0

/-- The bytes that the copies pass: up to the first zero, with it. -/
def passed (l : List Byte) : List Byte := l.take (l.idxOf 0 + 1)

variable {pt pt1 pt2 pt' : PageTable} {mem mem' : Store} {a v : BitVec 32} {w : Width} {wr : Bool}
  {u u' : UserMem} {n : ℕ} {p : ℤ}

/-! ### The bytes -/

@[simp] theorem length_chars (u : UserMem) (a : BitVec 32) (n : ℕ) : (u.chars a n).length = n := by
  induction n generalizing a with
  | zero => rfl
  | succ n ih => rw [UserMem.chars, List.length_cons, ih]

theorem kernelBuf_zero (l : List Byte) :
    kernelBuf (0 :: l) = 0 :: List.replicate (l.length + 1) 0 := by
  rw [kernelBuf, List.takeWhile_cons_of_neg (by simp)]
  rfl

theorem kernelBuf_cons {b : Byte} (hb : b ≠ 0) (l : List Byte) :
    kernelBuf (b :: l) = b :: kernelBuf l := by
  rw [kernelBuf, List.takeWhile_cons_of_pos (by simpa using hb), List.length_cons, List.length_cons,
    Nat.add_sub_add_right]
  rfl

theorem passed_zero (l : List Byte) : passed (0 :: l) = [0] := by
  rw [passed, List.idxOf_cons_self]
  rfl

theorem passed_cons {b : Byte} (hb : b ≠ 0) (l : List Byte) : passed (b :: l) = b :: passed l := by
  rw [passed, List.idxOf_cons_ne l hb]
  rfl

/-- The zeros that the buffer was filled with are behind the bytes that were stored. -/
theorem kernelBuf_eq (l : List Byte) :
    kernelBuf l = passed l ++ List.replicate (l.length + 1 - (passed l).length) 0 := by
  induction l with
  | nil => rfl
  | cons b l ih =>
    by_cases hb : b = 0
    · rw [hb, kernelBuf_zero, passed_zero]
      rfl
    · rw [kernelBuf_cons hb, passed_cons hb, ih, List.length_cons, List.length_cons,
        Nat.add_sub_add_right, List.cons_append]

/-- The first zero of the buffer is that of the user. -/
theorem idxOf_kernelBuf (l : List Byte) : ((kernelBuf l).take l.length).idxOf 0 = l.idxOf 0 := by
  induction l with
  | nil => rfl
  | cons b l ih =>
    by_cases hb : b = 0
    · rw [hb, kernelBuf_zero, List.length_cons, List.take_succ_cons, List.idxOf_cons_self,
        List.idxOf_cons_self]
    · rw [kernelBuf_cons hb, List.length_cons, List.take_succ_cons, List.idxOf_cons_ne _ hb,
        List.idxOf_cons_ne _ hb, ih]

theorem length_kernelBuf (l : List Byte) : (kernelBuf l).length = l.length + 1 := by
  have hle := (List.takeWhile_sublist (fun b : Byte => decide (b ≠ 0)) (l := l)).length_le
  rw [kernelBuf, List.length_append, List.length_replicate]
  omega

/-! ### Translations -/

/-- The entry of the same page, after translations. -/
theorem entry_core {e : TranslationEntry} {i : ℕ}
    (hcore : pt'.map TranslationEntry.core = pt.map TranslationEntry.core) (he : pt[i]? = some e) :
    ∃ e', pt'[i]? = some e' ∧ e'.physicalPage = e.physicalPage ∧ e'.valid = e.valid ∧
    e'.readOnly = e.readOnly := by
  have hget : pt'[i]?.map TranslationEntry.core = some e.core := by
    rw [← List.getElem?_map, hcore, List.getElem?_map, he, Option.map_some]
  obtain ⟨e', he', hsame⟩ := Option.map_eq_some_iff.mp hget
  simp only [TranslationEntry.core, Prod.mk.injEq] at hsame
  exact ⟨e', he', hsame⟩

/-- A translation depends on what translations leave. -/
theorem translate_core (hcore : pt'.map TranslationEntry.core = pt.map TranslationEntry.core)
    (h : translate pt a w wr = .ok (p, pt1)) : ∃ pt2, translate pt' a w wr = .ok (p, pt2) := by
  obtain ⟨hal, e, he, hvalid, hwrite, hlt, hp, -⟩ := translate_iff.mp h
  obtain ⟨e', he', hpage, hvalid', hro⟩ := entry_core hcore he
  rw [← hpage] at hlt hp
  exact ⟨_, translate_iff.mpr
    ⟨hal, e', he', hvalid'.trans hvalid, fun h' => hwrite (hro ▸ h'), hlt, hp, rfl⟩⟩

/-- What may be written may be read. -/
theorem translate_of_write (h : translate pt a w true = .ok (p, pt1)) :
    ∃ pt2, translate pt a w false = .ok (p, pt2) := by
  obtain ⟨hal, e, he, hvalid, -, hlt, hp, -⟩ := translate_iff.mp h
  exact ⟨_, translate_iff.mpr ⟨hal, e, he, hvalid, fun _ => rfl, hlt, hp, rfl⟩⟩

/-- A translation leaves all but the use and dirty bits. -/
theorem core_of_translate (h : translate pt a w wr = .ok (p, pt')) :
    pt'.map TranslationEntry.core = pt.map TranslationEntry.core := by
  obtain ⟨e, he, -, -, -, rfl⟩ := translate_ok h
  exact map_set_of_eq he rfl

theorem core_of_readMem {c : BitVec 32} (h : readMem mem pt a w = .ok (c, pt')) :
    pt'.map TranslationEntry.core = pt.map TranslationEntry.core := by
  obtain ⟨p, ht, -⟩ := readMem_ok h
  exact core_of_translate ht

theorem Accessible.translate (h : Accessible pt a) (wr : Bool) :
    ∃ p pt', translate pt a .byte wr = .ok (p, pt') := by
  obtain ⟨e, he, hvalid, hwrite, hlt⟩ := h
  have hro : e.readOnly = true → wr = false := fun h' => by
    rw [hwrite] at h'
    cases h'
  exact ⟨_, _, translate_iff.mpr ⟨Nat.mod_one _, e, he, hvalid, hro, hlt, rfl, rfl⟩⟩

theorem Accessible.congr (h : Accessible pt a)
    (hcore : pt'.map TranslationEntry.core = pt.map TranslationEntry.core) :
    Accessible pt' a := by
  obtain ⟨e, he, hvalid, hwrite, hlt⟩ := h
  obtain ⟨e', he', hpage, hvalid', hro⟩ := entry_core hcore he
  refine ⟨e', he', hvalid'.trans hvalid, hro.trans hwrite, ?_⟩
  rw [TranslationEntry.frame, hpage]
  exact hlt

/-- The program reads the same bytes through a table with the same pages. -/
theorem charAt_congr (hmem : u'.mem = u.mem)
    (hcore : u'.pageTable.map TranslationEntry.core = u.pageTable.map TranslationEntry.core)
    (a : BitVec 32) :
    u'.charAt a = u.charAt a := by
  unfold UserMem.charAt readMem
  rw [hmem]
  cases ht : Nachos.translate u.pageTable a .byte false with
  | error e =>
    cases ht' : Nachos.translate u'.pageTable a .byte false with
    | error e' => rfl
    | ok r =>
      obtain ⟨pt2, h2⟩ := translate_core hcore.symm (show _ = Except.ok (r.1, r.2) from ht')
      rw [h2] at ht
      cases ht
  | ok r =>
    obtain ⟨pt2, h2⟩ := translate_core hcore (show _ = Except.ok (r.1, r.2) from ht)
    rw [h2]

theorem chars_congr (hmem : u'.mem = u.mem)
    (hcore : u'.pageTable.map TranslationEntry.core = u.pageTable.map TranslationEntry.core)
    (a : BitVec 32) (n : ℕ) : u'.chars a n = u.chars a n := by
  induction n generalizing a with
  | zero => rfl
  | succ n ih => rw [UserMem.chars, UserMem.chars, ih, charAt_congr hmem hcore]

/-- The addresses behind the first. -/
theorem accessible_next (h : ∀ k < n + 1, Accessible pt (a + BitVec.ofNat 32 k))
    (hcore : pt'.map TranslationEntry.core = pt.map TranslationEntry.core) :
    ∀ k < n, Accessible pt' (a + 1 + BitVec.ofNat 32 k) := by
  intro k hk
  have hnext := h (k + 1) (by omega)
  rw [add_comm k 1, BitVec.ofNat_add, ← add_assoc] at hnext
  exact hnext.congr hcore

theorem accessible_first (h : ∀ k < n + 1, Accessible pt (a + BitVec.ofNat 32 k)) :
    Accessible pt a := by
  have hfirst := h 0 (by omega)
  rwa [show BitVec.ofNat 32 0 = 0 from rfl, add_zero] at hfirst

/-- Two pages that are there and have the same frame are one page. -/
theorem OwnFrames.page_inj (hpt : OwnFrames pt) {i j : ℕ} {e e' : TranslationEntry}
    (he : pt[i]? = some e) (he' : pt[j]? = some e') (hvalid : e.valid = true)
    (hvalid' : e'.valid = true) (hframe : e.frame = e'.frame) : i = j := by
  obtain ⟨hi, rfl⟩ := List.getElem?_eq_some_iff.mp he
  obtain ⟨hj, rfl⟩ := List.getElem?_eq_some_iff.mp he'
  have hpair := List.pairwise_iff_getElem.mp hpt
  rcases lt_trichotomy i j with hlt | heq | hlt
  · exact absurd hframe (hpair i j hi hj hlt hvalid hvalid')
  · exact heq
  · exact absurd hframe.symm (hpair j i hj hi hlt hvalid' hvalid)

/-- Where `Translate` finds the byte at `a`. -/
def physicalAddress (pt : PageTable) (a : BitVec 32) : ℤ :=
  (pt[a.toNat / pageSize]?.elim 0 TranslationEntry.frame) * pageSize + (a.toNat % pageSize : ℕ)

theorem physicalAddress_mem (h : Accessible pt a) :
    physicalAddress pt a ∈ Finset.Ico (0 : ℤ) memorySize := by
  obtain ⟨e, he, -, -, hlt⟩ := h
  have h0 : 0 ≤ e.frame := Int.emod_nonneg _ (by decide)
  have hmod := Nat.mod_lt a.toNat (show 0 < pageSize by decide)
  rw [Finset.mem_Ico, physicalAddress, he]
  simp only [Option.elim_some]
  unfold memorySize pageSize numPhysPages at *
  omega

/-- Two addresses of the program are two places. -/
theorem OwnFrames.physicalAddress_inj (hpt : OwnFrames pt) {b : BitVec 32} (ha : Accessible pt a)
    (hb : Accessible pt b) (hsame : physicalAddress pt a = physicalAddress pt b) : a = b := by
  obtain ⟨e, he, hvalid, -⟩ := ha
  obtain ⟨e', he', hvalid', -⟩ := hb
  have hmod := Nat.mod_lt a.toNat (show 0 < pageSize by decide)
  have hmod' := Nat.mod_lt b.toNat (show 0 < pageSize by decide)
  rw [physicalAddress, physicalAddress, he, he'] at hsame
  simp only [Option.elim_some] at hsame
  have hframe : e.frame = e'.frame := by
    unfold pageSize at *
    omega
  have hoffset : a.toNat % pageSize = b.toNat % pageSize := by
    rw [hframe] at hsame
    omega
  have hpage := hpt.page_inj he he' hvalid hvalid' hframe
  apply BitVec.eq_of_toNat_eq
  calc a.toNat = pageSize * (a.toNat / pageSize) + a.toNat % pageSize := (Nat.div_add_mod _ _).symm
    _ = pageSize * (b.toNat / pageSize) + b.toNat % pageSize := by rw [hpage, hoffset]
    _ = b.toNat := Nat.div_add_mod _ _

/-- A buffer of the program is no longer than memory. -/
theorem OwnFrames.length_le (hpt : OwnFrames pt)
    (h : ∀ k < n, Accessible pt (v + BitVec.ofNat 32 k)) : n ≤ memorySize := by
  by_contra hlong
  -- the places of the first bytes would be more than there are
  have hin : ∀ k ∈ Finset.range (memorySize + 1), Accessible pt (v + BitVec.ofNat 32 k) := by
    intro k hk
    rw [Finset.mem_range] at hk
    exact h k (by omega)
  have hinj : Set.InjOn (fun k => physicalAddress pt (v + BitVec.ofNat 32 k))
      (Finset.range (memorySize + 1) : Set ℕ) := by
    intro i hi j hj hsame
    have haddr := add_left_cancel (hpt.physicalAddress_inj (hin i hi) (hin j hj) hsame)
    have hnat := congrArg BitVec.toNat haddr
    rw [BitVec.toNat_ofNat, BitVec.toNat_ofNat] at hnat
    rw [Finset.coe_range, Set.mem_Iio] at hi hj
    unfold memorySize numPhysPages pageSize at hi hj
    omega
  have hcard := Finset.card_le_card_of_injOn _ (fun k hk => physicalAddress_mem (hin k hk)) hinj
  rw [Finset.card_range, Int.card_Ico] at hcard
  omega

/-- A program that `Load` has loaded has frames of its own. -/
theorem UserSpace.ownFrames (hs : UserSpace pt) : OwnFrames pt := by
  have hpages := List.pairwise_map.mp hs.nodup
  refine hpages.imp_of_mem fun he he' hne _ _ hsame => hne ?_
  obtain ⟨-, -, h0, h1⟩ := hs.pages _ he
  obtain ⟨-, -, h0', h1'⟩ := hs.pages _ he'
  rwa [TranslationEntry.frame, TranslationEntry.frame, emod_of_bounded h0 h1,
    emod_of_bounded h0' h1'] at hsame

/-- Such a program may read and write all of its space. -/
theorem UserSpace.accessible (hs : UserSpace pt) (ha : a.toNat < pt.length * pageSize) :
    Accessible pt a := by
  obtain ⟨e, he, hmem, -⟩ := entry_of_lt ha
  obtain ⟨hvalid, hwrite, h0, h1⟩ := hs.pages e hmem
  refine ⟨e, he, hvalid, hwrite, ?_⟩
  rwa [TranslationEntry.frame, emod_of_bounded h0 h1]

/-! ### The loops -/

/-- The loop of `User2System` stores the bytes up to the first zero. -/
theorem copyIn_chars (mem : Store) (n : ℕ) (pt : PageTable) (a : BitVec 32)
    (h : ∀ k < n, Accessible pt (a + BitVec.ofNat 32 k)) :
    ∃ pt', copyIn mem pt a n = .ok (passed (UserMem.chars ⟨mem, pt⟩ a n), pt') ∧
      pt'.map TranslationEntry.core = pt.map TranslationEntry.core := by
  induction n generalizing pt a with
  | zero => exact ⟨pt, rfl, rfl⟩
  | succ n ih =>
    obtain ⟨p, pt1, ht⟩ := (accessible_first h).translate false
    have hcore := core_of_translate ht
    have hread : readMem mem pt a .byte =
        .ok ((UserMem.charAt ⟨mem, pt⟩ a).signExtend 32, pt1) := by
      simp only [UserMem.charAt, readMem, ht, fetch, setWidth_signExtend]
    obtain ⟨pt', hrest, hcore'⟩ := ih pt1 (a + 1) (accessible_next h hcore)
    rw [copyIn, hread, UserMem.chars]
    simp only [signExtend_eq_zero, setWidth_signExtend]
    by_cases h0 : UserMem.charAt ⟨mem, pt⟩ a = 0
    · rw [if_pos h0, h0, passed_zero]
      exact ⟨pt1, rfl, hcore⟩
    · have hmem : (⟨mem, pt1⟩ : UserMem).mem = (⟨mem, pt⟩ : UserMem).mem := rfl
      have hsame := chars_congr hmem hcore (a + 1) n
      rw [if_neg h0, hrest, passed_cons h0, hsame]
      exact ⟨pt', rfl, hcore'.trans hcore⟩

/-- The loop of `System2User` ends on a buffer of the program. -/
theorem copyOut_total (l : List Byte) (u : UserMem) (a : BitVec 32)
    (h : ∀ k < l.length, Accessible u.pageTable (a + BitVec.ofNat 32 k)) :
    ∃ r, copyOut u a l = .ok r := by
  induction l generalizing u a with
  | nil => exact ⟨(u, 0), rfl⟩
  | cons b l ih =>
    obtain ⟨p, pt1, ht⟩ := (accessible_first h).translate true
    rw [copyOut, writeMem, ht]
    simp only
    by_cases hb : b = 0
    · rw [if_pos hb]
      exact ⟨_, rfl⟩
    · obtain ⟨r, hrest⟩ := ih ⟨_, pt1⟩ (a + 1) (accessible_next h (core_of_translate ht))
      rw [if_neg hb, hrest]
      exact ⟨_, rfl⟩

/-- It counts the bytes up to the first zero, with it. -/
theorem copyOut_count (l : List Byte) {m : ℤ} (h : copyOut u a l = .ok (u', m)) :
    m = (min l.length (l.idxOf 0 + 1) : ℕ) := by
  induction l generalizing u a m with
  | nil =>
    cases h
    rfl
  | cons b l ih =>
    obtain ⟨mem1, pt1, -, ⟨rfl, -, rfl⟩ | ⟨m', hb, hrest, rfl⟩⟩ := copyOut_cons h
    · rw [List.idxOf_cons_self, List.length_cons]
      omega
    · rw [ih hrest, List.idxOf_cons_ne _ hb, List.length_cons]
      omega

/-- A byte that was read is written back. -/
theorem write_back {c : BitVec 32}
    (hcore : pt1.map TranslationEntry.core = pt.map TranslationEntry.core)
    (hread : readMem mem pt a .byte = .ok (c, pt'))
    (hwrite : writeMem mem pt1 a .byte ((c.setWidth 8).signExtend 32) = .ok (mem', pt2)) :
    mem' = mem ∧ pt2.map TranslationEntry.core = pt.map TranslationEntry.core := by
  obtain ⟨p, ht, rfl⟩ := readMem_ok hread
  obtain ⟨p', ht', rfl⟩ := writeMem_ok hwrite
  obtain ⟨_, hr⟩ := translate_core hcore ht
  obtain ⟨_, hr'⟩ := translate_of_write ht'
  obtain rfl : p = p' := by
    rw [hr] at hr'
    cases hr'
    rfl
  rw [encode_signExtend]
  exact ⟨write_self (setWidth_signExtend _).symm, (core_of_translate ht').trans hcore⟩

/-- **Copying back what was copied in** changes no byte, if it returns. -/
theorem copyOut_back (n : ℕ) {l rest : List Byte} {m : ℤ}
    (hcore : pt1.map TranslationEntry.core = pt.map TranslationEntry.core)
    (hin : copyIn mem pt a n = .ok (l, pt'))
    (hout : copyOut ⟨mem, pt1⟩ a ((l ++ rest).take n) = .ok (u', m)) :
    u'.mem = mem ∧ u'.pageTable.map TranslationEntry.core = pt.map TranslationEntry.core := by
  induction n generalizing pt pt1 pt' a l m with
  | zero =>
    rw [List.take_zero] at hout
    cases hout
    exact ⟨rfl, hcore⟩
  | succ n ih =>
    obtain ⟨c, ptr, hread, ⟨rfl, rfl, -⟩ | ⟨l', -, hrest, rfl⟩⟩ := copyIn_succ hin
    · rw [List.cons_append, List.take_succ_cons] at hout
      obtain ⟨mem1, pt1, hwrite, ⟨-, rfl, -⟩ | ⟨m', hb, -⟩⟩ := copyOut_cons hout
      · exact write_back hcore hread hwrite
      · exact absurd rfl hb
    · rw [List.cons_append, List.take_succ_cons] at hout
      have hcorer := core_of_readMem hread
      obtain ⟨mem1, pt1, hwrite, ⟨-, rfl, -⟩ | ⟨m', -, hout', -⟩⟩ := copyOut_cons hout
      · exact write_back hcore hread hwrite
      · obtain ⟨rfl, hcore'⟩ := write_back hcore hread hwrite
        obtain ⟨h1, h2⟩ := ih (hcore'.trans hcorer.symm) hrest hout'
        exact ⟨h1, h2.trans hcorer⟩

/-- `User2System` leaves the pages where they are. -/
theorem core_of_copyIn (n : ℕ) {l : List Byte} (h : copyIn mem pt a n = .ok (l, pt')) :
    pt'.map TranslationEntry.core = pt.map TranslationEntry.core := by
  induction n generalizing pt a l with
  | zero =>
    cases h
    rfl
  | succ n ih =>
    obtain ⟨c, ptr, hread, ⟨-, -, rfl⟩ | ⟨l', -, hrest, -⟩⟩ := copyIn_succ h
    · exact core_of_readMem hread
    · exact (ih hrest).trans (core_of_readMem hread)

/-! ### The calls -/

/-- **System2User after User2System**, if both return, has changed no byte. -/
theorem system2User_back {virtAddr : BitVec 32} {limit m : ℤ} {buffer : List Byte} {u₁ u₂ : UserMem}
    (hin : user2System u virtAddr limit = .ok (buffer, u₁))
    (hout : system2User u₁ virtAddr limit buffer = .ok (u₂, m)) :
    u₂.mem = u.mem ∧
    u₂.pageTable.map TranslationEntry.core = u.pageTable.map TranslationEntry.core := by
  unfold user2System at hin
  split_ifs at hin
  obtain ⟨⟨l, pt1⟩, hcopy, hr⟩ := except_map_ok hin
  cases hr
  have hcore := core_of_copyIn _ hcopy
  unfold system2User at hout
  split_ifs at hout
  · cases hout
    exact ⟨rfl, hcore⟩
  · cases hout
    exact ⟨rfl, hcore⟩
  · exact copyOut_back limit.toNat hcore hcopy hout

/-- **User2System** on a buffer of the program. -/
theorem user2System_chars (hpt : OwnFrames u.pageTable)
    (h : ∀ k < n, Accessible u.pageTable (v + BitVec.ofNat 32 k)) :
    ∃ pt', user2System u v n = .ok (kernelBuf (u.chars v n), ⟨u.mem, pt'⟩) ∧
      pt'.map TranslationEntry.core = u.pageTable.map TranslationEntry.core := by
  obtain ⟨pt', hcopy, hcore⟩ := copyIn_chars u.mem n u.pageTable v h
  have hlen := hpt.length_le h
  refine ⟨pt', ?_, hcore⟩
  unfold memorySize numPhysPages pageSize at hlen
  unfold user2System
  rw [if_neg (by omega), Int.toNat_natCast, hcopy, kernelBuf_eq, length_chars]
  rfl

/-- **System2User** of that buffer returns, and how many bytes it has stored. -/
theorem system2User_chars (l : List Byte)
    (h : ∀ k < l.length, Accessible u.pageTable (v + BitVec.ofNat 32 k)) :
    ∃ u', system2User u v l.length (kernelBuf l) =
      .ok (u', (min l.length (l.idxOf 0 + 1) : ℕ)) := by
  unfold system2User
  rw [if_neg (by omega)]
  by_cases h0 : l.length = 0
  · rw [if_pos (by omega), h0]
    exact ⟨u, by simp⟩
  · rw [if_neg (by omega), Int.toNat_natCast]
    have hlen : ((kernelBuf l).take l.length).length = l.length := by
      rw [List.length_take, length_kernelBuf]
      omega
    obtain ⟨⟨u', m⟩, hcopy⟩ := copyOut_total ((kernelBuf l).take l.length) u v (hlen.symm ▸ h)
    have hcount := copyOut_count _ hcopy
    rw [hlen, idxOf_kernelBuf] at hcount
    exact ⟨u', by rw [hcopy, hcount]⟩

namespace Io

/-- **SysWrite** never changes the memory of its caller. -/
theorem sysWrite_mem {s s' : Io} {env : HostEnv} {virtAddr : BitVec 32} {size id result : ℤ}
    (h : s.sysWrite env virtAddr size id = .ok (s', result)) :
    s'.user.mem = s.user.mem ∧ s'.user.pageTable.map TranslationEntry.core = s.user.pageTable.map
      TranslationEntry.core := by
  obtain hneg | rfl | rfl | ⟨h2, hi⟩ | ⟨i, h2, hi⟩ := id_cases s.table id
  · rw [sysWrite_neg hneg] at h
    cases h
    exact ⟨rfl, rfl⟩
  · cases h
    exact ⟨rfl, rfl⟩
  · rw [sysWrite_output] at h
    obtain ⟨⟨buffer, user⟩, hin, h⟩ := bind_eq_ok h
    obtain ⟨⟨user', m⟩, hout, h⟩ := bind_eq_ok h
    cases h
    exact system2User_back hin hout
  · rw [sysWrite_none h2 hi] at h
    obtain ⟨b, -, h⟩ := bind_eq_ok h
    cases h
  · rw [sysWrite_some h2 hi] at h
    obtain ⟨⟨buffer, user⟩, hin, h⟩ := bind_eq_ok h
    obtain ⟨r, -, h⟩ := bind_eq_ok h
    obtain ⟨⟨user', m⟩, hout, h⟩ := bind_eq_ok h
    cases h
    exact system2User_back hin hout

end Io

/-- **Copying in and back is the identity** on the memory of a program, wherever
its buffer lies and whatever is in it: the kernel's buffer is what is before the
first zero, followed by zeros, and the copy back changes no byte and returns how
far it went. So `SysWrite` changes no byte of any memory. -/
theorem copy_back (u : UserMem) (hpt : OwnFrames u.pageTable) (v : BitVec 32) (n : ℕ)
    (haccess : ∀ k < n, Accessible u.pageTable (v + BitVec.ofNat 32 k)) :
    (∃ u₁ u₂, user2System u v n = .ok (kernelBuf (u.chars v n), u₁) ∧
      system2User u₁ v n (kernelBuf (u.chars v n)) =
        .ok (u₂, (min n ((u.chars v n).idxOf 0 + 1) : ℕ)) ∧
      u₂.mem = u.mem ∧ ∀ a, u₂.charAt a = u.charAt a) ∧
    ∀ (s s' : Io) env virtAddr size id result, s.sysWrite env virtAddr size id = .ok (s', result) →
      s'.user.mem = s.user.mem ∧ ∀ a, s'.user.charAt a = s.user.charAt a := by
  refine ⟨?_, fun s s' env virtAddr size id result h => ?_⟩
  · obtain ⟨pt', hin, hcore⟩ := user2System_chars hpt haccess
    have hout := system2User_chars (u := ⟨u.mem, pt'⟩) (v := v) (u.chars v n) fun k hk =>
      (haccess k (length_chars u v n ▸ hk)).congr hcore
    rw [length_chars] at hout
    obtain ⟨u₂, hout⟩ := hout
    obtain ⟨hmem, hcore₂⟩ := system2User_back hin hout
    exact ⟨_, u₂, hin, hout, hmem, charAt_congr hmem hcore₂⟩
  · obtain ⟨hmem, hcore⟩ := Io.sysWrite_mem h
    exact ⟨hmem, charAt_congr hmem hcore⟩

/-- A program whose page 0 is in frame 5, page 1 in frame 3, and page 2 not there,
with four bytes across the end of page 0, the third of them 0. -/
def holed : UserMem where
  mem p := if p = 766 then 72 else if p = 767 then 105 else if p = 385 then 33 else 0
  pageTable := [⟨0, 5, true, false, false, false⟩, ⟨1, 3, true, false, false, false⟩,
    ⟨2, 5, false, true, false, false⟩]

example : kernelBuf (holed.chars 126 4) = [72, 105, 0, 0, 0] := by decide

theorem copy_back_holed :
    (∃ u₁ u₂, user2System holed 126 (4 : ℕ) = .ok (kernelBuf (holed.chars 126 4), u₁) ∧
      system2User u₁ 126 (4 : ℕ)
      (kernelBuf (holed.chars 126 4)) = .ok (u₂, (min 4 ((holed.chars 126 4).idxOf 0 + 1) : ℕ)) ∧
      u₂.mem = holed.mem ∧ ∀ a, u₂.charAt a = holed.charAt a) ∧
    ∀ (s s' : Io) env virtAddr size id result, s.sysWrite env virtAddr size id = .ok (s', result) →
      s'.user.mem = s.user.mem ∧ ∀ a, s'.user.charAt a = s.user.charAt a :=
  copy_back holed (by decide) 126 4 (by decide)

end Nachos
