/-
# The kernel's access to user memory (`userprog/ksyscall.h`)

`User2System` copies a buffer of the user into a kernel buffer that was filled
with zeros, and stops after a zero byte; `System2User` copies a kernel buffer
to the user and stops after a zero byte as well. Each byte goes through
`ReadMem` and `WriteMem`; an address that does not translate raises an
exception, whose handler halts the machine (`SysStop.halt`).

An address space that `Load` has made (`UserSpace`) has its own page for each
virtual page, so its bytes are a function of the virtual address
(`UserMem.byte`), and the two copies are stated on that:

* `user2System_ok`: the kernel buffer is the user's up to its first zero
  (`untilZero`), and zeros from there on.
* `system2User_ok`: the user's bytes become the kernel's up to its first zero,
  and no other byte changes.
* `copyOut_copyIn`: copying back what was copied in changes nothing.

Key definitions: `SysStop`, `UserMem`, `user2System`, `system2User`, `UserSpace`, `untilZero`.
-/
import Mathlib
import Nachos.Base.Bytes
import Nachos.Machine.Translate
import Nachos.Userprog.AddrSpace

namespace Nachos

open Bytes (Byte Store)

/-- How a system call can end without returning: the machine is halted by the
handler of an exception, `new` throws, a NULL pointer is dereferenced, an
`ASSERT` fails. -/
inductive SysStop
  | halt | badAlloc | nullDescriptor | nullFile | assert
  deriving DecidableEq

/-- The memory as the current program has it. -/
structure UserMem where
  mem : Store
  pageTable : PageTable

/-- The loop of `User2System`: the bytes it stores. -/
def copyIn (mem : Store) : PageTable → BitVec 32 → ℕ → Except SysStop (List Byte × PageTable)
  | pt, _, 0 => .ok ([], pt)
  | pt, virtAddr, n + 1 =>
    match readMem mem pt virtAddr .byte with
    | .error _ => .error .halt
    | .ok (oneChar, pt') =>
      if oneChar = 0 then .ok ([0], pt')
      else (copyIn mem pt' (virtAddr + 1) n).map fun r => (oneChar.setWidth 8 :: r.1, r.2)

/-- `User2System`. `new char[limit + 1]` throws if `limit + 1` is negative as
an `int`. -/
def user2System (u : UserMem) (virtAddr : BitVec 32) (limit : ℤ) :
    Except SysStop (List Byte × UserMem) :=
  if limit + 1 < 0 ∨ 2 ^ 31 ≤ limit + 1 then .error .badAlloc
  else (copyIn u.mem u.pageTable virtAddr limit.toNat).map fun r =>
    (r.1 ++ List.replicate ((limit + 1).toNat - r.1.length) 0, { u with pageTable := r.2 })

/-- The loop of `System2User` over the bytes below `len`, and how many it
stores. -/
def copyOut : UserMem → BitVec 32 → List Byte → Except SysStop (UserMem × ℤ)
  | u, _, [] => .ok (u, 0)
  | u, virtAddr, oneChar :: rest =>
    match writeMem u.mem u.pageTable virtAddr .byte (oneChar.signExtend 32) with
    | .error _ => .error .halt
    | .ok (mem', pt') =>
      if oneChar = 0 then .ok (⟨mem', pt'⟩, 1)
      else (copyOut ⟨mem', pt'⟩ (virtAddr + 1) rest).map fun r => (r.1, r.2 + 1)

/-- `System2User`. -/
def system2User (u : UserMem) (virtAddr : BitVec 32) (len : ℤ) (buffer : List Byte) :
    Except SysStop (UserMem × ℤ) :=
  if len < 0 then .ok (u, -1)
  else if len = 0 then .ok (u, len)
  else copyOut u virtAddr (buffer.take len.toNat)

/-! ### An address space -/

/-- What translations leave of an entry. -/
def TranslationEntry.core (e : TranslationEntry) : ℤ × Bool × Bool :=
  (e.physicalPage, e.valid, e.readOnly)

/-- Every page is there, may be written, and has a frame of its own. -/
structure UserSpace (pt : PageTable) : Prop where
  pages : ∀ e ∈ pt, e.valid = true ∧ e.readOnly = false ∧ 0 ≤ e.physicalPage ∧
    e.physicalPage < numPhysPages
  nodup : (pt.map (·.physicalPage)).Nodup

instance (pt : PageTable) : Decidable (UserSpace pt) :=
  decidable_of_iff ((∀ e ∈ pt, e.valid = true ∧ e.readOnly = false ∧ 0 ≤ e.physicalPage ∧
    e.physicalPage < numPhysPages) ∧
    (pt.map (·.physicalPage)).Nodup) ⟨fun h => ⟨h.1, h.2⟩, fun h => ⟨h.pages, h.nodup⟩⟩

/-- Where virtual address `v` is. -/
def place (pt : PageTable) (v : ℕ) : ℤ :=
  (pt[v / pageSize]?.elim 0 (·.physicalPage)) * pageSize + (v % pageSize : ℕ)

/-- The byte at virtual address `v`. -/
def UserMem.byte (u : UserMem) (v : ℕ) : Byte := (vbyte u.mem u.pageTable v).getD 0

/-- The addresses of the space. -/
def UserMem.size (u : UserMem) : ℕ := u.pageTable.length * pageSize

variable {pt pt' : PageTable} {mem mem' : Store} {a : BitVec 32} {u u' : UserMem} {v w n : ℕ}

theorem core_physicalPage (h : pt'.map TranslationEntry.core = pt.map TranslationEntry.core) :
    pt'.map (·.physicalPage) = pt.map (·.physicalPage) := by
  have := congrArg (List.map Prod.fst) h
  rwa [List.map_map, List.map_map] at this

/-- The table that `Load` makes. -/
theorem userSpace_load {h : NoffHeader} {file : List Byte} {bm bm' : Bitmap} {sp : AddrSpace}
    (hb : bm.numBits = numPhysPages) (hl : loadLocked h file bm mem = .ok sp bm' mem') :
    UserSpace sp.pageTable := by
  obtain ⟨m, ha⟩ := (loadLocked_ok hl).alloc
  refine ⟨fun e he => ?_, ha.nodup⟩
  obtain ⟨i, hi⟩ := List.mem_iff_getElem?.mp he
  obtain ⟨p, hp, hlt, -⟩ := ha.fresh e he
  rw [ha.entry i e hi]
  exact ⟨rfl, rfl, by rw [hp]; omega, by rw [hp, ← hb]; exact_mod_cast hlt⟩

theorem UserSpace.congr (hs : UserSpace pt)
    (h : pt'.map TranslationEntry.core = pt.map TranslationEntry.core) : UserSpace pt' := by
  refine ⟨fun e he => ?_, core_physicalPage h ▸ hs.nodup⟩
  have hmem : e.core ∈ pt.map TranslationEntry.core := h ▸ List.mem_map_of_mem he
  obtain ⟨e', he', hcore⟩ := List.mem_map.mp hmem
  obtain ⟨h1, h2, h3, h4⟩ := hs.pages e' he'
  simp only [TranslationEntry.core, Prod.mk.injEq] at hcore
  rw [← hcore.1, ← hcore.2.1, ← hcore.2.2]
  exact ⟨h1, h2, h3, h4⟩

theorem place_congr (h : pt'.map TranslationEntry.core = pt.map TranslationEntry.core) (v : ℕ) :
    place pt' v = place pt v := by
  have hget : pt'[v / pageSize]?.map (·.physicalPage) = pt[v / pageSize]?.map (·.physicalPage) := by
    rw [← List.getElem?_map, ← List.getElem?_map, core_physicalPage h]
  have helim : ∀ o : Option TranslationEntry, o.elim 0 (·.physicalPage) =
      (o.map (·.physicalPage)).getD 0 := by
    intro o
    cases o <;> rfl
  unfold place
  rw [helim, helim, hget]

theorem length_congr (h : pt'.map TranslationEntry.core = pt.map TranslationEntry.core) :
    pt'.length = pt.length := by
  simpa using congrArg List.length h

/-- The entry of an address of the space. -/
theorem entry_of_lt (hv : v < pt.length * pageSize) : ∃ e, pt[v / pageSize]? = some e ∧ e ∈ pt ∧
    place pt v = e.physicalPage * pageSize + (v % pageSize : ℕ) := by
  have hlt : v / pageSize < pt.length := (Nat.div_lt_iff_lt_mul (by decide)).mpr hv
  have he := List.getElem?_eq_getElem hlt
  exact ⟨_, he, List.mem_of_getElem? he, by rw [place, he]; rfl⟩

theorem byte_eq (hv : v < u.size) : u.byte v = u.mem (place u.pageTable v) := by
  obtain ⟨e, he, -, hp⟩ := entry_of_lt hv
  rw [UserMem.byte, vbyte, he, hp]
  rfl

theorem byte_congr (h : pt'.map TranslationEntry.core = pt.map TranslationEntry.core) (v : ℕ) :
    UserMem.byte ⟨mem, pt'⟩ v = UserMem.byte ⟨mem, pt⟩ v := by
  have hget : pt'[v / pageSize]?.map (·.physicalPage) = pt[v / pageSize]?.map (·.physicalPage) := by
    rw [← List.getElem?_map, ← List.getElem?_map, core_physicalPage h]
  have helim : ∀ p : PageTable, vbyte mem p v = (p[v / pageSize]?.map (·.physicalPage)).map fun q =>
      mem (q * pageSize + (v % pageSize : ℕ)) := by
    intro p
    rw [Option.map_map]
    rfl
  unfold UserMem.byte
  rw [helim, helim, hget]

theorem byte_of_size_le (hv : u.size ≤ v) : u.byte v = 0 := by
  have hlt : u.pageTable.length ≤ v / pageSize := (Nat.le_div_iff_mul_le (by decide)).mpr hv
  rw [UserMem.byte, vbyte, List.getElem?_eq_none hlt]
  rfl

/-- The same memory through the same pages. -/
theorem byte_same (hmem : u'.mem = u.mem)
    (hcore : u'.pageTable.map TranslationEntry.core = u.pageTable.map TranslationEntry.core)
    (v : ℕ) :
    u'.byte v = u.byte v := by
  obtain ⟨mem', pt'⟩ := u'
  obtain rfl : mem' = u.mem := hmem
  exact byte_congr hcore v

theorem size_congr
    (hcore : u'.pageTable.map TranslationEntry.core = u.pageTable.map TranslationEntry.core) :
    u'.size = u.size := by
  unfold UserMem.size
  rw [length_congr hcore]

/-- Different addresses of the space are different places. -/
theorem UserSpace.place_inj (hs : UserSpace pt) (hv : v < pt.length * pageSize)
    (hw : w < pt.length * pageSize) (h : place pt v = place pt w) : v = w := by
  obtain ⟨e, he, -, hp⟩ := entry_of_lt hv
  obtain ⟨e', he', -, hp'⟩ := entry_of_lt hw
  have hvm : v % pageSize < pageSize := Nat.mod_lt _ (by decide)
  have hwm : w % pageSize < pageSize := Nat.mod_lt _ (by decide)
  rw [hp, hp'] at h
  have hpage : e.physicalPage = e'.physicalPage := by
    have hon : OnPage e'.physicalPage (e.physicalPage * pageSize + (v % pageSize : ℕ)) :=
      h ▸ onPage_offset hwm
    exact onPage_unique (onPage_offset hvm) hon
  have hdiv := entry_unique hs.nodup he he' hpage
  have hmod : v % pageSize = w % pageSize := by
    rw [hpage] at h
    omega
  rw [← Nat.div_add_mod v pageSize, ← Nat.div_add_mod w pageSize, hdiv, hmod]

/-! ### One byte -/

/-- An address of the space translates, for reading and for writing. -/
theorem UserSpace.translate_ok (hs : UserSpace pt) (hv : a.toNat < pt.length * pageSize)
    (wr : Bool) :
    ∃ pt', translate pt a .byte wr = .ok (place pt a.toNat, pt') ∧
    pt'.map TranslationEntry.core = pt.map TranslationEntry.core := by
  obtain ⟨e, he, hmem, hp⟩ := entry_of_lt hv
  obtain ⟨h1, h2, h3, h4⟩ := hs.pages e hmem
  refine ⟨pt.set (a.toNat / pageSize) { e with use := true, dirty := e.dirty || wr }, ?_, ?_⟩
  · unfold translate
    rw [if_neg (by simp)]
    simp only [he, h1, h2, emod_of_bounded h3 h4, hp]
    rw [if_neg (by simp), if_neg (by simp), if_neg (by omega)]
  · rw [List.map_set]
    refine List.ext_getElem? fun i => ?_
    rw [List.getElem?_set]
    split_ifs with hi hlt
    · rw [← hi, List.getElem?_map, he]
      rfl
    · rw [List.length_map] at hlt
      exact absurd (List.getElem?_eq_some_iff.mp he).1 (hi ▸ hlt)
    · rfl

/-- No other address does. -/
theorem translate_outside (hv : pt.length * pageSize ≤ a.toNat) (wr : Bool) :
    ∃ e, translate pt a .byte wr = .error e := by
  have hlt : pt.length ≤ a.toNat / pageSize := (Nat.le_div_iff_mul_le (by decide)).mpr hv
  refine ⟨.addressErrorException, ?_⟩
  unfold translate
  rw [if_neg (by simp)]
  simp only [List.getElem?_eq_none hlt]

theorem setWidth_signExtend (b : Byte) : (b.signExtend 32).setWidth 8 = b := by
  apply BitVec.eq_of_getLsbD_eq
  intro i hi
  rw [BitVec.getLsbD_setWidth, BitVec.getLsbD_signExtend]
  simp [hi]
  omega

theorem signExtend_eq_zero (b : Byte) : b.signExtend 32 = 0 ↔ b = 0 := by
  constructor
  · intro h
    rw [← setWidth_signExtend b, h]
    rfl
  · rintro rfl
    rfl

/-- The byte that a `char` is stored as. -/
theorem encode_signExtend (b : Byte) : encode (b.signExtend 32) .byte = [b] := by
  simp only [encode, Bytes.wordBytes, Width.size, List.take_succ_cons, List.take_zero]
  rw [← BitVec.setWidth_eq_extractLsb' (by omega), setWidth_signExtend]

theorem UserSpace.readMem_ok (hs : UserSpace pt) (hv : a.toNat < pt.length * pageSize)
    (mem : Store) :
    ∃ pt', readMem mem pt a .byte = .ok ((mem (place pt a.toNat)).signExtend 32, pt') ∧
      pt'.map TranslationEntry.core = pt.map TranslationEntry.core := by
  obtain ⟨pt', ht, hcore⟩ := hs.translate_ok hv false
  refine ⟨pt', ?_, hcore⟩
  unfold readMem
  rw [ht]
  rfl

theorem UserSpace.writeMem_ok (hs : UserSpace pt) (hv : a.toNat < pt.length * pageSize)
    (mem : Store) (b : Byte) :
    ∃ pt', writeMem mem pt a .byte (b.signExtend 32) =
      .ok (Bytes.write mem (place pt a.toNat) [b], pt') ∧
      pt'.map TranslationEntry.core = pt.map TranslationEntry.core := by
  obtain ⟨pt', ht, hcore⟩ := hs.translate_ok hv true
  refine ⟨pt', ?_, hcore⟩
  unfold writeMem
  rw [ht]
  simp only [encode_signExtend]

theorem UserSpace.length_le (hs : UserSpace pt) : pt.length ≤ numPhysPages := by
  have hsub : (pt.map (·.physicalPage)).toFinset ⊆ Finset.Ico (0 : ℤ) numPhysPages := by
    intro p hp
    obtain ⟨e, he, rfl⟩ := List.mem_map.mp (List.mem_toFinset.mp hp)
    obtain ⟨-, -, h0, h1⟩ := hs.pages e he
    exact Finset.mem_Ico.mpr ⟨h0, h1⟩
  have hcard := Finset.card_le_card hsub
  rw [List.toFinset_card_of_nodup hs.nodup, List.length_map, Int.card_Ico] at hcard
  omega

/-- The next address. -/
theorem UserSpace.toNat_succ (hs : UserSpace pt) (hv : a.toNat < pt.length * pageSize) :
    (a + 1).toNat = a.toNat + 1 := by
  have hlen := hs.length_le
  have hle : pt.length * pageSize ≤ numPhysPages * pageSize := Nat.mul_le_mul_right _ hlen
  unfold numPhysPages pageSize at hle
  unfold pageSize at hv
  rw [BitVec.toNat_add, show (1 : BitVec 32).toNat = 1 from rfl]
  omega

/-! ### How far a copy goes -/

/-- The addresses that a copy of `n` bytes of `f` at `v` visits, those up to the
first zero, are in a space of `size` bytes. -/
def Within (f : ℕ → Byte) (v n size : ℕ) : Prop := ∀ k < n, (∀ j < k, f j ≠ 0) → v + k < size

instance (f : ℕ → Byte) (v n size : ℕ) : Decidable (Within f v n size) :=
  inferInstanceAs (Decidable (∀ k < n, _))

/-- A copy of a buffer that is all in the space. -/
theorem Within.of_mapped {f : ℕ → Byte} {size : ℕ} (h : ∀ k < n, v + k < size) :
    Within f v n size := fun k hk _ => h k hk

theorem within_zero (f : ℕ → Byte) (v size : ℕ) : Within f v 0 size :=
  fun _ hk => absurd hk (Nat.not_lt_zero _)

theorem within_succ_of_zero {f : ℕ → Byte} {size : ℕ} (h0 : f 0 = 0) :
    Within f v (n + 1) size ↔ v < size := by
  constructor
  · intro h
    exact h 0 (by omega) (by omega)
  · intro h k hk hj
    obtain _ | k := k
    · exact h
    · exact absurd h0 (hj 0 (by omega))

theorem within_succ {f : ℕ → Byte} {size : ℕ} (h0 : f 0 ≠ 0) :
    Within f v (n + 1) size ↔ v < size ∧ Within (fun k => f (k + 1)) (v + 1) n size := by
  constructor
  · intro h
    refine ⟨h 0 (by omega) (by omega), fun k hk hj => ?_⟩
    have := h (k + 1) (by omega) fun j hjk => by
      obtain _ | j := j
      · exact h0
      · exact hj j (by omega)
    omega
  · rintro ⟨hv, h⟩ k hk hj
    obtain _ | k := k
    · exact hv
    · have := h k (by omega) fun j hjk => hj (j + 1) (by omega)
      omega

/-- Only the bytes up to the first zero count. -/
theorem within_congr {f g : ℕ → Byte} {size : ℕ} (h : ∀ k < n, (∀ j < k, f j ≠ 0) → f k = g k) :
    Within f v n size ↔ Within g v n size := by
  have hsame : ∀ k ≤ n, (∀ j < k, f j ≠ 0) ↔ ∀ j < k, g j ≠ 0 := by
    intro k
    induction k with
    | zero => exact fun _ => ⟨fun _ j hj => by omega, fun _ j hj => by omega⟩
    | succ k ih =>
      intro hk
      rw [Nat.forall_lt_succ_right, Nat.forall_lt_succ_right, ← ih (by omega)]
      exact and_congr_right fun hf => by rw [h k (by omega) hf]
  exact forall₂_congr fun k hk => imp_congr_left (hsame k hk.le)

/-! ### Copying in -/

/-- The bytes of `f` up to the first zero, and zeros from there on. -/
def untilZero (f : ℕ → Byte) (k : ℕ) : Byte := if ∃ j < k, f j = 0 then 0 else f k

theorem untilZero_zero (f : ℕ → Byte) : untilZero f 0 = f 0 := if_neg (by simp)

theorem untilZero_of_zero {f : ℕ → Byte} (h0 : f 0 = 0) (k : ℕ) : untilZero f k = 0 := by
  unfold untilZero
  split_ifs with h
  · rfl
  · by_contra hne
    exact h ⟨0, Nat.pos_of_ne_zero fun hk => hne (by rw [hk, h0]), h0⟩

theorem untilZero_succ {f : ℕ → Byte} (h0 : f 0 ≠ 0) (k : ℕ) :
    untilZero f (k + 1) = untilZero (fun j => f (j + 1)) k := by
  have hiff : (∃ j < k + 1, f j = 0) ↔ ∃ j < k, f (j + 1) = 0 := by
    constructor
    · rintro ⟨j, hj, h⟩
      obtain _ | j := j
      · exact absurd h h0
      · exact ⟨j, by omega, h⟩
    · rintro ⟨j, hj, h⟩
      exact ⟨j + 1, by omega, h⟩
  unfold untilZero
  simp only [hiff]

/-- A byte that no zero is before. -/
theorem untilZero_of_ne {f : ℕ → Byte} {k : ℕ} (h : ∀ j < k, f j ≠ 0) : untilZero f k = f k :=
  if_neg fun ⟨j, hj, h0⟩ => h j hj h0

/-- Nothing is lost just when behind a zero there are only zeros. -/
theorem untilZero_eq_iff (f : ℕ → Byte) (k : ℕ) :
    untilZero f k = f k ↔ ∀ j < k, f j = 0 → f k = 0 := by
  unfold untilZero
  split_ifs with hz
  · obtain ⟨j, hjk, h0⟩ := hz
    exact ⟨fun h _ _ _ => h.symm, fun h => (h j hjk h0).symm⟩
  · exact iff_of_true rfl fun j hjk h0 => absurd ⟨j, hjk, h0⟩ hz

/-- The bytes from the next address on, after a translation. -/
theorem byte_next {b : BitVec 32} (hnext : b.toNat = a.toNat + 1)
    (hcore : pt'.map TranslationEntry.core = pt.map TranslationEntry.core) (j : ℕ) :
    UserMem.byte ⟨mem, pt⟩ (a.toNat + (j + 1)) = UserMem.byte ⟨mem, pt'⟩ (b.toNat + j) := by
  rw [hnext, byte_congr hcore, Nat.add_right_comm, Nat.add_assoc]

theorem within_next {b : BitVec 32} (hnext : b.toNat = a.toNat + 1)
    (hcore : pt'.map TranslationEntry.core = pt.map TranslationEntry.core)
    (hv : a.toNat < pt.length * pageSize) (h0 : UserMem.byte ⟨mem, pt⟩ a.toNat ≠ 0) :
    Within (fun k => UserMem.byte ⟨mem, pt⟩ (a.toNat + k)) a.toNat (n + 1) (pt.length * pageSize) ↔
      Within (fun k => UserMem.byte ⟨mem, pt'⟩ (b.toNat + k)) b.toNat n
      (pt'.length * pageSize) := by
  rw [within_succ h0, and_iff_right hv]
  simp only [byte_next hnext hcore]
  rw [length_congr hcore, hnext]

/-- What the loop stores, with the zeros of the buffer behind it. -/
theorem copyIn_ok (mem : Store) (n : ℕ) : ∀ (pt : PageTable) (a : BitVec 32), UserSpace pt →
    Within (fun k => UserMem.byte ⟨mem, pt⟩ (a.toNat + k)) a.toNat n (pt.length * pageSize) →
    ∃ l pt', copyIn mem pt a n = .ok (l, pt') ∧
    pt'.map TranslationEntry.core = pt.map TranslationEntry.core ∧ l.length ≤ n ∧
      l ++ List.replicate (n - l.length) 0 = (List.range n).map
      (untilZero fun k => UserMem.byte ⟨mem, pt⟩ (a.toNat + k)) := by
  induction n with
  | zero => exact fun pt a _ _ => ⟨[], pt, rfl, rfl, le_refl _, rfl⟩
  | succ n ih =>
    intro pt a hs hin
    have hv : a.toNat < pt.length * pageSize := hin 0 (by omega) (by omega)
    have hbyte : mem (place pt a.toNat) = UserMem.byte ⟨mem, pt⟩ a.toNat :=
      (byte_eq (u := ⟨mem, pt⟩) hv).symm
    obtain ⟨pt1, hread, hcore⟩ := hs.readMem_ok hv mem
    rw [copyIn, hread]
    simp only [signExtend_eq_zero, setWidth_signExtend]
    rw [List.range_succ_eq_map, List.map_cons, List.map_map, untilZero_zero, hbyte]
    by_cases h0 : UserMem.byte ⟨mem, pt⟩ a.toNat = 0
    · refine ⟨[0], pt1, by rw [if_pos h0], hcore, by simp, ?_⟩
      have hzeros : (List.range n).map ((untilZero fun k => UserMem.byte ⟨mem, pt⟩ (a.toNat + k)) ∘
          Nat.succ) = List.replicate n 0 := by
        rw [List.eq_replicate_iff]
        refine ⟨by simp, fun b hb => ?_⟩
        obtain ⟨k, -, rfl⟩ := List.mem_map.mp hb
        exact untilZero_of_zero h0 _
      rw [hzeros, show UserMem.byte ⟨mem, pt⟩ (a.toNat + 0) = 0 from h0]
      rfl
    · have hnext := hs.toNat_succ hv
      obtain ⟨l, pt', hrest, hcore', hlen, heq⟩ :=
        ih pt1 (a + 1) (hs.congr hcore) ((within_next hnext hcore hv h0).mp hin)
      refine ⟨UserMem.byte ⟨mem, pt⟩ a.toNat :: l, pt', ?_, hcore'.trans hcore, by simpa using hlen,
        ?_⟩
      · rw [if_neg h0, hrest]
        rfl
      · rw [List.length_cons, Nat.add_sub_add_right, List.cons_append, heq]
        refine congrArg _ (List.map_congr_left fun k _ => ?_)
        rw [Function.comp_apply, untilZero_succ h0]
        exact congrArg (fun f => untilZero f k) (funext fun j => (byte_next hnext hcore j).symm)

/-- A buffer that leaves the space before its first zero halts the machine. -/
theorem copyIn_halt (mem : Store) (n : ℕ) : ∀ (pt : PageTable) (a : BitVec 32), UserSpace pt →
    ¬ Within (fun k => UserMem.byte ⟨mem, pt⟩ (a.toNat + k)) a.toNat n (pt.length * pageSize) →
    copyIn mem pt a n = .error .halt := by
  induction n with
  | zero => exact fun pt a _ h => absurd (within_zero _ _ _) h
  | succ n ih =>
    intro pt a hs hout
    rw [copyIn]
    by_cases hv : a.toNat < pt.length * pageSize
    · obtain ⟨pt1, hread, hcore⟩ := hs.readMem_ok hv mem
      have hbyte : mem (place pt a.toNat) = UserMem.byte ⟨mem, pt⟩ a.toNat :=
        (byte_eq (u := ⟨mem, pt⟩) hv).symm
      have h0 : UserMem.byte ⟨mem, pt⟩ a.toNat ≠ 0 :=
        fun h0 => hout ((within_succ_of_zero h0).mpr hv)
      have hnext := hs.toNat_succ hv
      have hrest : copyIn mem pt1 (a + 1) n = .error .halt := by
        exact ih pt1 (a + 1) (hs.congr hcore) fun hin =>
          hout ((within_next hnext hcore hv h0).mpr hin)
      rw [hread]
      simp only [signExtend_eq_zero, hbyte]
      rw [if_neg h0, hrest]
      rfl
    · obtain ⟨e, ht⟩ := translate_outside (not_lt.mp hv) false
      have hread : readMem mem pt a .byte = .error e := by
        unfold readMem
        rw [ht]
      rw [hread]

/-- The sizes that `User2System` has a buffer for. -/
def SizeOk (size : ℤ) : Prop := -1 ≤ size ∧ size < 2 ^ 31 - 1

instance (size : ℤ) : Decidable (SizeOk size) := inferInstanceAs (Decidable (_ ∧ _))

/-- **User2System** on a buffer of the space. -/
theorem user2System_ok (hs : UserSpace u.pageTable) {virtAddr : BitVec 32} {limit : ℤ}
    (hsize : SizeOk limit)
    (hin : Within (fun k => u.byte (virtAddr.toNat + k)) virtAddr.toNat limit.toNat u.size) :
    ∃ l u', user2System u virtAddr limit = .ok (l, u') ∧ l.length = (limit + 1).toNat ∧
      l.take limit.toNat = (List.range limit.toNat).map
      (untilZero fun k => u.byte (virtAddr.toNat + k)) ∧
      u'.mem = u.mem ∧
      u'.pageTable.map TranslationEntry.core = u.pageTable.map TranslationEntry.core := by
  obtain ⟨l, pt', hcopy, hcore, hlen, heq⟩ :=
    copyIn_ok u.mem limit.toNat u.pageTable virtAddr hs hin
  unfold SizeOk at hsize
  refine ⟨l ++ List.replicate ((limit + 1).toNat - l.length) 0, { u with pageTable := pt' }, ?_, ?_,
    ?_, rfl, hcore⟩
  · unfold user2System
    rw [if_neg (by omega), hcopy]
    rfl
  · rw [List.length_append, List.length_replicate]
    omega
  · rw [← heq, List.take_append, List.take_of_length_le hlen, List.take_replicate]
    congr 2
    omega

/-- The whole kernel buffer: the copy, and one zero behind it. -/
theorem user2System_buffer (hs : UserSpace u.pageTable) {virtAddr : BitVec 32} (hsize : SizeOk n)
    (hin : Within (fun k => u.byte (virtAddr.toNat + k)) virtAddr.toNat n u.size) :
    ∃ u', user2System u virtAddr n =
      .ok ((List.range n).map (untilZero fun k => u.byte (virtAddr.toNat + k)) ++ [0], u') ∧
      u'.mem = u.mem ∧
      u'.pageTable.map TranslationEntry.core = u.pageTable.map TranslationEntry.core := by
  obtain ⟨l, pt', hcopy, hcore, hlen, heq⟩ := copyIn_ok u.mem n u.pageTable virtAddr hs hin
  unfold SizeOk at hsize
  refine ⟨{ u with pageTable := pt' }, ?_, rfl, hcore⟩
  have hzeros : List.replicate (((n : ℤ) + 1).toNat - l.length) (0 : Byte) =
      List.replicate (n - l.length) 0 ++ [0] := by
    rw [← List.replicate_succ', show ((n : ℤ) + 1).toNat - l.length = n - l.length + 1 by omega]
  unfold user2System
  rw [if_neg (by omega), Int.toNat_natCast, hcopy]
  simp only [Except.map]
  rw [hzeros, ← List.append_assoc, heq]

theorem user2System_halt (hs : UserSpace u.pageTable) {virtAddr : BitVec 32} {limit : ℤ}
    (hsize : SizeOk limit)
    (hout : ¬ Within (fun k => u.byte (virtAddr.toNat + k)) virtAddr.toNat limit.toNat u.size) :
    user2System u virtAddr limit = .error .halt := by
  unfold SizeOk at hsize
  unfold user2System
  rw [if_neg (by omega), copyIn_halt u.mem limit.toNat u.pageTable virtAddr hs hout]
  rfl

theorem user2System_badAlloc {virtAddr : BitVec 32} {limit : ℤ} (hsize : ¬ SizeOk limit) :
    user2System u virtAddr limit = .error .badAlloc := by
  unfold SizeOk at hsize
  unfold user2System
  rw [if_pos (by omega)]

/-! ### Copying out -/

/-- One byte stored. -/
theorem UserSpace.byte_write (hs : UserSpace u.pageTable) (hv : v < u.size)
    (hcore : pt'.map TranslationEntry.core = u.pageTable.map TranslationEntry.core) (b : Byte)
    (hw : w < u.size) :
    UserMem.byte ⟨Bytes.write u.mem (place u.pageTable v) [b], pt'⟩ w = if w = v then b
      else u.byte w := by
  have hw' : w < UserMem.size ⟨Bytes.write u.mem (place u.pageTable v) [b], pt'⟩ := by
    unfold UserMem.size
    rw [length_congr hcore]
    exact hw
  rw [byte_eq hw', place_congr hcore]
  by_cases hwv : w = v
  · rw [if_pos hwv, hwv]
    show Bytes.write u.mem (place u.pageTable v) [b] (place u.pageTable v) = b
    rw [Bytes.write_inside (le_refl _) (by simp)]
    simp
  · rw [if_neg hwv, byte_eq hw]
    refine Bytes.write_outside ?_
    have hne : place u.pageTable w ≠ place u.pageTable v := fun h => hwv (hs.place_inj hw hv h)
    simp only [List.length_singleton]
    omega

/-- The user's byte `w` after `l` was copied to `v`. -/
def copied (l : List Byte) (v w : ℕ) (old : Byte) : Byte :=
  if v ≤ w ∧ w < v + l.length ∧ ∀ j < w - v, l.getD j 0 ≠ 0 then l.getD (w - v) 0 else old

theorem copied_cons_self (b : Byte) (l : List Byte) (v : ℕ) (old : Byte) :
    copied (b :: l) v v old = b := by
  unfold copied
  rw [if_pos ⟨le_refl _, by simp, by omega⟩]
  simp

/-- Behind a zero nothing changes. -/
theorem copied_cons_zero {v w : ℕ} (l : List Byte) (hw : w ≠ v) (old : Byte) :
    copied (0 :: l) v w old = old := by
  unfold copied
  rw [if_neg]
  rintro ⟨h1, h2, h3⟩
  exact h3 0 (by omega) rfl

theorem copied_cons {b : Byte} (hb : b ≠ 0) (l : List Byte) {v w : ℕ} (hw : w ≠ v) (old : Byte) :
    copied (b :: l) v w old = copied l (v + 1) w old := by
  unfold copied
  by_cases hvw : v + 1 ≤ w
  · have hsub : w - v = (w - (v + 1)) + 1 := by omega
    have hiff : (∀ j < w - v, (b :: l).getD j 0 ≠ 0) ↔ ∀ j < w - (v + 1), l.getD j 0 ≠ 0 := by
      constructor
      · intro h j hj
        exact h (j + 1) (by omega)
      · intro h j hj
        obtain _ | j := j
        · exact hb
        · exact h j (by omega)
    refine if_congr ⟨fun h => ?_, fun h => ?_⟩ (by rw [hsub, List.getD_cons_succ]) rfl
    · have h2 := h.2.1
      rw [List.length_cons] at h2
      exact ⟨hvw, by omega, hiff.mp h.2.2⟩
    · have h2 := h.2.1
      exact ⟨by omega, by rw [List.length_cons]; omega, hiff.mpr h.2.2⟩
  · rw [if_neg fun h => hw (by omega), if_neg fun h => hvw h.1]

/-- What the loop does to the bytes of the space. -/
theorem copyOut_ok (l : List Byte) : ∀ (u : UserMem) (a : BitVec 32), UserSpace u.pageTable →
    Within (fun k => l.getD k 0) a.toNat l.length u.size →
    ∃ u' m, copyOut u a l = .ok (u', m) ∧
    u'.pageTable.map TranslationEntry.core = u.pageTable.map TranslationEntry.core ∧
      ∀ w < u.size, u'.byte w = copied l a.toNat w (u.byte w) := by
  induction l with
  | nil =>
    refine fun u a _ _ => ⟨u, 0, rfl, rfl, fun w _ => ?_⟩
    unfold copied
    rw [if_neg fun h => by simp only [List.length_nil] at h; omega]
  | cons b l ih =>
    intro u a hs hin
    rw [List.length_cons] at hin
    have hv : a.toNat < u.size := hin 0 (by omega) (by omega)
    obtain ⟨pt1, hwrite, hcore⟩ := hs.writeMem_ok hv u.mem b
    rw [copyOut, hwrite]
    simp only
    by_cases hb : b = 0
    · subst hb
      refine ⟨_, 1, by rw [if_pos rfl], hcore, fun w hw => ?_⟩
      rw [hs.byte_write hv hcore 0 hw]
      by_cases hwv : w = a.toNat
      · rw [if_pos hwv, hwv, copied_cons_self]
      · rw [if_neg hwv, copied_cons_zero l hwv]
    · have hsize : UserMem.size ⟨Bytes.write u.mem (place u.pageTable a.toNat) [b], pt1⟩ =
          u.size := by
        unfold UserMem.size
        rw [length_congr hcore]
      have hnext := hs.toNat_succ hv
      have hrest : Within (fun k => l.getD k 0) (a.toNat + 1) l.length u.size :=
        ((within_succ hb).mp hin).2
      obtain ⟨u', m, hcopy, hcore', hbyte⟩ :=
        ih ⟨Bytes.write u.mem (place u.pageTable a.toNat) [b], pt1⟩ (a + 1) (hs.congr hcore)
        (by rw [hsize, hnext]; exact hrest)
      refine ⟨u', m + 1, by rw [if_neg hb, hcopy]; rfl, hcore'.trans hcore, fun w hw => ?_⟩
      rw [hbyte w (hsize ▸ hw), hs.byte_write hv hcore b hw, hnext]
      by_cases hwv : w = a.toNat
      · rw [if_pos hwv, hwv, copied_cons_self]
        unfold copied
        rw [if_neg (by omega)]
      · rw [if_neg hwv, copied_cons hb l hwv]

theorem copyOut_halt (l : List Byte) : ∀ (u : UserMem) (a : BitVec 32), UserSpace u.pageTable →
    ¬ Within (fun k => l.getD k 0) a.toNat l.length u.size → copyOut u a l = .error .halt := by
  induction l with
  | nil => exact fun u a _ h => absurd (within_zero _ _ _) h
  | cons b l ih =>
    intro u a hs hout
    rw [List.length_cons] at hout
    rw [copyOut]
    by_cases hv : a.toNat < u.size
    · obtain ⟨pt1, hwrite, hcore⟩ := hs.writeMem_ok hv u.mem b
      have hb : b ≠ 0 := fun h0 => hout ((within_succ_of_zero h0).mpr hv)
      have hsize : UserMem.size ⟨Bytes.write u.mem (place u.pageTable a.toNat) [b], pt1⟩ =
          u.size := by
        unfold UserMem.size
        rw [length_congr hcore]
      have hrest : ¬ Within (fun k => l.getD k 0) (a.toNat + 1) l.length u.size :=
        fun h => hout ((within_succ hb).mpr ⟨hv, h⟩)
      rw [hwrite]
      simp only
      rw [if_neg hb, ih _ (a + 1) (hs.congr hcore) (by rw [hsize, hs.toNat_succ hv]; exact hrest)]
      rfl
    · obtain ⟨e, ht⟩ := translate_outside (not_lt.mp hv) true
      have hwrite : writeMem u.mem u.pageTable a .byte (b.signExtend 32) = .error e := by
        unfold writeMem
        rw [ht]
      rw [hwrite]

/-- How far `System2User` goes in a buffer. -/
theorem within_take {buffer : List Byte} {size : ℕ} (hlen : n ≤ buffer.length) :
    Within (fun k => (buffer.take n).getD k 0) v (buffer.take n).length size ↔
    Within (fun k => buffer.getD k 0) v n size := by
  rw [List.length_take, min_eq_left hlen]
  refine within_congr fun k hk _ => ?_
  rw [List.getD_eq_getElem?_getD, List.getD_eq_getElem?_getD, List.getElem?_take_of_lt hk]

/-- **System2User** on a buffer of the space. -/
theorem system2User_ok (hs : UserSpace u.pageTable) {virtAddr : BitVec 32} {len : ℤ}
    {buffer : List Byte} (hlen : len.toNat ≤ buffer.length)
    (hin : Within (fun k => buffer.getD k 0) virtAddr.toNat len.toNat u.size) :
    ∃ u' m, system2User u virtAddr len buffer = .ok (u', m) ∧
      u'.pageTable.map TranslationEntry.core = u.pageTable.map TranslationEntry.core ∧
      ∀ w < u.size, u'.byte w = copied (buffer.take len.toNat) virtAddr.toNat w (u.byte w) := by
  unfold system2User
  by_cases h0 : len ≤ 0
  · have hnone : ∀ w, copied (buffer.take len.toNat) virtAddr.toNat w (u.byte w) = u.byte w := by
      intro w
      unfold copied
      rw [if_neg fun h => by simp only [List.length_take] at h; omega]
    by_cases hneg : len < 0
    · exact ⟨u, -1, by rw [if_pos hneg], rfl, fun w _ => (hnone w).symm⟩
    · exact ⟨u, len, by rw [if_neg hneg, if_pos (by omega)], rfl, fun w _ => (hnone w).symm⟩
  · rw [if_neg (by omega), if_neg (by omega)]
    exact copyOut_ok _ u virtAddr hs ((within_take hlen).mpr hin)

theorem system2User_halt (hs : UserSpace u.pageTable) {virtAddr : BitVec 32} {len : ℤ}
    {buffer : List Byte} (hlen : len.toNat ≤ buffer.length)
    (hout : ¬ Within (fun k => buffer.getD k 0) virtAddr.toNat len.toNat u.size) :
    system2User u virtAddr len buffer = .error .halt := by
  have h0 : 0 < len := by
    by_contra h
    exact hout (by rw [show len.toNat = 0 by omega]; exact within_zero _ _ _)
  unfold system2User
  rw [if_neg (by omega), if_neg (by omega)]
  exact copyOut_halt _ u virtAddr hs fun h => hout ((within_take hlen).mp h)

theorem write_self {p : ℤ} {b : Byte} (h : mem p = b) : Bytes.write mem p [b] = mem := by
  funext x
  by_cases hx : x = p
  · rw [hx, Bytes.write_inside (le_refl _) (by simp), h]
    simp
  · refine Bytes.write_outside ?_
    simp only [List.length_singleton]
    omega

/-- A byte that was read is in the space. -/
theorem lt_of_readMem {oneChar : BitVec 32} (h : readMem mem pt a .byte = .ok (oneChar, pt')) :
    a.toNat < pt.length * pageSize := by
  by_contra hout
  obtain ⟨e, ht⟩ := translate_outside (not_lt.mp hout) false
  unfold readMem at h
  rw [ht] at h
  cases h

/-- A pass of the loop of `User2System`. -/
theorem copyIn_succ {l : List Byte} (h : copyIn mem pt a (n + 1) = .ok (l, pt')) :
    ∃ c pt1, readMem mem pt a .byte = .ok (c, pt1) ∧
      ((c = 0 ∧ l = [0] ∧ pt' = pt1) ∨
        ∃ l', c ≠ 0 ∧ copyIn mem pt1 (a + 1) n = .ok (l', pt') ∧ l = c.setWidth 8 :: l') := by
  rw [copyIn] at h
  cases hread : readMem mem pt a .byte with
  | error e =>
    rw [hread] at h
    cases h
  | ok r =>
    obtain ⟨c, pt1⟩ := r
    rw [hread] at h
    simp only at h
    refine ⟨c, pt1, rfl, ?_⟩
    by_cases h0 : c = 0
    · rw [if_pos h0] at h
      cases h
      exact Or.inl ⟨h0, rfl, rfl⟩
    · rw [if_neg h0] at h
      obtain ⟨⟨l', pt2⟩, hrest, hr⟩ := except_map_ok h
      cases hr
      exact Or.inr ⟨l', h0, hrest, rfl⟩

/-- A pass of the loop of `System2User`. -/
theorem copyOut_cons {b : Byte} {l : List Byte} {m : ℤ} (h : copyOut u a (b :: l) = .ok (u', m)) :
    ∃ mem1 pt1, writeMem u.mem u.pageTable a .byte (b.signExtend 32) = .ok (mem1, pt1) ∧
      ((b = 0 ∧ u' = ⟨mem1, pt1⟩ ∧ m = 1) ∨ ∃ m', b ≠ 0 ∧
        copyOut ⟨mem1, pt1⟩ (a + 1) l = .ok (u', m') ∧ m = m' + 1) := by
  rw [copyOut] at h
  cases hwrite : writeMem u.mem u.pageTable a .byte (b.signExtend 32) with
  | error e =>
    rw [hwrite] at h
    cases h
  | ok r =>
    obtain ⟨mem1, pt1⟩ := r
    rw [hwrite] at h
    simp only at h
    refine ⟨mem1, pt1, rfl, ?_⟩
    by_cases h0 : b = 0
    · rw [if_pos h0] at h
      cases h
      exact Or.inl ⟨h0, rfl, rfl⟩
    · rw [if_neg h0] at h
      obtain ⟨⟨u2, m'⟩, hrest, hr⟩ := except_map_ok h
      cases hr
      exact Or.inr ⟨m', h0, hrest, rfl⟩

/-- **Copying back what was copied in** changes no byte, whether or not the
whole buffer is in the space. -/
theorem copyOut_copyIn (mem : Store) (n : ℕ) :
    ∀ (pt pt1 pt' : PageTable) (a : BitVec 32) (l rest : List Byte), UserSpace pt →
    pt1.map TranslationEntry.core = pt.map TranslationEntry.core →
    copyIn mem pt a n = .ok (l, pt') →
    ∃ pt2 m, copyOut ⟨mem, pt1⟩ a ((l ++ rest).take n) = .ok (⟨mem, pt2⟩, m) ∧
      pt2.map TranslationEntry.core = pt.map TranslationEntry.core := by
  induction n with
  | zero => exact fun pt pt1 pt' a l rest hs hcore _ => ⟨pt1, 0, rfl, hcore⟩
  | succ n ih =>
    intro pt pt1 pt' a l rest hs hcore h
    obtain ⟨c, ptr, hread, hpass⟩ := copyIn_succ h
    have hv := lt_of_readMem hread
    obtain ⟨ptr', hread', hcorer⟩ := hs.readMem_ok hv mem
    obtain ⟨rfl, rfl⟩ : c = (mem (place pt a.toNat)).signExtend 32 ∧ ptr = ptr' := by
      rw [hread'] at hread
      cases hread
      exact ⟨rfl, rfl⟩
    have hs1 := hs.congr hcore
    have hv1 : a.toNat < pt1.length * pageSize := by
      rw [length_congr hcore]
      exact hv
    obtain ⟨ptw, hwrite, hcorew⟩ := hs1.writeMem_ok hv1 mem (mem (place pt a.toNat))
    rw [place_congr hcore, write_self rfl] at hwrite
    simp only [setWidth_signExtend, ne_eq, signExtend_eq_zero] at hpass
    rcases hpass with ⟨h0, rfl, rfl⟩ | ⟨l', h0, hrest, rfl⟩
    · rw [h0] at hwrite
      refine ⟨ptw, 1, ?_, hcorew.trans hcore⟩
      rw [List.cons_append, List.take_succ_cons, copyOut, hwrite]
      rfl
    · obtain ⟨pt2, m, hout, hcore2⟩ := ih ptr ptw pt' (a + 1) l' rest (hs.congr hcorer)
        ((hcorew.trans hcore).trans hcorer.symm) hrest
      refine ⟨pt2, m + 1, ?_, hcore2.trans hcorer⟩
      rw [List.cons_append, List.take_succ_cons, copyOut, hwrite]
      simp only
      rw [if_neg h0, hout]
      rfl

/-- What `User2System` has copied in, it copied from the space. -/
theorem within_of_user2System (hs : UserSpace u.pageTable) {virtAddr : BitVec 32} {limit : ℤ}
    {buffer : List Byte} (h : user2System u virtAddr limit = .ok (buffer, u')) :
    SizeOk limit ∧ Within (fun k => u.byte (virtAddr.toNat + k)) virtAddr.toNat limit.toNat
      u.size := by
  by_cases hsize : SizeOk limit
  · refine ⟨hsize, ?_⟩
    by_contra hout
    rw [user2System_halt hs hsize hout] at h
    cases h
  · rw [user2System_badAlloc hsize] at h
    cases h

theorem core_of_user2System (hs : UserSpace u.pageTable) {virtAddr : BitVec 32} {limit : ℤ}
    {buffer : List Byte} (h : user2System u virtAddr limit = .ok (buffer, u')) :
    u'.pageTable.map TranslationEntry.core = u.pageTable.map TranslationEntry.core := by
  obtain ⟨hsize, hin⟩ := within_of_user2System hs h
  obtain ⟨l, u1, hok, -, -, -, hcore⟩ := user2System_ok hs hsize hin
  rw [hok] at h
  cases h
  exact hcore

theorem core_of_system2User (hs : UserSpace u.pageTable) {virtAddr : BitVec 32} {len m : ℤ}
    {buffer : List Byte} (h : system2User u virtAddr len buffer = .ok (u', m)) :
    u'.pageTable.map TranslationEntry.core = u.pageTable.map TranslationEntry.core := by
  unfold system2User at h
  split_ifs at h
  · cases h
    rfl
  · cases h
    rfl
  · by_cases hin : Within (fun k => (buffer.take len.toNat).getD k 0) virtAddr.toNat
      (buffer.take len.toNat).length u.size
    · obtain ⟨u1, m1, hok, hcore, -⟩ := copyOut_ok _ u virtAddr hs hin
      rw [hok] at h
      cases h
      exact hcore
    · rw [copyOut_halt _ u virtAddr hs hin] at h
      cases h

/-- A copy in and a copy out leave the pages where they are. -/
theorem core_of_copies (hs : UserSpace u.pageTable) {u₁ u₂ : UserMem}
    {virtAddr : BitVec 32} {len m : ℤ} {buffer buffer' : List Byte}
    (hin : user2System u virtAddr len = .ok (buffer, u₁))
    (hout : system2User u₁ virtAddr len buffer' = .ok (u₂, m)) :
    u₂.pageTable.map TranslationEntry.core = u.pageTable.map TranslationEntry.core := by
  have hcore := core_of_user2System hs hin
  exact (core_of_system2User (hs.congr hcore) hout).trans hcore

/-- **System2User after User2System**: the buffer goes back where it came from. -/
theorem system2User_user2System (hs : UserSpace u.pageTable) {virtAddr : BitVec 32} {limit : ℤ}
    {buffer : List Byte} (h : user2System u virtAddr limit = .ok (buffer, u')) :
    ∃ u2 m, system2User u' virtAddr limit buffer = .ok (u2, m) ∧ u2.mem = u.mem ∧
      u2.pageTable.map TranslationEntry.core = u.pageTable.map TranslationEntry.core := by
  obtain ⟨hsize, hin⟩ := within_of_user2System hs h
  obtain ⟨l, pt1, hcopy, hcore, -⟩ := copyIn_ok u.mem limit.toNat u.pageTable virtAddr hs hin
  have hu : user2System u virtAddr limit =
      .ok (l ++ List.replicate ((limit + 1).toNat - l.length) 0, { u with pageTable := pt1 }) := by
    unfold SizeOk at hsize
    unfold user2System
    rw [if_neg (by omega), hcopy]
    rfl
  rw [hu] at h
  cases h
  unfold system2User
  by_cases hneg : limit < 0
  · exact ⟨⟨u.mem, pt1⟩, -1, by rw [if_pos hneg], rfl, hcore⟩
  · by_cases h0 : limit = 0
    · exact ⟨⟨u.mem, pt1⟩, limit, by rw [if_neg hneg, if_pos h0], rfl, hcore⟩
    · rw [if_neg hneg, if_neg h0]
      obtain ⟨pt2, m, hout, hcore2⟩ :=
        copyOut_copyIn u.mem limit.toNat u.pageTable pt1 pt1 virtAddr l _ hs hcore hcopy
      exact ⟨⟨u.mem, pt2⟩, m, hout, rfl, hcore2⟩

end Nachos
