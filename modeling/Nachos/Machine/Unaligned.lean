/-
# Unaligned words (`OP_LWL`, `OP_LWR`, `OP_SWL`, `OP_SWR` of `machine/mipssim.cc`)

The word at an address `a` that need not be aligned lies in two aligned words,
that of `a` and that of `a + 3`, and these may be on pages that are not
neighbours. Each of the four instructions handles one of the two: byte `i` of
the word is its business if `a + i` is in its aligned word (`InWord`). The
masks and shifts put just these bytes in their places (`byteNo_mergeR`,
`byteNo_mergeL`; the cases of `SWL` are those of `LWR` and the other way
round), so

* of two loads the second merges into what the first has loaded, still on its
  way or flushed by an interrupt: only the value of `rt` with the pending load
  applied counts;
* two stores put the word down (`Puts`), one byte after the other.

Key definitions: `InWord`, `Mapped`, `Steady`, `MayInterrupt`, `Puts`.
Key theorems: `Machine.At.load`, `Machine.At.store`, `unaligned_access`.
-/
import Mathlib
import Nachos.Machine.Arithmetic
import Nachos.Machine.VirtualMemory

namespace Nachos

open Bytes (Byte Store)

/-! ### The bytes of a word -/

/-- Byte `j` of a word, from the low end. -/
def byteNo (v : BitVec 32) (j : ℕ) : Byte := v.extractLsb' (8 * j) 8

theorem byteNo_or (u v : BitVec 32) (j : ℕ) : byteNo (u ||| v) j = byteNo u j ||| byteNo v j :=
  BitVec.extractLsb'_or

theorem byteNo_and (u v : BitVec 32) (j : ℕ) : byteNo (u &&& v) j = byteNo u j &&& byteNo v j :=
  BitVec.extractLsb'_and

/-- A shift by whole bytes. -/
theorem byteNo_shiftLeft (v : BitVec 32) {j n : ℕ} (hj : j < 4) :
    byteNo (v <<< (8 * n)) j = if j < n then 0 else byteNo v (j - n) := by
  refine BitVec.eq_of_getLsbD_eq fun i hi => ?_
  unfold byteNo
  rw [BitVec.getLsbD_extractLsb', BitVec.getLsbD_shiftLeft]
  split_ifs with h
  · simp [hi, show 8 * j + i < 8 * n by omega]
  · rw [BitVec.getLsbD_extractLsb']
    simp [hi, show 8 * j + i < 32 by omega, show ¬ 8 * j + i < 8 * n by omega,
      show 8 * j + i - 8 * n = 8 * (j - n) + i by omega]

theorem byteNo_sshiftRight (v : BitVec 32) {j n : ℕ} (hj : j + n < 4) :
    byteNo (v.sshiftRight (8 * n)) j = byteNo v (j + n) := by
  refine BitVec.eq_of_getLsbD_eq fun i hi => ?_
  unfold byteNo
  rw [BitVec.getLsbD_extractLsb', BitVec.getLsbD_sshiftRight, BitVec.getLsbD_extractLsb']
  have h1 : ¬ 32 ≤ 8 * j + i := by omega
  have h2 : 8 * (j + n) + i < 32 := by omega
  simp [hi, h1, h2, show 8 * n + (8 * j + i) = 8 * (j + n) + i by omega]

theorem byteNo_ext {u v : BitVec 32} (h : ∀ j < 4, byteNo u j = byteNo v j) : u = v := by
  refine BitVec.eq_of_getLsbD_eq fun i hi => ?_
  have := congrArg (fun b : Byte => b.getLsbD (i % 8)) (h (i / 8) (by omega))
  unfold byteNo at this
  simp only [BitVec.getLsbD_extractLsb', show i % 8 < 8 by omega, decide_true, Bool.true_and,
    Nat.div_add_mod] at this
  exact this

theorem byteNo_word (b : ℕ → Byte) {j : ℕ} (hj : j < 4) :
    byteNo (Bytes.word (b 0) (b 1) (b 2) (b 3)) j = b j := by
  refine BitVec.eq_of_getLsbD_eq fun i hi => ?_
  unfold byteNo Bytes.word
  simp only [BitVec.getLsbD_extractLsb', BitVec.getLsbD_append, hi, decide_true, Bool.true_and]
  interval_cases j
  · simp [hi]
  · simp [show ¬ 8 + i < 8 by omega, hi]
  · simp [show ¬ 16 + i < 8 by omega, show 16 + i - 8 - 8 = i by omega,
      show ¬ 16 + i - 8 < 8 by omega, hi]
  · simp [show ¬ 24 + i < 8 by omega, show 24 + i - 8 - 8 - 8 = i by omega,
      show ¬ 24 + i - 8 < 8 by omega, show ¬ 24 + i - 8 - 8 < 8 by omega]

/-- A word put together from two by a mask of whole bytes. -/
theorem byteNo_blend {old new m : BitVec 32} {j : ℕ} {c : Prop} [Decidable c] {b : Byte}
    (hm : byteNo m j = if c then 0 else BitVec.allOnes 8) (hn : byteNo new j = if c then b else 0) :
    byteNo ((old &&& m) ||| new) j = if c then b else byteNo old j := by
  rw [byteNo_or, byteNo_and, hm, hn]
  split_ifs with hc
  · rw [BitVec.ofNat_eq_ofNat, BitVec.and_zero, BitVec.zero_or]
  · rw [BitVec.and_allOnes, BitVec.ofNat_eq_ofNat, BitVec.or_zero]

/-- The low bytes of a word from the high ones of another. -/
theorem byteNo_low {old v m m' : BitVec 32} {j n : ℕ}
    (hm : byteNo m j = if j + n < 4 then 0 else BitVec.allOnes 8)
    (hm' : byteNo m' j = if j + n < 4 then BitVec.allOnes 8 else 0) :
    byteNo ((old &&& m) ||| (v.sshiftRight (8 * n) &&& m')) j =
      if j + n < 4 then byteNo v (j + n) else byteNo old j := by
  refine byteNo_blend hm ?_
  -- the mask takes away the sign that is shifted in
  rw [byteNo_and, hm']
  split_ifs with h
  · rw [BitVec.and_allOnes, byteNo_sshiftRight v h]
  · rw [BitVec.ofNat_eq_ofNat, BitVec.and_zero]

/-- The high bytes of a word from the low ones of another. -/
theorem byteNo_high {old v m : BitVec 32} {j n : ℕ} (hj : j < 4)
    (hm : byteNo m j = if n ≤ j then 0 else BitVec.allOnes 8) :
    byteNo ((old &&& m) ||| (v <<< (8 * n))) j = if n ≤ j then byteNo v (j - n)
      else byteNo old j := by
  refine byteNo_blend hm ?_
  rw [byteNo_shiftLeft v hj]
  split_ifs <;> first | rfl | omega

theorem mergeSWL_cases (rt value : BitVec 32) :
    mergeSWL (BitVec.ofNat 32 0) rt value = rt ∧
    mergeSWL (BitVec.ofNat 32 1) rt value = (value &&& 0xff000000) |||
    ((rt.sshiftRight (8 * 1)) &&& 0xffffff) ∧
    mergeSWL (BitVec.ofNat 32 2) rt value = (value &&& 0xffff0000) |||
    ((rt.sshiftRight (8 * 2)) &&& 0xffff) ∧
    mergeSWL (BitVec.ofNat 32 3) rt value = (value &&& 0xffffff00) |||
    ((rt.sshiftRight (8 * 3)) &&& 0xff) :=
  ⟨rfl, rfl, rfl, rfl⟩

theorem byteNo_mergeSWL (rt value : BitVec 32) {n j : ℕ} (hn : n < 4) (hj : j < 4) :
    byteNo (mergeSWL (BitVec.ofNat 32 n) rt value) j = if j + n < 4 then byteNo rt (j + n)
      else byteNo value j := by
  obtain ⟨h0, h1, h2, h3⟩ := mergeSWL_cases rt value
  interval_cases n
  · rw [h0]
    exact (if_pos hj).symm
  · rw [h1]
    exact byteNo_low (by revert j; decide) (by revert j; decide)
  · rw [h2]
    exact byteNo_low (by revert j; decide) (by revert j; decide)
  · rw [h3]
    exact byteNo_low (by revert j; decide) (by revert j; decide)

theorem mergeLWL_cases (old value : BitVec 32) :
    mergeLWL (BitVec.ofNat 32 0) old value = value ∧
    mergeLWL (BitVec.ofNat 32 1) old value = (old &&& 0xff) ||| (value <<< (8 * 1)) ∧
    mergeLWL (BitVec.ofNat 32 2) old value = (old &&& 0xffff) ||| (value <<< (8 * 2)) ∧
    mergeLWL (BitVec.ofNat 32 3) old value = (old &&& 0xffffff) ||| (value <<< (8 * 3)) :=
  ⟨rfl, rfl, rfl, rfl⟩

theorem byteNo_mergeLWL (old value : BitVec 32) {n j : ℕ} (hn : n < 4) (hj : j < 4) :
    byteNo (mergeLWL (BitVec.ofNat 32 n) old value) j = if n ≤ j then byteNo value (j - n)
      else byteNo old j := by
  obtain ⟨h0, h1, h2, h3⟩ := mergeLWL_cases old value
  interval_cases n
  · rw [h0]
    exact (if_pos (Nat.zero_le _)).symm
  · rw [h1]
    exact byteNo_high hj (by revert j; decide)
  · rw [h2]
    exact byteNo_high hj (by revert j; decide)
  · rw [h3]
    exact byteNo_high hj (by revert j; decide)

/-- `LWR` puts together what `SWL` does, with the cases the other way round. -/
theorem mergeLWR_eq (old value : BitVec 32) {r : ℕ} (hr : r < 4) :
    mergeLWR (BitVec.ofNat 32 (3 - r)) old value = mergeSWL (BitVec.ofNat 32 r) value old := by
  interval_cases r <;> rfl

theorem mergeSWR_eq (rt value : BitVec 32) {r : ℕ} (hr : r < 4) :
    mergeSWR (BitVec.ofNat 32 (3 - r)) rt value = mergeLWL (BitVec.ofNat 32 r) value rt := by
  interval_cases r <;> rfl

/-! ### The two aligned words -/

variable {a x y : BitVec 32} {i j : ℕ}

/-- `x` is in the aligned word of `y`. -/
def InWord (y x : BitVec 32) : Prop := x.toNat / 4 = y.toNat / 4

instance (y x : BitVec 32) : Decidable (InWord y x) := inferInstanceAs (Decidable (_ = _))

/-- Byte `i` of the word at `a`. -/
def byteAddr (a : BitVec 32) (i : ℕ) : BitVec 32 := a + BitVec.ofNat 32 i

theorem toNat_byteAddr (hi : i < 4) : (byteAddr a i).toNat = (a.toNat + i) % 2 ^ 32 := by
  rw [byteAddr, BitVec.toNat_add, BitVec.toNat_ofNat, Nat.mod_eq_of_lt (by omega : i < 2 ^ 32)]

theorem byteAddr_three : byteAddr a 3 = a + 3 := rfl

theorem inWord_or (hi : i < 4) : InWord a (byteAddr a i) ∨ InWord (a + 3) (byteAddr a i) := by
  have ha := a.isLt
  unfold InWord
  rw [← byteAddr_three, toNat_byteAddr hi, toNat_byteAddr (by decide)]
  omega

theorem byteAddr_inj (hi : i < 4) (hj : j < 4) (h : byteAddr a i = byteAddr a j) : i = j := by
  have ha := a.isLt
  have h := congrArg BitVec.toNat h
  rw [toNat_byteAddr hi, toNat_byteAddr hj] at h
  omega

theorem three_sub_and (x : BitVec 32) : 3 - (x &&& 3) = BitVec.ofNat 32 (3 - x.toNat % 4) := by
  have hx : x.toNat % 4 < 4 := Nat.mod_lt _ (by decide)
  rw [and_three_eq]
  generalize x.toNat % 4 = r at hx
  interval_cases r <;> rfl

/-- What `LWR` at `a` makes of the bytes. -/
theorem byteNo_mergeR (old value : BitVec 32) (hi : i < 4) :
    byteNo (mergeLWR (3 - (a &&& 3)) old value) i =
      if InWord a (byteAddr a i) then byteNo value ((byteAddr a i).toNat % 4)
      else byteNo old i := by
  have ha := a.isLt
  have hr : a.toNat % 4 < 4 := Nat.mod_lt _ (by decide)
  have hin : InWord a (byteAddr a i) ↔ i + a.toNat % 4 < 4 := by
    unfold InWord
    rw [toNat_byteAddr hi]
    omega
  rw [three_sub_and, mergeLWR_eq _ _ hr, byteNo_mergeSWL _ _ hr hi]
  simp only [hin]
  split_ifs with h
  · rw [toNat_byteAddr hi]
    congr 1
    omega
  · rfl

/-- What `LWL` at `a + 3` makes of the bytes. -/
theorem byteNo_mergeL (old value : BitVec 32) (hi : i < 4) :
    byteNo (mergeLWL (3 - ((a + 3) &&& 3)) old value) i =
      if InWord (a + 3) (byteAddr a i) then byteNo value ((byteAddr a i).toNat % 4)
      else byteNo old i := by
  have ha := a.isLt
  rw [three_sub_and, ← byteAddr_three, toNat_byteAddr (by decide),
    byteNo_mergeLWL _ _ (by omega) hi]
  have hin : InWord (byteAddr a 3) (byteAddr a i) ↔ 3 - (a.toNat + 3) % 2 ^ 32 % 4 ≤ i := by
    unfold InWord
    rw [toNat_byteAddr hi, toNat_byteAddr (by decide)]
    omega
  simp only [hin]
  split_ifs with h
  · rw [toNat_byteAddr hi]
    congr 1
    omega
  · rfl

/-! ### Their places -/

variable {pt pt' pt'' : PageTable} {mem mem' mem'' : Store} {wr : Bool} {p q : ℤ} {P : ℕ → ℤ}

/-- The tables translate alike: only use and dirty bits tell them apart. -/
def SamePlaces (pt pt' : PageTable) : Prop :=
  ∀ x w wr, (translate pt' x w wr).map Prod.fst = (translate pt x w wr).map Prod.fst

theorem SamePlaces.trans (h : SamePlaces pt pt') (h' : SamePlaces pt' pt'') : SamePlaces pt pt'' :=
  fun x w wr => (h' x w wr).trans (h x w wr)

theorem samePlaces_translate {w : Width} (h : translate pt x w wr = .ok (p, pt')) :
    SamePlaces pt pt' :=
  fun y w' wr' => translate_after h y w' wr'

/-- Where the byte at `x` is. -/
def placeOf (pt : PageTable) (x : BitVec 32) : Except ExceptionType ℤ :=
  (translate pt x .byte false).map Prod.fst

/-- `tmp - byte`: the aligned word that contains `x`. -/
def wordOf (x : BitVec 32) : BitVec 32 := x - (x &&& 3)

theorem toNat_wordOf (x : BitVec 32) : (wordOf x).toNat = x.toNat - x.toNat % 4 := by
  have hx := x.isLt
  have hle : x.toNat % 4 ≤ x.toNat := Nat.mod_le _ _
  rw [wordOf, and_three_eq, BitVec.toNat_sub, BitVec.toNat_ofNat]
  omega

/-- The aligned word that contains `x` is mapped. -/
def Mapped (pt : PageTable) (x : BitVec 32) (wr : Bool) : Prop :=
  ∃ p, (translate pt (wordOf x) .word wr).map Prod.fst = .ok p

theorem Mapped.samePlaces (h : Mapped pt x wr) (hpt : SamePlaces pt pt') : Mapped pt' x wr := by
  obtain ⟨p, hp⟩ := h
  exact ⟨p, (hpt _ _ _).trans hp⟩

/-- What can be written can be read, at the same place. -/
theorem translate_read {w : Width} (h : (translate pt x w true).map Prod.fst = .ok p) :
    (translate pt x w false).map Prod.fst = .ok p := by
  obtain ⟨pt', h⟩ := eq_map_fst.mp h
  obtain ⟨hal, e, he, hv, hro, hlt, hp, -⟩ := translate_iff.mp h
  exact eq_map_fst.mpr ⟨_, translate_iff.mpr ⟨hal, e, he, hv, fun _ => rfl, hlt, hp, rfl⟩⟩

theorem Mapped.read (h : Mapped pt x true) : Mapped pt x false := by
  obtain ⟨p, hp⟩ := h
  exact ⟨p, translate_read hp⟩

/-- The bytes of an aligned word are one after the other. -/
theorem placeOf_inWord (h : (translate pt (wordOf y) .word wr).map Prod.fst = .ok p)
    (hx : InWord y x) :
    placeOf pt x = .ok (p + (x.toNat % 4 : ℕ)) := by
  obtain ⟨pt', ht⟩ := eq_map_fst.mp h
  have hw := toNat_wordOf y
  unfold InWord at hx
  have hmod : x.toNat - (wordOf y).toNat = x.toNat % 4 := by omega
  rw [← hmod]
  exact translate_within ht (by omega) (by simp only [Width.size]; omega)

/-- `P i` is the place of byte `i` of the word at `a`. -/
def Places (pt : PageTable) (a : BitVec 32) (P : ℕ → ℤ) : Prop :=
  ∀ i < 4, placeOf pt (byteAddr a i) = .ok (P i)

theorem Mapped.places (h : Mapped pt a wr) (h' : Mapped pt (a + 3) wr) : ∃ P, Places pt a P := by
  obtain ⟨p, hp⟩ := h
  obtain ⟨p', hp'⟩ := h'
  have hplace : ∀ i < 4, ∃ q, placeOf pt (byteAddr a i) = .ok q := by
    intro i hi
    rcases inWord_or (a := a) hi with hin | hin
    · exact ⟨_, placeOf_inWord hp hin⟩
    · exact ⟨_, placeOf_inWord hp' hin⟩
  choose! P hP using hplace
  exact ⟨P, hP⟩

theorem Places.samePlaces (h : Places pt a P) (hpt : SamePlaces pt pt') : Places pt' a P :=
  fun i hi => (hpt _ _ _).trans (h i hi)

/-- The place in the aligned word of `y`. -/
theorem Places.inWord (hP : Places pt a P)
    (h : (translate pt (wordOf y) .word wr).map Prod.fst = .ok p) (hi : i < 4)
    (hin : InWord y (byteAddr a i)) : P i = p + ((byteAddr a i).toNat % 4 : ℕ) :=
  Except.ok.inj ((hP i hi).symm.trans (placeOf_inWord h hin))

/-- Addresses that have a place have places of their own. -/
theorem placeOf_inj (hpt : Frames pt) (hx : placeOf pt x = .ok q) (hy : placeOf pt y = .ok q) :
    x = y := by
  obtain ⟨pt', hy⟩ := eq_map_fst.mp hy
  by_contra hne
  have hout : ¬ (y.toNat ≤ x.toNat ∧ x.toNat < y.toNat + Width.byte.size) := by
    intro ⟨h1, h2⟩
    simp only [Width.size] at h2
    exact hne (BitVec.eq_of_toNat_eq (by omega))
  have := place_ne hpt hy hx hout
  simp only [Width.size] at this
  omega

theorem Places.inj (hP : Places pt a P) (hpt : Frames pt) (hi : i < 4) (hj : j < 4)
    (h : P i = P j) : i = j :=
  byteAddr_inj hi hj (placeOf_inj hpt (hP i hi) (h ▸ hP j hj))

/-- The bytes of the aligned word that a load finds. -/
theorem byteNo_fetch (mem : Store) (p : ℤ) (hj : j < 4) :
    byteNo (fetch mem p .word) j = mem (p + j) := by
  have h := byteNo_word (fun k => mem (p + k)) hj
  simp only [Nat.cast_zero, add_zero, Nat.cast_one, Nat.cast_ofNat] at h
  exact h

/-! ### Stores -/

/-- The bytes `S` of `v` are put down, and nothing else. -/
structure Puts (mem mem' : Store) (P : ℕ → ℤ) (v : BitVec 32) (S : ℕ → Prop) : Prop where
  inside : ∀ i < 4, S i → mem' (P i) = byteNo v i
  outside : ∀ q, (∀ i < 4, S i → q ≠ P i) → mem' q = mem q

theorem Puts.trans {v : BitVec 32} {S S' : ℕ → Prop} (h : Puts mem mem' P v S)
    (h' : Puts mem' mem'' P v S') (hP : ∀ i < 4, ∀ j < 4, P i = P j → i = j) :
    Puts mem mem'' P v fun i => S i ∨ S' i := by
  constructor
  · intro i hi hS
    by_cases h2 : S' i
    · exact h'.inside i hi h2
    · rw [h'.outside (P i) fun j hj hj2 heq => h2 (hP i hi j hj heq ▸ hj2)]
      exact h.inside i hi (hS.resolve_right h2)
  · intro q hq
    rw [h'.outside q fun i hi hS => hq i hi (Or.inr hS), h.outside q fun i hi hS =>
      hq i hi (Or.inl hS)]

/-- `merge` puts the bytes of `v` that are in the aligned word of `y` in their
places there. -/
structure Splices (a y v : BitVec 32) (merge : BitVec 32 → BitVec 32) : Prop where
  inside : ∀ value, ∀ i < 4, InWord y (byteAddr a i) →
    byteNo (merge value) ((byteAddr a i).toNat % 4) = byteNo v i
  outside : ∀ value, ∀ j < 4, (∀ i < 4, InWord y (byteAddr a i) → j ≠ (byteAddr a i).toNat % 4) →
    byteNo (merge value) j = byteNo value j

theorem splices_SWR (a v : BitVec 32) : Splices a a v (mergeSWR (3 - (a &&& 3)) v) := by
  have ha := a.isLt
  have hr : a.toNat % 4 < 4 := Nat.mod_lt _ (by decide)
  have hmerge : ∀ value, ∀ j < 4, byteNo (mergeSWR (3 - (a &&& 3)) v value) j =
      if a.toNat % 4 ≤ j then byteNo v (j - a.toNat % 4) else byteNo value j := by
    intro value j hj
    rw [three_sub_and, mergeSWR_eq _ _ hr, byteNo_mergeLWL _ _ hr hj]
  constructor
  · intro value i hi hin
    unfold InWord at hin
    rw [toNat_byteAddr hi] at hin ⊢
    rw [hmerge _ _ (by omega), if_pos (by omega)]
    congr 1
    omega
  · intro value j hj hout
    rw [hmerge _ _ hj, if_neg]
    intro hle
    refine hout (j - a.toNat % 4) (by omega) ?_ ?_
    · unfold InWord
      rw [toNat_byteAddr (by omega)]
      omega
    · rw [toNat_byteAddr (by omega)]
      omega

theorem splices_SWL (a v : BitVec 32) : Splices a (a + 3) v (mergeSWL (3 - ((a + 3) &&& 3)) v) := by
  have ha := a.isLt
  set n := 3 - (a.toNat + 3) % 2 ^ 32 % 4 with hn
  have hmerge : ∀ value, ∀ j < 4, byteNo (mergeSWL (3 - ((a + 3) &&& 3)) v value) j =
      if j + n < 4 then byteNo v (j + n) else byteNo value j := by
    intro value j hj
    rw [three_sub_and, ← byteAddr_three, toNat_byteAddr (by decide),
      byteNo_mergeSWL _ _ (by omega) hj]
  rw [← byteAddr_three] at *
  constructor
  · intro value i hi hin
    unfold InWord at hin
    rw [toNat_byteAddr hi, toNat_byteAddr (by decide)] at hin
    rw [toNat_byteAddr hi, hmerge _ _ (by omega), if_pos (by omega)]
    congr 1
    omega
  · intro value j hj hout
    rw [hmerge _ _ hj, if_neg]
    intro hlt
    refine hout (j + n) hlt ?_ ?_
    · unfold InWord
      rw [toNat_byteAddr hlt, toNat_byteAddr (by decide)]
      omega
    · rw [toNat_byteAddr hlt]
      omega

/-- A word read, spliced and written back. -/
theorem Splices.puts {v : BitVec 32} {merge : BitVec 32 → BitVec 32} (hs : Splices a y v merge)
    (hP : Places pt a P) (h : (translate pt (wordOf y) .word wr).map Prod.fst = .ok p) :
    Puts mem (Bytes.write mem p (encode (merge (fetch mem p .word)) .word)) P v fun i => InWord y
      (byteAddr a i) := by
  have hwrite : ∀ j : ℕ, j < 4 →
      Bytes.write mem p (encode (merge (fetch mem p .word)) .word) (p + j) =
        byteNo (merge (fetch mem p .word)) j := by
    intro j hj
    rw [Bytes.write_inside (by omega) (by rw [length_encode, Width.size]; omega),
      add_sub_cancel_left, Int.toNat_natCast]
    exact getD_encode _ hj
  constructor
  · intro i hi hin
    rw [hP.inWord h hi hin, hwrite _ (Nat.mod_lt _ (by decide))]
    exact hs.inside _ i hi hin
  · intro q hq
    by_cases hin : p ≤ q ∧ q < p + 4
    · -- in the aligned word, but none of the bytes
      obtain ⟨j, rfl⟩ : ∃ j : ℕ, q = p + j := ⟨(q - p).toNat, by omega⟩
      have hj : j < 4 := by omega
      rw [hwrite j hj, hs.outside _ j hj, byteNo_fetch mem p hj]
      intro i hi hin heq
      refine hq i hi hin ?_
      rw [hP.inWord h hi hin, heq]
    · exact Bytes.write_outside (by rw [length_encode, Width.size]; omega)

/-! ### The instructions -/

variable {m m' : Machine} {raw : BitVec 32} {rt rs x : Fin 32} {r : Registers} {o : OpCode}
  {offset v n pc addr : BitVec 32}

/-- The next instruction is `o rt,offset(rs)`. -/
def Machine.At (m : Machine) (o : OpCode) (rt rs : Fin 32) (offset : BitVec 32) : Prop :=
  ∃ raw pt rd, m.Fetches raw pt ∧ decode raw = ⟨o, rs, rt, rd, offset⟩

/-- The register holds `v`, and still does once the pending load is applied. -/
def Steady (r : Registers) (x : Fin 32) (v : BitVec 32) : Prop :=
  r (gpr x) = v ∧ flush r (gpr x) = v

/-- An interrupt may come here, and then it applies the pending load. -/
def MayInterrupt (m m' : Machine) : Prop := m' = m ∨ m' = { m with registers := flush m.registers }

theorem flush_gpr_zero (r : Registers) : flush r (gpr 0) = 0 := by
  have h0 : gpr 0 = 0 := rfl
  rw [h0]
  simp [flush, delayedLoad, writeRegister]

/-- A register once the load of the last instruction is applied. -/
theorem flush_ended (hr : Regular r) (hn : n.toNat < 32) (x : Fin 32) :
    flush (advance (delayedLoad r n v) pc) (gpr x) = if x ≠ 0 ∧ n = regNum x then v
      else flush r (gpr x) := by
  have hreg : Regular (delayedLoad r n v) := regular_delayedLoad hr.2 hn
  have hadv : Regular (advance (delayedLoad r n v) pc) := ⟨hreg.1, hreg.2⟩
  rcases eq_or_ne x 0 with rfl | h0
  · simp [flush_gpr_zero]
  · have hl : advance (delayedLoad r n v) pc loadReg = n := delayedLoad_loadReg r n v
    have hv : advance (delayedLoad r n v) pc loadValueReg = v := delayedLoad_loadValueReg r n v
    have hx : delayedLoad r n v (gpr x) = flush r (gpr x) := by
      rw [flush, delayedLoad_apply hr.2, delayedLoad_apply hr.2]
      simp only [gpr_ne (x := x) (y := loadValueReg) (by decide), gpr_ne (x := x) (y := loadReg)
        (by decide), if_false]
    rw [← mergeInto_eq hadv h0, mergeInto, hl, hv, advance_gpr, hx]
    simp only [ne_eq, h0, not_false_eq_true, true_and]

theorem gpr_ended (hr : Regular r) (x : Fin 32) :
    advance (delayedLoad r n v) pc (gpr x) = flush r (gpr x) := by
  rw [advance_gpr, flush, delayedLoad_apply hr.2, delayedLoad_apply hr.2]
  simp only [gpr_ne (x := x) (y := loadValueReg) (by decide), gpr_ne (x := x) (y := loadReg)
    (by decide), if_false]

theorem Steady.ended (h : Steady r x a) (hr : Regular r) (hn : n.toNat < 32)
    (hx : x = 0 ∨ n ≠ regNum x) :
    Steady (advance (delayedLoad r n v) pc) x a := by
  refine ⟨(gpr_ended hr x).trans h.2, ?_⟩
  rw [flush_ended hr hn, if_neg]
  · exact h.2
  · rintro ⟨h0, hc⟩
    exact hx.elim h0 fun hne => hne hc

theorem MayInterrupt.regular (h : MayInterrupt m m') (hr : Regular m.registers) :
    Regular m'.registers := by
  rcases h with rfl | rfl
  · exact hr
  · exact regular_delayedLoad hr.2 (by decide)

theorem MayInterrupt.flush_eq (h : MayInterrupt m m') (hr : Regular m.registers) :
    flush m'.registers = flush m.registers := by
  rcases h with rfl | rfl
  · rfl
  · exact flush_flush hr.2

theorem MayInterrupt.steady (h : MayInterrupt m m') (hr : Regular m.registers)
    (hx : Steady m.registers x a) :
    Steady m'.registers x a := by
  rcases h with rfl | rfl
  · exact hx
  · exact ⟨hx.2, (congrFun (flush_flush hr.2) _).trans hx.2⟩

theorem MayInterrupt.memory (h : MayInterrupt m m') :
    m'.mainMemory = m.mainMemory ∧ m'.pageTable = m.pageTable := by
  rcases h with rfl | rfl
  · exact ⟨rfl, rfl⟩
  · exact ⟨rfl, rfl⟩

/-- An instruction that loads from an aligned word. -/
theorem Machine.Fetches.load {convert : BitVec 32 → BitVec 32} (hf : m.Fetches raw pt)
    (hop : operate (decode raw) m.registers = .load addr .word rt convert)
    (hp : (translate m.pageTable addr .word false).map Prod.fst = .ok p) :
    ∃ pt', SamePlaces m.pageTable pt' ∧ Nachos.oneInstruction m = .done { m with
      pageTable := pt'
      registers :=
        advance (delayedLoad m.registers (regNum rt) (convert (fetch m.mainMemory p .word)))
        (m.registers nextPCReg + 4) } := by
  obtain ⟨p0, ht0, -⟩ := readMem_ok hf
  have hsame := samePlaces_translate ht0
  obtain ⟨pt', ht⟩ := eq_map_fst.mp ((hsame addr .word false).trans hp)
  refine ⟨pt', hsame.trans (samePlaces_translate ht), ?_⟩
  have hread : readMem m.mainMemory pt addr .word = .ok (fetch m.mainMemory p .word, pt') := by
    rw [readMem, ht]
  rw [hf.oneInstruction, hop]
  simp only [perform, hread]
  rfl

/-- An instruction that reads an aligned word and writes it back. -/
theorem Machine.Fetches.update {merge : BitVec 32 → BitVec 32} (hf : m.Fetches raw pt)
    (hop : operate (decode raw) m.registers = .update addr merge)
    (hp : (translate m.pageTable addr .word true).map Prod.fst = .ok p) :
    ∃ pt', SamePlaces m.pageTable pt' ∧ Nachos.oneInstruction m = .done {
      mainMemory := Bytes.write m.mainMemory p (encode (merge (fetch m.mainMemory p .word)) .word)
      pageTable := pt'
      registers := advance (delayedLoad m.registers 0 0) (m.registers nextPCReg + 4) } := by
  obtain ⟨p0, ht0, -⟩ := readMem_ok hf
  have hsame := samePlaces_translate ht0
  obtain ⟨pt1, ht1⟩ := eq_map_fst.mp ((hsame addr .word false).trans (translate_read hp))
  have hsame1 := hsame.trans (samePlaces_translate ht1)
  obtain ⟨pt2, ht2⟩ := eq_map_fst.mp ((hsame1 addr .word true).trans hp)
  refine ⟨pt2, hsame1.trans (samePlaces_translate ht2), ?_⟩
  have hread : readMem m.mainMemory pt addr .word = .ok (fetch m.mainMemory p .word, pt1) := by
    rw [readMem, ht1]
  have hwrite : ∀ value, writeMem m.mainMemory pt1 addr .word value =
      .ok (Bytes.write m.mainMemory p (encode value .word), pt2) := by
    intro value
    rw [writeMem, ht2]
  rw [hf.oneInstruction, hop]
  simp only [perform, hread, hwrite]
  rfl

/-! ### Loads -/

/-- The part of the word at `a` that is in the aligned word of `y` is loaded
into `rt`, or on its way. -/
structure Loads (m m' : Machine) (rt rs : Fin 32) (a y : BitVec 32) (P : ℕ → ℤ) : Prop where
  regular : Regular m'.registers
  base : Steady m'.registers rs a
  memory : m'.mainMemory = m.mainMemory
  samePlaces : SamePlaces m.pageTable m'.pageTable
  bytes : ∀ i < 4, byteNo (flush m'.registers (gpr rt)) i =
    if InWord y (byteAddr a i) then m.mainMemory (P i) else byteNo (flush m.registers (gpr rt)) i

theorem Machine.Fetches.loads {f : BitVec 32 → BitVec 32} (hf : m.Fetches raw pt)
    (hop : operate (decode raw) m.registers = .load (wordOf y) .word rt f)
    (hc : ∀ value, ∀ i < 4, byteNo (f value) i =
      if InWord y (byteAddr a i) then byteNo value ((byteAddr a i).toNat % 4)
      else byteNo (flush m.registers (gpr rt)) i)
    (hr : Regular m.registers) (ha : Steady m.registers rs a) (h0 : rt ≠ 0) (hne : rt ≠ rs)
    (hP : Places m.pageTable a P) (hmap : Mapped m.pageTable y false) :
    ∃ m', Nachos.oneInstruction m = .done m' ∧ Loads m m' rt rs a y P := by
  obtain ⟨p, hp⟩ := hmap
  obtain ⟨pt', hsame, hstep⟩ := hf.load hop hp
  have hn : (regNum rt).toNat < 32 := (regNum_toNat rt).symm ▸ rt.isLt
  have hrs : regNum rt ≠ regNum rs := by
    intro hc
    refine hne (Fin.ext ?_)
    rw [← regNum_toNat, hc, regNum_toNat]
  refine ⟨_, hstep, ?_, ha.ended hr hn (Or.inr hrs), rfl, hsame, fun i hi => ?_⟩
  · have hreg := regular_delayedLoad (v := f (fetch m.mainMemory p .word)) hr.2 hn
    exact ⟨hreg.1, hreg.2⟩
  · rw [flush_ended hr hn, if_pos ⟨h0, rfl⟩, hc _ i hi]
    split_ifs with hin
    · rw [byteNo_fetch _ _ (Nat.mod_lt _ (by decide)), hP.inWord hp hi hin]
    · rfl

/-- `LWR rt,0(rs)` or `LWL rt,3(rs)`. -/
theorem Machine.At.load (hat : m.At o rt rs offset)
    (ho : (o = .lwr ∧ offset = 0) ∨ (o = .lwl ∧ offset = 3)) (hr : Regular m.registers)
    (ha : Steady m.registers rs a) (h0 : rt ≠ 0) (hne : rt ≠ rs) (hP : Places m.pageTable a P)
    (hmap : Mapped m.pageTable (a + offset) false) :
    ∃ m', Nachos.oneInstruction m = .done m' ∧ Loads m m' rt rs a (a + offset) P := by
  obtain ⟨raw, pt, rd, hf, hd⟩ := hat
  rcases ho with ⟨rfl, rfl⟩ | ⟨rfl, rfl⟩
  · rw [add_zero a] at hmap ⊢
    refine hf.loads (f := mergeLWR (3 - (a &&& 3)) (mergeInto m.registers rt))
      ?_ (fun value i hi => ?_) hr ha h0
      hne hP hmap
    · rw [hd]
      simp only [operate, ha.1, wordOf, BitVec.ofNat_eq_ofNat, BitVec.add_zero]
    · rw [mergeInto_eq hr h0]
      exact byteNo_mergeR _ _ hi
  · refine hf.loads (f := mergeLWL (3 - ((a + 3) &&& 3)) (mergeInto m.registers rt))
      ?_ (fun value i hi => ?_) hr
      ha h0 hne hP hmap
    · rw [hd]
      simp only [operate, ha.1, wordOf]
    · rw [mergeInto_eq hr h0]
      exact byteNo_mergeL _ _ hi

/-- The registers when an instruction is over, or where `RaiseException` enters
the handler. -/
def Step.registers : Step → Option Registers
  | .done m => some m.registers
  | .exception _ badVAddr m =>
    some (delayedLoad (writeRegister m.registers badVAddrReg badVAddr) 0 0)
  | .crash => none

/-- The next instruction does not write `x`. -/
def Machine.Spares (m : Machine) (x : Fin 32) : Prop :=
  ∀ raw pt, m.Fetches raw pt → x ∉ (decode raw).writes

/-- The pending load arrives with the next instruction, also if that traps. -/
theorem Machine.Spares.arrives (h : m.Spares x) (hr : Regular m.registers)
    (hend : (Nachos.oneInstruction m).registers = some r) :
    r (gpr x) = flush m.registers (gpr x) := by
  cases hstep : Nachos.oneInstruction m with
  | done m' =>
    rw [hstep] at hend
    obtain ⟨raw, pt, hf, hends⟩ := oneInstruction_ends hstep
    cases hend
    exact hends.keeps hr (h raw pt hf)
  | exception which badVAddr m' =>
    rw [hstep] at hend
    obtain ⟨pt, rfl, -⟩ := oneInstruction_exception hstep
    cases hend
    have hb : Regular (writeRegister m.registers badVAddrReg badVAddr) := hr
    have hx : writeRegister m.registers badVAddrReg badVAddr (gpr x) = m.registers (gpr x) :=
      Function.update_of_ne (gpr_ne (by decide)) _ _
    rw [flush, delayedLoad_apply hb.2, delayedLoad_apply hr.2, hx]
    rfl
  | crash =>
    rw [hstep] at hend
    cases hend

/-- Both loads, in either order. -/
theorem loads_word {m m1 m1' m2 : Machine} {k k' : BitVec 32} {b : ℕ → Byte}
    (h : Loads m m1 rt rs a (a + k) P) (hi : MayInterrupt m1 m1')
    (h' : Loads m1' m2 rt rs a (a + k') P) (hb : ∀ i < 4, m.mainMemory (P i) = b i)
    (hk : ∀ i < 4, InWord (a + k) (byteAddr a i) ∨ InWord (a + k') (byteAddr a i)) :
    flush m2.registers (gpr rt) = Bytes.word (b 0) (b 1) (b 2) (b 3) := by
  refine byteNo_ext fun i hi4 => ?_
  rw [byteNo_word b hi4, h'.bytes i hi4, hi.memory.1, h.memory, hi.flush_eq h.regular,
    h.bytes i hi4, hb i hi4]
  split_ifs with h1 h2
  · rfl
  · rfl
  · exact absurd (hk i hi4) (not_or.mpr ⟨h2, h1⟩)

/-! ### Stores -/

/-- The part of the word at `a` that is in the aligned word of `y` is stored
from `rt`. -/
structure Stored (m m' : Machine) (rt rs : Fin 32) (a v y : BitVec 32) (P : ℕ → ℤ) : Prop where
  regular : Regular m'.registers
  base : Steady m'.registers rs a
  value : Steady m'.registers rt v
  samePlaces : SamePlaces m.pageTable m'.pageTable
  puts : Puts m.mainMemory m'.mainMemory P v fun i => InWord y (byteAddr a i)

theorem regNum_ne_zero {x : Fin 32} (h0 : x ≠ 0) : (0 : BitVec 32) ≠ regNum x := by
  intro hc
  refine h0 (Fin.ext ?_)
  rw [← regNum_toNat, ← hc]
  rfl

theorem Machine.Fetches.stored {merge : BitVec 32 → BitVec 32} (hf : m.Fetches raw pt)
    (hop : operate (decode raw) m.registers = .update (wordOf y) merge) (hs : Splices a y v merge)
    (hr : Regular m.registers) (ha : Steady m.registers rs a) (hv : Steady m.registers rt v)
    (hP : Places m.pageTable a P) (hmap : Mapped m.pageTable y true) :
    ∃ m', Nachos.oneInstruction m = .done m' ∧ Stored m m' rt rs a v y P := by
  obtain ⟨p, hp⟩ := hmap
  obtain ⟨pt', hsame, hstep⟩ := hf.update hop hp
  have hreg : Regular (delayedLoad m.registers 0 0) := regular_delayedLoad hr.2 (by decide)
  have hkeep : ∀ {x : Fin 32} {a : BitVec 32}, Steady m.registers x a →
      Steady (advance (delayedLoad m.registers 0 0) (m.registers nextPCReg + 4)) x a := by
    intro x a hx
    exact hx.ended hr (by decide) ((eq_or_ne x 0).imp_right regNum_ne_zero)
  exact ⟨_, hstep, ⟨hreg.1, hreg.2⟩, hkeep ha, hkeep hv, hsame, hs.puts hP hp⟩

/-- `SWR rt,0(rs)` or `SWL rt,3(rs)`. -/
theorem Machine.At.store (hat : m.At o rt rs offset)
    (ho : (o = .swr ∧ offset = 0) ∨ (o = .swl ∧ offset = 3)) (hr : Regular m.registers)
    (ha : Steady m.registers rs a) (hv : Steady m.registers rt v) (hP : Places m.pageTable a P)
    (hmap : Mapped m.pageTable (a + offset) true) :
    ∃ m', Nachos.oneInstruction m = .done m' ∧ Stored m m' rt rs a v (a + offset) P := by
  obtain ⟨raw, pt, rd, hf, hd⟩ := hat
  rcases ho with ⟨rfl, rfl⟩ | ⟨rfl, rfl⟩
  · rw [add_zero a] at hmap ⊢
    refine hf.stored ?_ (splices_SWR a v) hr ha hv hP hmap
    rw [hd]
    simp only [operate, ha.1, hv.1, wordOf, BitVec.ofNat_eq_ofNat, BitVec.add_zero]
  · refine hf.stored ?_ (splices_SWL a v) hr ha hv hP hmap
    rw [hd]
    simp only [operate, ha.1, hv.1, wordOf]

theorem byteAddr_sub (hi : i < 4) : (byteAddr a i - a).toNat = i := by
  rw [byteAddr, add_sub_cancel_left, BitVec.toNat_ofNat]
  omega

theorem byteAddr_toNat_sub (y a : BitVec 32) : byteAddr a (y - a).toNat = y := by
  rw [byteAddr, BitVec.ofNat_toNat, BitVec.setWidth_eq, add_sub_cancel]

/-- What the one-byte reads see of a word that is put down. -/
theorem Puts.readByte (h : Puts mem mem' P v fun _ => True) (hP : Places pt a P) (hpt : Frames pt)
    (hsame : SamePlaces pt pt') (x : BitVec 32) :
    Nachos.readByte mem' pt' x =
      if (x - a).toNat < 4 then .ok ((byteNo v (x - a).toNat).signExtend 32)
      else Nachos.readByte mem pt x := by
  rw [readByte_eq, readByte_eq, hsame]
  split_ifs with hx
  · have hplace := hP _ hx
    rw [byteAddr_toNat_sub] at hplace
    rw [show (translate pt x .byte false).map Prod.fst = _ from hplace]
    exact congrArg (fun b : Byte => Except.ok (b.signExtend 32)) (h.inside _ hx trivial)
  · cases hq : (translate pt x .byte false).map Prod.fst with
    | error e => rfl
    | ok q =>
      refine congrArg (fun b : Byte => Except.ok (b.signExtend 32))
        (h.outside q fun i hi _ heq => hx ?_)
      have hxi : x = byteAddr a i := placeOf_inj hpt hq (heq ▸ hP i hi)
      rwa [hxi, byteAddr_sub hi]

/-! ### A word at any address -/

theorem inWord_or_add (hi : i < 4) :
    InWord (a + 0) (byteAddr a i) ∨ InWord (a + 3) (byteAddr a i) := by
  rw [add_zero a]
  exact inWord_or hi

theorem Mapped.add {k : BitVec 32} (h : Mapped pt a wr) (h3 : Mapped pt (a + 3) wr)
    (hk : k = 0 ∨ k = 3) :
    Mapped pt (a + k) wr := by
  rcases hk with rfl | rfl
  · rwa [add_zero a]
  · exact h3

/-- Two loads in either order, and one more instruction. -/
theorem unaligned_load {b : ℕ → Byte} {first second : OpCode × BitVec 32} (hr : Regular m.registers)
    (ha : Steady m.registers rs a) (h0 : rt ≠ 0) (hne : rt ≠ rs) (hmap : Mapped m.pageTable a false)
    (hmap3 : Mapped m.pageTable (a + 3) false) (hP : Places m.pageTable a P)
    (hb : ∀ i < 4, m.mainMemory (P i) = b i)
    (horder : (first, second) = ((.lwr, 0), (.lwl, 3)) ∨ (first, second) = ((.lwl, 3), (.lwr, 0)))
    (hat : m.At first.1 rt rs first.2) :
    ∃ m1, oneInstruction m = .done m1 ∧
      ∀ m1', MayInterrupt m1 m1' → m1'.At second.1 rt rs second.2 →
      ∃ m2, oneInstruction m1' = .done m2 ∧
        ∀ m2', MayInterrupt m2 m2' → m2'.Spares rt → ∀ r, (oneInstruction m2').registers = some r →
          r (gpr rt) = Bytes.word (b 0) (b 1) (b 2) (b 3) := by
  -- each of the loads, and together they have all the bytes
  obtain ⟨hone, htwo, hk⟩ : ((first.1 = .lwr ∧ first.2 = 0) ∨ (first.1 = .lwl ∧ first.2 = 3)) ∧
      ((second.1 = .lwr ∧ second.2 = 0) ∨ (second.1 = .lwl ∧ second.2 = 3)) ∧
      ∀ i < 4, InWord (a + first.2) (byteAddr a i) ∨ InWord (a + second.2) (byteAddr a i) := by
    rcases horder with h | h
    · cases h
      exact ⟨Or.inl ⟨rfl, rfl⟩, Or.inr ⟨rfl, rfl⟩, fun i hi => inWord_or_add hi⟩
    · cases h
      exact ⟨Or.inr ⟨rfl, rfl⟩, Or.inl ⟨rfl, rfl⟩, fun i hi => (inWord_or_add hi).symm⟩
  obtain ⟨m1, hstep1, h1⟩ :=
    hat.load hone hr ha h0 hne hP (hmap.add hmap3 (hone.imp And.right And.right))
  refine ⟨m1, hstep1, fun m1' hi1 hat1 => ?_⟩
  have hsame : SamePlaces m.pageTable m1'.pageTable := hi1.memory.2 ▸ h1.samePlaces
  obtain ⟨m2, hstep2, h2⟩ :=
    hat1.load htwo (hi1.regular h1.regular) (hi1.steady h1.regular h1.base) h0 hne
    (hP.samePlaces hsame) ((hmap.add hmap3 (htwo.imp And.right And.right)).samePlaces hsame)
  refine ⟨m2, hstep2, fun m2' hi2 hspares r hend => ?_⟩
  rw [hspares.arrives (hi2.regular h2.regular) hend, hi2.flush_eq h2.regular]
  exact loads_word h1 hi1 h2 hb hk

/-- Two stores. -/
theorem unaligned_store (hr : Regular m.registers) (ha : Steady m.registers rs a)
    (hv : Steady m.registers rt v) (hpt : Frames m.pageTable) (hmap : Mapped m.pageTable a true)
    (hmap3 : Mapped m.pageTable (a + 3) true) (hP : Places m.pageTable a P)
    (hat : m.At .swr rt rs 0) :
    ∃ m1, oneInstruction m = .done m1 ∧
      ∀ m1', MayInterrupt m1 m1' → m1'.At .swl rt rs 3 → ∃ m2, oneInstruction m1' = .done m2 ∧
        SamePlaces m.pageTable m2.pageTable ∧
        Puts m.mainMemory m2.mainMemory P v fun _ => True := by
  obtain ⟨m1, hstep1, h1⟩ := hat.store (Or.inl ⟨rfl, rfl⟩) hr ha hv hP (hmap.add hmap3 (Or.inl rfl))
  refine ⟨m1, hstep1, fun m1' hi1 hat1 => ?_⟩
  have hsame : SamePlaces m.pageTable m1'.pageTable := hi1.memory.2 ▸ h1.samePlaces
  obtain ⟨m2, hstep2, h2⟩ := hat1.store (Or.inr ⟨rfl, rfl⟩) (hi1.regular h1.regular)
    (hi1.steady h1.regular h1.base) (hi1.steady h1.regular h1.value) (hP.samePlaces hsame)
    (hmap3.samePlaces hsame)
  have h := h1.puts.trans (hi1.memory.1 ▸ h2.puts) fun i hi j hj => hP.inj hpt hi hj
  exact ⟨m2, hstep2, hsame.trans h2.samePlaces, fun i hi _ => h.inside i hi (inWord_or_add hi),
    fun q hq => h.outside q fun i hi _ => hq i hi trivial⟩

/-- The word at the program counter. -/
def Machine.nextWord (m : Machine) : Option (BitVec 32) :=
  (readMem m.mainMemory m.pageTable (m.registers pcReg) .word).toOption.map Prod.fst

theorem Machine.fetches_of_nextWord (h : m.nextWord = some raw) : ∃ pt, m.Fetches raw pt := by
  unfold Machine.nextWord at h
  cases hr : readMem m.mainMemory m.pageTable (m.registers pcReg) .word with
  | error e =>
    rw [hr] at h
    cases h
  | ok r =>
    rw [hr] at h
    cases h
    exact ⟨r.2, hr⟩

theorem Machine.At.of_nextWord (rd : Fin 32) (h : m.nextWord = some raw)
    (hd : decode raw = ⟨o, rs, rt, rd, offset⟩) : m.At o rt rs offset := by
  obtain ⟨pt, hf⟩ := Machine.fetches_of_nextWord h
  exact ⟨raw, pt, rd, hf, hd⟩

theorem Machine.Spares.of_nextWord (h : m.nextWord = some raw) (hd : x ∉ (decode raw).writes) :
    m.Spares x := by
  obtain ⟨pt, hf⟩ := Machine.fetches_of_nextWord h
  intro raw' pt' hf'
  have heq := hf'.symm.trans hf
  simp only [Except.ok.injEq, Prod.mk.injEq] at heq
  rwa [heq.1]

/-- **Unaligned access.** -/
theorem unaligned_access (m : Machine) (rt rs : Fin 32) (a : BitVec 32) (hr : Regular m.registers)
    (ha : Steady m.registers rs a) :
    -- two loads in either order, and one more instruction
    (rt ≠ 0 → rt ≠ rs → Mapped m.pageTable a false → Mapped m.pageTable (a + 3) false →
      ∃ b : ℕ → Byte,
        (∀ i < 4, readByte m.mainMemory m.pageTable (byteAddr a i) =
          .ok ((b i).signExtend 32)) ∧
        ∀ first second : OpCode × BitVec 32, (first, second) = ((.lwr, 0), (.lwl, 3)) ∨
            (first, second) = ((.lwl, 3), (.lwr, 0)) →
          m.At first.1 rt rs first.2 → ∃ m1, oneInstruction m = .done m1 ∧
            ∀ m1', MayInterrupt m1 m1' → m1'.At second.1 rt rs second.2 →
            ∃ m2, oneInstruction m1' = .done m2 ∧
              ∀ m2', MayInterrupt m2 m2' → m2'.Spares rt →
              ∀ r, (oneInstruction m2').registers = some r →
                r (gpr rt) = Bytes.word (b 0) (b 1) (b 2) (b 3)) ∧
    -- two stores
    ∀ v, Steady m.registers rt v → Frames m.pageTable → Mapped m.pageTable a true →
      Mapped m.pageTable (a + 3) true →
      m.At .swr rt rs 0 → ∃ m1, oneInstruction m = .done m1 ∧
        ∀ m1', MayInterrupt m1 m1' → m1'.At .swl rt rs 3 → ∃ m2, oneInstruction m1' = .done m2 ∧
          (∀ x, readByte m2.mainMemory m2.pageTable x =
            if (x - a).toNat < 4 then .ok ((byteNo v (x - a).toNat).signExtend 32)
            else readByte m.mainMemory m.pageTable x) ∧
          ∀ q, (∀ i < 4, placeOf m.pageTable (byteAddr a i) ≠ .ok q) →
            m2.mainMemory q = m.mainMemory q := by
  constructor
  · intro h0 hne hmap hmap3
    obtain ⟨P, hP⟩ := hmap.places hmap3
    refine ⟨fun i => m.mainMemory (P i), fun i hi => ?_, fun first second horder hat => ?_⟩
    · rw [readByte_eq, show (translate m.pageTable (byteAddr a i) .byte false).map Prod.fst =
        _ from hP i hi]
      rfl
    · exact unaligned_load (b := fun i => m.mainMemory (P i)) hr ha h0 hne hmap hmap3 hP
        (fun i _ => rfl) horder hat
  · intro v hv hpt hmap hmap3 hat
    obtain ⟨P, hP⟩ := hmap.places hmap3
    obtain ⟨m1, hstep1, hrest⟩ := unaligned_store hr ha hv hpt hmap hmap3 hP hat
    refine ⟨m1, hstep1, fun m1' hi1 hat1 => ?_⟩
    obtain ⟨m2, hstep2, hsame, hputs⟩ := hrest m1' hi1 hat1
    refine ⟨m2, hstep2, hputs.readByte hP hpt hsame, fun q hq => hputs.outside q ?_⟩
    rintro i hi - rfl
    exact hq i hi (hP i hi)

/-- `lwr r8,0(r9); lwl r8,3(r9)` and a no-op, of a word across two pages that
are not neighbours. -/
theorem unaligned_access_pages :
    let m : Machine := {
      registers := fun x => if x = 9 then 254 else if x = nextPCReg then 4 else 0
      mainMemory :=
        fun x => if x = 766 then 1 else [0, 0, 0x28, 0x99, 3, 0, 0x28, 0x89].getD x.toNat 0
      pageTable := [⟨0, 0, true, false, false, false⟩, ⟨1, 5, true, false, false, false⟩,
        ⟨2, 3, true, false, false, false⟩] }
    ∃ (b : ℕ → Byte) (m1 m2 m3 : Machine),
      (∀ i < 4, readByte m.mainMemory m.pageTable (byteAddr 254 i) = .ok ((b i).signExtend 32)) ∧
      oneInstruction m = .done m1 ∧ oneInstruction m1 = .done m2 ∧ oneInstruction m2 = .done m3 ∧
      m3.registers 8 = Bytes.word (b 0) (b 1) (b 2) (b 3) := by
  intro m
  -- the three words that are fetched
  have hw0 : m.nextWord = some 0x99280000 := by decide
  have hw1 : m.next.bind Machine.nextWord = some 0x89280003 := by decide
  have hw2 : (m.next.bind Machine.next).bind Machine.nextWord = some 0 := by decide
  have hw3 : ((m.next.bind Machine.next).bind Machine.next).isSome := by decide
  obtain ⟨b, hb, hrun⟩ :=
    (unaligned_access m 8 9 254 ⟨rfl, by decide⟩ ⟨rfl, by decide⟩).1 (by decide) (by decide)
    ⟨_, rfl⟩ ⟨_, rfl⟩
  obtain ⟨m1, h1, hrun⟩ := hrun _ _ (Or.inl rfl) (.of_nextWord 0 hw0 (by decide))
  rw [Machine.next_eq.mpr h1] at hw1 hw2 hw3
  obtain ⟨m2, h2, hrun⟩ := hrun m1 (Or.inl rfl) (.of_nextWord 0 hw1 (by decide))
  rw [Option.bind_some, Machine.next_eq.mpr h2] at hw2 hw3
  obtain ⟨m3, h3⟩ := Option.isSome_iff_exists.mp hw3
  have h3 := Machine.next_eq.mp h3
  refine ⟨b, m1, m2, m3, hb, h1, h2, h3, ?_⟩
  exact hrun m2 (Or.inl rfl) (.of_nextWord hw2 (by decide)) _ (by rw [h3]; rfl)

end Nachos
