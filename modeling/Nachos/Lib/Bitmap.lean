/-
# Bitmaps (`lib/bitmap.cc`)

A bitmap is an array of 32-bit words; bit `which` is bit `which % 32` of word
`which / 32`. The operations are the source's, on the words; `Bitmap.marked`
is the set of indices that are set, and each operation is an operation on
that set: `mark` inserts, `clear` erases, `test` is membership, `findAndSet`
takes the least absent index, `numClear` counts the absent ones.

Key definitions: `Bitmap`, `Bitmap.test`, `Bitmap.mark`, `Bitmap.clear`,
`Bitmap.findAndSet`, `Bitmap.numClear`, `Bitmap.marked`.
Key theorems: `Bitmap.test_mark`, `Bitmap.test_clear`, `Bitmap.findAndSet_some`,
`Bitmap.findAndSet_cases`, `Bitmap.numClear_add_card`.
-/
import Mathlib

namespace Nachos

/-- `BitsInWord`: the bits of an `unsigned int`. -/
def bitsInWord : ℕ := 32

/-- `divRoundUp(n, s)` of `utility.h`, in C's integer division. -/
def divRoundUp (n s : ℤ) : ℤ := n.tdiv s + if 0 < n.tmod s then 1 else 0

/-- The words of a bitmap of `numBits` bits. -/
def numWords (numBits : ℕ) : ℕ := (divRoundUp numBits bitsInWord).toNat

/-- `class Bitmap`: the storage has the words its bits need. -/
structure Bitmap where
  numBits : ℕ
  map : List (BitVec 32)
  words : map.length = numWords numBits
  deriving DecidableEq

theorem divRoundUp_natCast (n s : ℕ) (hs : 0 < s) : divRoundUp n s = ((n + (s - 1)) / s : ℕ) := by
  have hd : (n : ℤ).tdiv s = (n / s : ℕ) := by simp [Int.tdiv_eq_ediv]
  have hm : (n : ℤ).tmod s = (n % s : ℕ) := by simp [Int.tmod_eq_emod]
  have hlt := Nat.mod_lt n hs
  unfold divRoundUp
  rw [hd, hm]
  by_cases h : n % s = 0
  · have : n + (s - 1) = s * (n / s) + (s - 1) := by have := Nat.div_add_mod n s; omega
    rw [this, Nat.mul_add_div hs, Nat.div_eq_of_lt (show s - 1 < s by omega)]
    simp [h]
  · have : n + (s - 1) = s * (n / s + 1) + (n % s - 1) := by
      have := Nat.div_add_mod n s
      rw [Nat.mul_add, Nat.mul_one]; omega
    rw [this, Nat.mul_add_div hs, Nat.div_eq_of_lt (show n % s - 1 < s by omega), if_pos (by omega)]
    push_cast; ring

theorem lt_numWords {n i : ℕ} (h : i < n) : i / bitsInWord < numWords n := by
  unfold numWords bitsInWord
  have := divRoundUp_natCast n 32 (by norm_num)
  push_cast at this
  rw [show ((32 : ℕ) : ℤ) = 32 from rfl, this]
  omega

namespace Bitmap

variable {b : Bitmap} {i j : ℕ}

/-- The word that holds bit `which`. -/
def word (b : Bitmap) (which : ℕ) : BitVec 32 := b.map.getD (which / bitsInWord) 0

/-- The mask `1 << (which % BitsInWord)`. -/
def mask (which : ℕ) : BitVec 32 := 1#32 <<< (which % bitsInWord)

/-- `Bitmap::Test`. -/
def test (b : Bitmap) (which : ℕ) : Bool := b.word which &&& mask which ≠ 0

/-- `Bitmap::Mark`. -/
def mark (b : Bitmap) (which : ℕ) : Bitmap where
  numBits := b.numBits
  map := b.map.set (which / bitsInWord) (b.word which ||| mask which)
  words := by rw [List.length_set, b.words]

/-- `Bitmap::Clear`. -/
def clear (b : Bitmap) (which : ℕ) : Bitmap where
  numBits := b.numBits
  map := b.map.set (which / bitsInWord) (b.word which &&& ~~~ mask which)
  words := by rw [List.length_set, b.words]

/-- `Bitmap::Bitmap(numItems)`: every word 0, then every bit cleared. -/
def new (numItems : ℕ) : Bitmap :=
  (List.range numItems).foldl clear
    ⟨numItems, List.replicate (numWords numItems) 0, List.length_replicate⟩

/-- `Bitmap::FindAndSet`: the first clear bit, marked; -1 if there is none. -/
def findAndSet (b : Bitmap) : Bitmap × ℤ :=
  match (List.range b.numBits).find? fun i => !b.test i with
  | some i => (b.mark i, i)
  | none => (b, -1)

/-- `Bitmap::NumClear`. -/
def numClear (b : Bitmap) : ℕ := (List.range b.numBits).countP fun i => !b.test i

/-! ### One bit of one word -/

theorem getLsbD_mask (k : ℕ) (i : ℕ) :
    (mask i).getLsbD k = (decide (k < 32) && decide (k = i % bitsInWord)) := by
  unfold mask bitsInWord
  have := Nat.mod_lt i (show 32 > 0 by norm_num)
  rw [BitVec.getLsbD_shiftLeft, BitVec.getLsbD_one]
  by_cases hk : k < 32 <;> by_cases he : k = i % 32
  · subst he; simp [hk]
  · simp only [hk, decide_true, Bool.true_and, he, decide_false]
    by_cases hl : k < i % 32
    · simp [hl]
    · have : k - i % 32 ≠ 0 := by omega
      simp [this]
  · simp [hk]
  · simp [hk]

/-- `Test` reads the bit. -/
theorem test_eq_getLsbD (b : Bitmap) (i : ℕ) : b.test i = (b.word i).getLsbD (i % bitsInWord) := by
  have hlt : i % bitsInWord < 32 := Nat.mod_lt _ (by norm_num [bitsInWord])
  unfold test
  by_cases h : (b.word i).getLsbD (i % bitsInWord) = true
  · rw [h, decide_eq_true_eq]
    intro h0
    have := congrArg (fun w => w.getLsbD (i % bitsInWord)) h0
    simp only [BitVec.getLsbD_and, getLsbD_mask, h, hlt] at this
    simp at this
  · rw [Bool.not_eq_true] at h
    rw [h, decide_eq_false_iff_not, not_not]
    refine BitVec.eq_of_getLsbD_eq fun k hk => ?_
    rw [BitVec.getLsbD_and, getLsbD_mask]
    by_cases he : k = i % bitsInWord
    · subst he; simp [h]
    · simp [he]

theorem word_set (b : Bitmap) (w : BitVec 32) (hi : i < b.numBits) (j : ℕ)
    (hl : (b.map.set (i / bitsInWord) w).length = numWords b.numBits) :
    word ⟨b.numBits, b.map.set (i / bitsInWord) w, hl⟩ j =
      if j / bitsInWord = i / bitsInWord then w else b.word j := by
  have hlen : i / bitsInWord < b.map.length := by rw [b.words]; exact lt_numWords hi
  unfold word
  simp only [List.getD_eq_getElem?_getD]
  split_ifs with h
  · rw [h, List.getElem?_set_self hlen]; rfl
  · rw [List.getElem?_set_ne (Ne.symm h)]

theorem eq_of_div_mod (h1 : j / bitsInWord = i / bitsInWord)
    (h2 : j % bitsInWord = i % bitsInWord) :
    j = i := by
  rw [← Nat.div_add_mod j bitsInWord, h1, h2, Nat.div_add_mod]

/-! ### The operations on the set of marked bits -/

@[simp] theorem numBits_mark (b : Bitmap) (i : ℕ) : (b.mark i).numBits = b.numBits := rfl
@[simp] theorem numBits_clear (b : Bitmap) (i : ℕ) : (b.clear i).numBits = b.numBits := rfl

/-- `Mark` sets its bit and no other. -/
theorem test_mark (hi : i < b.numBits) (j : ℕ) :
    (b.mark i).test j = (decide (j = i) || b.test j) := by
  have hlt : j % bitsInWord < 32 := Nat.mod_lt _ (by norm_num [bitsInWord])
  rw [test_eq_getLsbD, test_eq_getLsbD, mark, word_set b _ hi j]
  split_ifs with h
  · rw [BitVec.getLsbD_or, getLsbD_mask, word, word, h]
    by_cases hm : j % bitsInWord = i % bitsInWord
    · rw [eq_of_div_mod h hm]; simp [hm ▸ hlt]
    · have : j ≠ i := fun he => hm (he ▸ rfl)
      simp [hm, this]
  · have : j ≠ i := fun he => h (he ▸ rfl)
    simp [this]

/-- `Clear` clears its bit and no other. -/
theorem test_clear (hi : i < b.numBits) (j : ℕ) :
    (b.clear i).test j = (!decide (j = i) && b.test j) := by
  have hlt : j % bitsInWord < 32 := Nat.mod_lt _ (by norm_num [bitsInWord])
  rw [test_eq_getLsbD, test_eq_getLsbD, clear, word_set b _ hi j]
  split_ifs with h
  · rw [BitVec.getLsbD_and, BitVec.getLsbD_not, getLsbD_mask, word, word, h]
    by_cases hm : j % bitsInWord = i % bitsInWord
    · rw [eq_of_div_mod h hm]; simp [hm ▸ hlt]
    · have : j ≠ i := fun he => hm (he ▸ rfl)
      simp [hm, this, hlt]
  · have : j ≠ i := fun he => h (he ▸ rfl)
    simp [this]

@[simp] theorem numBits_foldl_clear (l : List ℕ) (b : Bitmap) :
    (l.foldl clear b).numBits = b.numBits := by
  induction l generalizing b with
  | nil => rfl
  | cons i l ih => exact ih (b.clear i)

@[simp] theorem numBits_new (n : ℕ) : (new n).numBits = n := numBits_foldl_clear _ _

/-- Clearing a list of bits. -/
theorem test_foldl_clear (l : List ℕ) (b : Bitmap) (hl : ∀ i ∈ l, i < b.numBits) (j : ℕ) :
    (l.foldl clear b).test j = (!decide (j ∈ l) && b.test j) := by
  induction l generalizing b with
  | nil => simp
  | cons i l ih =>
    rw [List.foldl_cons, ih (b.clear i) fun k hk => hl k (List.mem_cons_of_mem _ hk),
      test_clear (hl i List.mem_cons_self)]
    by_cases h1 : j = i <;> by_cases h2 : j ∈ l <;> simp [h1, h2]

@[simp] theorem numBits_foldl_mark (l : List ℕ) (b : Bitmap) :
    (l.foldl mark b).numBits = b.numBits := by
  induction l generalizing b with
  | nil => rfl
  | cons i l ih => exact ih (b.mark i)

/-- Marking a list of bits. -/
theorem test_foldl_mark (l : List ℕ) (b : Bitmap) (hl : ∀ i ∈ l, i < b.numBits) (j : ℕ) :
    (l.foldl mark b).test j = (decide (j ∈ l) || b.test j) := by
  induction l generalizing b with
  | nil => simp
  | cons i l ih =>
    rw [List.foldl_cons, ih (b.mark i) fun k hk => hl k (List.mem_cons_of_mem _ hk),
      test_mark (hl i List.mem_cons_self)]
    by_cases h1 : j = i <;> by_cases h2 : j ∈ l <;> simp [h1, h2]

/-- A new bitmap is clear. -/
@[simp] theorem test_new (n j : ℕ) : (new n).test j = false := by
  refine (test_foldl_clear _ _ (fun i hi => List.mem_range.mp hi) j).trans ?_
  simp [test, word]

/-- The marked indices. -/
def marked (b : Bitmap) : Finset ℕ := (Finset.range b.numBits).filter fun i => b.test i

@[simp] theorem mem_marked : i ∈ b.marked ↔ i < b.numBits ∧ b.test i = true := by simp [marked]

theorem marked_mark (hi : i < b.numBits) : (b.mark i).marked = insert i b.marked := by
  ext j
  simp only [mem_marked, numBits_mark, test_mark hi, Finset.mem_insert, Bool.or_eq_true,
    decide_eq_true_eq]
  constructor
  · rintro ⟨h1, h2 | h2⟩
    · exact Or.inl h2
    · exact Or.inr ⟨h1, h2⟩
  · rintro (h | ⟨h1, h2⟩)
    · exact ⟨h ▸ hi, Or.inl h⟩
    · exact ⟨h1, Or.inr h2⟩

theorem marked_new (n : ℕ) : (new n).marked = ∅ := by
  ext j; simp

/-- The clear bits and the marked ones are all the bits. -/
theorem numClear_add_card (b : Bitmap) : b.numClear + b.marked.card = b.numBits := by
  have h1 : b.numClear = ((Finset.range b.numBits).filter fun i => ¬ b.test i = true).card := by
    rw [numClear, List.countP_eq_length_filter]
    simp only [Finset.card_def, Finset.filter_val, Finset.range_val, Multiset.range,
      Multiset.filter_coe, Multiset.coe_card]
    congr 2
    ext i
    simp
  rw [h1, marked, add_comm, Finset.card_filter_add_card_filter_not, Finset.card_range]

theorem numClear_new (n : ℕ) : (new n).numClear = n := by
  have h := numClear_add_card (new n)
  rw [marked_new, numBits_new, Finset.card_empty] at h
  exact h

/-- `FindAndSet` finds the least clear bit and marks it. -/
theorem findAndSet_some {b' : Bitmap} (h : b.findAndSet = (b', (i : ℤ))) :
    i < b.numBits ∧ b.test i = false ∧ (∀ j < i, b.test j = true) ∧ b' = b.mark i := by
  unfold findAndSet at h
  cases hf : (List.range b.numBits).find? fun i => !b.test i with
  | none => rw [hf] at h; simp at h
  | some k =>
    rw [hf] at h
    simp only [Prod.mk.injEq, Nat.cast_inj] at h
    obtain ⟨rfl, rfl⟩ := h
    obtain ⟨h1, h2, h3⟩ := List.find?_range_eq_some.mp hf
    exact ⟨List.mem_range.mp h2, by simpa using h1, fun j hj => by simpa using h3 j hj, rfl⟩

/-- `FindAndSet` returns an index, or -1 on a full bitmap, which it leaves. -/
theorem findAndSet_cases (b : Bitmap) :
    (∃ i, b.findAndSet = (b.mark i, (i : ℤ)) ∧ i < b.numBits ∧ b.test i = false ∧
      ∀ j < i, b.test j = true) ∨
    (b.findAndSet = (b, -1) ∧ ∀ i < b.numBits, b.test i = true) := by
  cases hf : (List.range b.numBits).find? fun i => !b.test i with
  | none =>
    refine Or.inr ⟨by simp [findAndSet, hf], fun i hi => ?_⟩
    have := List.find?_eq_none.mp hf i (List.mem_range.mpr hi)
    simpa using this
  | some i =>
    have he : b.findAndSet = (b.mark i, (i : ℤ)) := by simp [findAndSet, hf]
    obtain ⟨h1, h2, h3, -⟩ := findAndSet_some he
    exact Or.inl ⟨i, he, h1, h2, h3⟩

theorem numBits_findAndSet (b : Bitmap) : b.findAndSet.1.numBits = b.numBits := by
  rcases findAndSet_cases b with ⟨i, h, -⟩ | ⟨h, -⟩
  · rw [h, numBits_mark]
  · rw [h]

/-- The least clear bit is the one that `FindAndSet` finds. -/
theorem findAndSet_eq (hi : i < b.numBits) (ht : b.test i = false)
    (hlt : ∀ j < i, b.test j = true) :
    b.findAndSet = (b.mark i, (i : ℤ)) := by
  have hf : (List.range b.numBits).find? (fun j => !b.test j) = some i := by
    apply List.find?_range_eq_some.mpr
    exact ⟨by simp [ht], List.mem_range.mpr hi, fun j hj => by simp [hlt j hj]⟩
  simp [findAndSet, hf]

/-- With a clear bit left, `FindAndSet` succeeds. -/
theorem findAndSet_of_numClear (h : 0 < b.numClear) :
    ∃ i, b.findAndSet = (b.mark i, (i : ℤ)) ∧ i < b.numBits ∧ b.test i = false ∧
    ∀ j < i, b.test j = true := by
  rcases findAndSet_cases b with h1 | ⟨-, h2⟩
  · exact h1
  · exfalso
    rw [numClear, List.countP_pos_iff] at h
    obtain ⟨i, hi, ht⟩ := h
    rw [h2 i (List.mem_range.mp hi)] at ht
    simp at ht

theorem numClear_mark (hi : i < b.numBits) (ht : b.test i = false) :
    (b.mark i).numClear + 1 = b.numClear := by
  have h1 := numClear_add_card b
  have h2 := numClear_add_card (b.mark i)
  rw [marked_mark hi, Finset.card_insert_of_notMem (by simp [ht])] at h2
  simp only [numBits_mark] at h2
  omega

theorem numClear_foldl_mark (l : List ℕ) (hn : l.Nodup)
    (hl : ∀ i ∈ l, i < b.numBits ∧ b.test i = false) :
    (l.foldl mark b).numClear + l.length = b.numClear := by
  induction l generalizing b with
  | nil => rfl
  | cons i l ih =>
    obtain ⟨hi, hn⟩ := List.nodup_cons.mp hn
    obtain ⟨hlt, ht⟩ := hl i List.mem_cons_self
    have hrest : ∀ k ∈ l, k < (b.mark i).numBits ∧ (b.mark i).test k = false := by
      intro k hk
      have hne : k ≠ i := fun he => hi (he ▸ hk)
      obtain ⟨h1, h2⟩ := hl k (List.mem_cons_of_mem _ hk)
      exact ⟨h1, by rw [test_mark hlt]; simp [hne, h2]⟩
    have h1 := ih hn hrest
    have h2 := numClear_mark hlt ht
    rw [List.foldl_cons, List.length_cons]
    omega

end Bitmap
end Nachos
