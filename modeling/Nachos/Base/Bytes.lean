/-
# Byte stores

A byte store is a function from addresses to bytes. `write`, `fill` and
`copy` replace a range and leave every other address alone
(`write_outside`, `fill_outside`, `copy_outside`); `word` and `wordBytes`
are the little-endian encoding of a 32-bit word and its inverse
(`word_wordBytes`). `wordAt` reads a word of a store, and `ofWords` is the
store of an array of words (`wordAt_ofWords`).

Key definitions: `Bytes.Store`, `Bytes.write`, `Bytes.fill`, `Bytes.copy`,
`Bytes.word`, `Bytes.wordBytes`, `Bytes.wordAt`, `Bytes.ofWords`.
-/
import Mathlib

namespace Bytes

/-- A byte. -/
abbrev Byte := BitVec 8

/-- A byte at every address. -/
abbrev Store := ℤ → Byte

/-- The bytes of `l` at `a`, `a + 1`, … -/
def write (m : Store) (a : ℤ) (l : List Byte) : Store :=
  fun x => if a ≤ x ∧ x < a + l.length then l.getD (x - a).toNat 0 else m x

/-- `n` bytes `v` from `a` on. -/
def fill (m : Store) (a n : ℤ) (v : Byte) : Store := fun x => if a ≤ x ∧ x < a + n then v else m x

/-- The `n` bytes of `src` from `s` on, at `a`. -/
def copy (src : Store) (s : ℤ) (m : Store) (a n : ℤ) : Store :=
  fun x => if a ≤ x ∧ x < a + n then src (s + (x - a)) else m x

variable {m src : Store} {a n x : ℤ} {l : List Byte} {v : Byte}

theorem write_inside (h1 : a ≤ x) (h2 : x < a + l.length) :
    write m a l x = l.getD (x - a).toNat 0 :=
  if_pos ⟨h1, h2⟩

theorem write_outside (h : x < a ∨ a + l.length ≤ x) : write m a l x = m x :=
  if_neg (by omega)

theorem fill_inside (h1 : a ≤ x) (h2 : x < a + n) : fill m a n v x = v := if_pos ⟨h1, h2⟩

theorem fill_outside (h : x < a ∨ a + n ≤ x) : fill m a n v x = m x := if_neg (by omega)

theorem copy_inside {s : ℤ} (h1 : a ≤ x) (h2 : x < a + n) :
    copy src s m a n x = src (s + (x - a)) :=
  if_pos ⟨h1, h2⟩

theorem copy_outside {s : ℤ} (h : x < a ∨ a + n ≤ x) : copy src s m a n x = m x := if_neg (by omega)

theorem copy_zero {s : ℤ} : copy src s m a 0 = m := funext fun _ ↦ copy_outside (by omega)

/-- The little-endian word of four bytes. -/
def word (b0 b1 b2 b3 : Byte) : BitVec 32 := b3 ++ b2 ++ b1 ++ b0

/-- The four bytes of a word, low byte first. -/
def wordBytes (w : BitVec 32) : List Byte :=
  [w.extractLsb' 0 8, w.extractLsb' 8 8, w.extractLsb' 16 8, w.extractLsb' 24 8]

/-- Decoding the encoding gives the word back. -/
theorem word_wordBytes (w : BitVec 32) :
    word (w.extractLsb' 0 8) (w.extractLsb' 8 8) (w.extractLsb' 16 8) (w.extractLsb' 24 8) = w := by
  refine BitVec.eq_of_getLsbD_eq fun i hi => ?_
  simp only [word, BitVec.getLsbD_append, BitVec.getLsbD_extractLsb']
  by_cases h1 : i < 8
  · simp [h1]
  · by_cases h2 : i < 16
    · simp [h1, show i - 8 < 8 by omega, show 8 + (i - 8) = i by omega]
    · by_cases h3 : i < 24
      · simp [h1, show ¬ i - 8 < 8 by omega, show i - 8 - 8 < 8 by omega,
          show 16 + (i - 8 - 8) = i by omega]
      · simp [h1, show ¬ i - 8 < 8 by omega, show ¬ i - 8 - 8 < 8 by omega,
          show i - 8 - 8 - 8 < 8 by omega, show 24 + (i - 8 - 8 - 8) = i by omega]

/-- The word at `a`. -/
def wordAt (m : Store) (a : ℤ) : BitVec 32 := word (m a) (m (a + 1)) (m (a + 2)) (m (a + 3))

/-- The bytes of an array of words from address 0 on. -/
def ofWords (f : ℤ → BitVec 32) : Store := fun x => (f (x / 4)).extractLsb' (8 * (x % 4).toNat) 8

theorem wordAt_ofWords (f : ℤ → BitVec 32) (k : ℤ) : wordAt (ofWords f) (4 * k) = f k := by
  have hdiv : ∀ i : ℤ, 0 ≤ i → i < 4 → (4 * k + i) / 4 = k ∧ (4 * k + i) % 4 = i := by omega
  have h0 : (4 * k) / 4 = k ∧ (4 * k) % 4 = 0 := by omega
  obtain ⟨h1, h1'⟩ := hdiv 1 (by omega) (by omega)
  obtain ⟨h2, h2'⟩ := hdiv 2 (by omega) (by omega)
  obtain ⟨h3, h3'⟩ := hdiv 3 (by omega) (by omega)
  simp only [wordAt, ofWords, h0, h1, h1', h2, h2', h3, h3']
  exact word_wordBytes (f k)

/-- A word is read from its four bytes. -/
theorem wordAt_congr {m' : Store} {b : ℤ} (h : ∀ i, 0 ≤ i → i < 4 → m (a + i) = m' (b + i)) :
    wordAt m a = wordAt m' b := by
  have h0 := h 0 (by omega) (by omega)
  rw [add_zero, add_zero] at h0
  unfold wordAt
  rw [h0, h 1 (by omega) (by omega), h 2 (by omega) (by omega), h 3 (by omega) (by omega)]

/-- Writing a word and reading it back. -/
theorem wordAt_write (m : Store) (a : ℤ) (w : BitVec 32) :
    wordAt (write m a (wordBytes w)) a = w := by
  have hlen : (wordBytes w).length = 4 := rfl
  have h : ∀ i : ℕ, i < 4 → write m a (wordBytes w) (a + i) = (wordBytes w).getD i 0 := by
    intro i hi
    rw [write_inside (by omega) (by omega)]
    congr 1
    omega
  have h0 := h 0 (by omega)
  have h1 := h 1 (by omega)
  have h2 := h 2 (by omega)
  have h3 := h 3 (by omega)
  simp only [Nat.cast_zero, add_zero, Nat.cast_one, Nat.cast_ofNat] at h0 h1 h2 h3
  unfold wordAt
  rw [h0, h1, h2, h3]
  exact word_wordBytes w

end Bytes
