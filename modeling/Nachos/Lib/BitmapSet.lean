/-
# Bitmaps as finite sets (`lib/bitmap.cc`)

The operations of a bitmap with their `ASSERT`s: an index must be in range, and
`Mark` and `Clear` test the bit they have changed. They never fail on an index
in range, and a run of them is a run of insertions and deletions on the set of
the marked indices (`Bitmap.call_spec`): no operation touches the bit of another
index, wherever in the words the two are. `FindAndSet` takes the least index
that is absent, so as many calls of it as there are clear bits succeed, each
with an index of its own, and the next returns -1 (`Bitmap.run_findAndSet`).

Key definitions: `Bitmap.Asserted.mark`, `Bitmap.Asserted.clear`, `Bitmap.Asserted.findAndSet`,
`Bitmap.call`, `Bitmap.onSet`, `Bitmap.IsSet`.
Key theorems: `Bitmap.call_spec`, `Bitmap.run_findAndSet`, `Bitmap.bitmap_set`.
-/
import Mathlib
import Nachos.Base.Calls
import Nachos.Lib.Bitmap

namespace Nachos
namespace Bitmap

variable {b b' : Bitmap} {n i : ℕ} {S S' : Finset ℕ} {which : ℤ}

/-- `which >= 0 && which < numBits`. -/
def InRange (n : ℕ) (which : ℤ) : Prop := 0 ≤ which ∧ which < n

instance (n : ℕ) (which : ℤ) : Decidable (InRange n which) := inferInstanceAs (Decidable (_ ∧ _))

namespace Asserted

/-- `Test`. -/
def test (b : Bitmap) (which : ℤ) : Option Bool := do
  guard (InRange b.numBits which)
  some (Bitmap.test b which.toNat)

/-- `Mark`. -/
def mark (b : Bitmap) (which : ℤ) : Option Bitmap := do
  guard (InRange b.numBits which)
  let b := Bitmap.mark b which.toNat
  guard (test b which = some true)
  some b

/-- `Clear`. -/
def clear (b : Bitmap) (which : ℤ) : Option Bitmap := do
  guard (InRange b.numBits which)
  let b := Bitmap.clear b which.toNat
  guard (test b which = some false)
  some b

/-- The loop of the constructor over the bits from `i` on, of which there are `n`. -/
def clearFrom (b : Bitmap) (i : ℕ) : ℕ → Option Bitmap
  | 0 => some b
  | n + 1 => do
    let b ← clear b i
    clearFrom b (i + 1) n

theorem length_zeros (numItems : ℕ) :
    (List.replicate (numWords numItems) (0 : BitVec 32)).length = numWords numItems :=
  List.length_replicate

/-- `Bitmap::Bitmap(numItems)`. -/
def new (numItems : ℕ) : Option Bitmap := do
  guard (0 < numItems)
  clearFrom ⟨numItems, List.replicate (numWords numItems) 0, length_zeros numItems⟩ 0 numItems

/-- The loop of `FindAndSet` over the bits from `i` on, of which there are `n`. -/
def findFrom (b : Bitmap) (i : ℕ) : ℕ → Option (Bitmap × ℤ)
  | 0 => some (b, -1)
  | n + 1 => do
    let found ← test b i
    if found then findFrom b (i + 1) n
    else (mark b i).map fun b => (b, (i : ℤ))

/-- `FindAndSet`. -/
def findAndSet (b : Bitmap) : Option (Bitmap × ℤ) := findFrom b 0 b.numBits

end Asserted

/-! ### The `ASSERT`s -/

theorem inRange_natCast : InRange n i ↔ i < n := by
  unfold InRange
  omega

/-- An index in range is a natural number. -/
theorem InRange.exists_eq (h : InRange n which) : ∃ i : ℕ, which = i ∧ i < n := by
  obtain ⟨i, rfl⟩ := Int.eq_ofNat_of_zero_le h.1
  exact ⟨i, rfl, inRange_natCast.mp h⟩

theorem assertedTest_eq (hi : i < b.numBits) : Asserted.test b i = some (b.test i) := by
  simp [Asserted.test, inRange_natCast, hi]

theorem assertedMark_eq (hi : i < b.numBits) : Asserted.mark b i = some (b.mark i) := by
  have hthere := assertedTest_eq (b := b.mark i) hi
  simp only [test_mark hi, decide_true, Bool.true_or] at hthere
  simp [Asserted.mark, inRange_natCast, hi, hthere]

theorem assertedClear_eq (hi : i < b.numBits) : Asserted.clear b i = some (b.clear i) := by
  have hgone := assertedTest_eq (b := b.clear i) hi
  simp only [test_clear hi, decide_true, Bool.not_true, Bool.false_and] at hgone
  simp [Asserted.clear, inRange_natCast, hi, hgone]

theorem clearFrom_eq (n : ℕ) (h : i + n ≤ b.numBits) :
    Asserted.clearFrom b i n = some ((List.range' i n).foldl Bitmap.clear b) := by
  induction n generalizing b i with
  | zero => rfl
  | succ n ih =>
    rw [Asserted.clearFrom, assertedClear_eq (by omega), Option.bind_eq_bind, Option.bind_some,
      List.range'_succ, List.foldl_cons]
    apply ih
    rw [numBits_clear]
    omega

theorem assertedNew_eq (hn : 0 < n) : Asserted.new n = some (Bitmap.new n) := by
  have hloop := clearFrom_eq (b := ⟨n, List.replicate (numWords n) 0, Asserted.length_zeros n⟩)
    (i := 0) n (Nat.zero_add n).le
  rw [← List.range_eq_range'] at hloop
  simp only [Asserted.new, hn, guard_true, hloop, Option.bind_eq_bind, Option.pure_def,
    Option.bind_some]
  rfl

/-- Behind `i` marked bits, the loop of `FindAndSet` does what is left of it. -/
theorem findFrom_eq (n : ℕ) (h : i + n = b.numBits) (hlow : ∀ j < i, b.test j = true) :
    Asserted.findFrom b i n = some b.findAndSet := by
  induction n generalizing i with
  | zero =>
    rcases findAndSet_cases b with ⟨k, -, hk, hclear, -⟩ | ⟨hfull, -⟩
    · rw [hlow k (by omega)] at hclear
      cases hclear
    · rw [hfull, Asserted.findFrom]
  | succ n ih =>
    have hi : i < b.numBits := by omega
    rw [Asserted.findFrom, assertedTest_eq hi, Option.bind_eq_bind, Option.bind_some]
    by_cases hmarked : b.test i = true
    · rw [if_pos hmarked]
      refine ih (by omega) fun j hj => ?_
      rcases Nat.lt_succ_iff_lt_or_eq.mp hj with hj | rfl
      · exact hlow j hj
      · exact hmarked
    · rw [if_neg hmarked, assertedMark_eq hi, findAndSet_eq hi (Bool.not_eq_true _ ▸ hmarked) hlow]
      rfl

theorem assertedFindAndSet_eq (b : Bitmap) : Asserted.findAndSet b = some b.findAndSet :=
  findFrom_eq b.numBits (Nat.zero_add _) fun j hj => absurd hj (Nat.not_lt_zero j)

/-! ### The set -/

/-- The operations that change a bitmap. -/
inductive Op
  | mark (which : ℤ)
  | clear (which : ℤ)
  | findAndSet
  deriving DecidableEq

/-- An operation on the bitmap, with what `FindAndSet` returns. -/
def call (b : Bitmap) : Op → Option (Bitmap × Option ℤ)
  | .mark which => (Asserted.mark b which).map fun b => (b, none)
  | .clear which => (Asserted.clear b which).map fun b => (b, none)
  | .findAndSet => (Asserted.findAndSet b).map fun r => (r.1, some r.2)

/-- The indices below `n` that are not in the set. -/
def absent (n : ℕ) (S : Finset ℕ) : Finset ℕ := Finset.range n \ S

/-- The operation on a set of indices below `n`, if its argument is in range. -/
def onSet (n : ℕ) (S : Finset ℕ) : Op → Option (Finset ℕ × Option ℤ)
  | .mark which => if InRange n which then some (insert which.toNat S, none) else none
  | .clear which => if InRange n which then some (S.erase which.toNat, none) else none
  | .findAndSet =>
    if h : (absent n S).Nonempty then
      some (insert ((absent n S).min' h) S, some ((absent n S).min' h : ℕ))
    else some (S, some (-1))

theorem marked_clear (hi : i < b.numBits) : (b.clear i).marked = b.marked.erase i := by
  ext j
  simp only [mem_marked, numBits_clear, test_clear hi, Finset.mem_erase, Bool.and_eq_true,
    Bool.not_eq_true', decide_eq_false_iff_not]
  exact and_left_comm

theorem mem_absent : i ∈ absent b.numBits b.marked ↔ i < b.numBits ∧ b.test i = false := by
  rw [absent, Finset.mem_sdiff, Finset.mem_range, mem_marked]
  constructor
  · rintro ⟨hi, hnot⟩
    exact ⟨hi, Bool.eq_false_iff.mpr fun ht => hnot ⟨hi, ht⟩⟩
  · rintro ⟨hi, hclear⟩
    exact ⟨hi, fun hm => by rw [hm.2] at hclear; cases hclear⟩

/-- `FindAndSet` on the set of the marked bits. -/
theorem findAndSet_onSet (b : Bitmap) :
    onSet b.numBits b.marked .findAndSet = some (b.findAndSet.1.marked, some b.findAndSet.2) := by
  rcases findAndSet_cases b with ⟨i, hfind, hi, hclear, hlow⟩ | ⟨hfind, hfull⟩
  · have hmem : i ∈ absent b.numBits b.marked := mem_absent.mpr ⟨hi, hclear⟩
    have hne : (absent b.numBits b.marked).Nonempty := ⟨i, hmem⟩
    have hleast : (absent b.numBits b.marked).min' hne = i := by
      apply le_antisymm
      · exact Finset.min'_le _ _ hmem
      · apply Finset.le_min'
        intro j hj
        by_contra hlt
        have htest := (mem_absent.mp hj).2
        rw [hlow j (not_le.mp hlt)] at htest
        cases htest
    rw [onSet, dif_pos hne, hleast, hfind, marked_mark hi]
  · have hnone : ¬ (absent b.numBits b.marked).Nonempty := by
      rintro ⟨i, hi⟩
      obtain ⟨hlt, hclear⟩ := mem_absent.mp hi
      rw [hfull i hlt] at hclear
      cases hclear
    rw [onSet, dif_neg hnone, hfind]

/-- An operation on the bitmap is the operation on its set. -/
theorem call_spec {op : Op} {out : Option ℤ} (hop : onSet b.numBits b.marked op = some (S', out)) :
    ∃ b', call b op = some (b', out) ∧ b'.numBits = b.numBits ∧ b'.marked = S' := by
  cases op with
  | mark which =>
    obtain ⟨hin, hS⟩ := Option.ite_none_right_eq_some.mp hop
    obtain ⟨i, rfl, hi⟩ := hin.exists_eq
    cases hS
    exact ⟨b.mark i, by rw [call, assertedMark_eq hi]; rfl, rfl, marked_mark hi⟩
  | clear which =>
    obtain ⟨hin, hS⟩ := Option.ite_none_right_eq_some.mp hop
    obtain ⟨i, rfl, hi⟩ := hin.exists_eq
    cases hS
    exact ⟨b.clear i, by rw [call, assertedClear_eq hi]; rfl, rfl, marked_clear hi⟩
  | findAndSet =>
    rw [findAndSet_onSet] at hop
    cases hop
    exact ⟨b.findAndSet.1, by rw [call, assertedFindAndSet_eq]; rfl, numBits_findAndSet b, rfl⟩

/-- The bitmap of a set of indices below `n`. -/
structure IsSet (n : ℕ) (b : Bitmap) (S : Finset ℕ) : Prop where
  numBits : b.numBits = n
  test : ∀ which, InRange n which → Asserted.test b which = some (decide (which.toNat ∈ S))
  below : ∀ i ∈ S, i < n
  numClear : b.numClear = n - S.card
  card_le : S.card ≤ n
  findAndSet : ∃ b' which, Asserted.findAndSet b = some (b', which) ∧
    (which = -1 ↔ ∀ i < n, i ∈ S) ∧
    (which ≠ -1 → InRange n which ∧ which.toNat ∉ S ∧ ∀ i < which.toNat, i ∈ S)

theorem isSet_marked (b : Bitmap) : IsSet b.numBits b b.marked := by
  have hcard := numClear_add_card b
  refine ⟨rfl, fun which hin => ?_, fun i hi => (mem_marked.mp hi).1, by omega, by omega, ?_⟩
  · obtain ⟨i, rfl, hi⟩ := hin.exists_eq
    rw [assertedTest_eq hi, Int.toNat_natCast, Option.some.injEq]
    by_cases ht : b.test i = true
    · rw [ht, decide_eq_true (mem_marked.mpr ⟨hi, ht⟩)]
    · rw [decide_eq_false fun hm => ht (mem_marked.mp hm).2, Bool.eq_false_iff.mpr ht]
  · refine ⟨b.findAndSet.1, b.findAndSet.2, assertedFindAndSet_eq b, ?_⟩
    rcases findAndSet_cases b with ⟨i, hfind, hi, hclear, hlow⟩ | ⟨hfind, hfull⟩
    · have hnot : i ∉ b.marked := fun hm => by
        rw [(mem_marked.mp hm).2] at hclear
        cases hclear
      rw [hfind]
      refine ⟨iff_of_false (by simp) fun hall => hnot (hall i hi),
        fun _ => ⟨inRange_natCast.mpr hi, hnot, fun j hj => ?_⟩⟩
      exact mem_marked.mpr ⟨lt_trans hj hi, hlow j hj⟩
    · rw [hfind]
      exact ⟨iff_of_true rfl fun i hi => mem_marked.mpr ⟨hi, hfull i hi⟩, fun hne => absurd rfl hne⟩

/-- As many calls of `FindAndSet` as there are clear bits, and one more. -/
theorem run_findAndSet (k : ℕ) (hk : b.numClear = k) :
    ∃ (found : List ℕ) (b' : Bitmap), found.length = k ∧ found.Nodup ∧
    (∀ i ∈ found, i < b.numBits ∧ b.test i = false) ∧
      Calls.run call b (List.replicate k .findAndSet) =
        some (b', found.map fun i : ℕ => some (i : ℤ)) ∧
      call b' .findAndSet = some (b', some (-1)) := by
  induction k generalizing b with
  | zero =>
    refine ⟨[], b, rfl, List.nodup_nil, by simp, rfl, ?_⟩
    rw [call, assertedFindAndSet_eq]
    rcases findAndSet_cases b with ⟨i, -, hi, hclear, -⟩ | ⟨hfind, -⟩
    · have hone := numClear_mark hi hclear
      omega
    · rw [hfind]
      rfl
  | succ k ih =>
    obtain ⟨i, hfind, hi, hclear, -⟩ := findAndSet_of_numClear (b := b) (by omega)
    have hone := numClear_mark hi hclear
    obtain ⟨found, b', hlen, hnodup, hnew, hrun, hlast⟩ := ih (b := b.mark i) (by omega)
    have hcall : call b .findAndSet = some (b.mark i, some (i : ℤ)) := by
      rw [call, assertedFindAndSet_eq, hfind]
      rfl
    -- the indices found later are clear in the bitmap where `i` is marked
    have hother : ∀ j ∈ found, j ≠ i ∧ b.test j = false := by
      intro j hj
      have htest := (hnew j hj).2
      rw [test_mark hi, Bool.or_eq_false_iff, decide_eq_false_iff_not] at htest
      exact htest
    have hnotin : i ∉ found := fun hm => (hother i hm).1 rfl
    refine ⟨i :: found, b', by rw [List.length_cons, hlen], List.nodup_cons.mpr ⟨hnotin, hnodup⟩,
      ?_, ?_, hlast⟩
    · intro j hj
      rcases List.mem_cons.mp hj with rfl | hj
      · exact ⟨hi, hclear⟩
      · exact ⟨(hnew j hj).1, (hother j hj).2⟩
    · simp only [List.replicate_succ, Calls.run, hcall, hrun, Option.bind_eq_bind, Option.bind_some,
        List.map_cons]

/-- **Bitmaps are finite sets.** A sequence of operations with arguments in range
has a result, on a bitmap of any size; what `FindAndSet` returns and the bits of
the bitmap are those of the set. As many further calls of `FindAndSet` as
`NumClear` says return indices that are clear, each once, and the next returns -1. -/
theorem bitmap_set (numItems : ℕ) (hpos : 0 < numItems) (ops : List Op) (S : Finset ℕ)
    (outs : List (Option ℤ)) (hops : Calls.run (onSet numItems) ∅ ops = some (S, outs)) :
    ∃ b b', Asserted.new numItems = some b ∧ Calls.run call b ops = some (b', outs) ∧
      IsSet numItems b' S ∧
      ∃ (found : List ℕ) (b'' : Bitmap), found.length = b'.numClear ∧ found.Nodup ∧
        (∀ i ∈ found, i < numItems ∧ i ∉ S) ∧
        Calls.run call b' (List.replicate b'.numClear .findAndSet) =
          some (b'', found.map fun i : ℕ => some (i : ℤ)) ∧
        call b'' .findAndSet = some (b'', some (-1)) := by
  have hcall : ∀ (b : Bitmap) (S : Finset ℕ) op S' out, b.numBits = numItems ∧ b.marked = S →
      onSet numItems S op = some (S', out) →
      ∃ b', call b op = some (b', out) ∧ b'.numBits = numItems ∧ b'.marked = S' := by
    rintro b S op S' out ⟨rfl, rfl⟩ hop
    exact call_spec hop
  obtain ⟨b', hrun, hbits, hmarked⟩ :=
    Calls.run_refines hcall ops ⟨numBits_new numItems, marked_new numItems⟩ hops
  obtain ⟨found, b'', hlen, hnodup, hnew, hfind, hlast⟩ := run_findAndSet b'.numClear rfl
  subst hbits hmarked
  refine ⟨_, b', assertedNew_eq hpos, hrun, isSet_marked b', found, b'', hlen, hnodup,
    fun i hi => ?_, hfind, hlast⟩
  obtain ⟨hlt, hclear⟩ := hnew i hi
  refine ⟨hlt, fun hm => ?_⟩
  rw [(mem_marked.mp hm).2] at hclear
  cases hclear

/-- Forty bits, the last of the first word among those that change. -/
theorem bitmap_set_forty : ∃ b b', Asserted.new 40 = some b ∧
    Calls.run call b [.mark 0, .mark 31, .mark 39, .findAndSet, .clear 31, .findAndSet] =
      some (b', [none, none, none, some 1, none, some 2]) ∧ IsSet 40 b' {0, 1, 2, 39} ∧
      ∃ (found : List ℕ) (b'' : Bitmap), found.length = b'.numClear ∧ found.Nodup ∧
        (∀ i ∈ found, i < 40 ∧ i ∉ ({0, 1, 2, 39} : Finset ℕ)) ∧
        Calls.run call b' (List.replicate b'.numClear .findAndSet) =
          some (b'', found.map fun i : ℕ => some (i : ℤ)) ∧
        call b'' .findAndSet = some (b'', some (-1)) :=
  bitmap_set 40 (by decide) _ _ _ (by decide +kernel)

end Bitmap
end Nachos
