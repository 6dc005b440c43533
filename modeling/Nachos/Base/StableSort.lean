/-
# Stable sorting by a comparison function

A comparison function gives a negative number, zero or a positive one as its
first argument is below, equal to or above its second in a total preorder
(`TotalPreorder`). A list `ys` is a stable sort of `xs` if it has the elements
of `xs`, is sorted, and has the elements that compare equal to any given one
in the order of `xs` (`StableSort`); then two elements that compare equal are
never exchanged (`StableSort.keeps`). An element put behind those that do not
compare above it and before those that do makes a stable sort one of the
longer list (`StableSort.insert`).

Key definitions: `Sorting.TotalPreorder`, `Sorting.Sorted`, `Sorting.StableSort`.
Key theorems: `Sorting.StableSort.insert`, `Sorting.StableSort.keeps`.
-/
import Mathlib

namespace Sorting

variable {α : Type*} {compare : α → α → ℤ} {x y z : α} {xs pre post : List α}

/-- The function compares the elements of a total preorder. -/
structure TotalPreorder (compare : α → α → ℤ) : Prop where
  swap : ∀ x y, compare x y < 0 ↔ 0 < compare y x
  trans : ∀ x y z, compare x y ≤ 0 → compare y z ≤ 0 → compare x z ≤ 0

/-- No element compares above a later one. -/
def Sorted (compare : α → α → ℤ) (xs : List α) : Prop := xs.Pairwise fun x y => compare x y ≤ 0

/-- The elements of `xs`, sorted; among those that compare equal to any `x`, in
the order of `xs`. -/
structure StableSort (compare : α → α → ℤ) (xs ys : List α) : Prop where
  perm : ys.Perm xs
  sorted : Sorted compare ys
  stable : ∀ x, ys.filter (compare x · = 0) = xs.filter (compare x · = 0)

namespace TotalPreorder

theorem refl (hc : TotalPreorder compare) (x : α) : compare x x = 0 := by
  have := hc.swap x x
  omega

/-- What is not below is equal or above. -/
theorem not_lt_iff (hc : TotalPreorder compare) : ¬ compare x y < 0 ↔ compare y x ≤ 0 := by
  rw [hc.swap, not_lt]

theorem lt_of_lt_of_le (hc : TotalPreorder compare) (hxy : compare x y < 0)
    (hyz : compare y z ≤ 0) : compare x z < 0 := by
  by_contra hxz
  have hyx := hc.trans y z x hyz (hc.not_lt_iff.mp hxz)
  exact absurd hxy (hc.not_lt_iff.mpr hyx)

/-- An element that compares equal to `x` is below what `x` is below. -/
theorem ne_zero_of_lt (hc : TotalPreorder compare) (hyx : compare y x = 0) (hxz : compare x z < 0) :
    compare y z ≠ 0 := by
  intro hyz
  have h1 := hc.swap y z
  have h2 := hc.trans z y x (by omega) (by omega)
  have h3 := hc.swap x z
  omega

/-- Elements compared by what a function gives. -/
theorem comap {β : Type*} (hc : TotalPreorder compare) (f : β → α) :
    TotalPreorder fun x y => compare (f x) (f y) :=
  ⟨fun x y => hc.swap (f x) (f y), fun x y z => hc.trans (f x) (f y) (f z)⟩

end TotalPreorder

theorem StableSort.nil (compare : α → α → ℤ) : StableSort compare [] [] :=
  ⟨List.Perm.refl _, List.Pairwise.nil, fun _ => rfl⟩

/-- The new element goes behind the last one it does not compare below. -/
theorem Sorted.insert (hc : TotalPreorder compare) (h : Sorted compare (pre ++ post))
    (hpre : ∀ y ∈ pre, ¬ compare x y < 0) (hpost : ∀ y ∈ post, compare x y < 0) :
    Sorted compare (pre ++ x :: post) := by
  obtain ⟨h1, h2, h3⟩ := List.pairwise_append.mp h
  apply List.pairwise_append.mpr
  refine ⟨h1, List.pairwise_cons.mpr ⟨fun y hy => (hpost y hy).le, h2⟩, fun y hy z hz => ?_⟩
  rcases List.mem_cons.mp hz with rfl | hz
  · exact hc.not_lt_iff.mp (hpre y hy)
  · exact h3 y hy z hz

/-- In a sorted list all are above `x` from the first that is. -/
theorem Sorted.lt_of_head (hc : TotalPreorder compare) (h : Sorted compare post)
    (hhead : ∀ y, post.head? = some y → compare x y < 0) :
    ∀ y ∈ post, compare x y < 0 := by
  rcases post with _ | ⟨z, post⟩
  · simp
  · intro y hy
    have hz := hhead z rfl
    rcases List.mem_cons.mp hy with rfl | hy
    · exact hz
    · exact hc.lt_of_lt_of_le hz ((List.pairwise_cons.mp h).1 y hy)

/-- One more element, behind those that compare equal to it. -/
theorem StableSort.insert (hc : TotalPreorder compare) (h : StableSort compare xs (pre ++ post))
    (hpre : ∀ y ∈ pre, ¬ compare x y < 0)
    (hpost : ∀ y ∈ post, compare x y < 0) : StableSort compare (xs ++ [x]) (pre ++ x :: post) := by
  refine ⟨?_, h.sorted.insert hc hpre hpost, fun y => ?_⟩
  · calc (pre ++ x :: post).Perm (x :: (pre ++ post)) := List.perm_middle
      _ |>.Perm (x :: xs) := h.perm.cons x
      _ |>.Perm (xs ++ [x]) := (List.perm_append_singleton x xs).symm
  · have hold := h.stable y
    rw [List.filter_append] at hold
    rw [List.filter_append, List.filter_append, List.filter_cons, ← hold]
    by_cases hy : compare y x = 0
    · -- nothing behind `x` compares equal to `y`
      have hnone : post.filter (compare y · = 0) = [] := by
        rw [List.filter_eq_nil_iff]
        intro z hz
        simpa using hc.ne_zero_of_lt hy (hpost z hz)
      simp [hy, hnone]
    · simp [hy]

/-- Elements that compare equal keep their order. -/
theorem StableSort.keeps {ys : List α} (hc : TotalPreorder compare) (h : StableSort compare xs ys)
    (hxy : compare x y = 0) (hsub : [x, y].Sublist xs) : [x, y].Sublist ys := by
  have hclass : [x, y].filter (compare x · = 0) = [x, y] := by simp [hc.refl x, hxy]
  calc [x, y] = [x, y].filter (compare x · = 0) := hclass.symm
    _ |>.Sublist (xs.filter (compare x · = 0)) := hsub.filter _
    _ |>.Sublist ys := h.stable x ▸ List.filter_sublist

end Sorting
