/-
# Sorted lists (`lib/list.cc`)

`SortedList::Insert` goes along the list to the first element that `compare`
puts behind the new one and links it in there, or at the end. So elements
that compare equal stay in the order of their insertion: whatever relation
holds between an element and those `compare` does not put before it is kept
(`SortedList.pairwise_insert`).

Key definitions: `SortedList.insert`.
Key theorems: `SortedList.insert_append`, `SortedList.insert_perm`,
`SortedList.pairwise_insert`.
-/
import Mathlib

namespace SortedList

variable {α : Type*} {R : α → α → Prop} {compare : α → α → ℤ} {item : α} {l : List α}

/-- `SortedList<T>::Insert`. -/
def insert (compare : α → α → ℤ) (item : α) : List α → List α
  | [] => [item]
  | x :: l => if compare item x < 0 then item :: x :: l else x :: insert compare item l

/-- Where the new element goes. -/
theorem insert_append {pre post : List α} (hpre : ∀ x ∈ pre, ¬ compare item x < 0)
    (hpost : ∀ x, post.head? = some x → compare item x < 0) :
    insert compare item (pre ++ post) = pre ++ item :: post := by
  induction pre with
  | nil =>
    rcases post with _ | ⟨x, post⟩
    · rfl
    · exact if_pos (hpost x rfl)
  | cons x pre ih =>
    rw [List.cons_append, insert, if_neg (hpre x List.mem_cons_self),
      ih fun y hy => hpre y (List.mem_cons_of_mem _ hy)]
    rfl

/-- The list has the new element and those it had. -/
theorem insert_perm (compare : α → α → ℤ) (item : α) (l : List α) :
    (insert compare item l).Perm (item :: l) := by
  induction l with
  | nil => exact List.Perm.refl _
  | cons x l ih =>
    unfold insert
    split_ifs
    · exact List.Perm.refl _
    · exact (ih.cons x).trans (List.Perm.swap item x l)

theorem mem_insert {x : α} : x ∈ insert compare item l ↔ x = item ∨ x ∈ l := by
  rw [(insert_perm compare item l).mem_iff, List.mem_cons]

/-- An order in which the new element comes before the elements that `compare`
puts behind it, and behind the others, is kept. -/
theorem pairwise_insert (htrans : ∀ x y z, R x y → R y z → R x z)
    (hbefore : ∀ x ∈ l, compare item x < 0 → R item x)
    (hbehind : ∀ x ∈ l, ¬ compare item x < 0 → R x item) (hl : l.Pairwise R) :
    (insert compare item l).Pairwise R := by
  induction l with
  | nil => exact List.pairwise_singleton R item
  | cons x l ih =>
    obtain ⟨hx, hl⟩ := List.pairwise_cons.mp hl
    unfold insert
    split_ifs with hc
    · have hix := hbefore x List.mem_cons_self hc
      refine List.pairwise_cons.mpr ⟨fun y hy => ?_, List.pairwise_cons.mpr ⟨hx, hl⟩⟩
      rcases List.mem_cons.mp hy with rfl | hy
      · exact hix
      · exact htrans _ _ _ hix (hx y hy)
    · refine List.pairwise_cons.mpr ⟨fun y hy => ?_, ?_⟩
      · rcases mem_insert.mp hy with rfl | hy
        · exact hbehind x List.mem_cons_self hc
        · exact hx y hy
      · exact ih (fun y hy => hbefore y (List.mem_cons_of_mem _ hy))
          (fun y hy => hbehind y (List.mem_cons_of_mem _ hy)) hl

end SortedList
