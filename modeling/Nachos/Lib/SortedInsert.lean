/-
# Sorted insertion (`lib/list.cc`)

`SortedList::Insert` on the cells of a list. It has four exits: into an empty
list, before the first element, in front of the first element that `compare`
puts behind the new one, found with one cell of look-ahead, where it returns
early, and behind the last. On all of them the list is the one that
`SortedList.insert` gives (`sortedInsert_spec`), so a sorted list stays sorted
and the new item is behind all that compare equal to it; items that are
inserted in turn and then removed from the front come out as a stable sort of
them (`sorted_list_stable`).

Key definitions: `LinkedList.sortedInsert`, `LinkedList.sortedSanityCheck`,
`LinkedList.insertAll`, `LinkedList.removeAll`.
Key theorems: `LinkedList.sortedInsert_spec`, `LinkedList.sortedSanityCheck_spec`,
`LinkedList.sorted_list_stable`.
-/
import Mathlib
import Nachos.Base.Chains
import Nachos.Base.StableSort
import Nachos.Lib.SortedList
import Nachos.Lib.LinkedList

namespace Nachos

open Chains (Allocator Chain Frame Mem Seg seg_append)
open Sorting (Sorted StableSort TotalPreorder)

namespace LinkedList

variable {α : Type} (compare : α → α → ℤ)

/-- The loop of `SortedList::Insert` from `ptr` on: `some none` if it comes to
the end, what `Insert` returns if it returns in the loop. -/
def sortedInsertFrom (m : Mem α) (l : LinkedList) (item : α) (element : ℕ) :
    ℕ → ℕ → Option (Option (Mem α × LinkedList))
  | 0, _ => none
  | n + 1, ptr => do
    let c ← m.read ptr
    match c.next with
    | none => some none
    | some next => do
      let d ← m.read next
      if compare item d.item < 0 then do
        let m ← m.setNext element (some next)
        let m ← m.setNext ptr (some element)
        some (some (m, { l with numInList := l.numInList + 1 }))
      else sortedInsertFrom m l item element n next

/-- The end of `SortedList::Insert`, on the exits that do not return early. -/
def inserted [DecidableEq α] (m : Mem α) (l : LinkedList) (item : α) :
    Option (Mem α × LinkedList) := do
  let l := { l with numInList := l.numInList + 1 }
  guard (l.isInList m item = some true)
  some (m, l)

/-- `SortedList::Insert`. -/
def sortedInsert [DecidableEq α] (A : Allocator α) (m : Mem α) (l : LinkedList) (item : α) :
    Option (Mem α × LinkedList) := do
  let (m, element) := m.new A item
  guard (l.isInList m item = some false)
  if l.isEmpty then
    inserted m { l with first := some element, last := some element } item
  else do
    let first ← l.first
    let c ← m.read first
    if compare item c.item < 0 then do
      let m ← m.setNext element l.first
      inserted m { l with first := some element } item
    else
      match ← sortedInsertFrom compare m l item element m.size first with
      | some r => some r
      | none => do
        let last ← l.last
        let m ← m.setNext last (some element)
        inserted m { l with last := some element } item

/-- The loop of `SortedList::SanityCheck`. -/
def sortedFrom (m : Mem α) : ℕ → ℕ → Option ℕ → Option Unit
  | _, _, none => some ()
  | 0, _, some _ => none
  | n + 1, prev, some ptr => do
    let c ← m.read prev
    let d ← m.read ptr
    guard (compare c.item d.item ≤ 0)
    sortedFrom m n ptr d.next

/-- `SortedList::SanityCheck`. -/
def sortedSanityCheck (m : Mem α) (l : LinkedList) : Option Unit := do
  l.sanityCheck m
  if l.first = l.last then some ()
  else do
    let first ← l.first
    let c ← m.read first
    sortedFrom compare m m.size first c.next

/-- `RemoveFront` until the list is empty, as `SortedList::SelfTest` has it:
what is removed. -/
def removeAll (m : Mem α) (l : LinkedList) : ℕ → Option (Mem α × LinkedList × List α)
  | 0 => if l.isEmpty then some (m, l, []) else none
  | n + 1 =>
    if l.isEmpty then some (m, l, [])
    else do
      let (m, l, thing) ← l.removeFront m
      let (m, l, things) ← removeAll m l n
      some (m, l, thing :: things)

variable {compare} {A : Allocator α} {m m' : Mem α} {l l' : LinkedList} {cs ds pre : List (ℕ × α)}
  {c : ℕ × α} {x : α} {a : ℕ}

/-! ### Insertion -/

/-- The loop from the cell `c` on: no item behind it is above the new one, or
the new cell is linked in before the first that is. -/
theorem sortedInsertFrom_spec (compare : α → α → ℤ) (pre : List (ℕ × α)) (n : ℕ)
    (h : Chain m l.first (pre ++ [c] ++ cs)) (hcs : Chain m (some c.1) (c :: cs))
    (hnew : m.read a = some ⟨x, none⟩) (ha : a ∉ (pre ++ [c] ++ cs).map Prod.fst)
    (hlen : cs.length < n) :
    ((∀ d ∈ cs, ¬ compare x d.2 < 0) ∧ sortedInsertFrom compare m l x a n c.1 = some none) ∨
    ∃ ds e es m', cs = ds ++ e :: es ∧ (∀ d ∈ ds, ¬ compare x d.2 < 0) ∧ compare x e.2 < 0 ∧
      sortedInsertFrom compare m l x a n c.1 =
        some (some (m', { l with numInList := l.numInList + 1 })) ∧
      Chain m' l.first (pre ++ [c] ++ ds ++ (a, x) :: e :: es) ∧
      ∀ b, b ≠ a → b ∉ (pre ++ [c] ++ cs).map Prod.fst → m'.read b = m.read b := by
  obtain ⟨n, rfl⟩ : ∃ k, n = k + 1 := ⟨n - 1, by omega⟩
  induction cs generalizing pre c n with
  | nil =>
    obtain ⟨-, next, hread, rfl⟩ := hcs
    refine Or.inl ⟨by simp, ?_⟩
    rw [sortedInsertFrom, hread]
    rfl
  | cons d cs ih =>
    obtain ⟨-, next, hread, hrest⟩ := hcs
    obtain ⟨rfl, next', hread', -⟩ := id hrest
    by_cases hlt : compare x d.2 < 0
    · obtain ⟨m1, m2, hset1, hset2, hlink, hsame⟩ := h.link hrest hnew ha
      refine Or.inr ⟨[], d, cs, m2, rfl, by simp, hlt, ?_, by simpa using hlink, fun b hb hout =>
        hsame b hb ?_⟩
      · simp [sortedInsertFrom, hread, hread', hlt, hset1, hset2]
      · rintro rfl
        exact hout (by simp)
    · rw [List.length_cons] at hlen
      obtain ⟨n, rfl⟩ : ∃ k, n = k + 1 := ⟨n - 1, by omega⟩
      have hassoc : pre ++ [c] ++ d :: cs = pre ++ [c] ++ [d] ++ cs := by simp
      rw [hassoc] at h ha ⊢
      have hloop : sortedInsertFrom compare m l x a (n + 1 + 1) c.1 = sortedInsertFrom compare m l x
          a (n + 1) d.1 := by
        rw [sortedInsertFrom, hread]
        simp only [Option.bind_eq_bind, Option.bind_some, hread', if_neg hlt]
      rw [hloop]
      rcases ih _ h hrest ha n (by omega) with
        ⟨hall, hend⟩ | ⟨ds, e, es, m', rfl, hds, he, hret, hlink, hsame⟩
      · exact Or.inl ⟨List.forall_mem_cons.mpr ⟨hlt, hall⟩, hend⟩
      · exact Or.inr ⟨d :: ds, e, es, m', rfl, List.forall_mem_cons.mpr ⟨hlt, hds⟩, he,
          hret, by simpa using hlink, hsame⟩

section Equality

variable [DecidableEq α]

/-- The end of `Insert` after the cell is linked in. -/
theorem inserted_spec (h : Represents m { l with numInList := l.numInList + 1 } cs)
    (hx : x ∈ cs.map Prod.snd) :
    inserted m l x = some (m, { l with numInList := l.numInList + 1 }) := by
  have hthere := isInList_of_mem h.chain hx
  simp [inserted, hthere]

/-- `Insert` leaves the list with the cells `cs`. -/
def Inserts (compare : α → α → ℤ) (A : Allocator α) (m : Mem α) (l : LinkedList) (item : α)
    (cs : List (ℕ × α)) : Prop :=
  ∃ m' l', l.sortedInsert compare A m item = some (m', l') ∧ Represents m' l' cs ∧
    l'.numInList = l.numInList + 1

/-- Into an empty list. -/
theorem sortedInsert_empty (A : Allocator α) (h : Represents m l []) :
    Inserts compare A m l x [((m.new A x).2, x)] := by
  obtain ⟨hchain, -⟩ := Chain.new A x h.chain
  have habsent := isInList_of_notMem (x := x) hchain (by simp)
  have hempty : l.isEmpty = true := h.isEmpty_iff.mpr rfl
  have hlist : Represents (m.new A x).1 ⟨some (m.new A x).2, some (m.new A x).2, l.numInList + 1⟩
      [((m.new A x).2, x)] :=
    Represents.insert [] h (by simp) rfl (Chain.single A m x) rfl
  have hend := inserted_spec (x := x) (l := ⟨some (m.new A x).2, some (m.new A x).2, l.numInList⟩)
    hlist (by simp)
  exact ⟨_, _, by simp [sortedInsert, habsent, hempty, hend], hlist, rfl⟩

/-- Before the first element. -/
theorem sortedInsert_front (A : Allocator α) (h : Represents m l (c :: cs))
    (hx : x ∉ (c :: cs).map Prod.snd) (hlt : compare x c.2 < 0) :
    Inserts compare A m l x (((m.new A x).2, x) :: c :: cs) := by
  obtain ⟨hchain, hnew⟩ := Chain.new A x h.chain
  have habsent := isInList_of_notMem hchain hx
  have hempty := h.isEmpty_of_ne_nil (by simp)
  obtain ⟨hfirst, next, hread, -⟩ := id hchain
  obtain ⟨m', hset, hlink, -⟩ := hchain.linkFirst Mem.read_new_self hnew
  have hlist : Represents m' { l with first := some (m.new A x).2, numInList := l.numInList + 1 }
      (((m.new A x).2, x) :: c :: cs) := by
    refine Represents.insert [] h hx rfl hlink ?_
    rw [List.nil_append, List.getLast?_cons_of_ne_nil (by simp)]
    exact h.last
  have hend := inserted_spec (x := x) (l := { l with first := some (m.new A x).2 }) hlist (by simp)
  refine ⟨_, _, ?_, hlist, rfl⟩
  rw [hfirst] at hset
  simp [sortedInsert, habsent, hempty, hfirst, hread, hlt, hset, hend]

/-- Behind the last element, and in front of the first that `compare` puts
behind the new item. -/
theorem sortedInsert_behind (A : Allocator α) (h : Represents m l (c :: cs))
    (hx : x ∉ (c :: cs).map Prod.snd) (hlt : ¬ compare x c.2 < 0) :
    ∃ ds es, cs = ds ++ es ∧ Inserts compare A m l x (c :: ds ++ ((m.new A x).2, x) :: es) ∧
      (∀ d ∈ ds, ¬ compare x d.2 < 0) ∧ ∀ e, es.head? = some e → compare x e.2 < 0 := by
  obtain ⟨hchain, hnew⟩ := Chain.new A x h.chain
  have habsent := isInList_of_notMem hchain hx
  have hempty := h.isEmpty_of_ne_nil (by simp)
  have hnewread := Mem.read_new_self (A := A) (m := m) (x := x)
  obtain ⟨hfirst, next, hread, -⟩ := id hchain
  have hlen : cs.length < (m.new A x).1.size := by
    have := hchain.length_le
    rw [List.length_cons] at this
    omega
  have hhere : Chain (m.new A x).1 (some c.1) (c :: cs) := hfirst ▸ hchain
  rcases sortedInsertFrom_spec compare [] _ hchain hhere hnewread hnew hlen with
    ⟨hall, hloop⟩ | ⟨ds, e, es, m', rfl, hds, he, hloop, hlink, -⟩
  · refine ⟨cs, [], by simp, ?_, hall, by simp⟩
    -- the loop came to the end: the last element is linked to the new one
    obtain ⟨ds, d, hds⟩ : ∃ ds d, c :: cs = ds ++ [d] := by
      obtain ⟨ds, d, hds⟩ := (List.eq_nil_or_concat (c :: cs)).resolve_left (by simp)
      exact ⟨ds, d, hds.trans List.concat_eq_append⟩
    have hlast : l.last = some d.1 := Represents.last_concat (hds ▸ h)
    obtain ⟨m', hset, hlink, -⟩ := Chain.linkLast (hds ▸ hchain) hnewread (hds ▸ hnew)
    have hlist : Represents m' { l with last := some (m.new A x).2, numInList := l.numInList + 1 }
        (c :: cs ++ [((m.new A x).2, x)]) := by
      rw [← List.append_nil (c :: cs)] at h hx
      refine Represents.insert (c :: cs) h hx rfl (hds ▸ hlink) ?_
      rw [List.getLast?_concat]
      rfl
    have hend := inserted_spec (x := x) (l := { l with last := some (m.new A x).2 }) hlist (by simp)
    refine ⟨_, _, ?_, hlist, rfl⟩
    rw [hfirst] at hend
    simp [sortedInsert, habsent, hempty, hfirst, hread, hlt, hloop, hlast, hset, hend]
  · refine ⟨ds, e :: es, rfl, ?_, hds, by simpa using he⟩
    have hlist : Represents m' { l with numInList := l.numInList + 1 }
        (c :: ds ++ ((m.new A x).2, x) :: e :: es) := by
      refine Represents.insert (c :: ds) h hx rfl hlink ?_
      rw [List.getLast?_append_of_ne_nil _ (by simp), List.getLast?_cons_of_ne_nil (by simp)]
      show l.last = _
      rw [h.last, ← List.cons_append, List.getLast?_append_of_ne_nil _ (by simp)]
    refine ⟨_, _, ?_, hlist, rfl⟩
    simp [sortedInsert, habsent, hempty, hfirst, hread, hlt, hloop]

/-- **`SortedList::Insert`** links the new cell in behind those that `compare`
does not put behind it up to the first that it does. -/
theorem sortedInsert_spec (compare : α → α → ℤ) (A : Allocator α) (h : Represents m l cs)
    (hx : x ∉ cs.map Prod.snd) :
    ∃ a ds es, cs = ds ++ es ∧ Inserts compare A m l x (ds ++ (a, x) :: es) ∧
      (∀ d ∈ ds, ¬ compare x d.2 < 0) ∧ ∀ e, es.head? = some e → compare x e.2 < 0 := by
  rcases cs with _ | ⟨c, cs⟩
  · exact ⟨_, [], [], rfl, sortedInsert_empty A h, by simp, by simp⟩
  · by_cases hlt : compare x c.2 < 0
    · exact ⟨_, [], c :: cs, rfl, sortedInsert_front A h hx hlt, by simp, by simpa using hlt⟩
    · obtain ⟨ds, es, rfl, hins, hds, hes⟩ := sortedInsert_behind A h hx hlt
      exact ⟨_, c :: ds, es, rfl, hins, List.forall_mem_cons.mpr ⟨hlt, hds⟩, hes⟩

/-- The items are those that inserting into the sequence gives. -/
theorem sortedInsert_items (compare : α → α → ℤ) (A : Allocator α) (h : Represents m l cs)
    (hx : x ∉ cs.map Prod.snd) :
    ∃ m' l' cs', l.sortedInsert compare A m x = some (m', l') ∧ Represents m' l' cs' ∧
      cs'.map Prod.snd = SortedList.insert compare x (cs.map Prod.snd) := by
  obtain ⟨a, ds, es, rfl, ⟨m', l', hins, hlist, -⟩, hds, hes⟩ := sortedInsert_spec compare A h hx
  refine ⟨m', l', _, hins, hlist, ?_⟩
  rw [List.map_append, List.map_append, SortedList.insert_append, List.map_cons]
  · intro y hy
    obtain ⟨d, hd, rfl⟩ := List.mem_map.mp hy
    exact hds d hd
  · intro y hy
    rw [List.head?_map, Option.map_eq_some_iff] at hy
    obtain ⟨e, he, rfl⟩ := hy
    exact hes e he

end Equality

/-! ### `SanityCheck` -/

theorem sortedFrom_spec {p : Option ℕ} (n : ℕ) (hread : ∃ next, m.read c.1 = some ⟨c.2, next⟩)
    (h : Chain m p cs) (hs : Sorted compare ((c :: cs).map Prod.snd)) (hlen : cs.length ≤ n) :
    sortedFrom compare m n c.1 p = some () := by
  induction cs generalizing c p n with
  | nil =>
    obtain rfl : p = none := h
    unfold sortedFrom
    rfl
  | cons d cs ih =>
    obtain ⟨rfl, next, hd, hrest⟩ := h
    obtain ⟨next', hc⟩ := hread
    rw [List.length_cons] at hlen
    obtain ⟨n, rfl⟩ : ∃ k, n = k + 1 := ⟨n - 1, by omega⟩
    obtain ⟨hle, hs⟩ := List.pairwise_cons.mp hs
    have hcd : compare c.2 d.2 ≤ 0 := hle d.2 (by simp)
    rw [sortedFrom]
    simp only [hc, hd, hcd, guard_true, Option.bind_eq_bind, Option.bind_some, Option.pure_def]
    exact ih n ⟨next, hd⟩ hrest hs (by omega)

/-- **`SortedList::SanityCheck`** passes on a sorted list. -/
theorem sortedSanityCheck_spec (h : Represents m l cs) (hs : Sorted compare (cs.map Prod.snd)) :
    l.sortedSanityCheck compare m = some () := by
  rw [sortedSanityCheck, sanityCheck_spec h]
  rcases cs with _ | ⟨c, cs⟩
  · have hfirst : l.first = none := h.chain
    have hlast : l.last = none := h.last
    simp [hfirst, hlast]
  · obtain ⟨hfirst, next, hread, hrest⟩ := id h.chain
    have hlen := h.chain.length_le
    rw [List.length_cons] at hlen
    have hloop := sortedFrom_spec m.size ⟨next, hread⟩ hrest hs (by omega)
    simp [hfirst, hread, hloop]

/-! ### Sorting -/

theorem removeAll_spec (n : ℕ) (h : Represents m l cs) (hlen : cs.length ≤ n) :
    ∃ m' l', l.removeAll m n = some (m', l', cs.map Prod.snd) ∧
    Represents m' l' ([] : List (ℕ × α)) := by
  induction cs generalizing m l n with
  | nil =>
    have hempty : l.isEmpty = true := h.isEmpty_iff.mpr rfl
    refine ⟨m, l, ?_, h⟩
    unfold removeAll
    split <;> simp [hempty]
  | cons c cs ih =>
    rw [List.length_cons] at hlen
    obtain ⟨n, rfl⟩ : ∃ k, n = k + 1 := ⟨n - 1, by omega⟩
    have hempty := h.isEmpty_of_ne_nil (by simp)
    obtain ⟨m1, l1, hremove, hlist, -⟩ := removeFront_spec h
    obtain ⟨m2, l2, hrest, hlist2⟩ := ih n hlist (by omega)
    refine ⟨m2, l2, ?_, hlist2⟩
    simp [removeAll, hempty, hremove, hrest]

section Equality

variable [DecidableEq α]

/-- `Insert` of the items in turn, into a new list. -/
def insertAll (compare : α → α → ℤ) (A : Allocator α) (m : Mem α) (items : List α) :
    Option (Mem α × LinkedList) :=
  items.foldlM (fun s item => s.2.sortedInsert compare A s.1 item) (m, new)

/-- The items before and behind the one that is inserted. -/
theorem inserts_sorted (hc : TotalPreorder compare) (A : Allocator α) (h : Represents m l cs)
    (hs : Sorted compare (cs.map Prod.snd)) (hx : x ∉ cs.map Prod.snd) :
    ∃ cs' pre post, Inserts compare A m l x cs' ∧ cs.map Prod.snd = pre ++ post ∧
    cs'.map Prod.snd = pre ++ x :: post ∧
      (∀ y ∈ pre, ¬ compare x y < 0) ∧ ∀ y ∈ post, compare x y < 0 := by
  obtain ⟨a, ds, es, rfl, hins, hds, hes⟩ := sortedInsert_spec compare A h hx
  rw [List.map_append] at hs
  refine ⟨_, ds.map Prod.snd, es.map Prod.snd, hins, List.map_append, by simp, ?_, ?_⟩
  · intro y hy
    obtain ⟨d, hd, rfl⟩ := List.mem_map.mp hy
    exact hds d hd
  · apply Sorted.lt_of_head hc (List.pairwise_append.mp hs).2.1
    intro y hy
    rw [List.head?_map, Option.map_eq_some_iff] at hy
    obtain ⟨e, he, rfl⟩ := hy
    exact hes e he

/-- Items inserted behind others that are already sorted. -/
theorem insertAll_spec (hc : TotalPreorder compare) (A : Allocator α) (done xs : List α)
    (hxs : (done ++ xs).Nodup) (h : Represents m l cs)
    (hs : StableSort compare done (cs.map Prod.snd)) :
    ∃ m' l' cs', xs.foldlM (fun s item => s.2.sortedInsert compare A s.1 item)
    (m, l) = some (m', l') ∧
      Represents m' l' cs' ∧ StableSort compare (done ++ xs) (cs'.map Prod.snd) := by
  induction xs generalizing m l cs done with
  | nil => exact ⟨m, l, cs, rfl, h, by simpa using hs⟩
  | cons x xs ih =>
    have hx : x ∉ cs.map Prod.snd := by
      rw [hs.perm.mem_iff]
      exact fun hmem => (List.nodup_append.mp hxs).2.2 x hmem x List.mem_cons_self rfl
    obtain ⟨cs', pre, post, ⟨m', l', hins, hlist, -⟩, hold, hnew, hpre, hpost⟩ :=
      inserts_sorted hc A h hs.sorted hx
    have hs' : StableSort compare (done ++ [x]) (cs'.map Prod.snd) := by
      rw [hold] at hs
      rw [hnew]
      exact hs.insert hc hpre hpost
    have happ : done ++ x :: xs = done ++ [x] ++ xs := by simp
    rw [happ] at hxs ⊢
    obtain ⟨m2, l2, cs2, hrest, hlist2, hs2⟩ := ih (done ++ [x]) hxs hlist hs'
    refine ⟨m2, l2, cs2, ?_, hlist2, hs2⟩
    rw [List.foldlM_cons, hins]
    exact hrest

/-- **Sorted insertion is stable.** `Insert` of an item that is not in a
sorted list puts it behind all that compare equal to it and leaves the others
in their order; `first`, `last` and `numInList` are those of the longer list.
So items inserted in turn, and removed from the front until the list is empty,
come out as a stable sort. -/
theorem sorted_list_stable (hc : TotalPreorder compare) (A : Allocator α) (m : Mem α) :
    (∀ l cs x, Represents m l cs → Sorted compare (cs.map Prod.snd) → x ∉ cs.map Prod.snd →
      ∃ m' l' cs' pre post, l.sortedInsert compare A m x = some (m', l') ∧ Represents m' l' cs' ∧
        l'.numInList = l.numInList + 1 ∧ Sorted compare (cs'.map Prod.snd) ∧
        (cs'.map Prod.snd).Perm (x :: cs.map Prod.snd) ∧
        cs.map Prod.snd = pre ++ post ∧ cs'.map Prod.snd = pre ++ x :: post ∧
        (∀ y ∈ cs.map Prod.snd, compare x y = 0 → y ∈ pre ∧ y ∉ post) ∧
        l'.sortedSanityCheck compare m' = some ()) ∧
    ∀ xs : List α, xs.Nodup →
      ∃ m' l' m'' l'' ys, insertAll compare A m xs = some (m', l') ∧
        l'.sortedSanityCheck compare m' = some () ∧
        l'.removeAll m' xs.length = some (m'', l'', ys) ∧ l'' = new ∧
        StableSort compare xs ys ∧
        ∀ x y, compare x y = 0 → [x, y].Sublist xs → [x, y].Sublist ys := by
  constructor
  · intro l cs x h hs hx
    obtain ⟨cs', pre, post, ⟨m', l', hins, hlist, hnum⟩, hold, hnew, hpre, hpost⟩ :=
      inserts_sorted hc A h hs hx
    have hsorted : Sorted compare (cs'.map Prod.snd) := by
      rw [hold] at hs
      rw [hnew]
      exact hs.insert hc hpre hpost
    refine ⟨m', l', cs', pre, post, hins, hlist, hnum, hsorted, ?_, hold, hnew, ?_,
      sortedSanityCheck_spec hlist hsorted⟩
    · rw [hold, hnew]
      exact List.perm_middle
    · intro y hy heq
      have hnot : y ∉ post := fun hmem => absurd (hpost y hmem) (by omega)
      rw [hold, List.mem_append] at hy
      exact ⟨hy.resolve_right hnot, hnot⟩
  · intro xs hxs
    obtain ⟨m', l', cs', hall, hlist, hs⟩ :=
      insertAll_spec hc A [] xs hxs (represents_new m) (StableSort.nil compare)
    rw [List.nil_append] at hs
    have hlen : cs'.length ≤ xs.length := by
      rw [← hs.perm.length_eq, List.length_map]
    obtain ⟨m'', l'', hremove, hempty⟩ := removeAll_spec xs.length hlist hlen
    refine ⟨m', l', m'', l'', _, hall, sortedSanityCheck_spec hlist hs.sorted, hremove, ?_, hs,
      fun x y => hs.keeps hc⟩
    obtain ⟨first, last, num⟩ := l''
    obtain rfl : first = none := hempty.chain
    obtain rfl : last = none := hempty.last
    obtain rfl : num = 0 := hempty.num
    rfl

end Equality

/-- `IntCompare` of `libtest.cc`. -/
def intCompare (x y : ℤ) : ℤ := if x < y then -1 else if x = y then 0 else 1

theorem intCompare_preorder : TotalPreorder intCompare := by
  constructor
  · intro x y
    unfold intCompare
    split_ifs <;> omega
  · intro x y z
    unfold intCompare
    split_ifs <;> omega

/-- Numbers sorted by their tens: 23 stays before 21, and 9 before 5. -/
theorem sorted_list_stable_tens :
    ∃ m' l' m'' l'' ys,
      insertAll (fun x y => intCompare (x / 10) (y / 10)) Allocator.above Mem.empty [23, 9, 21, 5] =
        some (m', l') ∧
      l'.sortedSanityCheck (fun x y => intCompare (x / 10) (y / 10)) m' = some () ∧
      l'.removeAll m' [23, 9, 21, 5].length = some (m'', l'', ys) ∧ l'' = new ∧
      StableSort (fun x y => intCompare (x / 10) (y / 10)) [23, 9, 21, 5] ys ∧
      ∀ x y, intCompare (x / 10) (y / 10) = 0 → [x, y].Sublist [23, 9, 21, 5] → [x, y].Sublist ys :=
  (sorted_list_stable (intCompare_preorder.comap (· / 10)) Allocator.above Mem.empty).2
    [23, 9, 21, 5] (by decide)

end LinkedList
end Nachos
