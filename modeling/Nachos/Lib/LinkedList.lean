/-
# Linked lists (`lib/list.cc`)

A `List` is the addresses of its first and last `ListElement` and a count;
the elements are cells of a heap, which other lists may share. The
operations are the source's, on the cells, with their `ASSERT`s: an operation
has no result if an `ASSERT` fails, if it follows a NULL pointer or one to a
cell that is not allocated, or if its loop goes round for ever.

A list stands for a sequence of items (`LinkedList.Represents`): the cells
from `first` on form a chain to NULL, `last` is the last of them, the count is
their number. Each operation with its precondition has a result, is the
operation of its name on the sequence, and touches no cell of another list
(`append_spec`, `prepend_spec`, `removeFront_spec`, `remove_spec`); so every
run of operations is one on sequences (`LinkedList.list_representation`).

The count is an `int`; an element takes eight bytes of a 32-bit address space,
so there are never more than an `int` counts.

Key definitions: `LinkedList`, `LinkedList.append`, `LinkedList.prepend`,
`LinkedList.removeFront`, `LinkedList.remove`, `LinkedList.sanityCheck`,
`LinkedList.Represents`.
Key theorems: `LinkedList.append_spec`, `LinkedList.removeFront_spec`,
`LinkedList.remove_spec`, `LinkedList.sanityCheck_spec`,
`LinkedList.list_representation`.
-/
import Mathlib
import Nachos.Base.Calls
import Nachos.Base.Chains

namespace Nachos

open Chains (Allocator Cell Chain Frame Mem Seg seg_append seg_cons seg_nil)

/-- `class List`. -/
structure LinkedList where
  first : Option ℕ
  last : Option ℕ
  numInList : ℤ
  deriving DecidableEq

namespace LinkedList

variable {α : Type}

/-- `List::List`. -/
def new : LinkedList := ⟨none, none, 0⟩

/-- `List::IsEmpty`. -/
def isEmpty (l : LinkedList) : Bool := l.numInList = 0

/-- The loop of `IsInList` from `ptr` on. -/
def isInListFrom [DecidableEq α] (m : Mem α) (item : α) : ℕ → Option ℕ → Option Bool
  | _, none => some false
  | 0, some _ => none
  | n + 1, some ptr => do
    let c ← m.read ptr
    if item = c.item then some true else isInListFrom m item n c.next

/-- `List::IsInList`. -/
def isInList [DecidableEq α] (m : Mem α) (l : LinkedList) (item : α) : Option Bool :=
  isInListFrom m item m.size l.first

/-- `List::Append`. -/
def append [DecidableEq α] (A : Allocator α) (m : Mem α) (l : LinkedList) (item : α) :
    Option (Mem α × LinkedList) := do
  let (m, element) := m.new A item
  guard (l.isInList m item = some false)
  let (m, l) ←
    if l.isEmpty then
      some (m, { l with first := some element, last := some element })
    else do
      let last ← l.last
      let m ← m.setNext last (some element)
      some (m, { l with last := some element })
  let l := { l with numInList := l.numInList + 1 }
  guard (l.isInList m item = some true)
  some (m, l)

/-- `List::Prepend`. -/
def prepend [DecidableEq α] (A : Allocator α) (m : Mem α) (l : LinkedList) (item : α) :
    Option (Mem α × LinkedList) := do
  let (m, element) := m.new A item
  guard (l.isInList m item = some false)
  let (m, l) ←
    if l.isEmpty then
      some (m, { l with first := some element, last := some element })
    else do
      let m ← m.setNext element l.first
      some (m, { l with first := some element })
  let l := { l with numInList := l.numInList + 1 }
  guard (l.isInList m item = some true)
  some (m, l)

/-- `List::RemoveFront`. -/
def removeFront (m : Mem α) (l : LinkedList) : Option (Mem α × LinkedList × α) := do
  guard (l.isEmpty = false)
  let element ← l.first
  let c ← m.read element
  let l :=
    if l.first = l.last then { l with first := none, last := none }
    else { l with first := c.next }
  let m ← m.delete element
  some (m, { l with numInList := l.numInList - 1 }, c.item)

/-- The loop of `Remove` with `prev` and `ptr`; the `ASSERT` behind it fails
if it comes to the end. -/
def removeFrom [DecidableEq α] (m : Mem α) (l : LinkedList) (item : α) :
    ℕ → ℕ → Option ℕ → Option (Mem α × LinkedList)
  | _, _, none => none
  | 0, _, some _ => none
  | n + 1, prev, some ptr => do
    let c ← m.read ptr
    if item = c.item then do
      let m ← m.setNext prev c.next
      let l := if c.next = none then { l with last := some prev } else l
      let m ← m.delete ptr
      some (m, { l with numInList := l.numInList - 1 })
    else removeFrom m l item n ptr c.next

/-- `List::Remove`. -/
def remove [DecidableEq α] (m : Mem α) (l : LinkedList) (item : α) :
    Option (Mem α × LinkedList) := do
  guard (l.isInList m item = some true)
  let first ← l.first
  let c ← m.read first
  let (m, l) ←
    if item = c.item then do
      let (m, l, removed) ← l.removeFront m
      guard (item = removed)
      some (m, l)
    else removeFrom m l item m.size first c.next
  guard (l.isInList m item = some false)
  some (m, l)

/-- The loop of `SanityCheck`: the `numFound` it ends with. -/
def sanityFrom (m : Mem α) (l : LinkedList) (numFound : ℤ) (ptr : Option ℕ) : ℕ → Option ℤ
  | 0 => if ptr = l.last then some numFound else none
  | n + 1 =>
    if ptr = l.last then some numFound
    else do
      guard (numFound + 1 ≤ l.numInList)
      let p ← ptr
      let c ← m.read p
      sanityFrom m l (numFound + 1) c.next n

/-- `List::SanityCheck`. -/
def sanityCheck (m : Mem α) (l : LinkedList) : Option Unit :=
  match l.first with
  | none => guard (l.numInList = 0 ∧ l.last = none)
  | some first =>
    if l.first = l.last then do
      let c ← m.read first
      guard (l.numInList = 1 ∧ c.next = none)
    else do
      let numFound ← sanityFrom m l 1 l.first m.size
      guard (numFound = l.numInList)
      let last ← l.last
      let c ← m.read last
      guard (c.next = none)

/-- The list has the cells `cs`, each with its item, and no item twice. -/
structure Represents (m : Mem α) (l : LinkedList) (cs : List (ℕ × α)) : Prop where
  chain : Chain m l.first cs
  last : l.last = cs.getLast?.map Prod.fst
  num : l.numInList = cs.length
  distinct : (cs.map Prod.snd).Nodup

variable {A : Allocator α} {m m' : Mem α} {l l' : LinkedList} {cs ds es : List (ℕ × α)} {x : α}
  {a : ℕ} {p : Option ℕ}

/-! ### What the list stands for -/

theorem represents_new (m : Mem α) : Represents m new [] := ⟨rfl, rfl, rfl, List.nodup_nil⟩

namespace Represents

theorem isEmpty_iff (h : Represents m l cs) : l.isEmpty = true ↔ cs = [] := by
  rw [isEmpty, decide_eq_true_eq, h.num, Int.natCast_eq_zero, List.length_eq_zero_iff]

theorem isEmpty_of_ne_nil (h : Represents m l cs) (hne : cs ≠ []) : l.isEmpty = false := by
  rw [← Bool.not_eq_true, h.isEmpty_iff]
  exact hne

theorem first_cons {c : ℕ × α} (h : Represents m l (c :: cs)) : l.first = some c.1 := h.chain.1

theorem last_concat {c : ℕ × α} (h : Represents m l (cs ++ [c])) : l.last = some c.1 := by
  rw [h.last, List.getLast?_concat]
  rfl

/-- The list is the same in a heap in which its cells are. -/
theorem congr (h : Represents m l cs) (hchain : Chain m' l.first cs) : Represents m' l cs :=
  ⟨hchain, h.last, h.num, h.distinct⟩

/-- `first` is `last` in the list of one cell. -/
theorem first_eq_last_iff {c : ℕ × α} (h : Represents m l (c :: cs)) :
    l.first = l.last ↔ cs = [] := by
  rw [h.first_cons, h.last]
  rcases List.eq_nil_or_concat cs with rfl | ⟨ds, d, rfl⟩
  · simp
  · have hnodup := h.chain.nodup
    rw [List.concat_eq_append, List.map_cons, List.nodup_cons] at hnodup
    rw [List.concat_eq_append, ← List.cons_append, List.getLast?_concat]
    refine iff_of_false (fun he => hnodup.1 ?_) (by simp)
    rw [Option.map_some, Option.some.injEq] at he
    rw [he]
    simp

/-- One more cell, with an item that was not there. -/
theorem insert (ds : List (ℕ × α)) (h : Represents m l (ds ++ es))
    (hx : x ∉ (ds ++ es).map Prod.snd) (hnum : l'.numInList = l.numInList + 1)
    (hchain : Chain m' l'.first (ds ++ (a, x) :: es))
    (hlast : l'.last = (ds ++ (a, x) :: es).getLast?.map Prod.fst) :
    Represents m' l' (ds ++ (a, x) :: es) := by
  refine ⟨hchain, hlast, ?_, ?_⟩
  · rw [hnum, h.num]
    simp only [List.length_append, List.length_cons]
    push_cast
    ring
  · have hdistinct := h.distinct
    rw [List.map_append] at hx hdistinct
    rw [List.map_append, List.map_cons, List.nodup_middle]
    exact List.nodup_cons.mpr ⟨hx, hdistinct⟩

end Represents

/-! ### `IsInList` -/

section Equality

variable [DecidableEq α]

theorem isInListFrom_eq (n : ℕ) (h : Chain m p cs) (hlen : cs.length ≤ n) :
    isInListFrom m x n p = some (decide (x ∈ cs.map Prod.snd)) := by
  induction cs generalizing p n with
  | nil =>
    obtain rfl := seg_nil.mp h
    unfold isInListFrom
    rfl
  | cons c cs ih =>
    obtain ⟨rfl, next, hread, hrest⟩ := h
    rw [List.length_cons] at hlen
    obtain ⟨n, rfl⟩ : ∃ k, n = k + 1 := ⟨n - 1, by omega⟩
    rw [isInListFrom, hread, Option.bind_eq_bind, Option.bind_some]
    by_cases hx : x = c.2
    · simp [hx]
    · rw [if_neg hx, ih n hrest (by omega)]
      simp [hx]

/-- The loop comes to the end of the chain. -/
theorem isInList_eq (h : Chain m l.first cs) (x : α) :
    l.isInList m x = some (decide (x ∈ cs.map Prod.snd)) :=
  isInListFrom_eq _ h h.length_le

theorem isInList_of_notMem (h : Chain m l.first cs) (hx : x ∉ cs.map Prod.snd) :
    l.isInList m x = some false := by
  rw [isInList_eq h, decide_eq_false hx]

theorem isInList_of_mem (h : Chain m l.first cs) (hx : x ∈ cs.map Prod.snd) :
    l.isInList m x = some true := by
  rw [isInList_eq h, decide_eq_true hx]

/-! ### Insertion -/

/-- **`Append`** of an item that is not in the list. -/
theorem append_spec (A : Allocator α) (h : Represents m l cs) (hx : x ∉ cs.map Prod.snd) :
    ∃ m' l' a, append A m l x = some (m', l') ∧ Represents m' l' (cs ++ [(a, x)]) ∧
      Frame m m' (cs.map Prod.fst) ((cs ++ [(a, x)]).map Prod.fst) := by
  obtain ⟨hchain, hnew⟩ := Chain.new A x h.chain
  have habsent := isInList_of_notMem hchain hx
  have hframe := Frame.new A m x (cs.map Prod.fst)
  have hcs : Represents m l (cs ++ []) := by rwa [List.append_nil]
  have hxs : x ∉ (cs ++ []).map Prod.snd := by rwa [List.append_nil]
  have hsub : (cs ++ [((m.new A x).2, x)]).map Prod.fst ⊆ (m.new A x).2 :: cs.map Prod.fst := by
    intro b
    simp only [List.map_append, List.map_cons, List.map_nil, List.mem_append, List.mem_cons,
      List.not_mem_nil, or_false]
    exact Or.symm
  rcases List.eq_nil_or_concat cs with rfl | ⟨ds, d, hds⟩
  · have hempty : l.isEmpty = true := h.isEmpty_iff.mpr rfl
    have hlist : Represents (m.new A x).1 ⟨some (m.new A x).2, some (m.new A x).2, l.numInList + 1⟩
        [((m.new A x).2, x)] :=
      hcs.insert _ hxs rfl (Chain.single A m x) rfl
    have hthere := isInList_of_mem (x := x) hlist.chain (by simp)
    exact ⟨_, _, _, by simp [append, habsent, hempty, hthere], hlist, hframe⟩
  · rw [List.concat_eq_append] at hds
    subst hds
    have hempty := h.isEmpty_of_ne_nil (by simp)
    obtain ⟨m', hset, hlink, hsame⟩ := hchain.linkLast Mem.read_new_self hnew
    have hlist : Represents m' { l with last := some (m.new A x).2, numInList := l.numInList + 1 }
        (ds ++ [d] ++ [((m.new A x).2, x)]) := by
      refine hcs.insert _ hxs rfl hlink ?_
      rw [List.getLast?_concat]
      rfl
    have hthere := isInList_of_mem (x := x) hlist.chain (by simp)
    refine ⟨m', _, _, by simp [append, habsent, hempty, h.last_concat, hset, hthere], hlist, ?_⟩
    refine (hframe.trans (Frame.of_same fun b hb => hsame b ?_)).mono hsub
    rintro rfl
    exact hb (by simp)

/-- **`Prepend`** of an item that is not in the list. -/
theorem prepend_spec (A : Allocator α) (h : Represents m l cs) (hx : x ∉ cs.map Prod.snd) :
    ∃ m' l' a, prepend A m l x = some (m', l') ∧ Represents m' l' ((a, x) :: cs) ∧
      Frame m m' (cs.map Prod.fst) (((a, x) :: cs).map Prod.fst) := by
  obtain ⟨hchain, hnew⟩ := Chain.new A x h.chain
  have habsent := isInList_of_notMem hchain hx
  have hframe := Frame.new A m x (cs.map Prod.fst)
  by_cases hnil : cs = []
  · subst hnil
    have hempty : l.isEmpty = true := h.isEmpty_iff.mpr rfl
    have hlist : Represents (m.new A x).1 ⟨some (m.new A x).2, some (m.new A x).2, l.numInList + 1⟩
        [((m.new A x).2, x)] :=
      Represents.insert [] h hx rfl (Chain.single A m x) rfl
    have hthere := isInList_of_mem (x := x) hlist.chain (by simp)
    exact ⟨_, _, _, by simp [prepend, habsent, hempty, hthere], hlist, hframe⟩
  · have hempty := h.isEmpty_of_ne_nil hnil
    obtain ⟨m', hset, hlink, hsame⟩ := hchain.linkFirst Mem.read_new_self hnew
    have hlist : Represents m' { l with first := some (m.new A x).2, numInList := l.numInList + 1 }
        (((m.new A x).2, x) :: cs) := by
      refine Represents.insert [] h hx rfl hlink ?_
      rw [List.nil_append, List.getLast?_cons_of_ne_nil hnil]
      exact h.last
    have hthere := isInList_of_mem (x := x) hlist.chain (by simp)
    refine ⟨m', _, _, by simp [prepend, habsent, hempty, hset, hthere], hlist, ?_⟩
    refine hframe.trans (Frame.of_same fun b hb => hsame b ?_)
    rintro rfl
    exact hb (by simp)

end Equality

/-! ### Removal -/

/-- **`RemoveFront`** from a list that is not empty. -/
theorem removeFront_spec (h : Represents m l ((a, x) :: cs)) :
    ∃ m' l', removeFront m l = some (m', l', x) ∧ Represents m' l' cs ∧
      Frame m m' (((a, x) :: cs).map Prod.fst) (cs.map Prod.fst) := by
  have hone := h.first_eq_last_iff
  have hempty := h.isEmpty_of_ne_nil (by simp)
  have hnodup := h.chain.nodup
  rw [List.map_cons, List.nodup_cons] at hnodup
  obtain ⟨hfirst, next, hread, hrest⟩ := h.chain
  obtain ⟨m', hdel, -, hsame⟩ := Mem.delete_spec hread
  have hchain : Chain m'
      next cs := hrest.congr fun c hc => hsame _ fun he => hnodup.1 (he ▸ List.mem_map_of_mem hc)
  have hdistinct := (List.nodup_cons.mp h.distinct).2
  have hframe : Frame m m' (((a, x) :: cs).map Prod.fst) (cs.map Prod.fst) := by
    refine (Frame.of_same fun b hb => hsame b ?_).mono (by simp)
    rintro rfl
    exact hb (by simp)
  have hnum := h.num
  rw [hfirst] at hone
  by_cases hnil : cs = []
  · subst hnil
    refine ⟨m', ⟨none, none, l.numInList - 1⟩, ?_, ⟨rfl, rfl, by simp [hnum], hdistinct⟩, hframe⟩
    simp [removeFront, hempty, hfirst, hread, ← hone.mpr rfl, hdel]
  · refine ⟨m', { l with first := next, numInList := l.numInList - 1 }, ?_,
      ⟨hchain, ?_, by simp [hnum], hdistinct⟩, hframe⟩
    · have hneq : some a ≠ l.last := fun he => hnil (hone.mp he)
      simp only [removeFront, hempty, hfirst, hread, hdel, guard_true, Option.bind_eq_bind,
        Option.bind_some, if_neg hneq]
      rfl
    · show l.last = _
      rw [h.last, List.getLast?_cons_of_ne_nil hnil]

section Equality

variable [DecidableEq α]

/-- The loop of `Remove`, when `cs` are still to be passed before the cell `c` of the item. -/
theorem removeFrom_spec (pre : List (ℕ × α)) {rest : List (ℕ × α)} {prev c : ℕ × α}
    {ptr : Option ℕ} (n : ℕ) (h : Represents m l (pre ++ [prev] ++ (cs ++ c :: rest)))
    (hptr : Chain m ptr (cs ++ c :: rest)) (hx : c.2 ∉ cs.map Prod.snd) (hlen : cs.length < n) :
    ∃ m' l', removeFrom m l c.2 n prev.1 ptr = some (m', l') ∧
    Represents m' l' (pre ++ [prev] ++ (cs ++ rest)) ∧
      ∀ b, b ∉ (pre ++ [prev] ++ (cs ++ c :: rest)).map Prod.fst → m'.read b = m.read b := by
  obtain ⟨n, rfl⟩ : ∃ k, n = k + 1 := ⟨n - 1, by omega⟩
  induction cs generalizing pre prev ptr n with
  | nil =>
    obtain ⟨next, m1, m2, hread, hset, hdel, hchain, hnext, hsame⟩ := Chain.unlink h.chain
    refine ⟨m2,
      { l with last := if next = none then some prev.1 else l.last, numInList := l.numInList - 1 },
      ?_, ?_, ?_⟩
    · rw [hptr.1, removeFrom]
      simp only [hread, hset, hdel, Option.bind_eq_bind, Option.bind_some, if_true]
      split_ifs <;> rfl
    · refine ⟨hchain, ?_, ?_, ?_⟩
      · by_cases hnil : rest = []
        · simp [hnext.mpr hnil, hnil]
        · have hsome : next ≠ none := fun he => hnil (hnext.mp he)
          simp only [if_neg hsome, h.last, List.nil_append]
          rw [List.getLast?_append_of_ne_nil _ (by simp), List.getLast?_cons_of_ne_nil hnil,
            List.getLast?_append_of_ne_nil _ hnil]
      · simp only [h.num, List.length_append, List.length_cons, List.length_nil]
        push_cast
        ring
      · have hsub : (pre ++ [prev] ++ ([] ++ rest)).Sublist (pre ++ [prev] ++ ([] ++ c :: rest)) :=
          (List.sublist_cons_self c rest).append_left _
        exact h.distinct.sublist (hsub.map _)
    · intro b hb
      apply hsame
      · rintro rfl
        exact hb (by simp)
      · rintro rfl
        exact hb (by simp)
  | cons d cs ih =>
    obtain ⟨rfl, next, hread, hrest⟩ := hptr
    rw [List.map_cons, List.mem_cons, not_or] at hx
    have hassoc : ∀ ds : List (ℕ × α), pre ++ [prev] ++ (d :: cs ++ ds) = pre ++ [prev] ++ [d] ++
        (cs ++ ds) := by simp
    rw [hassoc] at h ⊢
    rw [List.length_cons] at hlen
    obtain ⟨n, rfl⟩ : ∃ k, n = k + 1 := ⟨n - 1, by omega⟩
    rw [removeFrom, hread, Option.bind_eq_bind, Option.bind_some, if_neg hx.1, hassoc]
    exact ih _ h hrest hx.2 n (by omega)

/-- The list without the item of the cell `c`. -/
theorem erase_middle (rest : List (ℕ × α)) {c : ℕ × α} (hx : c.2 ∉ ds.map Prod.snd) :
    (ds ++ rest).map Prod.snd = ((ds ++ c :: rest).map Prod.snd).erase c.2 := by
  rw [List.map_append, List.map_append, List.erase_append_right _ hx, List.map_cons,
    List.erase_cons_head]

/-- **`Remove`** of an item that is in the list. -/
theorem remove_spec (h : Represents m l cs) (hx : x ∈ cs.map Prod.snd) :
    ∃ m' l' cs', remove m l x = some (m', l') ∧ Represents m' l' cs' ∧
    cs'.map Prod.snd = (cs.map Prod.snd).erase x ∧
      Frame m m' (cs.map Prod.fst) (cs'.map Prod.fst) := by
  have hpresent := isInList_of_mem h.chain hx
  -- the cells up to the first one with the item, which is the only one
  obtain ⟨ds, c, rest, rfl, rfl, hfirst⟩ : ∃ ds c rest, cs = ds ++ c :: rest ∧ c.2 = x ∧
      x ∉ ds.map Prod.snd := by
    obtain ⟨c, hc, rfl⟩ := List.mem_map.mp hx
    obtain ⟨ds, rest, rfl⟩ := List.append_of_mem hc
    refine ⟨ds, c, rest, rfl, rfl, fun hmem => ?_⟩
    have hdistinct := h.distinct
    rw [List.map_append, List.nodup_append] at hdistinct
    exact hdistinct.2.2 _ hmem _ (by simp) rfl
  have herase := erase_middle rest hfirst
  have hgone : c.2 ∉ (ds ++ rest).map Prod.snd := herase ▸ h.distinct.not_mem_erase
  have hsub : (ds ++ rest).map Prod.fst ⊆ (ds ++ c :: rest).map Prod.fst :=
    ((List.sublist_cons_self c rest).append_left ds).map Prod.fst |>.subset
  rcases ds with _ | ⟨d, ds⟩
  · obtain ⟨m', l', hremove, hlist, hframe⟩ := removeFront_spec h
    have habsent := isInList_of_notMem hlist.chain hgone
    obtain ⟨hhead, next, hread, -⟩ := h.chain
    refine ⟨m', l', rest, ?_, hlist, herase, hframe⟩
    simp [remove, hpresent, hhead, hread, hremove, habsent]
  · obtain ⟨hhead, next, hread, hrest⟩ := h.chain
    have hne : c.2 ≠ d.2 := fun he => hfirst (by simp [he])
    have hlen : ds.length < m.size := by
      have := h.chain.length_le
      simp only [List.length_append, List.length_cons] at this
      omega
    obtain ⟨m', l', hloop, hlist, hsame⟩ :=
      removeFrom_spec [] m.size h hrest (fun hmem => hfirst (by simp [hmem])) hlen
    have habsent := isInList_of_notMem hlist.chain hgone
    refine ⟨m', l', d :: ds ++ rest, ?_, hlist, herase, (Frame.of_same hsame).mono hsub⟩
    simp [remove, hpresent, hhead, hread, hne, hloop, habsent]

end Equality

/-! ### `SanityCheck` -/

theorem sanityFrom_spec {c : ℕ × α} {ptr : Option ℕ} {numFound : ℤ} (n : ℕ)
    (h : Chain m ptr (cs ++ [c])) (hlast : l.last = some c.1) (hlen : cs.length ≤ n)
    (hnum : numFound + cs.length ≤ l.numInList) :
    sanityFrom m l numFound ptr n = some (numFound + cs.length) := by
  induction cs generalizing ptr numFound n with
  | nil =>
    have hptr : ptr = l.last := h.1.trans hlast.symm
    unfold sanityFrom
    split <;> simp [hptr]
  | cons d cs ih =>
    have hnodup := h.nodup
    obtain ⟨rfl, next, hread, hrest⟩ := h
    rw [List.length_cons] at hlen hnum
    push_cast at hnum
    obtain ⟨n, rfl⟩ : ∃ k, n = k + 1 := ⟨n - 1, by omega⟩
    have hne : some d.1 ≠ l.last := by
      rw [hlast]
      rw [List.cons_append, List.map_cons, List.nodup_cons] at hnodup
      exact fun he => hnodup.1 (by simp [Option.some.inj he])
    rw [sanityFrom, if_neg hne]
    have hbelow : numFound + 1 ≤ l.numInList := by omega
    simp only [hbelow, guard_true, hread, Option.bind_eq_bind, Option.bind_some, Option.pure_def]
    rw [ih n hrest (by omega) (by omega), List.length_cons]
    push_cast
    ring_nf

/-- **`SanityCheck`** never fails. -/
theorem sanityCheck_spec (h : Represents m l cs) : l.sanityCheck m = some () := by
  rcases List.eq_nil_or_concat cs with rfl | ⟨ds, c, hds⟩
  · have hfirst : l.first = none := h.chain
    simp [sanityCheck, hfirst, h.num, h.last]
  · rw [List.concat_eq_append] at hds
    subst hds
    have hlast := h.last_concat
    obtain ⟨q, -, hq, next, hread, rfl⟩ := seg_append.mp h.chain
    have hnum := h.num
    simp only [List.length_append, List.length_singleton] at hnum
    push_cast at hnum
    rcases ds with _ | ⟨d, ds⟩
    · have hfirst : l.first = some c.1 := h.first_cons
      simp [sanityCheck, hfirst, hlast, hread, hnum]
    · have hfirst : l.first = some d.1 := h.first_cons
      have hone : ¬ l.first = l.last := fun he => by simpa using h.first_eq_last_iff.mp he
      have hlen := h.chain.length_le
      rw [List.length_append, List.length_singleton] at hlen
      have hloop := sanityFrom_spec m.size h.chain hlast (by omega)
        (show 1 + ((d :: ds).length : ℤ) ≤ l.numInList by omega)
      rw [hfirst, hlast] at hone
      rw [hfirst] at hloop
      simp only [sanityCheck, hfirst, hlast, if_neg hone, hloop, Option.bind_eq_bind,
        Option.bind_some, hread]
      simp [hnum, add_comm]

/-! ### Runs of operations -/

/-- The operations that change a list. -/
inductive Op (α : Type)
  | append (item : α)
  | prepend (item : α)
  | removeFront
  | remove (item : α)
  deriving DecidableEq

section Runs

variable [DecidableEq α]

/-- An operation on the list, with what `RemoveFront` returns. -/
def call (A : Allocator α) : Mem α × LinkedList → Op α → Option ((Mem α × LinkedList) × Option α)
  | (m, l), .append item => (l.append A m item).map fun r => (r, none)
  | (m, l), .prepend item => (l.prepend A m item).map fun r => (r, none)
  | (m, l), .removeFront => (l.removeFront m).map fun r => ((r.1, r.2.1), some r.2.2)
  | (m, l), .remove item => (l.remove m item).map fun r => (r, none)

/-- The operation on a sequence of items, if the precondition that the source
asserts holds of it. -/
def onItems : List α → Op α → Option (List α × Option α)
  | xs, .append item => if item ∈ xs then none else some (xs ++ [item], none)
  | xs, .prepend item => if item ∈ xs then none else some (item :: xs, none)
  | [], .removeFront => none
  | x :: xs, .removeFront => some (xs, some x)
  | xs, .remove item => if item ∈ xs then some (xs.erase item, none) else none

/-- The list stands for the items `xs`. -/
def Holds (s : Mem α × LinkedList) (xs : List α) : Prop :=
  ∃ cs, Represents s.1 s.2 cs ∧ cs.map Prod.snd = xs

/-- An operation on the list is the operation on its items. -/
theorem call_spec (A : Allocator α) {s : Mem α × LinkedList} {xs xs' : List α} {op : Op α}
    {out : Option α} (h : Holds s xs) (hop : onItems xs op = some (xs', out)) :
    ∃ s', call A s op = some (s', out) ∧ Holds s' xs' := by
  obtain ⟨m, l⟩ := s
  obtain ⟨cs, hlist, rfl⟩ := h
  cases op with
  | append item =>
    obtain ⟨hnot, hxs⟩ := (Option.ite_none_left_eq_some).mp hop
    cases hxs
    obtain ⟨m', l', a, happ, hlist', -⟩ := append_spec A hlist hnot
    exact ⟨(m', l'), by rw [call, happ]; rfl, _, hlist', by simp⟩
  | prepend item =>
    obtain ⟨hnot, hxs⟩ := (Option.ite_none_left_eq_some).mp hop
    cases hxs
    obtain ⟨m', l', a, happ, hlist', -⟩ := prepend_spec A hlist hnot
    exact ⟨(m', l'), by rw [call, happ]; rfl, _, hlist', by simp⟩
  | removeFront =>
    rcases cs with _ | ⟨⟨a, x⟩, cs⟩
    · cases hop
    · cases hop
      obtain ⟨m', l', hremove, hlist', -⟩ := removeFront_spec hlist
      exact ⟨(m', l'), by rw [call, hremove]; rfl, _, hlist', rfl⟩
  | remove item =>
    obtain ⟨hmem, hxs⟩ := (Option.ite_none_right_eq_some).mp hop
    cases hxs
    obtain ⟨m', l', cs', hremove, hlist', hitems, -⟩ := remove_spec hlist hmem
    exact ⟨(m', l'), by rw [call, hremove]; rfl, _, hlist', hitems⟩

/-- **Linked lists represent sequences.** A sequence of operations whose
preconditions hold has a result, whatever the allocator chooses and whatever
else is in the heap; what `RemoveFront` returns and the items of the list are
those of the sequence. The cells from `first` on are a chain without repetition
to `last`, which no cell follows; their number is `numInList`; and
`SanityCheck` passes. -/
theorem list_representation (A : Allocator α) (m : Mem α) (ops : List (Op α)) (xs : List α)
    (outs : List (Option α)) (hops : Calls.run onItems [] ops = some (xs, outs)) :
    ∃ m' l cs, Calls.run (call A) (m, new) ops = some ((m', l), outs) ∧
      Chain m' l.first cs ∧ cs.map Prod.snd = xs ∧ xs.Nodup ∧ (cs.map Prod.fst).Nodup ∧
      l.last = cs.getLast?.map Prod.fst ∧ (∀ a, l.last = some a → ∃ x, m'.read a = some ⟨x, none⟩) ∧
      l.numInList = cs.length ∧ (l.first = none ↔ l.numInList = 0) ∧
      (l.last = none ↔ l.numInList = 0) ∧ l.sanityCheck m' = some () := by
  have hnew : Holds (m, new) ([] : List α) := ⟨[], represents_new m, rfl⟩
  have hcall : ∀ s t op t' o, Holds s t → onItems t op = some (t', o) →
      ∃ s', call A s op = some (s', o) ∧ Holds s' t' :=
    fun s t op t' o hR h => call_spec A hR h
  obtain ⟨⟨m', l⟩, hrun, cs, hlist, hitems⟩ := Calls.run_refines hcall ops hnew hops
  have hzero : l.numInList = 0 ↔
      cs = [] := by rw [hlist.num, Int.natCast_eq_zero, List.length_eq_zero_iff]
  refine ⟨m', l, cs, hrun, hlist.chain, hitems, hitems ▸ hlist.distinct, hlist.chain.nodup,
    hlist.last, ?_, hlist.num, ?_, ?_, sanityCheck_spec hlist⟩
  · intro a ha
    rw [hlist.last, Option.map_eq_some_iff] at ha
    obtain ⟨c, hc, rfl⟩ := ha
    obtain ⟨ds, hds⟩ := List.getLast?_eq_some_iff.mp hc
    obtain ⟨q, -, -, next, hread, rfl⟩ := seg_append.mp (hds ▸ hlist.chain)
    exact ⟨c.2, hread⟩
  · rw [hzero]
    exact (Chain.eq_nil_iff hlist.chain).symm
  · rw [hzero, hlist.last, Option.map_eq_none_iff, List.getLast?_eq_none_iff]

/-- The last element removed from the middle, then the only one. -/
theorem list_representation_last : ∃ m' l cs,
    Calls.run (call Allocator.above) (Mem.empty, new)
    [.append 9, .append 5, .prepend 7, .remove 5, .removeFront, .remove 9] =
      some ((m', l), [none, none, none, none, some 7, none]) ∧
    Chain m' l.first cs ∧ cs.map Prod.snd = ([] : List ℤ) ∧ ([] : List ℤ).Nodup ∧
    (cs.map Prod.fst).Nodup ∧
    l.last = cs.getLast?.map Prod.fst ∧ (∀ a, l.last = some a → ∃ x, m'.read a = some ⟨x, none⟩) ∧
    l.numInList = cs.length ∧ (l.first = none ↔ l.numInList = 0) ∧
    (l.last = none ↔ l.numInList = 0) ∧
    l.sanityCheck m' = some () :=
  list_representation Allocator.above Mem.empty _ [] _ (by decide)

end Runs

end LinkedList
end Nachos
