/-
# Hash tables (`lib/hash.cc`)

A table is an array of linked lists, its buckets, which lie in one heap; an
item is in the bucket of its hash value modulo the number of buckets. When
there are three times as many items as buckets, `Insert` first moves all of
them to a table four times as large (`ReHash`), one by one, while both arrays
lie in the heap. As for lists, an operation has no result if an `ASSERT`
fails, a pointer is followed that leads nowhere, or a loop does not end.

`HashTable.Moving` is what holds while items are moved: of the old buckets
`ps` and the new ones `ns` no two share a cell, no two items have a key in
common, and the items of the new buckets are in their places. With no old
buckets left, this and the number of items is the invariant of the table
(`HashTable.Inv`), and each operation keeps it and does to the contents what it
says (`insert_spec`, `remove_spec`, `reHash_spec`).

`numBuckets` and `numItems` are `int`s: 4^15 buckets grow when there are
3 * 2^30 items, more than the elements of a 32-bit address space.

Key definitions: `HashTable`, `HashTable.insert`, `HashTable.remove`, `HashTable.find`,
`HashTable.reHash`, `HashTable.sanityCheck`, `HashTable.Moving`, `HashTable.Inv`.
Key theorems: `HashTable.find_spec`, `HashTable.put_spec`, `HashTable.reHash_spec`,
`HashTable.insert_spec`, `HashTable.remove_spec`.
-/
import Mathlib
import Nachos.Base.Chains
import Nachos.Lib.LinkedList

namespace Nachos

open Chains (Allocator Chain Frame Mem Seg)

/-- `InitialBuckets`. -/
def initialBuckets : ℕ := 4
/-- `ResizeRatio`. -/
def resizeRatio : ℤ := 3
/-- `IncreaseSizeBy`. -/
def increaseSizeBy : ℕ := 4

/-- `class HashTable`, whose two functions are parameters of its operations;
the array has `numBuckets` entries. -/
structure HashTable where
  buckets : List LinkedList
  numBuckets : ℕ
  numItems : ℤ
  sized : buckets.length = numBuckets
  deriving DecidableEq

namespace HashTable

/-- `InitBuckets`. -/
def initBuckets (t : HashTable) (sz : ℕ) : HashTable :=
  { t with
    buckets := List.replicate sz LinkedList.new, numBuckets := sz, sized := List.length_replicate }

/-- `HashTable::HashTable`. -/
def new : HashTable := initBuckets ⟨[], 0, 0, rfl⟩ initialBuckets

/-- The list of one bucket has changed. -/
def setBucket (t : HashTable) (bucket : ℕ) (l : LinkedList) : HashTable :=
  { t with buckets := t.buckets.set bucket l, sized := by rw [List.length_set, t.sized] }

variable {α κ : Type} [DecidableEq α] [DecidableEq κ] (getKey : α → κ) (hash : κ → BitVec 32)

/-- `HashValue`, of at least one bucket. -/
def hashValue (t : HashTable) (key : κ) : Option ℕ :=
  if (hash key).toNat % t.numBuckets < t.numBuckets then some ((hash key).toNat % t.numBuckets)
  else none

/-- The loop of `FindInBucket` from `current` on. -/
def findFrom (m : Mem α) (key : κ) : ℕ → Option ℕ → Option (Option α)
  | _, none => some none
  | 0, some _ => none
  | n + 1, some current => do
    let c ← m.read current
    if key = getKey c.item then some (some c.item) else findFrom m key n c.next

/-- `FindInBucket`. -/
def findInBucket (m : Mem α) (t : HashTable) (bucket : ℕ) (key : κ) : Option (Option α) := do
  let b ← t.buckets[bucket]?
  findFrom getKey m key m.size b.first

/-- `Find`. -/
def find (m : Mem α) (t : HashTable) (key : κ) : Option (Option α) := do
  let bucket ← t.hashValue hash key
  t.findInBucket getKey m bucket key

/-- `IsInTable`. -/
def isInTable (m : Mem α) (t : HashTable) (key : κ) : Option Bool :=
  (t.find getKey hash m key).map Option.isSome

/-- The check of `SanityCheck` that the items of bucket `i` hash to it. -/
def hashedFrom (m : Mem α) (t : HashTable) (i : ℕ) : ℕ → Option ℕ → Option Unit
  | _, none => some ()
  | 0, some _ => none
  | n + 1, some current => do
    let c ← m.read current
    guard (t.hashValue hash (getKey c.item) = some i)
    hashedFrom m t i n c.next

/-- The loop of `SanityCheck` over the buckets from `i` on: the `numFound` it
ends with. -/
def sanityFrom (m : Mem α) (t : HashTable) : ℕ → List LinkedList → ℤ → Option ℤ
  | _, [], numFound => some numFound
  | i, b :: bs, numFound => do
    b.sanityCheck m
    hashedFrom getKey hash m t i m.size b.first
    sanityFrom m t (i + 1) bs (numFound + b.numInList)

/-- `SanityCheck`. -/
def sanityCheck (m : Mem α) (t : HashTable) : Option Unit := do
  let numFound ← sanityFrom getKey hash m t 0 t.buckets 0
  guard (t.numItems = numFound)

/-- `buckets[HashValue(getKey(item))]->Append(item)`, of `Insert` and `ReHash`. -/
def put (A : Allocator α) (m : Mem α) (t : HashTable) (item : α) : Option (Mem α × HashTable) := do
  let bucket ← t.hashValue hash (getKey item)
  let b ← t.buckets[bucket]?
  let (m, b) ← b.append A m item
  some (m, t.setBucket bucket b)

/-- The inner loop of `ReHash`: it empties the bucket `old`. -/
def moveItems (A : Allocator α) : Mem α → LinkedList → HashTable → ℕ → Option (Mem α × HashTable)
  | m, old, t, 0 => if old.isEmpty then some (m, t) else none
  | m, old, t, n + 1 =>
    if old.isEmpty then some (m, t)
    else do
      let (m, old, item) ← old.removeFront m
      let (m, t) ← t.put getKey hash A m item
      moveItems A m old t n

/-- The outer loop of `ReHash`, over `oldTable`; every pass of the inner one
takes an item out of a bucket. -/
def moveBuckets (A : Allocator α) : List LinkedList → Mem α → HashTable → Option (Mem α × HashTable)
  | [], m, t => some (m, t)
  | old :: oldTable, m, t => do
    let (m, t) ← moveItems getKey hash A m old t old.numInList.toNat
    moveBuckets A oldTable m t

/-- `ReHash`. -/
def reHash (A : Allocator α) (m : Mem α) (t : HashTable) : Option (Mem α × HashTable) := do
  t.sanityCheck getKey hash m
  let (m, t) ← moveBuckets getKey hash A t.buckets m (t.initBuckets (t.numBuckets * increaseSizeBy))
  t.sanityCheck getKey hash m
  some (m, t)

/-- `Insert`. -/
def insert (A : Allocator α) (m : Mem α) (t : HashTable) (item : α) :
    Option (Mem α × HashTable) := do
  guard (t.isInTable getKey hash m (getKey item) = some false)
  let (m, t) ← if resizeRatio ≤ t.numItems.tdiv t.numBuckets then t.reHash getKey hash A m
      else some (m, t)
  let (m, t) ← t.put getKey hash A m item
  let t := { t with numItems := t.numItems + 1 }
  guard (t.isInTable getKey hash m (getKey item) = some true)
  some (m, t)

/-- `Remove`. -/
def remove (m : Mem α) (t : HashTable) (key : κ) : Option (Mem α × HashTable × α) := do
  let bucket ← t.hashValue hash key
  let found ← t.findInBucket getKey m bucket key
  let item ← found
  let b ← t.buckets[bucket]?
  let (m, b) ← b.remove m item
  let t := { t.setBucket bucket b with numItems := t.numItems - 1 }
  guard (t.isInTable getKey hash m key = some false)
  some (m, t, item)

end HashTable

/-! ### Several lists in one heap -/

namespace LinkedList

/-- Lists that lie in one heap, each with its cells. -/
abbrev Family (α : Type) := List (LinkedList × List (ℕ × α))

variable {α : Type} {m m' : Mem α} {l l' : LinkedList} {cs cs' : List (ℕ × α)} {ps qs : Family α}

/-- The lists with their cells; no two have a cell in common. -/
structure Stored (m : Mem α) (ps : Family α) : Prop where
  lists : ∀ p ∈ ps, Represents m p.1 p.2
  apart : ps.Pairwise fun p q => List.Disjoint (p.2.map Prod.fst) (q.2.map Prod.fst)

/-- The items of all lists. -/
def contents (ps : Family α) : List α := ps.flatMap fun p => p.2.map Prod.snd

theorem contents_cons (p : LinkedList × List (ℕ × α)) (ps : Family α) :
    contents (p :: ps) = p.2.map Prod.snd ++ contents ps := List.flatMap_cons

theorem contents_append (ps qs : Family α) : contents (ps ++ qs) = contents ps ++ contents qs :=
  List.flatMap_append

theorem contents_empty (n : ℕ) : contents (List.replicate n (new, ([] : List (ℕ × α)))) = [] := by
  simp [contents]

theorem mem_contents {x : α} : x ∈ contents ps ↔ ∃ p ∈ ps, x ∈ p.2.map Prod.snd := List.mem_flatMap

/-- What an operation on one list leaves of the others. -/
theorem Stored.replace (ps : Family α) (h : Stored m (ps ++ (l, cs) :: qs))
    (hlist : Represents m' l' cs') (hframe : Frame m m' (cs.map Prod.fst) (cs'.map Prod.fst)) :
    Stored m' (ps ++ (l', cs') :: qs) := by
  have hsymm : ∀ {p q : LinkedList × List (ℕ × α)}, List.Disjoint (p.2.map Prod.fst)
      (q.2.map Prod.fst) →
      List.Disjoint (q.2.map Prod.fst) (p.2.map Prod.fst) := fun hpq => hpq.symm
  obtain ⟨hhere, hrest⟩ := List.pairwise_cons.mp ((List.pairwise_middle hsymm).mp h.apart)
  have hmem : ∀ p, p ∈ ps ++ qs → p ∈ ps ++ (l, cs) :: qs := by
    intro p hp
    rcases List.mem_append.mp hp with hp | hp
    · exact List.mem_append_left _ hp
    · exact List.mem_append_right _ (List.mem_cons_of_mem _ hp)
  have hkeep : ∀ p ∈ ps ++ qs, Chain m' p.1.first p.2 ∧ ∀ c ∈ p.2, c.1 ∉ cs'.map Prod.fst := by
    intro p hp
    apply hframe.keeps (h.lists p (hmem p hp)).chain
    exact fun c hc hmem => hhere p hp hmem (List.mem_map_of_mem hc)
  refine ⟨fun p hp => ?_, (List.pairwise_middle hsymm).mpr
    (List.pairwise_cons.mpr ⟨fun p hp a ha hb => ?_, hrest⟩)⟩
  · rcases List.mem_append.mp hp with hp | hp
    · have hin := List.mem_append_left qs hp
      exact (h.lists p (hmem p hin)).congr (hkeep p hin).1
    · rcases List.mem_cons.mp hp with rfl | hp
      · exact hlist
      · have hin := List.mem_append_right ps hp
        exact (h.lists p (hmem p hin)).congr (hkeep p hin).1
  · obtain ⟨c, hc, rfl⟩ := List.mem_map.mp hb
    exact (hkeep p hp).2 c hc ha

/-- A list that is empty can be forgotten. -/
theorem Stored.tail {p : LinkedList × List (ℕ × α)} (h : Stored m (p :: ps)) : Stored m ps :=
  ⟨fun q hq => h.lists q (List.mem_cons_of_mem _ hq), (List.pairwise_cons.mp h.apart).2⟩

/-- New lists beside those there are. -/
theorem Stored.append_new (h : Stored m ps) (n : ℕ) :
    Stored m (ps ++ List.replicate n (new, ([] : List (ℕ × α)))) := by
  refine ⟨fun p hp => ?_, List.pairwise_append.mpr ⟨h.apart, ?_, fun p _ q hq => ?_⟩⟩
  · rcases List.mem_append.mp hp with hp | hp
    · exact h.lists p hp
    · rw [List.eq_of_mem_replicate hp]
      exact represents_new m
  · exact List.pairwise_replicate.mpr (Or.inr (by simp))
  · rw [List.eq_of_mem_replicate hq]
    simp

end LinkedList
namespace HashTable

open LinkedList
  (Family Represents Stored contents contents_cons contents_append contents_empty mem_contents)

variable {α κ : Type} {getKey : α → κ} {hash : κ → BitVec 32} {A : Allocator α} {m m' : Mem α}
  {t t' : HashTable} {ps ns : Family α} {cs : List (ℕ × α)} {x : α} {k : κ} {p : Option ℕ}

/-! ### The invariant -/

/-- The buckets `ns` of the table, their items in their places, beside the old
buckets `ps`; no two items have the same key. -/
structure Moving (getKey : α → κ) (hash : κ → BitVec 32) (m : Mem α) (t : HashTable)
    (ps ns : Family α) :
    Prop where
  buckets : t.buckets = ns.map Prod.fst
  pos : 0 < t.numBuckets
  stored : Stored m (ps ++ ns)
  place : ∀ i p, ns[i]? = some p →
    ∀ y ∈ p.2.map Prod.snd, (hash (getKey y)).toNat % t.numBuckets = i
  keys : ((contents (ps ++ ns)).map getKey).Nodup

/-- The invariant of the table. -/
structure Inv (getKey : α → κ) (hash : κ → BitVec 32) (m : Mem α) (t : HashTable) (ns : Family α) :
    Prop where
  moving : Moving getKey hash m t [] ns
  num : t.numItems = (contents ns).length
  power : ∃ e, t.numBuckets = 4 ^ (e + 1)

theorem hashValue_eq (h : 0 < t.numBuckets) (k : κ) :
    t.hashValue hash k = some ((hash k).toNat % t.numBuckets) :=
  if_pos (Nat.mod_lt _ h)

namespace Moving

/-- The bucket of a key. -/
theorem bucket (h : Moving getKey hash m t ps ns) (k : κ) :
    ∃ b cs ns1 ns2, ns = ns1 ++ (b, cs) :: ns2 ∧ ns1.length = (hash k).toNat % t.numBuckets ∧
      t.buckets[(hash k).toNat % t.numBuckets]? = some b ∧ Represents m b cs := by
  have hlt : (hash k).toNat % t.numBuckets < ns.length := by
    rw [← List.length_map (f := Prod.fst), ← h.buckets, t.sized]
    exact Nat.mod_lt _ h.pos
  generalize (hash k).toNat % t.numBuckets = i at hlt ⊢
  refine ⟨ns[i].1, ns[i].2, ns.take i, ns.drop (i + 1), ?_, List.length_take_of_le hlt.le, ?_, ?_⟩
  · rw [← List.drop_eq_getElem_cons hlt, List.take_append_drop]
  · rw [h.buckets, List.getElem?_map, List.getElem?_eq_getElem hlt]
    rfl
  · exact h.stored.lists _ (List.mem_append_right _ (List.getElem_mem hlt))

/-- An item of the table is in the bucket of its key. -/
theorem mem_bucket {ns1 ns2 : Family α} {b : LinkedList}
    (h : Moving getKey hash m t ps (ns1 ++ (b, cs) :: ns2))
    (hi : ns1.length = (hash (getKey x)).toNat % t.numBuckets)
    (hx : x ∈ contents (ns1 ++ (b, cs) :: ns2)) :
    x ∈ cs.map Prod.snd := by
  obtain ⟨q, hq, hxq⟩ := mem_contents.mp hx
  obtain ⟨j, hj⟩ := List.mem_iff_getElem?.mp hq
  have hplace := h.place j q hj x hxq
  rw [← hplace.symm.trans hi.symm |>.symm, List.getElem?_append_right (le_refl _),
    Nat.sub_self] at hj
  obtain rfl : (b, cs) = q := by simpa using hj
  exact hxq

/-- Items with the same key are one item. -/
theorem key_inj (h : Moving getKey hash m t ps ns) {y : α} (hx : x ∈ contents ns)
    (hy : y ∈ contents ns) (he : getKey x = getKey y) :
    x = y := by
  have hin : ∀ z ∈ contents ns, z ∈ contents (ps ++ ns) := by
    intro z hz
    rw [contents_append]
    exact List.mem_append_right _ hz
  exact List.inj_on_of_nodup_map h.keys (hin x hx) (hin y hy) he

/-- The list of one bucket changes, and with it no other; what is in it then has
been there or belongs there. -/
theorem setBucket {ns1 ns2 : Family α} {b b' : LinkedList} {cs' : List (ℕ × α)}
    (h : Moving getKey hash m t ps (ns1 ++ (b, cs) :: ns2)) (hlist : Represents m' b' cs')
    (hframe : Frame m m' (cs.map Prod.fst) (cs'.map Prod.fst))
    (hplace : ∀ y ∈ cs'.map Prod.snd, y ∈ cs.map Prod.snd ∨
      (hash (getKey y)).toNat % t.numBuckets = ns1.length)
    (hkeys : ((contents (ps ++ (ns1 ++ (b', cs') :: ns2))).map getKey).Nodup) :
    Moving getKey hash m' (t.setBucket ns1.length b') ps (ns1 ++ (b', cs') :: ns2) := by
  have hset : (ns1 ++ (b, cs) :: ns2).set ns1.length (b', cs') = ns1 ++ (b', cs') :: ns2 := by simp
  refine ⟨?_, h.pos, ?_, ?_, hkeys⟩
  · show t.buckets.set _ b' = _
    rw [← hset, List.map_set, ← h.buckets]
  · have hstored := h.stored
    rw [← List.append_assoc] at hstored ⊢
    exact Stored.replace _ hstored hlist hframe
  · intro j q hq y hy
    rw [← hset, List.getElem?_set] at hq
    split_ifs at hq with hj hlt
    · obtain rfl : (b', cs') = q := by simpa using hq
      rcases hplace y hy with hold | hnew
      · exact h.place j (b, cs) (by rw [← hj]; simp) y hold
      · exact hnew.trans hj
    · exact h.place j q hq y hy

end Moving

/-! ### `Find` -/

section Keys

variable [DecidableEq κ]

theorem findFrom_eq (n : ℕ) (h : Chain m p cs) (hlen : cs.length ≤ n) :
    findFrom getKey m k n p = some ((cs.map Prod.snd).find? fun y => k = getKey y) := by
  induction cs generalizing p n with
  | nil =>
    obtain rfl : p = none := h
    unfold findFrom
    rfl
  | cons c cs ih =>
    obtain ⟨rfl, next, hread, hrest⟩ := h
    rw [List.length_cons] at hlen
    obtain ⟨n, rfl⟩ : ∃ j, n = j + 1 := ⟨n - 1, by omega⟩
    rw [findFrom, hread, Option.bind_eq_bind, Option.bind_some, List.map_cons, List.find?_cons]
    by_cases hk : k = getKey c.2
    · simp [hk]
    · simp [hk, ih n hrest (by omega)]

/-- `FindInBucket` in the bucket of the key. -/
theorem findInBucket_eq {b : LinkedList} {i : ℕ} (hb : t.buckets[i]? = some b)
    (h : Represents m b cs) :
    t.findInBucket getKey m i k = some ((cs.map Prod.snd).find? fun y => k = getKey y) := by
  rw [findInBucket, hb, Option.bind_eq_bind, Option.bind_some]
  exact findFrom_eq _ h.chain h.chain.length_le

/-- **`Find`** returns the item of the table with the key, if there is one. -/
theorem find_spec (h : Moving getKey hash m t ps ns) (k : κ) :
    ∃ r, t.find getKey hash m k = some r ∧ ∀ x, r = some x ↔ x ∈ contents ns ∧ getKey x = k := by
  obtain ⟨b, cs, ns1, ns2, rfl, hi, hb, hlist⟩ := h.bucket k
  refine ⟨(cs.map Prod.snd).find? fun y => k = getKey y, ?_, fun x => ?_⟩
  · rw [find, hashValue_eq h.pos, Option.bind_eq_bind, Option.bind_some, findInBucket_eq hb hlist]
  · have hin : ∀ y ∈ cs.map Prod.snd, y ∈ contents (ns1 ++ (b, cs) :: ns2) :=
      fun y hy => mem_contents.mpr ⟨(b, cs), by simp, hy⟩
    constructor
    · intro hfind
      have hkey := List.find?_some hfind
      simp only [decide_eq_true_eq] at hkey
      exact ⟨hin x (List.mem_of_find?_eq_some hfind), hkey.symm⟩
    · rintro ⟨hx, rfl⟩
      cases hfind : (cs.map Prod.snd).find? fun y => getKey x = getKey y with
      | none =>
        have hnone := List.find?_eq_none.mp hfind x (h.mem_bucket hi hx)
        simp at hnone
      | some y =>
        have hkey := List.find?_some hfind
        simp only [decide_eq_true_eq] at hkey
        rw [h.key_inj hx (hin y (List.mem_of_find?_eq_some hfind)) hkey]

theorem isInTable_eq (h : Moving getKey hash m t ps ns) (k : κ) :
    t.isInTable getKey hash m k = some (decide (k ∈ (contents ns).map getKey)) := by
  obtain ⟨r, hfind, hr⟩ := find_spec h k
  rw [isInTable, hfind, Option.map_some, Option.some.injEq]
  have hiff : r.isSome = true ↔ k ∈ (contents ns).map getKey := by
    rw [Option.isSome_iff_exists, List.mem_map]
    exact exists_congr hr
  by_cases hk : k ∈ (contents ns).map getKey
  · rw [hiff.mpr hk, decide_eq_true hk]
  · rw [decide_eq_false hk, ← Bool.not_eq_true, hiff]
    exact hk

end Keys

/-! ### `SanityCheck` -/

theorem hashedFrom_spec {i : ℕ} (n : ℕ) (h : Chain m p cs) (hlen : cs.length ≤ n)
    (hplace : ∀ y ∈ cs.map Prod.snd, t.hashValue hash (getKey y) = some i) :
    hashedFrom getKey hash m t i n p = some () := by
  induction cs generalizing p n with
  | nil =>
    obtain rfl : p = none := h
    unfold hashedFrom
    rfl
  | cons c cs ih =>
    obtain ⟨rfl, next, hread, hrest⟩ := h
    rw [List.length_cons] at hlen
    obtain ⟨n, rfl⟩ : ∃ j, n = j + 1 := ⟨n - 1, by omega⟩
    rw [List.map_cons, List.forall_mem_cons] at hplace
    rw [hashedFrom, hread, Option.bind_eq_bind, Option.bind_some]
    simp only [hplace.1, guard_true, Option.bind_eq_bind, Option.bind_some, Option.pure_def]
    exact ih n hrest (by omega) hplace.2

theorem sanityFrom_spec (i : ℕ) (numFound : ℤ) (hlists : ∀ q ∈ ps, Represents m q.1 q.2)
    (hplace : ∀ j q, ps[j]? = some q →
      ∀ y ∈ q.2.map Prod.snd, t.hashValue hash (getKey y) = some (i + j)) :
    sanityFrom getKey hash m t i (ps.map Prod.fst) numFound =
      some (numFound + (contents ps).length) := by
  induction ps generalizing i numFound with
  | nil => simp [sanityFrom, contents]
  | cons q ps ih =>
    obtain ⟨hq, hlists⟩ := List.forall_mem_cons.mp hlists
    have hhere := hashedFrom_spec m.size hq.chain hq.chain.length_le (hplace 0 q rfl)
    have hrest := ih (i + 1) (numFound + q.1.numInList) hlists fun j r hr => by
      rw [Nat.add_right_comm, Nat.add_assoc]
      exact hplace (j + 1) r hr
    rw [List.map_cons, sanityFrom, LinkedList.sanityCheck_spec hq]
    simp only [Nat.add_zero] at hhere
    simp only [hhere, hrest, Option.bind_eq_bind, Option.bind_some, contents_cons,
      List.length_append, List.length_map]
    rw [hq.num, Nat.cast_add, add_assoc]

/-- **`SanityCheck`** passes. -/
theorem sanityCheck_spec (h : Inv getKey hash m t ns) : t.sanityCheck getKey hash m = some () := by
  have hplace : ∀ j q, ns[j]? = some q → ∀ y ∈ q.2.map Prod.snd, t.hashValue hash (getKey y) =
      some (0 + j) := by
    intro j q hq y hy
    rw [hashValue_eq h.moving.pos, h.moving.place j q hq y hy, Nat.zero_add]
  have hfound :=
    sanityFrom_spec (m := m) 0 0 (fun q hq => h.moving.stored.lists q (by simpa using hq)) hplace
  rw [Int.zero_add] at hfound
  rw [sanityCheck, h.moving.buckets, hfound]
  simp [h.num]

/-! ### Moving items -/

section Items

variable [DecidableEq α]

/-- An item is appended to the bucket of its key, a key that no item has. -/
theorem put_spec (A : Allocator α) (h : Moving getKey hash m t ps ns)
    (hx : getKey x ∉ (contents (ps ++ ns)).map getKey) :
    ∃ m' t' ns', t.put getKey hash A m x = some (m', t') ∧ Moving getKey hash m' t' ps ns' ∧
      (contents ns').Perm (x :: contents ns) ∧ t'.numBuckets = t.numBuckets ∧
      t'.numItems = t.numItems := by
  obtain ⟨b, cs, ns1, ns2, rfl, hi, hb, hlist⟩ := h.bucket (getKey x)
  have hnot : x ∉ cs.map Prod.snd :=
    fun hmem => hx (List.mem_map_of_mem (by simp [contents_append, contents_cons, hmem]))
  rw [← hi] at hb
  obtain ⟨m', b', a, happ, hlist', hframe⟩ := LinkedList.append_spec A hlist hnot
  have hperm : (contents (ns1 ++ (b', cs ++ [(a, x)]) :: ns2)).Perm
      (x :: contents (ns1 ++ (b, cs) :: ns2)) := by
    simp only [contents_append, contents_cons, List.map_append, List.map_cons, List.map_nil]
    rw [List.append_assoc (cs.map Prod.snd), List.singleton_append, ← List.append_assoc,
      ← List.append_assoc]
    exact List.perm_middle
  have hkeys : ((contents (ps ++ (ns1 ++ (b', cs ++ [(a, x)]) :: ns2))).map getKey).Nodup := by
    refine (List.Perm.nodup_iff ?_).mpr (List.nodup_cons.mpr ⟨hx, h.keys⟩)
    rw [← List.map_cons, contents_append, contents_append ps]
    exact ((hperm.append_left _).trans List.perm_middle).map getKey
  refine ⟨m', t.setBucket ns1.length b', ns1 ++ (b', cs ++ [(a, x)]) :: ns2, ?_, ?_,
    hperm, rfl, rfl⟩
  · simp only [put, hashValue_eq h.pos, ← hi, hb, happ, Option.bind_eq_bind, Option.bind_some]
  · refine h.setBucket hlist' hframe (fun y hy => ?_) hkeys
    rw [List.map_append, List.mem_append] at hy
    refine hy.imp_right fun hnew => ?_
    obtain rfl : y = x := by simpa using hnew
    exact hi.symm

/-- The inner loop of `ReHash` empties the old bucket. -/
theorem moveItems_spec (A : Allocator α) {old : LinkedList} (n : ℕ)
    (h : Moving getKey hash m t ((old, cs) :: ps) ns) (hlen : cs.length ≤ n) :
    ∃ m' t' ns', moveItems getKey hash A m old t n = some (m', t') ∧
    Moving getKey hash m' t' ps ns' ∧
      (contents ns').Perm (cs.map Prod.snd ++ contents ns) ∧ t'.numBuckets = t.numBuckets ∧
      t'.numItems = t.numItems := by
  have hlist : Represents m old cs := h.stored.lists (old, cs) (by simp)
  induction cs generalizing m old t ns n with
  | nil =>
    have hempty : old.isEmpty = true := hlist.isEmpty_iff.mpr rfl
    refine ⟨m, t, ns, ?_, ⟨h.buckets, h.pos, h.stored.tail, h.place, ?_⟩,
      List.Perm.refl _, rfl, rfl⟩
    · unfold moveItems
      split <;> simp [hempty]
    · simpa [contents_cons] using h.keys
  | cons c cs ih =>
    rw [List.length_cons] at hlen
    obtain ⟨n, rfl⟩ : ∃ j, n = j + 1 := ⟨n - 1, by omega⟩
    have hempty := hlist.isEmpty_of_ne_nil (by simp)
    obtain ⟨m1, old1, hremove, hlist1, hframe⟩ := LinkedList.removeFront_spec hlist
    -- the old bucket is shorter, and no other item has the key of the one removed
    have hkeys := h.keys
    rw [List.cons_append, contents_cons, List.map_cons, List.cons_append, List.map_cons,
      List.nodup_cons] at hkeys
    have hcontents : contents ((old1, cs) :: ps ++ ns) = cs.map Prod.snd ++ contents
        (ps ++ ns) := by
      rw [List.cons_append, contents_cons]
    have hshort : Moving getKey hash m1 t ((old1, cs) :: ps) ns :=
      ⟨h.buckets, h.pos, Stored.replace [] h.stored hlist1 hframe, h.place, hcontents ▸ hkeys.2⟩
    obtain ⟨m2, t2, ns2, hput, hmoving2, hperm2, hsize2, hnum2⟩ :=
      put_spec A hshort (hcontents ▸ hkeys.1)
    obtain ⟨m3, t3, ns3, hrest, hmoving3, hperm3, hsize3, hnum3⟩ := ih n hmoving2 (by omega)
      (hmoving2.stored.lists (old1, cs) (by simp))
    refine ⟨m3, t3, ns3, ?_, hmoving3, ?_, hsize3.trans hsize2, hnum3.trans hnum2⟩
    · simp only [moveItems, hempty, Bool.false_eq_true, if_false, hremove, hput, hrest,
        Option.bind_eq_bind, Option.bind_some]
    · calc (contents ns3).Perm (cs.map Prod.snd ++ contents ns2) := hperm3
        _ |>.Perm (cs.map Prod.snd ++ c.2 :: contents ns) := hperm2.append_left _
        _ |>.Perm ((c :: cs).map Prod.snd ++ contents ns) := List.perm_middle

/-- The outer loop empties all old buckets. -/
theorem moveBuckets_spec (A : Allocator α) (h : Moving getKey hash m t ps ns) :
    ∃ m' t' ns', moveBuckets getKey hash A (ps.map Prod.fst) m t = some (m', t') ∧
    Moving getKey hash m' t' [] ns' ∧
      (contents ns').Perm (contents ps ++ contents ns) ∧ t'.numBuckets = t.numBuckets ∧
      t'.numItems = t.numItems := by
  induction ps generalizing m t ns with
  | nil => exact ⟨m, t, ns, rfl, h, List.Perm.refl _, rfl, rfl⟩
  | cons q ps ih =>
    obtain ⟨old, cs⟩ := q
    have hlist : Represents m old cs := h.stored.lists (old, cs) (by simp)
    have hlen : cs.length ≤ old.numInList.toNat := by rw [hlist.num, Int.toNat_natCast]
    obtain ⟨m1, t1, ns1, hmove, hmoving1, hperm1, hsize1, hnum1⟩ := moveItems_spec A _ h hlen
    obtain ⟨m2, t2, ns2, hrest, hmoving2, hperm2, hsize2, hnum2⟩ := ih hmoving1
    refine ⟨m2, t2, ns2, ?_, hmoving2, ?_, hsize2.trans hsize1, hnum2.trans hnum1⟩
    · simp only [List.map_cons, moveBuckets, hmove, hrest, Option.bind_eq_bind, Option.bind_some]
    · calc (contents ns2).Perm (contents ps ++ contents ns1) := hperm2
        _ |>.Perm (contents ps ++ (cs.map Prod.snd ++ contents ns)) := hperm1.append_left _
        _ |>.Perm (contents ((old, cs) :: ps) ++ contents ns) := by
          rw [contents_cons, ← List.append_assoc]
          exact List.perm_append_comm.append_right _

/-- **`ReHash`** loses no item and has none twice. -/
theorem reHash_spec (A : Allocator α) (h : Inv getKey hash m t ns) :
    ∃ m' t' ns', t.reHash getKey hash A m = some (m', t') ∧ Inv getKey hash m' t' ns' ∧
    (contents ns').Perm (contents ns) ∧
      t'.numBuckets = 4 * t.numBuckets := by
  have hpos := h.moving.pos
  have hstart : Moving getKey hash m (t.initBuckets (t.numBuckets * increaseSizeBy)) ns
      (List.replicate (t.numBuckets * increaseSizeBy) (LinkedList.new, [])) := by
    refine ⟨by simp [initBuckets], ?_, h.moving.stored.append_new _, ?_, ?_⟩
    · exact Nat.mul_pos hpos (by decide)
    · intro i q hq y hy
      rw [List.eq_of_mem_replicate (List.mem_of_getElem? hq)] at hy
      cases hy
    · rw [contents_append, contents_empty, List.append_nil]
      exact h.moving.keys
  obtain ⟨m', t', ns', hmove, hmoving, hperm, hsize, hnum⟩ := moveBuckets_spec A hstart
  rw [contents_empty, List.append_nil] at hperm
  obtain ⟨e, he⟩ := h.power
  have hsize' : t'.numBuckets = 4 * t.numBuckets := hsize.trans (Nat.mul_comm _ _)
  have hinv : Inv getKey hash m' t' ns' := by
    refine ⟨hmoving, ?_, e + 1, ?_⟩
    · rw [hnum, hperm.length_eq]
      exact h.num
    · rw [hsize', he, ← Nat.pow_succ']
  refine ⟨m', t', ns', ?_, hinv, hperm, hsize'⟩
  rw [← h.moving.buckets] at hmove
  simp only [reHash, sanityCheck_spec h, sanityCheck_spec hinv, hmove, Option.bind_eq_bind,
    Option.bind_some]

/-! ### `Insert` and `Remove` -/

variable [DecidableEq κ]

/-- **`Insert`** of an item with a key that no item has. -/
theorem insert_spec (A : Allocator α) (h : Inv getKey hash m t ns)
    (hx : getKey x ∉ (contents ns).map getKey) :
    ∃ m' t' ns', t.insert getKey hash A m x = some (m', t') ∧ Inv getKey hash m' t' ns' ∧
      (contents ns').Perm (x :: contents ns) := by
  have habsent := isInTable_eq h.moving (getKey x)
  rw [decide_eq_false hx] at habsent
  -- the table has grown, or not
  obtain ⟨m1, t1, ns1, hgrow, hinv1, hperm1⟩ : ∃ m1 t1 ns1,
      (resizeRatio ≤ t.numItems.tdiv t.numBuckets ∧ t.reHash getKey hash A m = some (m1, t1) ∨
        ¬ resizeRatio ≤ t.numItems.tdiv t.numBuckets ∧ (m, t) = (m1, t1)) ∧
        Inv getKey hash m1 t1 ns1 ∧ (contents ns1).Perm (contents ns) := by
    by_cases hfull : resizeRatio ≤ t.numItems.tdiv t.numBuckets
    · obtain ⟨m1, t1, ns1, hre, hinv, hperm, -⟩ := reHash_spec A h
      exact ⟨m1, t1, ns1, Or.inl ⟨hfull, hre⟩, hinv, hperm⟩
    · exact ⟨m, t, ns, Or.inr ⟨hfull, rfl⟩, h, List.Perm.refl _⟩
  have hx1 : getKey x ∉ (contents ([] ++ ns1)).map getKey := by
    rw [List.nil_append, (hperm1.map getKey).mem_iff]
    exact hx
  obtain ⟨m2, t2, ns2, hput, hmoving2, hperm2, hsize2, hnum2⟩ := put_spec A hinv1.moving hx1
  have hinv : Inv getKey hash m2 { t2 with numItems := t2.numItems + 1 } ns2 := by
    refine ⟨⟨hmoving2.buckets, hmoving2.pos, hmoving2.stored, hmoving2.place, hmoving2.keys⟩, ?_,
      ?_⟩
    · show t2.numItems + 1 = _
      rw [hnum2, hinv1.num, hperm2.length_eq, List.length_cons]
      push_cast
      rfl
    · rw [hsize2]
      exact hinv1.power
  have hthere := isInTable_eq hinv.moving (getKey x)
  rw [decide_eq_true (List.mem_map_of_mem (hperm2.mem_iff.mpr List.mem_cons_self))] at hthere
  refine ⟨m2, { t2 with numItems := t2.numItems + 1 }, ns2, ?_, hinv, hperm2.trans (hperm1.cons x)⟩
  rcases hgrow with ⟨hfull, hre⟩ | ⟨hfull, hstay⟩
  · simp only [insert, habsent, if_pos hfull, hre, hput, hthere, guard_true, Option.bind_eq_bind,
      Option.bind_some, Option.pure_def]
  · obtain ⟨rfl, rfl⟩ := Prod.mk.inj hstay
    simp only [insert, habsent, if_neg hfull, hput, hthere, guard_true, Option.bind_eq_bind,
      Option.bind_some, Option.pure_def]

/-- **`Remove`** of the key of an item. -/
theorem remove_spec (h : Inv getKey hash m t ns) (hx : x ∈ contents ns) :
    ∃ m' t' ns', t.remove getKey hash m (getKey x) = some (m', t', x) ∧ Inv getKey hash m' t' ns' ∧
      (x :: contents ns').Perm (contents ns) := by
  obtain ⟨b, cs, ns1, ns2, rfl, hi, hb, hlist⟩ := h.moving.bucket (getKey x)
  have hmem := h.moving.mem_bucket hi hx
  -- the item that is found is `x`
  have hfound : t.findInBucket getKey m ns1.length (getKey x) = some (some x) := by
    obtain ⟨r, hfind, hr⟩ := find_spec h.moving (getKey x)
    rw [(hr x).mpr ⟨hx, rfl⟩, find, hashValue_eq h.moving.pos, ← hi, Option.bind_eq_bind,
      Option.bind_some] at hfind
    exact hfind
  rw [← hi] at hb
  obtain ⟨m', b', cs', hremove, hlist', hitems, hframe⟩ := LinkedList.remove_spec hlist hmem
  have hperm : (x :: contents (ns1 ++ (b', cs') :: ns2)).Perm
      (contents (ns1 ++ (b, cs) :: ns2)) := by
    simp only [contents_append, contents_cons, hitems]
    calc (x :: (contents ns1 ++ ((cs.map Prod.snd).erase x ++ contents ns2))).Perm
          (contents ns1 ++ x :: ((cs.map Prod.snd).erase x ++ contents ns2)) :=
            List.perm_middle.symm
      _ |>.Perm (contents ns1 ++ (cs.map Prod.snd ++ contents ns2)) :=
        ((List.perm_cons_erase hmem).symm.append_right _).append_left _
  have hkeys : (getKey x :: (contents (ns1 ++ (b', cs') :: ns2)).map getKey).Nodup := by
    rw [← List.map_cons, (hperm.map getKey).nodup_iff]
    exact h.moving.keys
  have hset : Moving getKey hash m' (t.setBucket ns1.length b') [] (ns1 ++ (b', cs') :: ns2) :=
    h.moving.setBucket hlist' hframe (fun y hy => Or.inl (List.mem_of_mem_erase (hitems ▸ hy)))
      (List.nodup_cons.mp hkeys).2
  have hinv : Inv getKey hash m' { t.setBucket ns1.length b' with numItems := t.numItems - 1 }
      (ns1 ++ (b', cs') :: ns2) := by
    refine ⟨⟨hset.buckets, hset.pos, hset.stored, hset.place, hset.keys⟩, ?_, h.power⟩
    show t.numItems - 1 = _
    rw [h.num, ← hperm.length_eq, List.length_cons]
    push_cast
    ring
  have hgone := isInTable_eq hinv.moving (getKey x)
  rw [decide_eq_false (List.nodup_cons.mp hkeys).1] at hgone
  refine ⟨m', _, ns1 ++ (b', cs') :: ns2, ?_, hinv, hperm⟩
  simp only [remove, hashValue_eq h.moving.pos, ← hi, hfound, hb, hremove, hgone, guard_true,
    Option.bind_eq_bind, Option.bind_some, Option.pure_def]

end Items

end HashTable
end Nachos
