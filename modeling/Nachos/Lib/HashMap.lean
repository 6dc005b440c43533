/-
# Hash tables as finite maps (`lib/hash.cc`)

A user of a hash table sees a map from keys to items: `Insert` of an item whose
key is absent adds it, `Remove` of a key that is present takes its item out and
returns it. Every run of these on a table has the results of the run on the map
(`call_spec`), through all growth on the way, and the table then has the items
of the map and no others, in their buckets (`IsMap`).

An iterator is a bucket that is not empty and a place in its list; behind the
last item, the bucket is `numBuckets`. `HashIterator.Visits` is the items that it
has yet to visit; `Next` takes the first of them (`visits_next`).

Key definitions: `HashIterator`, `HashIterator.visit`, `HashIterator.Visits`, `HashTable.onMap`,
`HashTable.IsMap`.
Key theorems: `HashIterator.visit_spec`, `HashTable.call_spec`, `HashTable.Holds.isMap`,
`HashTable.hash_table_map`.
-/
import Mathlib
import Nachos.Base.Calls
import Nachos.Base.Chains
import Nachos.Lib.LinkedList
import Nachos.Lib.HashTable

namespace Nachos

open Chains (Allocator Chain Mem)

/-- `class HashIterator`; `none` is NULL, and a list iterator is its `current`. -/
structure HashIterator where
  bucket : ℕ
  bucketIter : Option (Option ℕ)
  deriving DecidableEq

/-- The loop of `FindNextFullBucket`, at `bucket` with the buckets from there on. -/
def HashTable.nextFull : List LinkedList → ℕ → ℕ
  | [], bucket => bucket
  | b :: bs, bucket => if b.isEmpty then nextFull bs (bucket + 1) else bucket

/-- `FindNextFullBucket`. -/
def HashTable.findNextFullBucket (t : HashTable) (bucket : ℕ) : ℕ :=
  nextFull (t.buckets.drop bucket) bucket

namespace HashIterator

variable {α : Type}

/-- The iterator at the start of a bucket, if there is one. -/
def startAt (t : HashTable) (bucket : ℕ) : HashIterator :=
  ⟨bucket, t.buckets[bucket]?.map LinkedList.first⟩

/-- `HashIterator::HashIterator`. -/
def new (t : HashTable) : HashIterator := startAt t (t.findNextFullBucket 0)

/-- `IsDone`. -/
def isDone (it : HashIterator) (t : HashTable) : Bool := it.bucket = t.numBuckets

/-- `Item`. -/
def item (m : Mem α) (t : HashTable) (it : HashIterator) : Option α := do
  guard (¬ it.isDone t)
  let bucketIter ← it.bucketIter
  let current ← bucketIter
  let c ← m.read current
  some c.item

/-- `Next`. -/
def next (m : Mem α) (t : HashTable) (it : HashIterator) : Option HashIterator := do
  let bucketIter ← it.bucketIter
  let current ← bucketIter
  let c ← m.read current
  if c.next = none then some (startAt t (t.findNextFullBucket (it.bucket + 1)))
  else some { it with bucketIter := some c.next }

/-- The loop over the items that the class is for, `for (; !iter->IsDone(); iter->Next())`,
of at most `n` passes: the items visited. -/
def visit (m : Mem α) (t : HashTable) : ℕ → HashIterator → Option (List α)
  | 0, it => if it.isDone t then some [] else none
  | n + 1, it =>
    if it.isDone t then some []
    else do
      let x ← it.item m t
      let it ← it.next m t
      let xs ← visit m t n it
      some (x :: xs)

end HashIterator

/-! ### What an iterator visits -/

namespace HashIterator

open LinkedList (Family Represents contents contents_cons)

variable {α κ : Type} {getKey : α → κ} {hash : κ → BitVec 32} {m : Mem α} {t : HashTable}
  {it : HashIterator} {ns ns1 ns2 : Family α} {x : α} {xs : List α}

/-- The iterator has yet to visit the items `xs`. -/
def Visits (m : Mem α) (t : HashTable) (ns : Family α) (it : HashIterator) (xs : List α) : Prop :=
  (it.bucket = t.numBuckets ∧ xs = []) ∨
    ∃ ns1 q ns2 p c cs, ns = ns1 ++ q :: ns2 ∧ it.bucket = ns1.length ∧ it.bucketIter = some p ∧
    Chain m p (c :: cs) ∧
      xs = (c :: cs).map Prod.snd ++ contents ns2

/-- From a bucket on, the items of it and of those behind it. -/
theorem visits_startAt (ns1 : Family α) (hbuckets : t.buckets = ns.map Prod.fst)
    (hlists : ∀ q ∈ ns, Represents m q.1 q.2) (hns : ns = ns1 ++ ns2) :
    Visits m t ns (startAt t (t.findNextFullBucket ns1.length)) (contents ns2) := by
  have hdrop : t.buckets.drop ns1.length = ns2.map Prod.fst := by
    rw [hbuckets, hns, List.map_append, List.drop_left' (List.length_map _)]
  rw [HashTable.findNextFullBucket, hdrop]
  clear hdrop
  induction ns2 generalizing ns1 with
  | nil =>
    refine Or.inl ⟨?_, rfl⟩
    rw [List.append_nil] at hns
    show ns1.length = t.numBuckets
    rw [← t.sized, hbuckets, List.length_map, hns]
  | cons q ns2 ih =>
    have hq : Represents m q.1 q.2 := hlists q (by simp [hns])
    by_cases hnil : q.2 = []
    · have hempty : q.1.isEmpty = true := hq.isEmpty_iff.mpr hnil
      rw [List.map_cons, HashTable.nextFull, if_pos hempty, contents_cons, hnil, List.map_nil,
        List.nil_append]
      have hrest := ih (ns1 ++ [q]) (by simp [hns])
      rwa [List.length_append, List.length_singleton] at hrest
    · have hfull : ¬ q.1.isEmpty = true := fun hempty => hnil (hq.isEmpty_iff.mp hempty)
      obtain ⟨c, cs, hcs⟩ := List.exists_cons_of_ne_nil hnil
      rw [List.map_cons, HashTable.nextFull, if_neg hfull]
      refine Or.inr ⟨ns1, q, ns2, q.1.first, c, cs, hns, rfl, ?_,
        hcs ▸ hq.chain, by rw [contents_cons, hcs]⟩
      simp [startAt, hbuckets, hns]

/-- An iterator is done when it has visited everything. -/
theorem Visits.isDone (hbuckets : t.buckets = ns.map Prod.fst) (h : Visits m t ns it xs) :
    it.isDone t = true ↔ xs = [] := by
  rw [HashIterator.isDone, decide_eq_true_eq]
  rcases h with ⟨hdone, hxs⟩ | ⟨ns1, q, ns2, p, c, cs, hns, hbucket, -, -, hxs⟩
  · exact iff_of_true hdone hxs
  · apply iff_of_false
    · rw [hbucket, ← t.sized, hbuckets, List.length_map, hns, List.length_append, List.length_cons]
      omega
    · simp [hxs]

/-- **`Next`** goes on to the item behind the one it is at. -/
theorem visits_next (hbuckets : t.buckets = ns.map Prod.fst)
    (hlists : ∀ q ∈ ns, Represents m q.1 q.2) (h : Visits m t ns it (x :: xs)) :
    it.item m t = some x ∧ ∃ it', it.next m t = some it' ∧ Visits m t ns it' xs := by
  have hdone : ¬ it.isDone t = true :=
    fun hdone => List.cons_ne_nil x xs ((h.isDone hbuckets).mp hdone)
  rcases h with ⟨-, hxs⟩ | ⟨ns1, q, ns2, p, c, cs, hns, hbucket, hiter, hchain, hxs⟩
  · exact absurd hxs (List.cons_ne_nil x xs)
  · obtain ⟨rfl, next, hread, hrest⟩ := hchain
    rw [List.map_cons, List.cons_append, List.cons.injEq] at hxs
    obtain ⟨rfl, rfl⟩ := hxs
    refine ⟨by simp [item, hdone, hiter, hread], ?_⟩
    rcases cs with _ | ⟨d, cs⟩
    · obtain rfl : next = none := hrest
      refine ⟨startAt t
        (t.findNextFullBucket (it.bucket + 1)), by simp [HashIterator.next, hiter, hread], ?_⟩
      have hbehind : ns = ns1 ++ [q] ++ ns2 := by simp [hns]
      have hstart := visits_startAt (ns1 ++ [q]) hbuckets hlists hbehind
      rwa [List.length_append, List.length_singleton, ← hbucket] at hstart
    · have hnext : next ≠ none := by rw [hrest.1]; simp
      refine ⟨{ it with bucketIter := some next }, by simp [HashIterator.next, hiter, hread, hnext],
        Or.inr ?_⟩
      exact ⟨ns1, q, ns2, next, d, cs, hns, hbucket, rfl, hrest, rfl⟩

theorem visit_of_visits (hbuckets : t.buckets = ns.map Prod.fst)
    (hlists : ∀ q ∈ ns, Represents m q.1 q.2) (n : ℕ) (h : Visits m t ns it xs)
    (hlen : xs.length ≤ n) : visit m t n it = some xs := by
  induction n generalizing it xs with
  | zero =>
    have hnil : xs = [] := List.length_eq_zero_iff.mp (Nat.le_zero.mp hlen)
    rw [visit, if_pos ((h.isDone hbuckets).mpr hnil), hnil]
  | succ n ih =>
    rw [visit]
    rcases xs with _ | ⟨x, xs⟩
    · rw [if_pos ((h.isDone hbuckets).mpr rfl)]
    · have hdone : ¬ it.isDone t = true :=
        fun hdone => List.cons_ne_nil x xs ((h.isDone hbuckets).mp hdone)
      obtain ⟨hitem, it', hnext, hrest⟩ := visits_next hbuckets hlists h
      rw [if_neg hdone, hitem, hnext]
      simp only [Option.bind_eq_bind, Option.bind_some, ih hrest (Nat.le_of_succ_le_succ hlen)]

/-- **An iterator** visits the items of the table, and is then done. -/
theorem visit_spec (h : HashTable.Inv getKey hash m t ns) (n : ℕ)
    (hlen : (contents ns).length ≤ n) :
    visit m t n (new t) = some (contents ns) := by
  have hbuckets := h.moving.buckets
  have hlists : ∀ q ∈ ns, Represents m q.1 q.2 :=
    fun q hq => h.moving.stored.lists q (by simpa using hq)
  exact visit_of_visits hbuckets hlists n (visits_startAt [] hbuckets hlists rfl) hlen

end HashIterator

/-! ### The map -/

namespace HashTable

open LinkedList (Represents contents contents_empty mem_contents)

variable {α κ : Type} {getKey : α → κ} {hash : κ → BitVec 32} {A : Allocator α}

/-- The operations that change a table. -/
inductive Op (α κ : Type)
  | insert (item : α)
  | remove (key : κ)
  deriving DecidableEq

/-- An operation on the table, with what `Remove` returns. -/
def call [DecidableEq α] [DecidableEq κ] (getKey : α → κ) (hash : κ → BitVec 32) (A : Allocator α) :
    Mem α × HashTable → Op α κ → Option ((Mem α × HashTable) × Option α)
  | (m, t), .insert item => (t.insert getKey hash A m item).map fun r => (r, none)
  | (m, t), .remove key => (t.remove getKey hash m key).map fun r => ((r.1, r.2.1), some r.2.2)

/-- The operation on a map, if the precondition that the source asserts holds. -/
def onMap [DecidableEq κ] (getKey : α → κ) (M : Finmap fun _ : κ => α) :
    Op α κ → Option ((Finmap fun _ : κ => α) × Option α)
  | .insert item => if getKey item ∈ M then none else some (M.insert (getKey item) item, none)
  | .remove key => (M.lookup key).map fun item => (M.erase key, some item)

variable [DecidableEq κ] {m : Mem α} {t : HashTable} {M M' : Finmap fun _ : κ => α} {op : Op α κ}
  {out : Option α}

/-- The table has the items of the map. -/
def Holds (getKey : α → κ) (hash : κ → BitVec 32) (s : Mem α × HashTable)
    (M : Finmap fun _ : κ => α) : Prop :=
  ∃ ns, Inv getKey hash s.1 s.2 ns ∧ ∀ k x, M.lookup k = some x ↔ x ∈ contents ns ∧ getKey x = k

theorem holds_new (getKey : α → κ) (hash : κ → BitVec 32) (m : Mem α) :
    Holds getKey hash (m, new) ∅ := by
  refine ⟨List.replicate initialBuckets (LinkedList.new, []),
    ⟨⟨rfl, Nat.succ_pos 3, ?_, ?_, ?_⟩, rfl, 0, rfl⟩, fun k x => ?_⟩
  · exact LinkedList.Stored.append_new ⟨by simp, List.Pairwise.nil⟩ _
  · intro i p hp y hy
    rw [List.eq_of_mem_replicate (List.mem_of_getElem? hp)] at hy
    cases hy
  · rw [List.nil_append, contents_empty]
    exact List.nodup_nil
  · simp [contents_empty]

/-- A key of the map is a key of an item. -/
theorem mem_iff_of_lookup {xs : List α} (h : ∀ k x, M.lookup k = some x ↔ x ∈ xs ∧ getKey x = k)
    (k : κ) :
    k ∈ M ↔ k ∈ xs.map getKey := by
  rw [Finmap.mem_iff, List.mem_map]
  exact exists_congr (h k)

/-- An operation on the table is the operation on its map. -/
theorem call_spec [DecidableEq α] (A : Allocator α) {s : Mem α × HashTable}
    (h : Holds getKey hash s M) (hop : onMap getKey M op = some (M', out)) :
    ∃ s', call getKey hash A s op = some (s', out) ∧ Holds getKey hash s' M' := by
  obtain ⟨m, t⟩ := s
  obtain ⟨ns, hinv, hM⟩ := h
  cases op with
  | insert item =>
    obtain ⟨habsent, hM'⟩ := Option.ite_none_left_eq_some.mp hop
    cases hM'
    rw [mem_iff_of_lookup hM] at habsent
    obtain ⟨m', t', ns', hinsert, hinv', hperm⟩ := insert_spec A hinv habsent
    refine ⟨(m', t'), by rw [call, hinsert]; rfl, ns', hinv', fun k x => ?_⟩
    rw [hperm.mem_iff, List.mem_cons]
    by_cases hk : k = getKey item
    · subst hk
      rw [Finmap.lookup_insert, Option.some.injEq]
      constructor
      · rintro rfl
        exact ⟨Or.inl rfl, rfl⟩
      · rintro ⟨rfl | hx, hkey⟩
        · rfl
        · exact absurd (hkey ▸ List.mem_map_of_mem hx) habsent
    · rw [Finmap.lookup_insert_of_ne _ hk, hM]
      refine and_congr_left fun hkey => (or_iff_right fun he => hk ?_).symm
      rw [← hkey, he]
  | remove key =>
    obtain ⟨item, hitem, hM'⟩ := Option.map_eq_some_iff.mp hop
    cases hM'
    obtain ⟨hmem, rfl⟩ := (hM key item).mp hitem
    obtain ⟨m', t', ns', hremove, hinv', hperm⟩ := remove_spec hinv hmem
    refine ⟨(m', t'), by rw [call, hremove]; rfl, ns', hinv', fun k x => ?_⟩
    -- the item removed is not there any more, nor is another with its key
    have hkeys := (hperm.map getKey).nodup_iff.mpr hinv.moving.keys
    have hgone := (List.nodup_cons.mp hkeys).1
    have hold : x ∈ contents ns ↔ x = item ∨ x ∈ contents ns' := by
      rw [← hperm.mem_iff, List.mem_cons]
    by_cases hk : k = getKey item
    · subst hk
      rw [Finmap.lookup_erase]
      refine iff_of_false (by simp) ?_
      rintro ⟨hx, hkey⟩
      exact hgone (hkey ▸ List.mem_map_of_mem hx)
    · rw [Finmap.lookup_erase_ne hk, hM, hold]
      refine and_congr_left fun hkey => or_iff_right fun he => hk ?_
      rw [← hkey, he]

/-- What the table of a map is like: it finds the item of each key, its items
are those of the map, in their places, and an iterator visits each once. -/
structure IsMap (getKey : α → κ) (hash : κ → BitVec 32) (m : Mem α) (t : HashTable)
    (M : Finmap fun _ : κ => α) : Prop where
  find : ∀ k, t.find getKey hash m k = some (M.lookup k)
  keys : ∀ k x, M.lookup k = some x → getKey x = k
  num : t.numItems = M.keys.card
  power : ∃ e, t.numBuckets = 4 ^ (e + 1)
  place : ∀ i < t.numBuckets, ∃ b cs, t.buckets[i]? = some b ∧ Represents m b cs ∧
    ∀ x, x ∈ cs.map Prod.snd ↔ M.lookup (getKey x) = some x ∧
    (hash (getKey x)).toNat % t.numBuckets = i
  sanity : t.sanityCheck getKey hash m = some ()
  visit : ∃ xs, xs.Nodup ∧ (∀ x, x ∈ xs ↔ M.lookup (getKey x) = some x) ∧
    ∀ n, M.keys.card ≤ n → HashIterator.visit m t n (HashIterator.new t) = some xs

theorem Holds.isMap (h : Holds getKey hash (m, t) M) : IsMap getKey hash m t M := by
  obtain ⟨ns, hinv, hM⟩ := h
  have hnodup : ((contents ns).map getKey).Nodup := hinv.moving.keys
  have hcard : M.keys.card = (contents ns).length := by
    have hkeys : M.keys = ((contents ns).map getKey).toFinset := by
      ext k
      rw [Finmap.mem_keys, List.mem_toFinset, mem_iff_of_lookup hM]
    calc M.keys.card = ((contents ns).map getKey).toFinset.card := by rw [hkeys]
      _ = ((contents ns).map getKey).length := List.toFinset_card_of_nodup hnodup
      _ = (contents ns).length := List.length_map _
  have hitems : ∀ x, x ∈ contents ns ↔ M.lookup (getKey x) = some x :=
    fun x => by rw [hM, and_iff_left rfl]
  refine ⟨fun k => ?_, fun k x hx => ((hM k x).mp hx).2, by rw [hinv.num, hcard], hinv.power,
    fun i hi => ?_, sanityCheck_spec hinv, contents ns, hnodup.of_map _, hitems, fun n hn => ?_⟩
  · obtain ⟨r, hfind, hr⟩ := find_spec hinv.moving k
    rw [hfind, Option.some.injEq]
    ext x
    rw [hr, hM]
  · have hlt : i < ns.length := by
      rwa [← List.length_map (f := Prod.fst), ← hinv.moving.buckets, t.sized]
    have hget := List.getElem?_eq_getElem hlt
    refine ⟨ns[i].1, ns[i].2, ?_, ?_, fun x => ⟨fun hx => ?_, fun hx => ?_⟩⟩
    · rw [hinv.moving.buckets, List.getElem?_map, hget]
      rfl
    · exact hinv.moving.stored.lists _ (List.getElem_mem hlt)
    · exact ⟨(hitems x).mp (mem_contents.mpr ⟨ns[i], List.getElem_mem hlt, hx⟩),
        hinv.moving.place i _ hget x hx⟩
    · obtain ⟨q, hq, hxq⟩ := mem_contents.mp ((hitems x).mpr hx.1)
      obtain ⟨j, hj⟩ := List.mem_iff_getElem?.mp hq
      obtain rfl : j = i := (hinv.moving.place j q hj x hxq).symm.trans hx.2
      obtain rfl : ns[j] = q := Option.some.inj (hget.symm.trans hj)
      exact hxq
  · exact HashIterator.visit_spec hinv n (hcard ▸ hn)

/-- `ReHash` leaves the map as it is. -/
theorem Holds.reHash [DecidableEq α] (A : Allocator α) (h : Holds getKey hash (m, t) M) :
    ∃ m' t', t.reHash getKey hash A m = some (m', t') ∧ Holds getKey hash (m', t') M ∧
    t'.numBuckets = 4 * t.numBuckets := by
  obtain ⟨ns, hinv, hM⟩ := h
  obtain ⟨m', t', ns', hre, hinv', hperm, hsize⟩ := reHash_spec A hinv
  refine ⟨m', t', hre, ⟨ns', hinv', fun k x => ?_⟩, hsize⟩
  rw [hperm.mem_iff]
  exact hM k x

/-- **Hash tables are finite maps.** A sequence of insertions of absent keys and
removals of present ones has a result, whatever the hash function and whatever
the allocator chooses; what it returns is what it returns on the map, and the
table is then the table of the map. So it is after one more `ReHash`. -/
theorem hash_table_map [DecidableEq α] (getKey : α → κ) (hash : κ → BitVec 32) (A : Allocator α)
    (m : Mem α) (ops : List (Op α κ)) (M : Finmap fun _ : κ => α) (outs : List (Option α))
    (hops : Calls.run (onMap getKey) ∅ ops = some (M, outs)) :
    ∃ m' t, Calls.run (call getKey hash A) (m, new) ops = some ((m', t), outs) ∧
      IsMap getKey hash m' t M ∧
      ∃ m'' t', t.reHash getKey hash A m' = some (m'', t') ∧ IsMap getKey hash m'' t' M ∧
        t'.numBuckets = 4 * t.numBuckets := by
  have hcall : ∀ s N op N' o, Holds getKey hash s N → onMap getKey N op = some (N', o) →
      ∃ s', call getKey hash A s op = some (s', o) ∧ Holds getKey hash s' N' :=
        fun s N op N' o hR h => call_spec A hR h
  obtain ⟨⟨m', t⟩, hrun, hholds⟩ := Calls.run_refines hcall ops (holds_new getKey hash m) hops
  obtain ⟨m'', t', hre, hholds', hsize⟩ := hholds.reHash A
  exact ⟨m', t, hrun, hholds.isMap, m'', t', hre, hholds'.isMap, hsize⟩

/-- Two keys in one bucket, one of which is removed. -/
theorem hash_table_map_collision : ∃ m' t,
    Calls.run (call Prod.fst (BitVec.ofNat 32) Allocator.above) (Mem.empty, new)
      [.insert (1, 10), .insert (5, 50), .remove 1] = some ((m', t), [none, none, some (1, 10)]) ∧
    IsMap Prod.fst (BitVec.ofNat 32) m' t (Finmap.singleton 5 (5, 50)) ∧
    ∃ m'' t', t.reHash Prod.fst (BitVec.ofNat 32) Allocator.above m' = some (m'', t') ∧
      IsMap Prod.fst (BitVec.ofNat 32) m'' t' (Finmap.singleton 5 (5, 50)) ∧
      t'.numBuckets = 4 * t.numBuckets :=
  hash_table_map Prod.fst (BitVec.ofNat 32) Allocator.above Mem.empty _ (Finmap.singleton 5 (5, 50))
    _ (by decide)

end HashTable
end Nachos
