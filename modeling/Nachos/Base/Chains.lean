/-
# Chains of cells

A heap holds cells, each with an item and the address of the next cell, or
none (NULL). A segment is what one meets from one address to another when one
follows the next addresses; a chain is a segment that ends at NULL. A chain
meets no cell twice (`Chain.nodup`), so it has at most as many cells as the
heap (`Chain.length_le`), and no other chain starts where it does
(`Chain.unique`).

Several chains may lie in one heap. A step that works on one of them changes
its cells and takes free ones (`Frame`); a chain without a cell in common
with the first has none in common with what that becomes, and is still there
(`Frame.keeps`).

Cells come from an allocator, which may choose any free address; the choice
may depend on the heap and on how often there was one before, so every
sequence of choices is that of some allocator.

Key definitions: `Chains.Mem`, `Chains.Allocator`, `Chains.Seg`, `Chains.Chain`,
`Chains.Frame`.
Key theorems: `Chains.seg_append`, `Chains.Chain.unique`, `Chains.Chain.nodup`,
`Chains.Frame.keeps`.
-/
import Mathlib

namespace Chains

variable {α : Type*}

/-- A cell. -/
structure Cell (α : Type*) where
  item : α
  next : Option ℕ
  deriving DecidableEq

/-- The cells that are allocated. -/
abbrev Heap (α : Type*) := Finmap fun _ : ℕ => Cell α

/-- A heap, and how often a cell of it was allocated. -/
structure Mem (α : Type*) where
  cells : Heap α
  news : ℕ

/-- What chooses the address of a new cell. -/
structure Allocator (α : Type*) where
  choose : ℕ → Heap α → ℕ
  fresh : ∀ n h, choose n h ∉ h

/-- The allocator that goes up from the highest address in use. -/
def Allocator.above : Allocator α where
  choose _ h := h.keys.sup id + 1
  fresh _ h hmem := by
    have := Finset.le_sup (f := id) (Finmap.mem_keys.mpr hmem)
    simp only [id] at this
    omega

namespace Mem

/-- Nothing is allocated. -/
def empty : Mem α := ⟨∅, 0⟩

/-- A new cell, which no cell follows, and where it is. -/
def new (A : Allocator α) (m : Mem α) (item : α) : Mem α × ℕ :=
  (⟨m.cells.insert (A.choose m.news m.cells) ⟨item, none⟩, m.news + 1⟩, A.choose m.news m.cells)

/-- The cell at an address; there is none unless it is allocated. -/
def read (m : Mem α) (p : ℕ) : Option (Cell α) := m.cells.lookup p

/-- An assignment to the next address of a cell. -/
def setNext (m : Mem α) (p : ℕ) (q : Option ℕ) : Option (Mem α) :=
  (m.read p).map fun c => { m with cells := m.cells.insert p { c with next := q } }

/-- A cell is given back; it must be allocated. -/
def delete (m : Mem α) (p : ℕ) : Option (Mem α) :=
  (m.read p).map fun _ => { m with cells := m.cells.erase p }

/-- The number of cells. A loop along next addresses that does more passes
than this has met a cell twice and goes round for ever. -/
def size (m : Mem α) : ℕ := m.cells.keys.card

variable {A : Allocator α} {m m' : Mem α} {x : α} {p a : ℕ} {q : Option ℕ} {c : Cell α}

theorem read_new_self : (m.new A x).1.read (m.new A x).2 = some ⟨x, none⟩ := Finmap.lookup_insert _

theorem read_new_of_ne (h : a ≠ (m.new A x).2) : (m.new A x).1.read a = m.read a :=
  Finmap.lookup_insert_of_ne _ h

/-- The address of a new cell was free. -/
theorem read_fresh : m.read (m.new A x).2 = none := Finmap.lookup_eq_none.mpr (A.fresh _ _)

/-- What was allocated is not the new cell, and is as it was. -/
theorem read_new (h : m.read a = some c) : a ≠ (m.new A x).2 ∧ (m.new A x).1.read a = some c := by
  have hne : a ≠ (m.new A x).2 := by
    rintro rfl
    rw [read_fresh] at h
    cases h
  exact ⟨hne, (read_new_of_ne hne).trans h⟩

theorem setNext_spec (q : Option ℕ) (h : m.read p = some c) :
    ∃ m', m.setNext p q = some m' ∧ m'.read p = some { c with next := q } ∧
    ∀ a ≠ p, m'.read a = m.read a := by
  refine ⟨{ m with cells := m.cells.insert p { c with next := q } }, ?_, ?_, ?_⟩
  · rw [setNext, h]
    rfl
  · exact Finmap.lookup_insert _
  · exact fun a ha => Finmap.lookup_insert_of_ne _ ha

theorem delete_spec (h : m.read p = some c) :
    ∃ m', m.delete p = some m' ∧ m'.read p = none ∧ ∀ a ≠ p, m'.read a = m.read a := by
  refine ⟨{ m with cells := m.cells.erase p }, ?_, ?_, ?_⟩
  · rw [delete, h]
    rfl
  · exact Finmap.lookup_erase _ _
  · exact fun a ha => Finmap.lookup_erase_ne ha

end Mem

variable {m m' m'' : Mem α} {p q r : Option ℕ} {c : ℕ × α} {cs ds : List (ℕ × α)} {as bs : List ℕ}

/-- The cells `cs`, each an address and an item, lead from `p` to `q`. -/
def Seg (m : Mem α) : Option ℕ → List (ℕ × α) → Option ℕ → Prop
  | p, [], q => p = q
  | p, c :: cs, q => p = some c.1 ∧ ∃ next, m.read c.1 = some ⟨c.2, next⟩ ∧ Seg m next cs q

/-- The cells `cs` lead from `p` to the end. -/
abbrev Chain (m : Mem α) (p : Option ℕ) (cs : List (ℕ × α)) : Prop := Seg m p cs none

@[simp] theorem seg_nil : Seg m p [] q ↔ p = q := Iff.rfl

@[simp] theorem seg_cons :
    Seg m p (c :: cs) q ↔ p = some c.1 ∧ ∃ next, m.read c.1 = some ⟨c.2, next⟩ ∧ Seg m next cs q :=
  Iff.rfl

/-- A segment can be cut anywhere. -/
theorem seg_append : Seg m p (cs ++ ds) q ↔ ∃ r, Seg m p cs r ∧ Seg m r ds q := by
  induction cs generalizing p with
  | nil => simp
  | cons c cs ih =>
    simp only [List.cons_append, seg_cons, ih]
    constructor
    · rintro ⟨hp, next, hread, r, h1, h2⟩
      exact ⟨r, ⟨hp, next, hread, h1⟩, h2⟩
    · rintro ⟨r, ⟨hp, next, hread, h1⟩, h2⟩
      exact ⟨hp, next, hread, r, h1, h2⟩

/-- The cells of a segment are allocated. -/
theorem Seg.read (h : Seg m p cs q) (hc : c ∈ cs) : ∃ next, m.read c.1 = some ⟨c.2, next⟩ := by
  obtain ⟨cs1, cs2, rfl⟩ := List.append_of_mem hc
  obtain ⟨r, -, -, next, hread, -⟩ := seg_append.mp h
  exact ⟨next, hread⟩

/-- A segment depends on its own cells. -/
theorem Seg.congr (h : Seg m p cs q) (hsame : ∀ c ∈ cs, m'.read c.1 = m.read c.1) :
    Seg m' p cs q := by
  induction cs generalizing p with
  | nil => exact h
  | cons c cs ih =>
    obtain ⟨hp, next, hread, hrest⟩ := h
    refine ⟨hp, next, (hsame c List.mem_cons_self).trans hread, ?_⟩
    exact ih hrest fun c' hc' => hsame c' (List.mem_cons_of_mem _ hc')

/-- There is one chain from an address. -/
theorem Chain.unique (h : Chain m p cs) (h' : Chain m p ds) : cs = ds := by
  induction cs generalizing p ds with
  | nil =>
    obtain rfl := seg_nil.mp h
    cases ds with
    | nil => rfl
    | cons d ds => exact absurd h'.1 (by simp)
  | cons c cs ih =>
    obtain ⟨rfl, next, hread, hrest⟩ := h
    cases ds with
    | nil => exact absurd (seg_nil.mp h') (by simp)
    | cons d ds =>
      obtain ⟨hp, next', hread', hrest'⟩ := h'
      have haddr : c.1 = d.1 := Option.some.inj hp
      rw [haddr, hread', Option.some.injEq, Cell.mk.injEq] at hread
      obtain ⟨hitem, rfl⟩ := hread
      rw [ih hrest hrest', Prod.ext haddr hitem.symm]

/-- A chain that ends meets no cell twice. -/
theorem Chain.nodup (h : Chain m p cs) : (cs.map Prod.fst).Nodup := by
  induction cs generalizing p with
  | nil => exact List.nodup_nil
  | cons c cs ih =>
    have hwhole := h
    obtain ⟨rfl, next, -, hrest⟩ := h
    rw [List.map_cons, List.nodup_cons]
    refine ⟨fun hmem => ?_, ih hrest⟩
    -- the chain from the second meeting on would be the whole chain
    obtain ⟨d, hd, haddr⟩ := List.mem_map.mp hmem
    obtain ⟨cs1, cs2, rfl⟩ := List.append_of_mem hd
    obtain ⟨r, -, hr⟩ := seg_append.mp hrest
    have hsame : Chain m (some c.1) (d :: cs2) := by
      rw [← haddr, ← hr.1]
      exact hr
    have hlen := congrArg List.length (hwhole.unique hsame)
    simp only [List.length_cons, List.length_append] at hlen
    omega

theorem Chain.length_le (h : Chain m p cs) : cs.length ≤ m.size := by
  have hsub : (cs.map Prod.fst).toFinset ⊆ m.cells.keys := by
    intro a ha
    obtain ⟨c, hc, rfl⟩ := List.mem_map.mp (List.mem_toFinset.mp ha)
    obtain ⟨next, hread⟩ := Seg.read h hc
    exact Finmap.mem_keys.mpr (Finmap.mem_of_lookup_eq_some hread)
  have hcard := Finset.card_le_card hsub
  rwa [List.toFinset_card_of_nodup h.nodup, List.length_map] at hcard

theorem Chain.eq_nil_iff (h : Chain m p cs) : cs = [] ↔ p = none := by
  cases cs with
  | nil => exact iff_of_true rfl h
  | cons c cs => exact iff_of_false (by simp) (by rw [h.1]; simp)

/-- The cells of a chain are still there beside a new one, which is none of them. -/
theorem Chain.new (A : Allocator α) (x : α) (h : Chain m p cs) :
    Chain (m.new A x).1 p cs ∧ (m.new A x).2 ∉ cs.map Prod.fst := by
  have hne : ∀ c ∈ cs, c.1 ≠ (m.new A x).2 := by
    intro c hc
    obtain ⟨next, hread⟩ := Seg.read h hc
    exact (Mem.read_new hread).1
  refine ⟨Seg.congr h fun c hc => Mem.read_new_of_ne (hne c hc), fun hmem => ?_⟩
  obtain ⟨c, hc, he⟩ := List.mem_map.mp hmem
  exact hne c hc he

theorem Chain.single (A : Allocator α) (m : Mem α) (x : α) :
    Chain (m.new A x).1 (some (m.new A x).2) [((m.new A x).2, x)] :=
  ⟨rfl, none, Mem.read_new_self, rfl⟩

/-- The last cell of a segment is given another next address, from which a
chain leads on. -/
theorem Seg.redirect (h : Seg m p (cs ++ [c]) q) (hr : Chain m r ds)
    (hc : c.1 ∉ (cs ++ ds).map Prod.fst) :
    ∃ m', m.setNext c.1 r = some m' ∧ Chain m' p (cs ++ [c] ++ ds) ∧
    ∀ a ≠ c.1, m'.read a = m.read a := by
  rw [List.map_append, List.mem_append, not_or] at hc
  obtain ⟨r', hpre, rfl, next, hread, -⟩ := seg_append.mp h
  obtain ⟨m', hset, hnew, hsame⟩ := Mem.setNext_spec r hread
  refine ⟨m', hset, ?_, hsame⟩
  apply seg_append.mpr
  refine ⟨r, seg_append.mpr ⟨some c.1, ?_, rfl, r, hnew, rfl⟩, ?_⟩
  · exact hpre.congr fun d hd => hsame _ fun he => hc.1 (he ▸ List.mem_map_of_mem hd)
  · exact hr.congr fun d hd => hsame _ fun he => hc.2 (he ▸ List.mem_map_of_mem hd)

/-- In a chain that goes on behind `c`, the cell `c` is at no other place. -/
theorem Chain.notMem (h : Chain m p (cs ++ [c] ++ ds)) : c.1 ∉ (cs ++ ds).map Prod.fst := by
  have hnodup := h.nodup
  rw [List.append_assoc, List.map_append, List.map_append, List.map_singleton,
    List.singleton_append, List.nodup_middle, List.nodup_cons] at hnodup
  rw [List.map_append]
  exact hnodup.1

/-- A cell is linked in before a chain. -/
theorem Chain.linkFirst {a : ℕ} {x : α} (h : Chain m p cs) (hnew : m.read a = some ⟨x, none⟩)
    (ha : a ∉ cs.map Prod.fst) :
    ∃ m', m.setNext a p = some m' ∧ Chain m' (some a) ((a, x) :: cs) ∧
    ∀ b ≠ a, m'.read b = m.read b := by
  have hone : Chain m (some a) ([] ++ [(a, x)]) := ⟨rfl, none, hnew, rfl⟩
  exact hone.redirect h ha

/-- A cell is linked in behind the last of a chain. -/
theorem Chain.linkLast {a : ℕ} {x : α} (h : Chain m p (cs ++ [c]))
    (hnew : m.read a = some ⟨x, none⟩) (ha : a ∉ (cs ++ [c]).map Prod.fst) :
    ∃ m', m.setNext c.1 (some a) = some m' ∧ Chain m' p (cs ++ [c] ++ [(a, x)]) ∧
    ∀ b ≠ c.1, m'.read b = m.read b := by
  have hc : c.1 ∉ (cs ++ []).map Prod.fst := Chain.notMem (by simpa using h)
  refine Seg.redirect (c := c) h ⟨rfl, none, hnew, rfl⟩ fun hmem => ?_
  rw [List.map_append, List.mem_append] at hmem
  rcases hmem with hmem | hmem
  · exact hc (by simpa using hmem)
  · exact ha (by simp_all)

/-- A cell is linked in behind the cell `c`. -/
theorem Chain.link {a : ℕ} {x : α} (h : Chain m p (cs ++ [c] ++ ds)) (hds : Chain m q ds)
    (hnew : m.read a = some ⟨x, none⟩) (ha : a ∉ (cs ++ [c] ++ ds).map Prod.fst) :
    ∃ m1 m2, m.setNext a q = some m1 ∧ m1.setNext c.1 (some a) = some m2 ∧
    Chain m2 p (cs ++ [c] ++ (a, x) :: ds) ∧
      ∀ b, b ≠ a → b ≠ c.1 → m2.read b = m.read b := by
  have hc := Chain.notMem h
  simp only [List.map_append, List.map_cons, List.map_nil, List.mem_append, List.mem_cons,
    List.not_mem_nil, or_false, not_or] at ha hc
  obtain ⟨m1, hset1, hchain1, hsame1⟩ := hds.linkFirst hnew ha.2
  obtain ⟨r, hpre, -⟩ := seg_append.mp h
  have hpre1 : Seg m1 p (cs ++ [c]) r := by
    refine hpre.congr fun d hd => hsame1 _ ?_
    rintro rfl
    rw [List.mem_append, List.mem_singleton] at hd
    exact hd.elim (fun hd => ha.1.1 (List.mem_map_of_mem hd)) fun hd =>
      ha.1.2 (congrArg Prod.fst hd)
  have hc' : c.1 ∉ (cs ++ (a, x) :: ds).map Prod.fst := by
    simp only [List.map_append, List.map_cons, List.mem_append, List.mem_cons, not_or]
    exact ⟨hc.1, fun he => ha.1.2 he.symm, hc.2⟩
  obtain ⟨m2, hset2, hchain2, hsame2⟩ := hpre1.redirect hchain1 hc'
  exact ⟨m1, m2, hset1, hset2, hchain2, fun b h1 h2 => (hsame2 b h2).trans (hsame1 b h1)⟩

/-- A cell is taken out of a chain and given back. -/
theorem Chain.unlink {prev : ℕ × α} (h : Chain m p (cs ++ [prev] ++ c :: ds)) :
    ∃ next m1 m2, m.read c.1 = some ⟨c.2, next⟩ ∧ m.setNext prev.1 next = some m1 ∧
      m1.delete c.1 = some m2 ∧
      Chain m2 p (cs ++ [prev] ++ ds) ∧ (next = none ↔ ds = []) ∧ ∀ a, a ≠ prev.1 → a ≠ c.1 →
      m2.read a = m.read a := by
  have hprev := Chain.notMem h
  have hc : c.1 ∉ (cs ++ [prev] ++ ds).map Prod.fst := Chain.notMem (by simpa using h)
  simp only [List.map_append, List.map_cons, List.mem_append, List.mem_cons, not_or] at hprev
  obtain ⟨q, hpre, rfl, next, hread, hrest⟩ := seg_append.mp h
  have hprev' : prev.1 ∉ (cs ++ ds).map Prod.fst := by
    rw [List.map_append, List.mem_append, not_or]
    exact ⟨hprev.1, hprev.2.2⟩
  obtain ⟨m1, hset, hchain, hsame1⟩ := hpre.redirect hrest hprev'
  obtain ⟨m2, hdel, -, hsame2⟩ :=
    Mem.delete_spec ((hsame1 _ fun he => hprev.2.1 he.symm).trans hread)
  refine ⟨next, m1, m2, hread, hset, hdel, ?_, (Chain.eq_nil_iff hrest).symm,
    fun a h1 h2 => (hsame2 a h2).trans (hsame1 a h1)⟩
  exact hchain.congr fun d hd => hsame2 _ fun he => hc (he ▸ List.mem_map_of_mem hd)

/-! ### Frames -/

/-- From `m` to `m'` no cell changes that is not in `as`, and a cell of `bs` is
in `as` or was free. -/
structure Frame (m m' : Mem α) (as bs : List ℕ) : Prop where
  same : ∀ a c, m.read a = some c → a ∉ as → m'.read a = some c
  taken : ∀ b ∈ bs, b ∈ as ∨ m.read b = none

theorem Frame.refl (m : Mem α) (as : List ℕ) : Frame m m as as :=
  ⟨fun _ _ h _ => h, fun _ hb => Or.inl hb⟩

theorem Frame.mono {bs' : List ℕ} (h : Frame m m' as bs) (hsub : bs' ⊆ bs) : Frame m m' as bs' :=
  ⟨h.same, fun b hb => h.taken b (hsub hb)⟩

/-- One step after another on the same chain. -/
theorem Frame.trans {ks : List ℕ} (h : Frame m m' as bs) (h' : Frame m' m'' bs ks) :
    Frame m m'' as ks := by
  have hsame : ∀ a c, m.read a = some c → a ∉ as → a ∉ bs := by
    intro a c hread ha hb
    rcases h.taken a hb with h1 | h1
    · exact ha h1
    · rw [hread] at h1
      cases h1
  refine ⟨fun a c hread ha => h'.same a c (h.same a c hread ha) (hsame a c hread ha),
    fun k hk => ?_⟩
  rcases h'.taken k hk with h1 | h1
  · exact h.taken k h1
  · by_contra hno
    obtain ⟨hnot, hsome⟩ := not_or.mp hno
    obtain ⟨c, hread⟩ := Option.ne_none_iff_exists'.mp hsome
    rw [h.same k c hread hnot] at h1
    cases h1

/-- What the rest of the heap keeps: a segment apart from the cells that may
change is still there, and apart from what they have become. -/
theorem Frame.keeps (h : Frame m m' as bs) (hs : Seg m p cs q) (hout : ∀ c ∈ cs, c.1 ∉ as) :
    Seg m' p cs q ∧ ∀ c ∈ cs, c.1 ∉ bs := by
  refine ⟨hs.congr fun c hc => ?_, fun c hc hb => ?_⟩
  · obtain ⟨next, hread⟩ := hs.read hc
    rw [hread]
    exact h.same _ _ hread (hout c hc)
  · obtain ⟨next, hread⟩ := hs.read hc
    rcases h.taken _ hb with h1 | h1
    · exact hout c hc h1
    · rw [hread] at h1
      cases h1

/-- The new cell is of the chain from now on. -/
theorem Frame.new (A : Allocator α) (m : Mem α) (x : α) (as : List ℕ) :
    Frame m (m.new A x).1 as ((m.new A x).2 :: as) := by
  refine ⟨fun a _ hread _ => (Mem.read_new hread).2, fun b hb => ?_⟩
  rcases List.mem_cons.mp hb with rfl | hb
  · exact Or.inr Mem.read_fresh
  · exact Or.inl hb

/-- Cells of the chain are changed. -/
theorem Frame.of_same (h : ∀ b, b ∉ as → m'.read b = m.read b) : Frame m m' as as :=
  ⟨fun b _ hread hb => (h b hb).trans hread, fun _ hb => Or.inl hb⟩

end Chains
