/-
# More than one `.bss` (`coff2noff/coff2noff.c`)

A NOFF file has room for one range of uninitialized data, so `main` is to take
a second `.bss` section only if it lies directly behind what it has: "make
sure they are contiguous". The test in the loop has `==` for `!=`. A section
that starts at the end of the data collected so far is an error, and one that
starts anywhere else is added to the size, so the segment of the output covers
addresses that are in no section.

What the loop has collected after any number of sections is a function of the
sections (`collected`, `copySections_has`), and covers just the `.bss` sections
where they are contiguous (`BssContiguous.covers`, `coff2noff_covered`); but the
loop stops at a `.bss` that is contiguous, and at no other (`copySections_isSome`).

Key definitions: `collected`, `AtEnd`, `BssContiguous`, `MergesContiguous`.
Key theorems: `coff2noff_covered`, `copySections_isSome`, `merges_iff`.
-/
import Mathlib
import Nachos.Coff2noff.Convert

namespace Nachos

open Bytes (Byte)

/-! ### What is collected -/

/-- A range of uninitialized data, as `noffH.uninitData` has it. -/
structure Extent where
  virtualAddr : ℤ
  size : ℤ
  deriving DecidableEq

/-- A section that is not empty goes behind what is there. -/
def Extent.add (e : Extent) (x : ScnHdr) : Extent :=
  if x.IsBss then
    if e.size ≠ 0 then { e with size := wrap32 (e.size + x.s_size) } else ⟨x.s_paddr, x.s_size⟩
  else e

/-- The uninitialized data of the sections `done`. -/
def collected (done : List ScnHdr) : Extent := done.foldl Extent.add ⟨0, 0⟩

/-- Section `x` starts at the end of the uninitialized data of `done`. -/
def AtEnd (done : List ScnHdr) (x : ScnHdr) : Prop :=
  x.s_paddr = wrap32 ((collected done).virtualAddr + (collected done).size)

instance (done : List ScnHdr) (x : ScnHdr) : Decidable (AtEnd done x) :=
  inferInstanceAs (Decidable (_ = _))

/-- Each later `.bss` starts at the end of what is collected. -/
def BssContiguous (secs : List ScnHdr) : Prop :=
  ∀ done x rest, secs = done ++ x :: rest → x.IsBss → (∃ y ∈ done, y.IsBss) → AtEnd done x

/-- The segment covers the `.bss` sections, and nothing else. -/
def BssCovered (secs : List ScnHdr) (s : Segment) : Prop :=
  ∀ a, (s.virtualAddr ≤ a ∧ a < s.virtualAddr + s.size) ↔
    ∃ x ∈ secs, x.IsBss ∧ x.s_paddr ≤ a ∧ a < x.s_paddr + x.s_size

/-- What is asked of the conversion: a file comes out only if the `.bss`
sections are contiguous, and has them in its header; otherwise an error exit,
which removes the output. -/
def MergesContiguous (stack : ℕ → Byte) (file : List Byte) (secs : List ScnHdr) : Prop :=
  (∀ noff, coff2noff stack file = some noff →
    BssContiguous secs ∧ BssCovered secs (readHeader noff stack).uninitData) ∧
  (¬ BssContiguous secs → coff2noff stack file = none)

/-- The sections of the file, of which those that are not `.bss` are taken. -/
structure Taken (stack : ℕ → Byte) (file : List Byte) (secs : List ScnHdr) (pos : ℕ) : Prop where
  sections : readSections file = some (secs, pos)
  others : ((secs.filter fun x => ¬ x.IsBss).foldlM (copySection file)
    ⟨startHeader stack, sizeofNoffHeader, pos, []⟩).isSome

/-- Some later `.bss` starts at the end of what is collected. -/
def SomeAtEnd (secs : List ScnHdr) : Prop :=
  ∃ done x rest, secs = done ++ x :: rest ∧ x.IsBss ∧ (collected done).size ≠ 0 ∧ AtEnd done x

theorem collected_concat (done : List ScnHdr) (x : ScnHdr) :
    collected (done ++ [x]) = (collected done).add x := by
  rw [collected, List.foldl_append]
  rfl

theorem add_of_not_isBss {x : ScnHdr} (hx : ¬ x.IsBss) (e : Extent) : e.add x = e := if_neg hx

theorem foldl_add_of_none {l : List ScnHdr} (hl : ∀ x ∈ l, ¬ x.IsBss) (e : Extent) :
    l.foldl Extent.add e = e := by
  induction l with
  | nil => rfl
  | cons x l ih =>
    rw [List.forall_mem_cons] at hl
    rw [List.foldl_cons, add_of_not_isBss hl.1]
    exact ih hl.2

/-- Of two `.bss` sections the second comes when the first has been collected. -/
theorem exists_second {secs : List ScnHdr} (h2 : 2 ≤ (secs.filter ScnHdr.IsBss).length) :
    ∃ done x rest, secs = done ++ x :: rest ∧ x.IsBss ∧ (∃ y ∈ done, y.IsBss) ∧
    (collected done).size ≠ 0 := by
  match hf : secs.filter ScnHdr.IsBss with
  | [] => rw [hf] at h2; exact absurd h2 (by decide)
  | [_] => rw [hf] at h2; exact absurd h2 (by simp)
  | y :: x :: bss =>
    obtain ⟨before, after, rfl, hbefore, hy, hafter⟩ := List.filter_eq_cons_iff.mp hf
    obtain ⟨between, rest, rfl, hbetween, hx, -⟩ := List.filter_eq_cons_iff.mp hafter
    have hy : y.IsBss := of_decide_eq_true hy
    have hbefore : ∀ z ∈ before, ¬ z.IsBss := fun z hz => by simpa using hbefore z hz
    have hbetween : ∀ z ∈ between, ¬ z.IsBss := fun z hz => by simpa using hbetween z hz
    have hcollected : collected (before ++ y :: between) = ⟨y.s_paddr, y.s_size⟩ := by
      rw [collected, List.foldl_append, foldl_add_of_none hbefore, List.foldl_cons,
        foldl_add_of_none hbetween, Extent.add, if_pos hy]
      rfl
    refine ⟨before ++ y :: between, x, rest, by simp, of_decide_eq_true hx, ⟨y, by simp, hy⟩, ?_⟩
    rw [hcollected]
    exact hy.1

/-- Contiguous sections are at the end of what is collected. -/
theorem BssContiguous.someAtEnd {secs : List ScnHdr} (h : BssContiguous secs)
    (h2 : 2 ≤ (secs.filter ScnHdr.IsBss).length) : SomeAtEnd secs := by
  obtain ⟨done, x, rest, hsplit, hx, hfirst, hsize⟩ := exists_second h2
  exact ⟨done, x, rest, hsplit, hx, hsize, h done x rest hsplit hx hfirst⟩

/-- `e` is just the sections of `done`. -/
structure Extent.Covers (e : Extent) (done : List ScnHdr) : Prop where
  inside : 0 ≤ e.virtualAddr ∧ 0 ≤ e.size ∧ e.virtualAddr + e.size < 2 ^ 31
  empty : e.size = 0 ↔ ∀ y ∈ done, ¬ y.IsBss
  covers : ∀ a, (e.virtualAddr ≤ a ∧ a < e.virtualAddr + e.size) ↔
    ∃ x ∈ done, x.IsBss ∧ x.s_paddr ≤ a ∧ a < x.s_paddr + x.s_size

/-- One more section, which is not `.bss`, is the first, or lies behind the others. -/
theorem Extent.Covers.concat {e : Extent} {done : List ScnHdr} {x : ScnHdr} (h : e.Covers done)
    (hreal : x.IsBss → 0 ≤ x.s_paddr ∧ 0 < x.s_size ∧ x.s_paddr + x.s_size < 2 ^ 31)
    (hend : x.IsBss → e.size ≠ 0 → x.s_paddr = wrap32 (e.virtualAddr + e.size)) :
    (e.add x).Covers (done ++ [x]) := by
  obtain ⟨hva, hsize, hin⟩ := h.inside
  have hlast : ∀ P : ScnHdr → Prop,
      (∃ y ∈ done ++ [x], y.IsBss ∧ P y) ↔ (∃ y ∈ done, y.IsBss ∧ P y) ∨ x.IsBss ∧ P x := by
    intro P
    simp only [List.mem_append, List.mem_singleton, or_and_right, exists_or, exists_eq_left]
  have hnone : (∀ y ∈ done ++ [x], ¬ y.IsBss) ↔ (∀ y ∈ done, ¬ y.IsBss) ∧ ¬ x.IsBss := by
    simp only [List.mem_append, List.mem_singleton, or_imp, forall_and, forall_eq]
  by_cases hx : x.IsBss
  · obtain ⟨haddr, hpos, hx31⟩ := hreal hx
    have hsome : ¬ ∀ y ∈ done ++ [x], ¬ y.IsBss := fun hno => (hnone.mp hno).2 hx
    rw [Extent.add, if_pos hx]
    by_cases he : e.size = 0
    · rw [if_neg (not_not.mpr he)]
      refine ⟨⟨haddr, hpos.le, hx31⟩, iff_of_false hpos.ne' hsome, fun a => ?_⟩
      have hfirst : ¬ ∃ y ∈ done, y.IsBss ∧ y.s_paddr ≤ a ∧ a < y.s_paddr + y.s_size := by
        rintro ⟨y, hy, hyb, -⟩
        exact h.empty.mp he y hy hyb
      rw [hlast, or_iff_right hfirst, and_iff_right hx]
    · have hat : x.s_paddr = e.virtualAddr + e.size :=
        (hend hx he).trans (wrap32_of_lt (by omega) hin)
      have hsum : wrap32 (e.size + x.s_size) = e.size + x.s_size :=
        wrap32_of_lt (by omega) (by omega)
      rw [if_pos he, hsum]
      refine ⟨⟨hva, by simp only; omega, by simp only; omega⟩, iff_of_false (by simp only; omega)
        hsome, fun a => ?_⟩
      rw [hlast, ← h.covers a, and_iff_right hx]
      simp only
      omega
  · rw [add_of_not_isBss hx]
    refine ⟨h.inside, ?_, fun a => ?_⟩
    · rw [hnone, and_iff_left hx, h.empty]
    · rw [hlast, or_iff_left fun hb => hx hb.1, h.covers a]

/-- **Why they are to be contiguous.** What is collected is then just the
sections, whatever else is between them in the file. -/
theorem BssContiguous.covers {secs : List ScnHdr} (h : BssContiguous secs)
    (hreal : ∀ x ∈ secs, x.IsBss → 0 ≤ x.s_paddr ∧ 0 < x.s_size ∧ x.s_paddr + x.s_size < 2 ^ 31) :
    (collected secs).Covers secs := by
  induction secs using List.reverseRecOn with
  | nil =>
    refine ⟨⟨le_refl 0, le_refl 0, by decide⟩, iff_of_true rfl (by simp), fun a => ?_⟩
    refine iff_of_false (fun ha => ?_) (by simp)
    exact absurd (ha.1.trans_lt ha.2) (lt_irrefl 0)
  | append_singleton done x ih =>
    have hbefore : BssContiguous done := fun pre y rest hsplit hy hfirst =>
      h pre y (rest ++ [x]) (by rw [hsplit]; simp) hy hfirst
    have hdone := ih hbefore fun y hy => hreal y (List.mem_append_left _ hy)
    rw [collected_concat]
    refine hdone.concat (hreal x (by simp)) fun hx hsize => h done x [] rfl hx ?_
    by_contra hno
    exact hsize (hdone.empty.mpr fun y hy hyb => hno ⟨y, hy, hyb⟩)

/-! ### What the loop does -/

/-- The header has collected `e`. -/
structure Conv.Has (c : Conv) (e : Extent) : Prop where
  size : c.noffH.uninitData.size = e.size
  virtualAddr : e.size ≠ 0 → c.noffH.uninitData.virtualAddr = e.virtualAddr

variable {file : List Byte} {c c' d : Conv} {x : ScnHdr} {e : Extent}

/-- A `.bss` section at the end of what is collected is the error. -/
theorem copySection_atEnd (hc : c.Has e) (hx : x.IsBss) (he : e.size ≠ 0)
    (hend : x.s_paddr = wrap32 (e.virtualAddr + e.size)) : copySection file c x = none := by
  have hsize : c.noffH.uninitData.size ≠ 0 := hc.size ▸ he
  have hbss : copySection file c x = copyBss c x := by
    rw [copySection, if_neg hx.1, hx.2]
  rw [hbss, copyBss, if_pos hsize, hc.size, hc.virtualAddr he, if_pos hend]

/-- Any other is added, wherever it is. -/
theorem copySection_add (file : List Byte) (hc : c.Has e) (hx : x.IsBss)
    (hend : e.size ≠ 0 → x.s_paddr ≠ wrap32 (e.virtualAddr + e.size)) :
    ∃ d, copySection file c x = some d ∧ d.pos = c.pos ∧ d.Has (e.add x) := by
  have hbss : copySection file c x = copyBss c x := by
    rw [copySection, if_neg hx.1, hx.2]
  rw [hbss, copyBss, Extent.add, if_pos hx, hc.size]
  by_cases he : e.size = 0
  · rw [if_neg (not_not.mpr he), if_neg (not_not.mpr he)]
    exact ⟨_, rfl, rfl, rfl, fun _ => rfl⟩
  · rw [if_pos he, if_pos he, hc.virtualAddr he, if_neg (hend he)]
    exact ⟨_, rfl, rfl, rfl, fun _ => rfl⟩

/-- A section that is not `.bss` is taken or refused by its own bytes and the
place in the file, and leaves the uninitialized data alone. -/
theorem copySection_other (file : List Byte) (hpos : c.pos = c'.pos) (hx : ¬ x.IsBss) :
    (copySection file c x = none ∧ copySection file c' x = none) ∨
      ∃ d d', copySection file c x = some d ∧ copySection file c' x = some d' ∧ d.pos = d'.pos ∧
        d.noffH.uninitData = c.noffH.uninitData := by
  by_cases h0 : x.s_size = 0
  · rw [copySection, copySection, if_pos h0, if_pos h0]
    exact Or.inr ⟨c, c', rfl, rfl, hpos, rfl⟩
  · have hsegment : ∀ K : Kind, K ≠ .bss →
        (copySegment file c x K = none ∧ copySegment file c' x K = none) ∨
          ∃ d d', copySegment file c x K = some d ∧ copySegment file c' x K = some d' ∧
          d.pos = d'.pos ∧
            d.noffH.uninitData = c.noffH.uninitData := by
      intro K hK
      rw [copySegment, copySegment, ← hpos]
      cases hread : read file (lseek c.pos x.s_scnptr) x.s_size with
      | none => exact Or.inl ⟨rfl, rfl⟩
      | some buffer =>
        refine Or.inr ⟨_, _, rfl, rfl, rfl, ?_⟩
        have hother := c.noffH.seg_setSeg ⟨x.s_paddr, c.inNoffFile, x.s_size⟩ K .bss
        rwa [if_neg hK.symm] at hother
    rw [copySection, copySection, if_neg h0, if_neg h0]
    match hk : x.kind with
    | none => exact Or.inl ⟨rfl, rfl⟩
    | some .bss => exact absurd ⟨h0, hk⟩ hx
    | some .text => exact hsegment .text nofun
    | some .data => exact hsegment .data nofun
    | some .rdata => exact hsegment .rdata nofun

/-- What one pass collects, of whatever section it takes. -/
theorem Conv.Has.copySection (hc : c.Has e) (h : Nachos.copySection file c x = some d) :
    d.Has (e.add x) := by
  by_cases hx : x.IsBss
  · by_cases hend : e.size ≠ 0 ∧ x.s_paddr = wrap32 (e.virtualAddr + e.size)
    · rw [copySection_atEnd hc hx hend.1 hend.2] at h
      cases h
    · obtain ⟨d', hd, -, hhas⟩ := copySection_add file hc hx fun he h' => hend ⟨he, h'⟩
      rw [Option.some.inj (h.symm.trans hd)]
      exact hhas
  · rw [add_of_not_isBss hx]
    rcases copySection_other file (rfl : c.pos = c.pos) hx with ⟨h', -⟩ | ⟨d', -, h', -, -, hsame⟩
    · rw [h'] at h
      cases h
    · rw [Option.some.inj (h.symm.trans h')]
      exact ⟨hsame ▸ hc.size, hsame ▸ hc.virtualAddr⟩

/-- The uninitialized data of the header after the loop. -/
theorem copySections_has (l done : List ScnHdr) (hc : c.Has (collected done))
    (h : l.foldlM (copySection file) c = some d) : d.Has (collected (done ++ l)) := by
  induction l generalizing done c with
  | nil =>
    cases h
    rw [List.append_nil]
    exact hc
  | cons x l ih =>
    rw [List.foldlM_cons] at h
    obtain ⟨c1, h1, h2⟩ := Option.bind_eq_some_iff.mp h
    have hc1 : c1.Has (collected (done ++ [x])) := by
      rw [collected_concat]
      exact hc.copySection h1
    have hsplit : done ++ x :: l = done ++ [x] ++ l := by simp
    rw [hsplit]
    exact ih (done ++ [x]) hc1 h2

theorem forall_split_cons {α : Type*} {P : List α → α → Prop} {y : α} {l : List α} :
    (∀ pre x rest, y :: l = pre ++ x :: rest → P pre x) ↔
      P [] y ∧ ∀ pre x rest, l = pre ++ x :: rest → P (y :: pre) x := by
  refine ⟨fun h => ⟨h [] y l rfl, fun pre x rest hl => h (y :: pre) x rest (by rw [hl]; rfl)⟩, ?_⟩
  rintro ⟨hy, hl⟩ pre x rest h
  rcases List.cons_eq_append_iff.mp h with ⟨rfl, hx⟩ | ⟨pre', rfl, htail⟩
  · rw [(List.cons_eq_cons.mp hx).1]
    exact hy
  · exact hl pre' x rest htail

/-- **The loop on several `.bss`.** It takes the sections left just when it
would take them without `.bss` and no `.bss` is at the end of what is collected
by then. -/
theorem copySections_isSome (l done : List ScnHdr) (hpos : c.pos = c'.pos)
    (hc : c.Has (collected done)) :
    (l.foldlM (copySection file) c).isSome ↔
      ((l.filter fun x => ¬ x.IsBss).foldlM (copySection file) c').isSome ∧
        ∀ pre x rest, l = pre ++ x :: rest →
          x.IsBss → (collected (done ++ pre)).size ≠ 0 → ¬ AtEnd (done ++ pre) x := by
  induction l generalizing done c c' with
  | nil =>
    refine ⟨fun _ => ⟨rfl, fun pre x rest h => ?_⟩, fun _ => rfl⟩
    exact absurd h.symm (by simp)
  | cons y l ih =>
    rw [forall_split_cons (P := fun pre x => x.IsBss → (collected (done ++ pre)).size ≠ 0 →
      ¬ AtEnd (done ++ pre) x)]
    rw [List.append_nil, List.foldlM_cons]
    by_cases hy : y.IsBss
    · rw [List.filter_cons_of_neg (by simpa using hy)]
      by_cases hstop : (collected done).size ≠ 0 ∧ AtEnd done y
      · rw [copySection_atEnd hc hy hstop.1 hstop.2]
        exact ⟨fun h => absurd h (by simp), fun h => absurd hstop.2 (h.2.1 hy hstop.1)⟩
      · have hend : (collected done).size ≠ 0 → ¬ AtEnd done y := fun h0 h => hstop ⟨h0, h⟩
        obtain ⟨d, hd, hdpos, hdhas⟩ := copySection_add file hc hy hend
        rw [hd]
        rw [← collected_concat] at hdhas
        have hrest := ih (done ++ [y]) (hdpos.trans hpos) hdhas
        simp only [List.append_assoc, List.singleton_append] at hrest
        exact hrest.trans (and_congr_right fun _ => (and_iff_right fun _ => hend).symm)
    · rw [List.filter_cons_of_pos (by simpa using hy), List.foldlM_cons]
      rcases copySection_other file hpos hy with ⟨h, h'⟩ | ⟨d, d', h, h', hdpos, hsame⟩
      · rw [h, h']
        exact ⟨fun h => absurd h (by simp), fun h => absurd h.1 (by simp)⟩
      · rw [h, h']
        have hdhas : d.Has (collected (done ++ [y])) := by
          rw [collected_concat, add_of_not_isBss hy]
          exact ⟨hsame ▸ hc.size, hsame ▸ hc.virtualAddr⟩
        have hrest := ih (done ++ [y]) hdpos hdhas
        simp only [List.append_assoc, List.singleton_append] at hrest
        exact hrest.trans (and_congr_right fun _ => (and_iff_right fun h => absurd h hy).symm)

theorem has_start (stack : ℕ → Byte) (pos : ℕ) :
    Conv.Has ⟨startHeader stack, sizeofNoffHeader, pos, []⟩ (collected []) :=
  ⟨rfl, fun h => absurd rfl h⟩

variable {stack : ℕ → Byte} {secs : List ScnHdr} {pos : ℕ}

/-- The conversion comes to its end just when no `.bss` is where it should be. -/
theorem coff2noff_isSome (hT : Taken stack file secs pos) :
    (coff2noff stack file).isSome ↔ ¬ SomeAtEnd secs := by
  rw [coff2noff, hT.sections, Option.bind_some, Option.isSome_map,
    copySections_isSome secs [] rfl (has_start stack pos), and_iff_right hT.others]
  constructor
  · rintro h ⟨done, x, rest, hsplit, hx, hsize, hend⟩
    exact h done x rest hsplit hx hsize hend
  · intro h done x rest hsplit hx hsize hend
    exact h ⟨done, x, rest, hsplit, hx, hsize, hend⟩

/-- The fields of the header are ints, and so is the place in the output. -/
structure Conv.Ints (c : Conv) : Prop where
  header : ∀ y ∈ c.noffH.ints, IsInt y
  inNoffFile : IsInt c.inNoffFile

theorem Conv.Ints.seg (hc : c.Ints) (K : Kind) :
    IsInt (c.noffH.seg K).virtualAddr ∧ IsInt (c.noffH.seg K).inFileAddr :=
  ⟨hc.header _ (NoffHeader.mem_ints.mpr (Or.inr ⟨K, Or.inl rfl⟩)),
    hc.header _ (NoffHeader.mem_ints.mpr (Or.inr ⟨K, Or.inr (Or.inl rfl)⟩))⟩

theorem Conv.Ints.copySection (hc : c.Ints) (hx : IsInt x.s_paddr ∧ IsInt x.s_size)
    (h : Nachos.copySection file c x = some d) : d.Ints := by
  have hsegment : ∀ K : Kind, copySegment file c x K = some d → d.Ints := by
    intro K hK
    obtain ⟨buffer, -, rfl⟩ := Option.map_eq_some_iff.mp hK
    exact ⟨ints_setSeg hc.header ⟨hx.1, hc.inNoffFile, hx.2⟩, isInt_wrap32 _⟩
  unfold Nachos.copySection at h
  split_ifs at h with h0
  · cases h
    exact hc
  · split at h
    · obtain ⟨haddr, hfile⟩ := hc.seg .bss
      unfold copyBss at h
      simp only at h
      split_ifs at h <;> cases h
      · exact ⟨ints_setSeg hc.header ⟨haddr, hfile, isInt_wrap32 _⟩, hc.inNoffFile⟩
      · exact ⟨ints_setSeg hc.header ⟨hx.1, hfile, hx.2⟩, hc.inNoffFile⟩
    · exact hsegment _ h
    · cases h

theorem copySections_ints (l : List ScnHdr) (hl : ∀ x ∈ l, IsInt x.s_paddr ∧ IsInt x.s_size)
    (hc : c.Ints) (h : l.foldlM (copySection file) c = some d) : d.Ints := by
  induction l generalizing c with
  | nil =>
    cases h
    exact hc
  | cons x l ih =>
    rw [List.forall_mem_cons] at hl
    rw [List.foldlM_cons] at h
    obtain ⟨c1, h1, h2⟩ := Option.bind_eq_some_iff.mp h
    exact ih hl.2 (hc.copySection hl.1 h1) h2

/-- **What the header says of the uninitialized data** when a file comes out:
if the sections are contiguous, just the sections. -/
theorem coff2noff_covered {noff : List Byte} (hsec : readSections file = some (secs, pos))
    (h : coff2noff stack file = some noff) (hcontig : BssContiguous secs)
    (hreal : ∀ x ∈ secs, x.IsBss → 0 ≤ x.s_paddr ∧ 0 < x.s_size ∧ x.s_paddr + x.s_size < 2 ^ 31) :
    BssCovered secs (readHeader noff stack).uninitData := by
  rw [coff2noff, hsec] at h
  obtain ⟨c, hc, rfl⟩ := Option.map_eq_some_iff.mp h
  have hstart : Conv.Ints ⟨startHeader stack, sizeofNoffHeader, pos, []⟩ :=
    ⟨(convInv_start file stack pos).ints, show wrap32 sizeofNoffHeader = sizeofNoffHeader by decide⟩
  have hints := copySections_ints secs (readSections_ints hsec) hstart hc
  have hhas := copySections_has secs [] (has_start stack pos) hc
  rw [List.nil_append] at hhas
  have hcovers := hcontig.covers hreal
  rw [readHeader_headerBytes hints.header]
  intro a
  rw [← hcovers.covers a, hhas.size]
  by_cases h0 : (collected secs).size = 0
  · rw [h0]
    omega
  · rw [hhas.virtualAddr h0]

/-- **More than one `.bss`.** -/
theorem merges_iff (hT : Taken stack file secs pos) (h2 : 2 ≤ (secs.filter ScnHdr.IsBss).length) :
    (MergesContiguous stack file secs ↔ SomeAtEnd secs) ∧
    (MergesContiguous stack file secs ∧ (BssContiguous secs → (coff2noff stack file).isSome) ↔
      SomeAtEnd secs ∧ ¬ BssContiguous secs) := by
  have hstops : SomeAtEnd secs → coff2noff stack file = none := fun h =>
    Option.not_isSome_iff_eq_none.mp fun hsome => (coff2noff_isSome hT).mp hsome h
  have hsafe : MergesContiguous stack file secs ↔ SomeAtEnd secs := by
    refine ⟨fun hM => ?_, fun h => ⟨fun noff hnoff => ?_, fun _ => hstops h⟩⟩
    · by_contra hno
      obtain ⟨noff, hnoff⟩ := Option.isSome_iff_exists.mp ((coff2noff_isSome hT).mpr hno)
      exact hno ((hM.1 noff hnoff).1.someAtEnd h2)
    · rw [hstops h] at hnoff
      cases hnoff
  refine ⟨hsafe, ?_⟩
  rw [hsafe]
  refine and_congr_right fun h => ⟨fun hsome hcontig => ?_, fun hno hcontig => absurd hcontig hno⟩
  exact (coff2noff_isSome hT).mp (hsome hcontig) h

/-- A `.bss` section of 8 bytes. -/
def bssHeader (s_paddr : ℤ) : ScnHdr := ⟨[46, 98, 115, 115], s_paddr, 8, 0⟩

/-- A COFF file with two such sections, at 0 and at `s_paddr`. -/
def twoBss (s_paddr : ℤ) : List Byte :=
  let bytes (a : ℤ) := [46, 98, 115, 115, 0, 0, 0, 0] ++ Bytes.wordBytes (BitVec.ofInt 32 a) ++
    List.replicate 4 0 ++ Bytes.wordBytes 8 ++ List.replicate 20 0
  [0x62, 0x01, 2, 0] ++ List.replicate 16 0 ++ ([0x07, 0x01] ++ List.replicate 54 0) ++ bytes 0 ++
    bytes s_paddr

set_option maxRecDepth 20000 in
/-- With the second directly behind the first there is no output. -/
theorem merges_iff_behind : MergesContiguous (fun _ => 0) (twoBss 8) [bssHeader 0, bssHeader 8] ∧
    ¬ (MergesContiguous (fun _ => 0) (twoBss 8) [bssHeader 0, bssHeader 8] ∧
      (BssContiguous [bssHeader 0, bssHeader 8] → (coff2noff (fun _ => 0) (twoBss 8)).isSome)) := by
  have hT : Taken (fun _ => 0) (twoBss 8) [bssHeader 0, bssHeader 8] 156 := ⟨by decide, by decide⟩
  have h := merges_iff hT (by decide)
  refine ⟨h.1.mpr ⟨[bssHeader 0], bssHeader 8, [], rfl, by decide, by decide, by decide⟩,
    fun hs => ?_⟩
  refine (h.2.mp hs).2 ?_
  rintro done x rest hsplit hx ⟨y, hy, -⟩
  match done, hsplit with
  | [_], rfl => decide
  | [_, _], hsplit => simp at hsplit

set_option maxRecDepth 20000 in
/-- With the second at address 100 the two are merged: the header has 16 bytes
from 0 on, and address 8 is in neither section. -/
theorem two_bss_apart : Taken (fun _ => 0) (twoBss 100) [bssHeader 0, bssHeader 100] 156 ∧
    2 ≤ ([bssHeader 0, bssHeader 100].filter ScnHdr.IsBss).length ∧
    (∃ noff, coff2noff (fun _ => 0) (twoBss 100) = some noff ∧
      (readHeader noff fun _ => 0).uninitData = ⟨0, 0, 16⟩) ∧
    ¬ BssCovered [bssHeader 0, bssHeader 100] ⟨0, 0, 16⟩ ∧
    ¬ MergesContiguous (fun _ => 0) (twoBss 100) [bssHeader 0, bssHeader 100] := by
  have hrun : ((coff2noff (fun _ => 0) (twoBss 100)).map fun noff =>
      (readHeader noff fun _ => 0).uninitData) =
        some ⟨0, 0, 16⟩ := by decide
  obtain ⟨noff, hnoff, hheader⟩ := Option.map_eq_some_iff.mp hrun
  refine ⟨⟨by decide, by decide⟩, by decide, ⟨noff, hnoff, hheader⟩, fun hcovered => ?_,
    fun hM => ?_⟩
  · obtain ⟨x, hx, -, h8⟩ := (hcovered 8).mp (by decide)
    revert x
    decide
  · have hcontig := (hM.1 noff hnoff).1
    have hend :=
      hcontig [bssHeader 0] (bssHeader 100) [] rfl (by decide) ⟨bssHeader 0, by decide, by decide⟩
    exact absurd hend (by decide)

end Nachos
