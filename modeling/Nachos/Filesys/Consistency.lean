/-
# Consistency of the disk

The state of a run is the disk, the open file system and the files that were
opened; `live` says of a handle whether its file has been removed since. What
ties the structures on the disk together is `Inv`: the headers of the map and
the directory are in place, every entry in use has a header and data sectors
of its own, names are different, and the map marks just these sectors and the
first five. Each call keeps it, by what `create_ok`, `remove_ok` and
`OpenFile.writeAt_ok` say that it changes (`Inv.created`, `Inv.removed`,
`Inv.written`).

* `disk_consistent`: in every run whose reads and writes are at positions from
  0 on, the owners of sectors are disjoint and the map marks exactly what they
  own; and a write changes no other file, nor the directory, nor the map.
* `negative_position_overwrites_map`: a write at -128 does change the map.

Key definitions: `Inv`, `Run`, `Run.step`, `owners`, `Consistent`.
Key theorems: `Run.good_reach`, `disk_consistent`.
-/
import Mathlib
import Nachos.Base.Bytes
import Nachos.Base.Runs
import Nachos.Lib.Bitmap
import Nachos.Filesys.FileSystem

namespace Nachos.Filesys

open Bytes (Byte Store)
open Directory (Has SameEntry)

variable {disk disk' : Store} {fs : FileSystem} {name : CString} {size : ℤ} {i j s s' : ℕ}
  {l l' : List ℕ}

/-- The structures on the disk fit together. -/
structure Inv (fs : FileSystem) (disk : Store) : Prop where
  mounted : Mounted fs
  mapHdr : MapHeader (FileHeader.headerAt disk 0)
  dirHdr : DirHeader (FileHeader.headerAt disk 1)
  files : ∀ i < numDirEntries, Directory.inUse (tableOf disk) i = true → ∃ s l, FileAt disk i s l
  apart : ∀ i < numDirEntries, ∀ j < numDirEntries, Directory.inUse (tableOf disk) i = true →
    Directory.inUse (tableOf disk) j = true → ∀ s l s' l', FileAt disk i s l → FileAt disk j s' l' →
    ∀ n ∈ s :: l, n ∈ s' :: l' → i = j
  names : ∀ i < numDirEntries, ∀ j < numDirEntries, Directory.inUse (tableOf disk) i = true →
    Directory.inUse (tableOf disk) j = true →
    Directory.name (tableOf disk) i = Directory.name (tableOf disk) j → i = j
  map : ∀ n < Disk.numSectors, (mapOf disk).test n = true ↔
    n < 5 ∨ ∃ i s l, i < numDirEntries ∧ Directory.inUse (tableOf disk) i = true ∧
    FileAt disk i s l ∧ n ∈ s :: l

/-! ### One file -/

theorem FileAt.unique (h : FileAt disk i s l) (h' : FileAt disk i s' l') : s = s' ∧ l = l' := by
  have hs : s = s' := by
    have := h.sector.symm.trans h'.sector
    exact_mod_cast this
  subst hs
  have hl : l.map (Nat.cast : ℕ → ℤ) = l'.map Nat.cast := h.sectors.symm.trans h'.sectors
  exact ⟨rfl, List.map_injective_iff.mpr Nat.cast_injective hl⟩

/-- A file whose entry and header are left alone and whose sectors stay marked. -/
theorem FileAt.frame (h : FileAt disk i s l)
    (hsec : Directory.sector (tableOf disk') i = Directory.sector (tableOf disk) i)
    (hhdr : ∀ y, InSector s y → disk' y = disk y)
    (hmap : ∀ j ∈ s :: l, (mapOf disk').test j = true) :
    FileAt disk' i s l := by
  have hsame : FileHeader.headerAt disk' s = FileHeader.headerAt disk s :=
    FileHeader.headerAt_congr hhdr
  refine ⟨hsec.trans h.sector, ?_, ?_, ?_, ?_, h.nodup, fun j hj => ?_⟩
  · rw [hsame]
    exact h.nonneg
  · rw [hsame]
    exact h.numSectors
  · rw [hsame]
    exact h.fits
  · rw [hsame]
    exact h.sectors
  · obtain ⟨h1, h2, -⟩ := h.marked j hj
    exact ⟨h1, h2, hmap j hj⟩

theorem Inv.ready (hI : Inv fs disk) : Ready disk where
  sector i hi hu := by
    obtain ⟨s, l, hF⟩ := hI.files i hi hu
    rw [hF.sector]
    omega
  reserved j hj := (hI.map j (lt_of_lt_of_le hj (by decide))).mpr (Or.inl hj)

/-- A sector below 5 keeps its content where only the sectors 2, 3, 4 and one
from 5 on change. -/
theorem headerAt_low (hf : ∀ y, ¬ InSector 2 y → ¬ InSector 3 y → ¬ InSector 4 y →
      (∀ n : ℕ, 5 ≤ n → ¬ InSector n y) → disk' y = disk y)
    {n : ℤ} (hn : n < 2) : FileHeader.headerAt disk' n = FileHeader.headerAt disk n := by
  refine FileHeader.headerAt_congr fun y hy => hf y ?_ ?_ ?_ fun m hm => ?_
  all_goals
    intro h
    have := hy.unique h
    omega

/-! ### Create -/

theorem Created.inUse_iff (hC : Created disk disk' name size i s l) (hj : j < numDirEntries) :
    Directory.inUse (tableOf disk') j = true ↔ j = i ∨ Directory.inUse (tableOf disk) j = true := by
  by_cases he : j = i
  · subst he
    simp [hC.inUse]
  · rw [(hC.other j hj he).1]
    simp [he]

theorem Created.five_le (hC : Created disk disk' name size i s l) (hR : Ready disk) (n : ℕ)
    (hn : n ∈ s :: l) : 5 ≤ n :=
  hR.le_of_clear (hC.free n hn).2

/-- The new file. -/
theorem Created.file (hC : Created disk disk' name size i s l) (hR : Ready disk) (h0 : 0 ≤ size)
    (h1 : size ≤ maxFileSize) :
    FileAt disk' i s l := by
  refine ⟨hC.sector, ?_, ?_, ?_, hC.sectors, hC.nodup, fun j hj => ?_⟩
  · rw [hC.numBytes]
    exact h0
  · rw [hC.numBytes]
    exact hC.numSectors
  · rw [hC.numSectors]
    exact FileHeader.divRoundUp_le_numDirect h0 h1
  · have hlt := (hC.free j hj).1
    refine ⟨hC.five_le hR j hj, hlt, ?_⟩
    rw [hC.map j hlt, decide_eq_true hj]
    rfl

/-- A sector that is marked before is no sector of the new file. -/
theorem Created.not_mem (hC : Created disk disk' name size i s l) {n : ℕ}
    (hn : (mapOf disk).test n = true) : n ∉ s :: l := by
  intro hmem
  rw [(hC.free n hmem).2] at hn
  cases hn

/-- The bytes of a marked sector from 5 on stay. -/
theorem Created.byte (hC : Created disk disk' name size i s l) {n : ℕ} (h5 : 5 ≤ n)
    (hn : (mapOf disk).test n = true) {y : ℤ} (hy : InSector n y) : disk' y = disk y := by
  have hns : n ≠ s := fun he => hC.not_mem hn (he ▸ List.mem_cons_self)
  refine hC.frame y ?_ ?_ ?_ ?_
  all_goals
    intro h
    have := hy.unique h
    omega

/-- The other files stay. -/
theorem Created.keep (hC : Created disk disk' name size i s l) (hj : j < numDirEntries)
    (hne : j ≠ i) (hF : FileAt disk j s' l') : FileAt disk' j s' l' := by
  refine hF.frame (hC.other j hj hne).2.1 (fun y hy => ?_) fun n hn => ?_
  · obtain ⟨h5, -, hm⟩ := hF.marked s' List.mem_cons_self
    exact hC.byte h5 hm hy
  · obtain ⟨-, hlt, hm⟩ := hF.marked n hn
    rw [hC.map n hlt, hm, Bool.or_true]

theorem Inv.created (hI : Inv fs disk) (hC : Created disk disk' name size i s l) (h0 : 0 ≤ size)
    (h1 : size ≤ maxFileSize) (habs : ∀ j < numDirEntries, ¬ Has (tableOf disk) j name.key) :
    Inv fs disk' := by
  have hnew := hC.file hI.ready h0 h1
  have hlow : ∀ n : ℤ, n < 2 →
      FileHeader.headerAt disk' n = FileHeader.headerAt disk n := fun n hn =>
    headerAt_low
      (fun y h2 h3 h4 h => hC.frame y h2 h3 h4 (h s (hC.five_le hI.ready s List.mem_cons_self))) hn
  -- an entry in use is the new one, or was in use with the same file
  have hold : ∀ j < numDirEntries, Directory.inUse (tableOf disk') j = true →
      ∀ s' l', FileAt disk' j s' l' →
      (j = i ∧ s' = s ∧ l' = l) ∨
        (j ≠ i ∧ Directory.inUse (tableOf disk) j = true ∧ FileAt disk j s' l') := by
    intro j hj hu s' l' hF
    by_cases he : j = i
    · subst he
      exact Or.inl ⟨rfl, hF.unique hnew⟩
    · have hu' := ((hC.inUse_iff hj).mp hu).resolve_left he
      obtain ⟨s1, l1, hF1⟩ := hI.files j hj hu'
      obtain ⟨rfl, rfl⟩ := hF.unique (hC.keep hj he hF1)
      exact Or.inr ⟨he, hu', hF1⟩
  refine
    { mounted := hI.mounted
      mapHdr := hlow 0 (by omega) ▸ hI.mapHdr
      dirHdr := hlow 1 (by omega) ▸ hI.dirHdr
      files := fun j hj hu => ?_
      apart := fun a ha b hb hua hub sa la sb lb hFa hFb n hna hnb => ?_
      names := fun a ha b hb hua hub hab => ?_
      map := fun n hn => ?_ }
  · by_cases he : j = i
    · exact ⟨s, l, he ▸ hnew⟩
    · obtain ⟨s1, l1, hF1⟩ := hI.files j hj (((hC.inUse_iff hj).mp hu).resolve_left he)
      exact ⟨s1, l1, hC.keep hj he hF1⟩
  · rcases hold a ha hua sa la hFa with ⟨rfl, rfl, rfl⟩ | ⟨hnea, hua, hFa⟩ <;>
      rcases hold b hb hub sb lb hFb with ⟨rfl, rfl, rfl⟩ | ⟨hneb, hub, hFb⟩
    · rfl
    · exact absurd hna (hC.not_mem (hFb.marked n hnb).2.2)
    · exact absurd hnb (hC.not_mem (hFa.marked n hna).2.2)
    · exact hI.apart a ha b hb hua hub sa la sb lb hFa hFb n hna hnb
  · -- the new name is none of the old ones
    have hfresh : ∀ b < numDirEntries, b ≠ i → Directory.inUse (tableOf disk') b = true →
        Directory.name (tableOf disk') b ≠ Directory.name (tableOf disk') i := by
      intro b hb hne hub hab
      have hsame := hC.other b hb hne
      exact habs b hb ⟨hsame.1.symm.trans hub, hsame.2.2.symm.trans (hab.trans hC.name)⟩
    by_cases hea : a = i <;> by_cases heb : b = i
    · exact hea.trans heb.symm
    · exact absurd (hea ▸ hab).symm (hfresh b hb heb hub)
    · exact absurd (heb ▸ hab) (hfresh a ha hea hua)
    · have hsa := hC.other a ha hea
      have hsb := hC.other b hb heb
      exact hI.names a ha b hb (hsa.1.symm.trans hua) (hsb.1.symm.trans hub)
        (hsa.2.2.symm.trans (hab.trans hsb.2.2))
  · rw [hC.map n hn, Bool.or_eq_true, decide_eq_true_eq, hI.map n hn]
    constructor
    · rintro (hmem | h5 | ⟨j, s1, l1, hj, hu, hF, hmem⟩)
      · exact Or.inr ⟨i, s, l, hC.lt, hC.inUse, hnew, hmem⟩
      · exact Or.inl h5
      · have hne : j ≠ i := by
          rintro rfl
          rw [hC.unused] at hu
          cases hu
        exact Or.inr ⟨j, s1, l1, hj, (hC.inUse_iff hj).mpr (Or.inr hu), hC.keep hj hne hF, hmem⟩
    · rintro (h5 | ⟨j, s1, l1, hj, hu, hF, hmem⟩)
      · exact Or.inr (Or.inl h5)
      · rcases hold j hj hu s1 l1 hF with ⟨-, rfl, rfl⟩ | ⟨-, hu, hF⟩
        · exact Or.inl hmem
        · exact Or.inr (Or.inr ⟨j, s1, l1, hj, hu, hF, hmem⟩)

/-! ### Remove -/

theorem Removed.inUse_iff (hD : Removed disk disk' i s l) (hj : j < numDirEntries) :
    Directory.inUse (tableOf disk') j = true ↔ j ≠ i ∧ Directory.inUse (tableOf disk) j = true := by
  by_cases he : j = i
  · subst he
    simp [hD.unused]
  · rw [(hD.other j hj he).1]
    simp [he]

/-- The bytes of the sectors from 5 on stay. -/
theorem Removed.byte (hD : Removed disk disk' i s l) {n : ℕ} (h5 : 5 ≤ n) {y : ℤ}
    (hy : InSector n y) : disk' y = disk y := by
  refine hD.frame y ?_ ?_ ?_
  all_goals
    intro h
    have := hy.unique h
    omega

/-- The other files stay. -/
theorem Removed.keep (hI : Inv fs disk) (hD : Removed disk disk' i s l) (hi : i < numDirEntries)
    (hui : Directory.inUse (tableOf disk) i = true) (hFi : FileAt disk i s l)
    (hj : j < numDirEntries) (hne : j ≠ i) (hu : Directory.inUse (tableOf disk) j = true)
    (hF : FileAt disk j s' l') : FileAt disk' j s' l' := by
  refine hF.frame (hD.other j hj hne).2.1
    (fun y hy => hD.byte (hF.marked s' List.mem_cons_self).1 hy) fun n hn => ?_
  obtain ⟨-, hlt, hm⟩ := hF.marked n hn
  have hnot : n ∉ s :: l := fun hmem => hne (hI.apart j hj i hi hu hui s' l' s l hF hFi n hn hmem)
  rw [hD.map n hlt, hm, decide_eq_false hnot]
  rfl

theorem Inv.removed (hI : Inv fs disk) (hD : Removed disk disk' i s l) (hi : i < numDirEntries)
    (hui : Directory.inUse (tableOf disk) i = true) (hFi : FileAt disk i s l) : Inv fs disk' := by
  have hlow : ∀ n : ℤ, n < 2 →
      FileHeader.headerAt disk' n = FileHeader.headerAt disk n := fun n hn =>
    headerAt_low (fun y h2 h3 h4 _ => hD.frame y h2 h3 h4) hn
  have hold : ∀ j < numDirEntries, Directory.inUse (tableOf disk') j = true →
      ∀ s' l', FileAt disk' j s' l' →
      j ≠ i ∧ Directory.inUse (tableOf disk) j = true ∧ FileAt disk j s' l' := by
    intro j hj hu s' l' hF
    obtain ⟨hne, hu'⟩ := (hD.inUse_iff hj).mp hu
    obtain ⟨s1, l1, hF1⟩ := hI.files j hj hu'
    obtain ⟨rfl, rfl⟩ := hF.unique (hD.keep hI hi hui hFi hj hne hu' hF1)
    exact ⟨hne, hu', hF1⟩
  refine
    { mounted := hI.mounted
      mapHdr := hlow 0 (by omega) ▸ hI.mapHdr
      dirHdr := hlow 1 (by omega) ▸ hI.dirHdr
      files := fun j hj hu => ?_
      apart := fun a ha b hb hua hub sa la sb lb hFa hFb n hna hnb => ?_
      names := fun a ha b hb hua hub hab => ?_
      map := fun n hn => ?_ }
  · obtain ⟨hne, hu'⟩ := (hD.inUse_iff hj).mp hu
    obtain ⟨s1, l1, hF1⟩ := hI.files j hj hu'
    exact ⟨s1, l1, hD.keep hI hi hui hFi hj hne hu' hF1⟩
  · obtain ⟨-, hua, hFa⟩ := hold a ha hua sa la hFa
    obtain ⟨-, hub, hFb⟩ := hold b hb hub sb lb hFb
    exact hI.apart a ha b hb hua hub sa la sb lb hFa hFb n hna hnb
  · obtain ⟨hnea, hua⟩ := (hD.inUse_iff ha).mp hua
    obtain ⟨hneb, hub⟩ := (hD.inUse_iff hb).mp hub
    exact hI.names a ha b hb hua hub
      ((hD.other a ha hnea).2.2.symm.trans (hab.trans (hD.other b hb hneb).2.2))
  · rw [hD.map n hn, Bool.and_eq_true, Bool.not_eq_true', decide_eq_false_iff_not, hI.map n hn]
    constructor
    · rintro ⟨hnot, h5 | ⟨j, s1, l1, hj, hu, hF, hmem⟩⟩
      · exact Or.inl h5
      · have hne : j ≠ i := by
          rintro rfl
          obtain ⟨rfl, rfl⟩ := hF.unique hFi
          exact hnot hmem
        exact Or.inr ⟨j, s1, l1, hj, (hD.inUse_iff hj).mpr ⟨hne, hu⟩,
          hD.keep hI hi hui hFi hj hne hu hF, hmem⟩
    · rintro (h5 | ⟨j, s1, l1, hj, hu, hF, hmem⟩)
      · refine ⟨fun hmem => ?_, Or.inl h5⟩
        have := (hFi.marked n hmem).1
        omega
      · obtain ⟨hne, hu, hF⟩ := hold j hj hu s1 l1 hF
        exact ⟨fun hmem' => hne (hI.apart j hj i hi hu hui s1 l1 s l hF hFi n hmem hmem'),
          Or.inr ⟨j, s1, l1, hj, hu, hF, hmem⟩⟩

/-! ### Writing to a file -/

/-- Only data sectors of the file of entry `i` have changed. -/
def WrittenIn (disk disk' : Store) (l : List ℕ) : Prop :=
  ∀ y, (∀ n ∈ l, ¬ InSector (n : ℤ) y) → disk' y = disk y

/-- A sector that is not one of the file's data sectors stays. -/
theorem WrittenIn.byte (hW : WrittenIn disk disk' l) {n : ℤ} (hn : ∀ m ∈ l, (m : ℤ) ≠ n) {y : ℤ}
    (hy : InSector n y) :
    disk' y = disk y :=
  hW y fun m hm h => hn m hm (h.unique hy)

theorem WrittenIn.low (hW : WrittenIn disk disk' l) (hF : FileAt disk i s l) {n : ℤ} (hn : n < 5)
    {y : ℤ} (hy : InSector n y) :
    disk' y = disk y := by
  refine hW.byte (fun m hm he => ?_) hy
  have := (hF.marked m (List.mem_cons_of_mem _ hm)).1
  omega

theorem WrittenIn.table (hW : WrittenIn disk disk' l) (hF : FileAt disk i s l) {x : ℤ} (h0 : 0 ≤ x)
    (h1 : x < 256) :
    tableOf disk' x = tableOf disk x := by
  refine tableOf_congr (fun y hy => ?_) h0 h1
  rcases hy with hy | hy
  · exact hW.low hF (by omega) hy
  · exact hW.low hF (by omega) hy

theorem WrittenIn.entry (hW : WrittenIn disk disk' l) (hF : FileAt disk i s l)
    (hj : j < numDirEntries) :
    SameEntry (tableOf disk') (tableOf disk) j := by
  unfold numDirEntries at hj
  exact Directory.sameEntry_of_bytes fun x h0 h1 => hW.table hF (by omega) (by omega)

theorem WrittenIn.map (hW : WrittenIn disk disk' l) (hF : FileAt disk i s l) :
    mapOf disk' = mapOf disk :=
  mapOf_congr fun _ hy => hW.low hF (by omega) hy

/-- A header is no data sector of any file. -/
theorem Inv.header_not_mem (hI : Inv fs disk) (hi : i < numDirEntries)
    (hui : Directory.inUse (tableOf disk) i = true) (hFi : FileAt disk i s l)
    (hj : j < numDirEntries) (hu : Directory.inUse (tableOf disk) j = true)
    (hF : FileAt disk j s' l') : s' ∉ l := by
  intro hmem
  have he :=
    hI.apart j hj i hi hu hui s' l' s l hF hFi s' List.mem_cons_self (List.mem_cons_of_mem _ hmem)
  subst he
  obtain ⟨rfl, rfl⟩ := hF.unique hFi
  exact (List.nodup_cons.mp hF.nodup).1 hmem

/-- Every file stays where it is. -/
theorem WrittenIn.keep (hI : Inv fs disk) (hW : WrittenIn disk disk' l) (hi : i < numDirEntries)
    (hui : Directory.inUse (tableOf disk) i = true) (hFi : FileAt disk i s l)
    (hj : j < numDirEntries) (hu : Directory.inUse (tableOf disk) j = true)
    (hF : FileAt disk j s' l') :
    FileAt disk' j s' l' ∧ FileHeader.headerAt disk' s' = FileHeader.headerAt disk s' := by
  have hnot := hI.header_not_mem hi hui hFi hj hu hF
  have hne : ∀ m ∈ l, (m : ℤ) ≠ s' := fun m hm he => hnot (Nat.cast_inj.mp he ▸ hm)
  have hbyte : ∀ y, InSector s' y → disk' y = disk y := fun y hy => hW.byte hne hy
  refine ⟨hF.frame (hW.entry hFi hj).2.1 hbyte fun n hn => ?_, FileHeader.headerAt_congr hbyte⟩
  rw [hW.map hFi]
  exact (hF.marked n hn).2.2

theorem Inv.written (hI : Inv fs disk) (hW : WrittenIn disk disk' l) (hi : i < numDirEntries)
    (hui : Directory.inUse (tableOf disk) i = true) (hFi : FileAt disk i s l) : Inv fs disk' := by
  have hlow : ∀ n : ℤ, n < 2 →
      FileHeader.headerAt disk' n = FileHeader.headerAt disk n := fun n hn =>
    FileHeader.headerAt_congr fun y hy => hW.low hFi (by omega) hy
  have hu : ∀ j < numDirEntries, Directory.inUse (tableOf disk') j =
      Directory.inUse (tableOf disk) j :=
    fun j hj => (hW.entry hFi hj).1
  have hold : ∀ j < numDirEntries, Directory.inUse (tableOf disk') j = true →
      ∀ s' l', FileAt disk' j s' l' →
      FileAt disk j s' l' := by
    intro j hj huj s' l' hF
    obtain ⟨s1, l1, hF1⟩ := hI.files j hj (hu j hj ▸ huj)
    obtain ⟨rfl, rfl⟩ := hF.unique (hW.keep hI hi hui hFi hj (hu j hj ▸ huj) hF1).1
    exact hF1
  refine
    { mounted := hI.mounted
      mapHdr := hlow 0 (by omega) ▸ hI.mapHdr
      dirHdr := hlow 1 (by omega) ▸ hI.dirHdr
      files := fun j hj huj => ?_
      apart := fun a ha b hb hua hub sa la sb lb hFa hFb n hna hnb => ?_
      names := fun a ha b hb hua hub hab => ?_
      map := fun n hn => ?_ }
  · obtain ⟨s1, l1, hF1⟩ := hI.files j hj (hu j hj ▸ huj)
    exact ⟨s1, l1, (hW.keep hI hi hui hFi hj (hu j hj ▸ huj) hF1).1⟩
  · exact hI.apart a ha b hb (hu a ha ▸ hua) (hu b hb ▸ hub) sa la sb lb (hold a ha hua sa la hFa)
      (hold b hb hub sb lb hFb) n hna hnb
  · exact hI.names a ha b hb (hu a ha ▸ hua) (hu b hb ▸ hub)
      ((hW.entry hFi ha).2.2.symm.trans (hab.trans (hW.entry hFi hb).2.2))
  · rw [hW.map hFi, hI.map n hn]
    constructor
    · rintro (h5 | ⟨j, s1, l1, hj, huj, hF, hmem⟩)
      · exact Or.inl h5
      · exact Or.inr ⟨j, s1, l1, hj, (hu j hj).trans huj, (hW.keep hI hi hui hFi hj huj hF).1, hmem⟩
    · rintro (h5 | ⟨j, s1, l1, hj, huj, hF, hmem⟩)
      · exact Or.inl h5
      · exact Or.inr ⟨j, s1, l1, hj, hu j hj ▸ huj, hold j hj huj s1 l1 hF, hmem⟩

/-! ### Runs -/

/-- A file that was opened. -/
structure Handle where
  file : OpenFile
  /-- the name it was opened under -/
  key : List Byte
  /-- the file has not been removed since -/
  live : Bool

/-- The state of a run. -/
structure Run where
  fs : FileSystem
  disk : Store
  handles : List Handle
  stopped : Option Stop

namespace Run

/-- The calls of a run, each with the memory it finds. -/
inductive Label
  | create (mem : ℕ → Store) (name : CString) (initialSize : ℤ)
  | remove (mem : ℕ → Store) (name : CString)
  | open_ (mem : ℕ → Store) (name : CString)
  | seek (h : ℕ) (position : ℤ)
  | readAt (h : ℕ) (new into : Store) (p numBytes position : ℤ)
  | writeAt (h : ℕ) (news : ℕ → Store) (src : Store) (q numBytes position : ℤ)
  | read (h : ℕ) (new into : Store) (p numBytes : ℤ)
  | write (h : ℕ) (news : ℕ → Store) (src : Store) (q numBytes : ℤ)

/-- What follows the answer of a call, or the stop in it. -/
def andThen {α : Type} (s : Run) (r : Except Stop α) (f : α → Run) : Run :=
  match r with
  | .ok a => f a
  | .error e => { s with stopped := some e }

/-- The handle after `seekPosition` has become `position`. -/
def seekTo (s : Run) (h : ℕ) (position : ℤ) : List Handle :=
  s.handles.modify h fun x => { x with file := { x.file with seekPosition := position } }

/-- One call. -/
def call (s : Run) : Label → Option Run
  | .create mem name size =>
    some (s.andThen (s.fs.create mem name size s.disk) fun r => { s with disk := r.2 })
  | .remove mem name => some (s.andThen (s.fs.remove mem name s.disk) fun r =>
      let handles :=
        if r.1 then s.handles.map fun x => if x.key = name.key then { x with live := false } else x
        else s.handles
      { s with disk := r.2, handles := handles })
  | .open_ mem name => some (s.andThen (s.fs.open_ mem name s.disk) fun r =>
      let handles := match r.1 with
        | some file => s.handles ++ [⟨file, name.key, true⟩]
        | none => s.handles
      { s with disk := r.2, handles := handles })
  | .seek h position => s.handles[h]?.map fun _ => { s with handles := s.seekTo h position }
  | .readAt h new into p numBytes position => s.handles[h]?.map fun x =>
      s.andThen (OpenFile.readAt s.disk x.file.hdr new into p numBytes position) fun _ => s
  | .writeAt h news src q numBytes position => s.handles[h]?.map fun x =>
      s.andThen (OpenFile.writeAt s.disk x.file.hdr news src q numBytes position) fun r =>
        { s with disk := r.1 }
  | .read h new into p numBytes => s.handles[h]?.map fun x =>
      s.andThen (OpenFile.readAt s.disk x.file.hdr new into p numBytes x.file.seekPosition) fun r =>
        { s with handles := s.seekTo h (x.file.seekPosition + r.2) }
  | .write h news src q numBytes => s.handles[h]?.map fun x =>
      s.andThen (OpenFile.writeAt s.disk x.file.hdr news src q numBytes x.file.seekPosition)
        fun r =>
        { s with disk := r.1, handles := s.seekTo h (x.file.seekPosition + r.2) }

def step (s : Run) (label : Label) : Option Run := if s.stopped.isSome then none else s.call label

/-- A run starts on any disk with `FileSystem(TRUE)`. -/
def Initial (s : Run) : Prop :=
  ∃ mem disk, FileSystem.format mem disk = .ok (s.fs, s.disk) ∧ s.handles = [] ∧ s.stopped = none

/-- The handle is open on a file that is still there, and the request is for no
byte, or behind the end of the file, or at a position from 0 on with its end an
`int`. -/
def LiveAt (s : Run) (h : ℕ) (position : OpenFile → ℤ) (numBytes : ℤ) : Prop :=
  ∀ x, s.handles[h]? = some x → x.live = true ∧
    (numBytes ≤ 0 ∨ x.file.hdr.fileLength ≤ position x.file ∨
      0 ≤ position x.file ∧ position x.file + numBytes < 2 ^ 31)

/-- The calls that the results are about. -/
def Allowed (s : Run) : Label → Prop
  | .create _ _ size => Fits s.disk size
  | .readAt h _ _ _ numBytes position => s.LiveAt h (fun _ => position) numBytes
  | .writeAt h _ _ _ numBytes position => s.LiveAt h (fun _ => position) numBytes
  | .read h _ _ _ numBytes => s.LiveAt h OpenFile.seekPosition numBytes
  | .write h _ _ _ numBytes => s.LiveAt h OpenFile.seekPosition numBytes
  | _ => True

/-- The states of these runs. -/
abbrev Reach : Run → Prop := Runs.Reach step Initial Allowed

/-- A handle has the header of the file of its name. -/
structure HandleOf (disk : Store) (x : Handle) (i sec : ℕ) (l : List ℕ) : Prop where
  lt : i < numDirEntries
  has : Has (tableOf disk) i x.key
  file : FileAt disk i sec l
  hdr : x.file.hdr = FileHeader.headerAt disk sec

/-- What every run keeps. -/
structure Good (s : Run) : Prop where
  stopped : s.stopped = none
  inv : Inv s.fs s.disk
  handles : ∀ x ∈ s.handles, x.live = true → ∃ i sec l, HandleOf s.disk x i sec l

variable {st st' : Run} {x : Handle}

theorem Good.step_eq (hG : Good st) (label : Label) : st.step label = st.call label := by
  unfold Run.step
  rw [if_neg (by simp [hG.stopped])]

/-- Moving `seekPosition` leaves the names, the headers and who is live. -/
theorem of_mem_seekTo {h : ℕ} {position : ℤ} (hx : x ∈ st.seekTo h position) :
    ∃ z ∈ st.handles, z.key = x.key ∧ z.live = x.live ∧ z.file.hdr = x.file.hdr := by
  obtain ⟨k, hk⟩ := List.mem_iff_getElem?.mp hx
  unfold seekTo at hk
  rw [List.getElem?_modify] at hk
  cases hz : st.handles[k]? with
  | none => simp [hz] at hk
  | some z =>
    have hmem := List.mem_of_getElem? hz
    rw [hz] at hk
    simp only [Option.map_eq_map, Option.map_some, Option.some.injEq] at hk
    refine ⟨z, hmem, ?_⟩
    split_ifs at hk
    · subst hk
      exact ⟨rfl, rfl, rfl⟩
    · subst hk
      exact ⟨rfl, rfl, rfl⟩

theorem HandleOf.seek {z : Handle} (hz : HandleOf disk z i s l) (hkey : z.key = x.key)
    (hhdr : z.file.hdr = x.file.hdr) :
    HandleOf disk x i s l := ⟨hz.lt, hkey ▸ hz.has, hz.file, hhdr ▸ hz.hdr⟩

theorem Good.seek (hG : Good st) (h : ℕ) (position : ℤ) :
    Good { st with handles := st.seekTo h position } where
  stopped := hG.stopped
  inv := hG.inv
  handles x hx hlive := by
    obtain ⟨z, hz, hkey, hl, hhdr⟩ := of_mem_seekTo hx
    obtain ⟨i, sec, l, hh⟩ := hG.handles z hz (hl.trans hlive)
    exact ⟨i, sec, l, hh.seek hkey hhdr⟩

theorem Good.create (hG : Good st) (hC : Created st.disk disk' name size i s l) (h0 : 0 ≤ size)
    (h1 : size ≤ maxFileSize) (habs : ∀ j < numDirEntries, ¬ Has (tableOf st.disk) j name.key) :
    Good { st with disk := disk' } where
  stopped := hG.stopped
  inv := hG.inv.created hC h0 h1 habs
  handles x hx hlive := by
    obtain ⟨j, sec, l', hh⟩ := hG.handles x hx hlive
    have hne : j ≠ i := by
      rintro rfl
      have := hh.has.1
      rw [hC.unused] at this
      cases this
    have hsame := hC.other j hh.lt hne
    obtain ⟨h5, -, hm⟩ := hh.file.marked sec List.mem_cons_self
    refine ⟨j, sec, l', hh.lt, hsame.has.mpr hh.has, hC.keep hh.lt hne hh.file, hh.hdr.trans ?_⟩
    exact (FileHeader.headerAt_congr fun y hy => hC.byte h5 hm hy).symm

theorem Good.remove (hG : Good st) (hi : i < numDirEntries)
    (hhas : Has (tableOf st.disk) i name.key) (hF : FileAt st.disk i s l)
    (hD : Removed st.disk disk' i s l) :
    Good { st with
      disk := disk'
      handles :=
        st.handles.map fun x => if x.key = name.key then { x with live := false } else x } where
  stopped := hG.stopped
  inv := hG.inv.removed hD hi hhas.1 hF
  handles x hx hlive := by
    obtain ⟨z, hz, rfl⟩ := List.mem_map.mp hx
    by_cases hkey : z.key = name.key
    · rw [if_pos hkey] at hlive
      cases hlive
    · rw [if_neg hkey] at hlive ⊢
      obtain ⟨j, sec, l', hh⟩ := hG.handles z hz hlive
      have hne : j ≠ i := by
        rintro rfl
        exact hkey (hh.has.2.symm.trans hhas.2)
      have h5 := (hh.file.marked sec List.mem_cons_self).1
      refine ⟨j, sec, l', hh.lt, (hD.other j hh.lt hne).has.mpr hh.has,
        hD.keep hG.inv hi hhas.1 hF hh.lt hne hh.has.1 hh.file, hh.hdr.trans ?_⟩
      exact (FileHeader.headerAt_congr fun y hy => hD.byte h5 hy).symm

theorem Good.write (hG : Good st) (hx : HandleOf st.disk x i s l) (hW : WrittenIn st.disk disk' l) :
    Good { st with disk := disk' } where
  stopped := hG.stopped
  inv := hG.inv.written hW hx.lt hx.has.1 hx.file
  handles z hz hlive := by
    obtain ⟨j, sec, l', hh⟩ := hG.handles z hz hlive
    obtain ⟨hF, hhdr⟩ := hW.keep hG.inv hx.lt hx.has.1 hx.file hh.lt hh.has.1 hh.file
    exact ⟨j, sec, l', hh.lt, (hW.entry hx.file hh.lt).has.mpr hh.has, hF, hh.hdr.trans hhdr.symm⟩

/-- A write through a handle changes data sectors of its file. -/
theorem HandleOf.writeAt (hx : HandleOf disk x i s l) (news : ℕ → Store) (src : Store)
    (q numBytes : ℤ) {position : ℤ} (h0 : numBytes ≤ 0 ∨ 0 ≤ position) :
    ∃ disk' r, OpenFile.writeAt disk x.file.hdr news src q numBytes position = .ok (disk', r) ∧
    WrittenIn disk disk' l ∧
      r = OpenFile.clip x.file.hdr.fileLength numBytes position ∧
      ∀ k, 0 ≤ k → k < x.file.hdr.fileLength → x.file.hdr.content disk' k = Bytes.copy src q
      (x.file.hdr.content disk) position r k := by
  have hgood : x.file.hdr.Good := hx.hdr ▸ hx.file.good
  rcases h0 with hnone | h0
  · -- no byte is asked for
    have hr : OpenFile.clip x.file.hdr.fileLength numBytes position = 0 := if_pos (Or.inl hnone)
    refine ⟨disk, 0, if_pos (Or.inl hnone), fun _ _ => rfl, hr.symm, fun k _ _ => ?_⟩
    rw [Bytes.copy_zero]
  obtain ⟨disk', hdisk, hin, hout⟩ := OpenFile.writeAt_ok disk hgood news src q numBytes h0
  refine ⟨disk', _, hdisk, fun y hy => hout y fun n hn => ?_, rfl, hin⟩
  rw [hx.hdr, hx.file.sectors] at hn
  obtain ⟨m, hm, rfl⟩ := List.mem_map.mp hn
  exact hy m hm

theorem HandleOf.readAt (hx : HandleOf disk x i s l) (new into : Store) (p numBytes : ℤ)
    {position : ℤ} (h0 : numBytes ≤ 0 ∨ 0 ≤ position) :
    ∃ into' r, OpenFile.readAt disk x.file.hdr new into p numBytes position = .ok (into', r) := by
  rcases h0 with hnone | h0
  · exact ⟨into, 0, if_pos (Or.inl hnone)⟩
  · exact ⟨_, _, OpenFile.readAt_ok (hx.hdr ▸ hx.file.good) new into p numBytes h0⟩

/-- A handle of an allowed request. -/
theorem Good.live (hG : Good st) {h : ℕ} (hx : st.handles[h]? = some x) {position : OpenFile → ℤ}
    {numBytes : ℤ} (hlive : st.LiveAt h position numBytes) :
    (numBytes ≤ 0 ∨ 0 ≤ position x.file) ∧ ∃ i sec l, HandleOf st.disk x i sec l := by
  obtain ⟨hl, hrequest⟩ := hlive x hx
  obtain ⟨i, sec, l, hh⟩ := hG.handles x (List.mem_of_getElem? hx) hl
  have hlen : 0 ≤ x.file.hdr.fileLength := hh.hdr ▸ hh.file.nonneg
  refine ⟨?_, i, sec, l, hh⟩
  rcases hrequest with hnone | hend | ⟨h0, -⟩
  · exact Or.inl hnone
  · exact Or.inr (hlen.trans hend)
  · exact Or.inr h0

/-- **One call** keeps the invariant. -/
theorem Good.step (hG : Good st) {label : Label} (hok : st.Allowed label)
    (hst : st.step label = some st') : Good st' := by
  have hcall : st.call label = some st' := (hG.step_eq label).symm.trans hst
  cases label with
  | create mem name size =>
    cases hcall
    rcases create_ok hG.inv.mounted hG.inv.ready mem name hok with
      ⟨disk', i, s, l, h, h0, h1, habs, hC⟩ | ⟨h, -⟩
    · rw [h]
      exact hG.create hC h0 h1 habs
    · rw [h]
      exact hG
  | remove mem name =>
    cases hcall
    rcases remove_ok hG.inv.mounted hG.inv.ready hG.inv.files mem name with
      ⟨disk', i, s, l, h, hi, hhas, hF, hD⟩ | ⟨h, -⟩
    · rw [h]
      exact hG.remove hi hhas hF hD
    · rw [h]
      exact hG
  | open_ mem name =>
    cases hcall
    rcases open_ok hG.inv.mounted hG.inv.ready hG.inv.files mem name with
      ⟨i, s, l, hi, hhas, hF, h⟩ | ⟨-, h⟩
    · rw [h]
      refine ⟨hG.stopped, hG.inv, fun x hx hlive => ?_⟩
      rcases List.mem_append.mp hx with hx | hx
      · exact hG.handles x hx hlive
      · rw [List.mem_singleton] at hx
        subst hx
        exact ⟨i, s, l, hi, hhas, hF, rfl⟩
    · rw [h]
      exact hG
  | seek h position =>
    obtain ⟨x, -, rfl⟩ := Option.map_eq_some_iff.mp hcall
    exact hG.seek h position
  | readAt h new into p numBytes position =>
    obtain ⟨x, hx, rfl⟩ := Option.map_eq_some_iff.mp hcall
    obtain ⟨h0, i, s, l, hh⟩ := hG.live hx (show st.LiveAt h (fun _ => position) numBytes from hok)
    obtain ⟨into', r, hr⟩ := hh.readAt new into p numBytes h0
    rw [hr]
    exact hG
  | writeAt h news src q numBytes position =>
    obtain ⟨x, hx, rfl⟩ := Option.map_eq_some_iff.mp hcall
    obtain ⟨h0, i, s, l, hh⟩ := hG.live hx (show st.LiveAt h (fun _ => position) numBytes from hok)
    obtain ⟨disk', r, hr, hW, -⟩ := hh.writeAt news src q numBytes h0
    rw [hr]
    exact hG.write hh hW
  | read h new into p numBytes =>
    obtain ⟨x, hx, rfl⟩ := Option.map_eq_some_iff.mp hcall
    obtain ⟨h0, i, s, l, hh⟩ :=
      hG.live hx (show st.LiveAt h OpenFile.seekPosition numBytes from hok)
    obtain ⟨into', r, hr⟩ := hh.readAt new into p numBytes h0
    rw [hr]
    exact hG.seek h _
  | write h news src q numBytes =>
    obtain ⟨x, hx, rfl⟩ := Option.map_eq_some_iff.mp hcall
    obtain ⟨h0, i, s, l, hh⟩ :=
      hG.live hx (show st.LiveAt h OpenFile.seekPosition numBytes from hok)
    obtain ⟨disk', r, hr, hW, -⟩ := hh.writeAt news src q numBytes h0
    rw [hr]
    exact (hG.seek h _).write (hh.seek rfl rfl) hW

theorem good_initial (h : Initial st) : Good st := by
  obtain ⟨mem, disk, hformat, hhandles, hstopped⟩ := h
  obtain ⟨fs, disk', hfmt, hm, hmap, hdir, hunused, htest⟩ := format_ok mem disk
  rw [hfmt] at hformat
  obtain ⟨rfl, rfl⟩ := Prod.mk.inj (Except.ok.inj hformat)
  refine ⟨hstopped, ?_, by simp [hhandles]⟩
  refine
    { mounted := hm
      mapHdr := hmap
      dirHdr := hdir
      files := fun i hi hu => ?_
      apart := fun i hi j hj hu _ => ?_
      names := fun i hi j hj hu _ => ?_
      map := fun n hn => ?_ }
  · rw [hunused i hi] at hu
    cases hu
  · rw [hunused i hi] at hu
    cases hu
  · rw [hunused i hi] at hu
    cases hu
  · rw [htest n hn, decide_eq_true_eq]
    refine ⟨Or.inl, ?_⟩
    rintro (h5 | ⟨i, s, l, hi, hu, -⟩)
    · exact h5
    · rw [hunused i hi] at hu
      cases hu

/-- **Every run** keeps the invariant. -/
theorem good_reach (hr : Reach st) : Good st := by
  refine Runs.Reach.inv Good (fun s => good_initial) (fun s label s' _ hG hok hst => ?_) hr
  exact hG.step hok hst

/-- The handle that a call writes through. -/
def Label.writes : Label → Option ℕ
  | .writeAt h _ _ _ _ _ => some h
  | .write h _ _ _ _ => some h
  | _ => none

/-- A call that writes through a handle changes data sectors of its file. -/
theorem Good.writes (hG : Good st) {label : Label} (hok : st.Allowed label)
    (hst : st.step label = some st') {h : ℕ} (hw : label.writes = some h)
    (hx : st.handles[h]? = some x) :
    ∃ i sec l, HandleOf st.disk x i sec l ∧ WrittenIn st.disk st'.disk l := by
  have hcall : st.call label = some st' := (hG.step_eq label).symm.trans hst
  cases label with
  | writeAt h' news src q numBytes position =>
    obtain ⟨z, hz, rfl⟩ := Option.map_eq_some_iff.mp hcall
    obtain rfl : h' = h := by simpa [Label.writes] using hw
    obtain rfl : z = x := Option.some.inj (hz.symm.trans hx)
    obtain ⟨h0, i, s, l, hh⟩ := hG.live hx (show st.LiveAt h' (fun _ => position) numBytes from hok)
    obtain ⟨disk', r, hr, hW, -⟩ := hh.writeAt news src q numBytes h0
    rw [hr]
    exact ⟨i, s, l, hh, hW⟩
  | write h' news src q numBytes =>
    obtain ⟨z, hz, rfl⟩ := Option.map_eq_some_iff.mp hcall
    obtain rfl : h' = h := by simpa [Label.writes] using hw
    obtain rfl : z = x := Option.some.inj (hz.symm.trans hx)
    obtain ⟨h0, i, s, l, hh⟩ :=
      hG.live hx (show st.LiveAt h' OpenFile.seekPosition numBytes from hok)
    obtain ⟨disk', r, hr, hW, -⟩ := hh.writeAt news src q numBytes h0
    rw [hr]
    exact ⟨i, s, l, hh, hW⟩
  | create | remove | open_ | seek | readAt | read => cases hw

end Run

/-! ### The first file of a disk -/

/-- No file yet. -/
structure Fresh (st : Run) : Prop where
  good : st.Good
  unused : ∀ i < numDirEntries, Directory.inUse (tableOf st.disk) i = false
  map : ∀ j < Disk.numSectors, (mapOf st.disk).test j = decide (j < 5)

theorem Fresh.initial (mem : ℕ → Store) (disk : Store) :
    ∃ st, Run.Initial st ∧ Fresh st ∧ st.handles = [] := by
  obtain ⟨fs, disk', hfmt, -, -, -, hunused, hmap⟩ := format_ok mem disk
  have hinit : Run.Initial ⟨fs, disk', [], none⟩ := ⟨mem, disk, hfmt, rfl, rfl⟩
  exact ⟨⟨fs, disk', [], none⟩, hinit, ⟨Run.good_initial hinit, hunused, hmap⟩, rfl⟩

/-- `Create` takes sector 5 for the header. -/
theorem Fresh.create {st : Run} (h : Fresh st) (mem : ℕ → Store) (name : CString) (h0 : 0 ≤ size)
    (h1 : size ≤ maxFileSize) :
    ∃ disk' i l, st.step (.create mem name size) = some { st with disk := disk' } ∧
    Created st.disk disk' name size i 5 l ∧
      Run.Good { st with disk := disk' } := by
  obtain ⟨disk', i, l, hcreate, habs, hC⟩ :=
    create_formatted h.good.inv.mounted h.unused h.map mem name h0 h1
  refine ⟨disk', i, l, ?_, hC, h.good.create hC h0 h1 habs⟩
  rw [h.good.step_eq]
  show some (st.andThen (st.fs.create mem name size st.disk) _) = _
  rw [hcreate]
  rfl

/-- `Open` gives a handle on the file that was created. -/
theorem Created.opened {st : Run} (hG : Run.Good st) (mem : ℕ → Store) {disk0 : Store}
    (hC : Created disk0 st.disk name size i s l) (hF : FileAt st.disk i s l) :
    st.step (.open_ mem name) = some { st with
      handles := st.handles ++ [⟨⟨FileHeader.headerAt st.disk s, 0⟩, name.key, true⟩] } := by
  rw [hG.step_eq]
  show some (st.andThen (st.fs.open_ mem name st.disk) _) = _
  rcases open_ok hG.inv.mounted hG.inv.ready hG.inv.files mem name with
    ⟨j, s', l', hj, hhas, hF', h⟩ | ⟨habs, h⟩
  · have he := hG.inv.names j hj i hC.lt hhas.1 hC.inUse (hhas.2.trans hC.name.symm)
    subst he
    obtain ⟨rfl, rfl⟩ := hF.unique hF'
    rw [h]
    rfl
  · exact absurd ⟨hC.inUse, hC.name⟩ (habs i hC.lt)

/-- A disk is formatted, and a file created on it and opened. -/
theorem first_opened (mem : ℕ → Store) (name : CString) (h0 : 0 ≤ size) (h1 : size ≤ maxFileSize) :
    ∃ fs d0 d1 i l, Run.Initial ⟨fs, d0, [], none⟩ ∧
      Run.step ⟨fs, d0, [], none⟩ (.create mem name size) = some ⟨fs, d1, [], none⟩ ∧
      Run.step ⟨fs, d1, [], none⟩ (.open_ mem name) =
        some ⟨fs, d1, [⟨⟨FileHeader.headerAt d1 5, 0⟩, name.key, true⟩], none⟩ ∧
      Fresh ⟨fs, d0, [], none⟩ ∧ Run.Good ⟨fs, d1, [], none⟩ ∧ Created d0 d1 name size i 5 l ∧
      FileAt d1 i 5 l := by
  obtain ⟨⟨fs, d0, handles, stopped⟩, hinit, hfresh, hnone⟩ := Fresh.initial mem fun _ => 0
  obtain rfl : handles = [] := hnone
  obtain rfl : stopped = none := hfresh.good.stopped
  obtain ⟨d1, i, l, hstep1, hC, hG1⟩ := hfresh.create mem name h0 h1
  have hF := hC.file hfresh.good.inv.ready h0 h1
  exact ⟨fs, d0, d1, i, l, hinit, hstep1, Created.opened hG1 mem hC hF, hfresh, hG1, hC, hF⟩

/-- A file that was created and opened, in a run. -/
theorem reach_opened (mem : ℕ → Store) (name : CString) (h0 : 0 ≤ size) (h1 : size ≤ maxFileSize) :
    ∃ st x, Run.Reach st ∧ st.handles = [x] ∧ x.live = true ∧ x.key = name.key := by
  obtain ⟨fs, d0, d1, i, l, hinit, hstep1, hstep2, -⟩ := first_opened mem name h0 h1
  have hfits : Fits d0 size := Or.inl ⟨h0, h1⟩
  have hr1 : Run.Reach ⟨fs, d1, [], none⟩ :=
    Runs.Reach.step (.create mem name size) (Runs.Reach.init hinit) hfits hstep1
  have hr2 : Run.Reach _ :=
    Runs.Reach.step (.open_ mem name) hr1 (show Run.Allowed _ (.open_ mem _) from trivial) hstep2
  exact ⟨_, _, hr2, rfl, rfl, rfl⟩

/-! ### What is on the disk -/

/-- The data sectors that the length of the file needs. -/
def FileHeader.needed (hdr : FileHeader) : List ℤ :=
  (List.range (divRoundUp hdr.numBytes Disk.sectorSize).toNat).map hdr.dataSectors

/-- The content of the directory's file. -/
def directoryOn (disk : Store) : Store := (FileHeader.headerAt disk directorySector).content disk

/-- The map in the map's file. -/
def freeMapOn (disk : Store) : Bitmap :=
  mapOfBytes Disk.numSectors ((FileHeader.headerAt disk freeMapSector).content disk)

/-- The entries in use. -/
def entriesOn (disk : Store) : List ℕ :=
  (List.range numDirEntries).filter fun i => Directory.inUse (directoryOn disk) i

/-- The header of the file of an entry. -/
def headerOf (disk : Store) (i : ℕ) : FileHeader :=
  FileHeader.headerAt disk (Directory.sector (directoryOn disk) i)

/-- Who owns sectors: the two headers, the map, the directory, and each file
with its header. -/
def owners (disk : Store) : List (List ℤ) :=
  [freeMapSector, directorySector] :: (FileHeader.headerAt disk freeMapSector).needed ::
    (FileHeader.headerAt disk directorySector).needed ::
    (entriesOn disk).map fun i => Directory.sector (directoryOn disk) i :: (headerOf disk i).needed

/-- The owners are apart and on the disk, and the map marks what they own. -/
structure Consistent (disk : Store) : Prop where
  disjoint : (owners disk).Pairwise List.Disjoint
  onDisk : ∀ l ∈ owners disk, ∀ n ∈ l, 0 ≤ n ∧ n < Disk.numSectors
  map : ∀ n < Disk.numSectors, (freeMapOn disk).test n = true ↔ ∃ l ∈ owners disk, (n : ℤ) ∈ l

theorem FileHeader.needed_eq {hdr : FileHeader}
    (h : hdr.numSectors = divRoundUp hdr.numBytes Disk.sectorSize) :
    hdr.needed = hdr.sectors := by
  unfold FileHeader.needed FileHeader.sectors
  rw [h]

theorem Inv.sameEntry (hI : Inv fs disk) (hi : i < numDirEntries) :
    SameEntry (directoryOn disk) (tableOf disk) i := by
  unfold numDirEntries at hi
  exact Directory.sameEntry_of_bytes fun x h0 h1 => hI.dirHdr.content disk (by omega) (by omega)

theorem Inv.freeMapOn (hI : Inv fs disk) : freeMapOn disk = mapOf disk := by
  have hw : (4 : ℤ) * numWords Disk.numSectors = 128 := by decide
  exact mapOfBytes_congr fun x h0 h1 => hI.mapHdr.content disk h0 (by omega)

theorem Inv.mem_entriesOn (hI : Inv fs disk) :
    i ∈ entriesOn disk ↔ i < numDirEntries ∧ Directory.inUse (tableOf disk) i = true := by
  unfold entriesOn
  rw [List.mem_filter, List.mem_range]
  exact and_congr_right fun hi => by rw [(hI.sameEntry hi).1]

/-- What the file of an entry owns. -/
theorem Inv.owner (hI : Inv fs disk) (hi : i < numDirEntries) (hF : FileAt disk i s l) :
    Directory.sector (directoryOn disk) i :: (headerOf disk i).needed = (s :: l).map Nat.cast := by
  have hsec : Directory.sector (directoryOn disk) i = s := (hI.sameEntry hi).2.1.trans hF.sector
  rw [headerOf, hsec, FileHeader.needed_eq hF.numSectors, hF.sectors]
  rfl

theorem Inv.owners_eq (hI : Inv fs disk) :
    owners disk = [0, 1] :: [2] :: [3, 4] ::
      (entriesOn disk).map fun i => Directory.sector (directoryOn disk)
      i :: (headerOf disk i).needed := by
  have h0 : (FileHeader.headerAt disk freeMapSector).needed = [2] :=
    (FileHeader.needed_eq hI.mapHdr.good.numSectors).trans hI.mapHdr.sectors
  have h1 : (FileHeader.headerAt disk directorySector).needed = [3, 4] :=
    (FileHeader.needed_eq hI.dirHdr.good.numSectors).trans hI.dirHdr.sectors
  rw [owners, h0, h1]
  rfl

/-- The owners that are files. -/
theorem Inv.fileOwner (hI : Inv fs disk) {o : List ℤ}
    (ho : o ∈ (entriesOn disk).map fun i => Directory.sector (directoryOn disk)
      i :: (headerOf disk i).needed) :
    ∃ i s l, i < numDirEntries ∧ Directory.inUse (tableOf disk) i = true ∧ FileAt disk i s l ∧
    o = (s :: l).map Nat.cast := by
  obtain ⟨i, hi, rfl⟩ := List.mem_map.mp ho
  obtain ⟨hlt, hu⟩ := hI.mem_entriesOn.mp hi
  obtain ⟨s, l, hF⟩ := hI.files i hlt hu
  exact ⟨i, s, l, hlt, hu, hF, hI.owner hlt hF⟩

theorem FileAt.sector_range (hF : FileAt disk i s l) {n : ℤ} (hn : n ∈ (s :: l).map Nat.cast) :
    5 ≤ n ∧ n < Disk.numSectors := by
  obtain ⟨m, hm, rfl⟩ := List.mem_map.mp hn
  obtain ⟨h5, hlt, -⟩ := hF.marked m hm
  exact ⟨by omega, by exact_mod_cast hlt⟩

theorem Inv.owners_disjoint (hI : Inv fs disk) : (owners disk).Pairwise List.Disjoint := by
  have hsep : ∀ low : List ℤ, (∀ n ∈ low, n < 5) → ∀ o ∈ (entriesOn disk).map
      (fun i => Directory.sector (directoryOn disk) i :: (headerOf disk i).needed),
      low.Disjoint o := by
    intro low hlow o ho n hn hn'
    obtain ⟨i, s, l, -, -, hF, rfl⟩ := hI.fileOwner ho
    have h1 := hlow n hn
    have h2 := (hF.sector_range hn').1
    omega
  rw [hI.owners_eq]
  refine List.pairwise_cons.mpr ⟨fun o ho => ?_, List.pairwise_cons.mpr ⟨fun o ho => ?_,
    List.pairwise_cons.mpr ⟨hsep _ (by simp), ?_⟩⟩⟩
  · rcases List.mem_cons.mp ho with rfl | ho
    · simp [List.Disjoint]
    · rcases List.mem_cons.mp ho with rfl | ho
      · simp [List.Disjoint]
      · exact hsep _ (by simp) o ho
  · rcases List.mem_cons.mp ho with rfl | ho
    · simp [List.Disjoint]
    · exact hsep _ (by simp) o ho
  · -- two files
    have hnd : (entriesOn disk).Nodup := List.nodup_range.filter _
    refine List.pairwise_map.mpr (hnd.imp_of_mem fun {i j} hi hj hne => ?_)
    obtain ⟨hi, hui⟩ := hI.mem_entriesOn.mp hi
    obtain ⟨hj, huj⟩ := hI.mem_entriesOn.mp hj
    obtain ⟨s, l, hF⟩ := hI.files i hi hui
    obtain ⟨s', l', hF'⟩ := hI.files j hj huj
    rw [hI.owner hi hF, hI.owner hj hF']
    intro n hn hn'
    obtain ⟨m, hm, rfl⟩ := List.mem_map.mp hn
    obtain ⟨m', hm', he⟩ := List.mem_map.mp hn'
    exact hne (hI.apart i hi j hj hui huj s l s' l' hF hF' m hm (Nat.cast_inj.mp he ▸ hm'))

/-- The invariant gives consistency. -/
theorem Inv.consistent (hI : Inv fs disk) : Consistent disk := by
  refine ⟨hI.owners_disjoint, fun o ho n hn => ?_, fun n hn => ?_⟩
  · rw [hI.owners_eq] at ho
    simp only [List.mem_cons] at ho
    have hsize : (5 : ℤ) ≤ Disk.numSectors := by decide
    rcases ho with rfl | rfl | rfl | ho
    · simp only [List.mem_cons, List.not_mem_nil, or_false] at hn
      omega
    · simp only [List.mem_cons, List.not_mem_nil, or_false] at hn
      omega
    · simp only [List.mem_cons, List.not_mem_nil, or_false] at hn
      omega
    · obtain ⟨i, s, l, -, -, hF, rfl⟩ := hI.fileOwner ho
      have := hF.sector_range hn
      omega
  · rw [hI.freeMapOn, hI.map n hn, hI.owners_eq]
    constructor
    · rintro (h5 | ⟨i, s, l, hi, hu, hF, hmem⟩)
      · by_cases h2 : n < 2
        · exact ⟨[0, 1], by simp, by simp; omega⟩
        · by_cases h3 : n < 3
          · exact ⟨[2], by simp, by simp; omega⟩
          · exact ⟨[3, 4], by simp, by simp; omega⟩
      · refine ⟨(s :: l).map Nat.cast, ?_, List.mem_map.mpr ⟨n, hmem, rfl⟩⟩
        simp only [List.mem_cons, List.mem_map]
        exact Or.inr (Or.inr (Or.inr ⟨i, hI.mem_entriesOn.mpr ⟨hi, hu⟩, hI.owner hi hF⟩))
    · rintro ⟨o, ho, hmem⟩
      simp only [List.mem_cons] at ho
      rcases ho with rfl | rfl | rfl | ho
      · simp only [List.mem_cons, List.not_mem_nil, or_false] at hmem
        exact Or.inl (by omega)
      · simp only [List.mem_cons, List.not_mem_nil, or_false] at hmem
        exact Or.inl (by omega)
      · simp only [List.mem_cons, List.not_mem_nil, or_false] at hmem
        exact Or.inl (by omega)
      · obtain ⟨i, s, l, hi, hu, hF, rfl⟩ := hI.fileOwner ho
        obtain ⟨m, hm, he⟩ := List.mem_map.mp hmem
        exact Or.inr ⟨i, s, l, hi, hu, hF, Nat.cast_inj.mp he ▸ hm⟩

/-- A write to one file leaves the content of the others. -/
theorem WrittenIn.content (hI : Inv fs disk) (hW : WrittenIn disk disk' l) (hi : i < numDirEntries)
    (hui : Directory.inUse (tableOf disk) i = true) (hFi : FileAt disk i s l)
    (hj : j < numDirEntries) (hu : Directory.inUse (tableOf disk) j = true)
    (hF : FileAt disk j s' l') (hne : j ≠ i) {k : ℤ} (h0 : 0 ≤ k)
    (h1 : k < (FileHeader.headerAt disk s').fileLength) :
    (FileHeader.headerAt disk s').content disk' k = (FileHeader.headerAt disk s').content
      disk k := by
  refine OpenFile.content_congr hF.good (fun n hn y hy => hW.byte (fun m hm he => ?_) hy) h0 h1
  rw [hF.sectors] at hn
  obtain ⟨n', hn', rfl⟩ := List.mem_map.mp hn
  obtain rfl := Nat.cast_inj.mp he
  exact hne (hI.apart j hj i hi hu hui s' l' s l hF hFi m (List.mem_cons_of_mem _ hn')
    (List.mem_cons_of_mem _ hm))

/-- **Consistency of the disk.** In every run of `Create` within the capacity,
`Remove`, `Open`, and reads and writes at positions from 0 on through handles
of files that are still there, no call stops, the owners of sectors are apart
and the free map marks exactly what they own; and a write through a handle
changes neither the directory nor the map nor the file of any other name. -/
theorem disk_consistent {st : Run} (hr : Run.Reach st) :
    st.stopped = none ∧ Consistent st.disk ∧
      ∀ (label : Run.Label) (st' : Run) (h : ℕ) (x : Handle), label.writes = some h →
        st.handles[h]? = some x → st.Allowed label → st.step label = some st' →
        (∀ k, 0 ≤ k → k < directoryFileSize → directoryOn st'.disk k = directoryOn st.disk k) ∧
        freeMapOn st'.disk = freeMapOn st.disk ∧
        ∀ i ∈ entriesOn st.disk, Directory.name (directoryOn st.disk) i ≠ x.key →
          i ∈ entriesOn st'.disk ∧ headerOf st'.disk i = headerOf st.disk i ∧
          ∀ k, 0 ≤ k → k < (headerOf st.disk i).fileLength →
            (headerOf st.disk i).content st'.disk k = (headerOf st.disk i).content st.disk k := by
  have hG := Run.good_reach hr
  have hI := hG.inv
  refine ⟨hG.stopped, hI.consistent, fun label st' h x hw hx hok hst => ?_⟩
  obtain ⟨i, s, l, hh, hW⟩ := hG.writes hok hst hw hx
  have hI' := (hG.step hok hst).inv
  refine ⟨fun k h0 h1 => ?_, ?_, fun j hj hname => ?_⟩
  · have hlt : k < 256 := by
      unfold directoryFileSize sizeofDirectoryEntry numDirEntries at h1
      omega
    calc directoryOn st'.disk k = tableOf st'.disk k := hI'.dirHdr.content _ h0 hlt
      _ = tableOf st.disk k := hW.table hh.file h0 hlt
      _ = directoryOn st.disk k := (hI.dirHdr.content _ h0 hlt).symm
  · rw [hI'.freeMapOn, hI.freeMapOn, hW.map hh.file]
  · obtain ⟨hjlt, hu⟩ := hI.mem_entriesOn.mp hj
    have hne : j ≠ i := by
      rintro rfl
      exact hname ((hI.sameEntry hjlt).2.2.trans hh.has.2)
    obtain ⟨s', l', hF⟩ := hI.files j hjlt hu
    obtain ⟨hF', hhdr⟩ := hW.keep hI hh.lt hh.has.1 hh.file hjlt hu hF
    have h1 : Directory.sector (directoryOn st.disk) j = s' :=
      (hI.sameEntry hjlt).2.1.trans hF.sector
    have h2 : Directory.sector (directoryOn st'.disk) j = s' :=
      (hI'.sameEntry hjlt).2.1.trans hF'.sector
    refine ⟨hI'.mem_entriesOn.mpr ⟨hjlt, (hW.entry hh.file hjlt).1.trans hu⟩, ?_,
      fun k h0 hlen => ?_⟩
    · rw [headerOf, headerOf, h1, h2, hhdr]
    · rw [headerOf, h1] at hlen ⊢
      exact hW.content hI hh.lt hh.has.1 hh.file hjlt hu hF hne h0 hlen

/-- A file of 200 bytes is created and opened. -/
theorem disk_consistent_first :
    ∃ st, Run.Reach st ∧ st.handles.length = 1 ∧ Consistent st.disk := by
  obtain ⟨st, x, hr, hx, -⟩ :=
    reach_opened (fun _ _ => 0) ⟨[97], by decide⟩ (show (0 : ℤ) ≤ 200 by omega) (by decide)
  refine ⟨st, hr, ?_, (disk_consistent hr).2.1⟩
  rw [hx]
  rfl

/-! ### A write before the file

What a run does that is not allowed: nothing checks that a position is not
negative, and `dataSectors[-1]` is the number of sectors. -/

/-- 256 bytes at -128 of a file of two sectors: the first half goes to the
sector whose number is the number of sectors. -/
theorem writeAt_before {hdr : FileHeader} (hlen : hdr.numBytes = 200) (hnum : hdr.numSectors = 2)
    (h0 : 0 ≤ hdr.dataSectors 0) (h1 : hdr.dataSectors 0 < Disk.numSectors) (disk : Store)
    (news : ℕ → Store) (src : Store) :
    let buf := Bytes.copy src 0 (news 0) 0 256
    OpenFile.writeAt disk hdr news src 0 256 (-128) =
      .ok (Bytes.copy buf 128 (Bytes.copy buf 0 disk (Disk.offset 2) 128)
        (Disk.offset (hdr.dataSectors 0)) 128, 256) := by
  intro buf
  have hfirst : divRoundDown (-128) Disk.sectorSize = -1 := by decide
  have hlast : divRoundDown (-128 + 256 - 1) Disk.sectorSize = 0 := by decide
  have hb0 : hdr.byteToSector ((-1 + (0 : ℕ)) * Disk.sectorSize) = .ok 2 := by
    unfold FileHeader.byteToSector FileHeader.word
    rw [hnum]
    rfl
  have hb1 : hdr.byteToSector ((-1 + (1 : ℕ)) * Disk.sectorSize) = .ok (hdr.dataSectors 0) := rfl
  have hw0 : writeSector disk 2 buf ((0 : ℕ) * Disk.sectorSize) =
      .ok (Bytes.copy buf 0 disk (Disk.offset 2) 128) := rfl
  have hw1 : writeSector (Bytes.copy buf 0 disk (Disk.offset 2) 128) (hdr.dataSectors 0) buf
      ((1 : ℕ) * Disk.sectorSize) =
        .ok (Bytes.copy buf 128 (Bytes.copy buf 0 disk (Disk.offset 2) 128)
        (Disk.offset (hdr.dataSectors 0)) 128) :=
    writeSector_ok h0 h1
  have hloop : OpenFile.writeLoop disk hdr (-1) buf 2 =
      .ok (Bytes.copy buf 128 (Bytes.copy buf 0 disk (Disk.offset 2) 128)
        (Disk.offset (hdr.dataSectors 0)) 128) := by
    simp only [OpenFile.writeLoop, bind, Except.bind, hb0, hw0, hb1, hw1]
  unfold OpenFile.writeAt FileHeader.fileLength
  simp only [hlen]
  rw [if_neg (by omega), if_neg (by omega), hfirst, hlast]
  have hends : OpenFile.readEnds disk hdr news (-1) 0 (decide ((-128 : ℤ) = -1 * Disk.sectorSize))
      (decide ((-128 : ℤ) + 256 = (0 + 1) * Disk.sectorSize)) = .ok (news 0) := rfl
  have hcopy : OpenFile.bcopyIn src 0 (news 0) (-128 - -1 * Disk.sectorSize)
      ((1 + 0 - -1) * Disk.sectorSize) 256 = .ok buf := rfl
  rw [hends]
  simp only [bind, Except.bind, hcopy]
  rw [show (1 + 0 - -1 : ℤ).toNat = 2 from rfl, hloop]

namespace Run

/-- The handle is open on a file that is still there. -/
def Live (st : Run) (h : ℕ) : Prop := ∀ x, st.handles[h]? = some x → x.live = true

/-- Files within the capacity and handles of files that are still there, at
any position. -/
def AnyPosition (st : Run) : Label → Prop
  | .create _ _ size => 0 ≤ size ∧ size ≤ maxFileSize
  | .readAt h _ _ _ _ _ => st.Live h
  | .writeAt h _ _ _ _ _ => st.Live h
  | .read h _ _ _ _ => st.Live h
  | .write h _ _ _ _ => st.Live h
  | _ => True

end Run

/-- A file of 200 bytes is created and opened, and 256 zeros are written at
-128: the free map is overwritten. -/
theorem negative_position_overwrites_map :
    ∃ st, Runs.Reach Run.step Run.Initial Run.AnyPosition st ∧ ¬ Consistent st.disk := by
  let mem : ℕ → Store := fun _ _ => 0
  let name : CString := ⟨[97], by decide⟩
  obtain ⟨fs, d0, d1, i, l, hinit, hstep1, hstep2, -, hG1, hC, hF⟩ :=
    first_opened mem name (show (0 : ℤ) ≤ 200 by omega) (by decide)
  let x : Handle := ⟨⟨FileHeader.headerAt d1 5, 0⟩, name.key, true⟩
  have hnum : (FileHeader.headerAt d1 5).numSectors = 2 := hC.numSectors
  have hlen : (FileHeader.headerAt d1 5).numBytes = 200 := hC.numBytes
  obtain ⟨hmem, -, h0, h1⟩ :=
    OpenFile.sector_of_lt hF.good (i := 0) (by rw [show ((5 : ℕ) : ℤ) = 5 from rfl, hnum]; decide)
  have hds : (5 : ℤ) ≤ (FileHeader.headerAt d1 5).dataSectors 0 := by
    have hmem' : (FileHeader.headerAt d1 5).dataSectors 0 ∈ l.map (Nat.cast : ℕ → ℤ) :=
      hF.sectors ▸ hmem
    exact (hF.sector_range (List.mem_cons_of_mem _ hmem')).1
  have hwrite := writeAt_before hlen hnum h0 h1 d1 mem fun _ => 0
  obtain ⟨d3, hd3⟩ : ∃ d3, Bytes.copy (Bytes.copy (fun _ => 0) 0 (mem 0) 0 256) 128
    (Bytes.copy (Bytes.copy (fun _ => 0) 0 (mem 0) 0 256) 0 d1 (Disk.offset 2) 128)
    (Disk.offset ((FileHeader.headerAt d1 5).dataSectors 0)) 128 = d3 := ⟨_, rfl⟩
  have hstep3 : Run.step ⟨fs, d1, [x], none⟩ (.writeAt 0 mem (fun _ => 0) 0 256 (-128)) =
      some ⟨fs, d3, [x], none⟩ := by
    show some (Run.andThen _
      (OpenFile.writeAt d1 (FileHeader.headerAt d1 5) mem (fun _ => 0) 0 256 (-128)) _) = _
    rw [hwrite, hd3]
    rfl
  refine ⟨⟨fs, d3, [x], none⟩, ?_, fun hcons => ?_⟩
  · refine Runs.Reach.step _
      (Runs.Reach.step _ (Runs.Reach.step _ (Runs.Reach.init hinit) ?_ hstep1) ?_ hstep2) ?_ hstep3
    · exact ⟨by omega, by decide⟩
    · trivial
    · intro z hz
      obtain rfl : x = z := Option.some.inj hz
      rfl
  · -- sector 2 is zero, and sector 0 is where it was
    have hbyte : ∀ y, InSector 2 y → d3 y = 0 := by
      intro y hy
      have hne : ¬ InSector ((FileHeader.headerAt d1 5).dataSectors 0) y := fun h => by
        have := hy.unique h
        omega
      simp only [InSector, OpenFile.sectorSize_cast] at hy hne
      rw [← hd3, Bytes.copy_outside (by omega), Bytes.copy_inside hy.1 hy.2,
        Bytes.copy_inside (by omega) (by omega)]
    have hkeep : ∀ y, InSector 0 y → d3 y = d1 y := by
      intro y hy
      have hne : ¬ InSector ((FileHeader.headerAt d1 5).dataSectors 0) y := fun h => by
        have := hy.unique h
        omega
      have hne2 : ¬ InSector 2 y := fun h => by
        have := hy.unique h
        omega
      simp only [InSector, OpenFile.sectorSize_cast] at hne hne2
      rw [← hd3, Bytes.copy_outside (by omega), Bytes.copy_outside (by omega)]
    have hM : MapHeader (FileHeader.headerAt d3 0) :=
      FileHeader.headerAt_congr hkeep ▸ hG1.inv.mapHdr
    have htest : (freeMapOn d3).test 0 = true :=
      (hcons.map 0 (by decide)).mpr ⟨_, List.mem_cons_self, by simp [freeMapSector]⟩
    have hword : Bytes.wordAt ((FileHeader.headerAt d3 freeMapSector).content d3)
        (4 * (0 / bitsInWord : ℕ)) =
          Bytes.wordAt (fun _ => 0) 0 := by
      refine Bytes.wordAt_congr fun k hk0 hk1 => ?_
      rw [show (4 * ((0 / bitsInWord : ℕ) : ℤ)) + k = k by simp]
      exact (hM.content d3 hk0 (by omega)).trans
        (hbyte _ (inSector_offset hk0 (by rw [OpenFile.sectorSize_cast]; omega)))
    rw [freeMapOn, Bitmap.test_eq_getLsbD, word_mapOfBytes (by decide), hword] at htest
    revert htest
    decide

end Nachos.Filesys
