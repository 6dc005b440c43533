/-
# The file system as a map from names to files

What a user of the file system sees of a disk is `filesOn`: the bytes of each
file, by name. A name is known by its first `FileNameMaxLen` characters, so
names of at most that length are told apart, and each call is then an update of
the map at one name: `Create` adds a file, `Remove` deletes one, `WriteAt`
through an open file changes bytes of one, and the other names keep their
files. `History` adds to a run which header the latest `Create` of a name has
made; it is the one that `Open` gives.

* `refines_name_map`: the calls on the disk of every run are these updates,
  with the answers that the map and the number of free sectors determine.
* `stale_handle_writes_other`: an open file whose name has been removed is not
  a file of the map; a write through it goes to the file that has the sectors.

Key definitions: `FileMap`, `FileMap.Room`, `filesOn`, `History`.
Key theorems: `Inv.filesOn_created`, `Inv.filesOn_removed`, `Inv.filesOn_written`,
`refines_name_map`.
-/
import Mathlib
import Nachos.Base.Bytes
import Nachos.Base.Runs
import Nachos.Lib.Bitmap
import Nachos.Filesys.Consistency

namespace Nachos.Filesys

open Bytes (Byte Store)
open Directory (Has SameEntry)

variable {disk disk' : Store} {fs : FileSystem} {name : CString} {size : ℤ} {i j s s' : ℕ}
  {l l' : List ℕ} {n : List Byte}

/-! ### The map -/

/-- Names and the bytes of their files. -/
abbrev FileMap := List Byte → Option (List Byte)

/-- There is room for a file `n` of `size` bytes, with `free` sectors left. -/
structure FileMap.Room (files : FileMap) (n : List Byte) (size : ℤ) (free : ℕ) : Prop where
  absent : files n = none
  entries : {n | files n ≠ none}.ncard < numDirEntries
  sectors : 1 + divRoundUp size Disk.sectorSize ≤ free

/-- The map after `bytes k` has replaced byte `k` of the file `n`, for `k` from
`position` on. -/
def FileMap.writeAt (files : FileMap) (n : List Byte) (bytes : ℤ → Byte) (position numBytes : ℤ) :
    FileMap :=
  Function.update files n
    ((files n).map fun old => old.mapIdx fun k b => if position ≤ k ∧
      k < position + numBytes then bytes (k - position) else b)

/-- The bytes of a file. -/
def FileHeader.bytesOn (hdr : FileHeader) (disk : Store) : List Byte :=
  (List.range hdr.fileLength.toNat).map fun k : ℕ => hdr.content disk k

/-- The entry of a name. -/
def entryOn (disk : Store) (n : List Byte) : Option ℕ :=
  (entriesOn disk).find? fun i => Directory.name (directoryOn disk) i = n

/-- The header of the file of a name. -/
def headerOn (disk : Store) (n : List Byte) : Option FileHeader :=
  (entryOn disk n).map (headerOf disk)

/-- The map that is on the disk. -/
def filesOn (disk : Store) : FileMap := fun n => (headerOn disk n).map fun hdr => hdr.bytesOn disk

/-- A name that fits is known by all its characters. -/
theorem CString.key_eq (h : name.1.length ≤ fileNameMaxLen) : name.key = name.1 :=
  List.take_of_length_le h

/-! ### What is under a name -/

theorem Inv.has_directoryOn (hI : Inv fs disk) :
    (i ∈ entriesOn disk ∧ Directory.name (directoryOn disk) i = n) ↔ i < numDirEntries ∧
    Has (tableOf disk) i n := by
  rw [hI.mem_entriesOn, and_assoc]
  exact and_congr_right fun hi => by rw [(hI.sameEntry hi).2.2]; rfl

theorem Inv.headerOn_some (hI : Inv fs disk) (hi : i < numDirEntries)
    (hhas : Has (tableOf disk) i n) (hF : FileAt disk i s l) :
    headerOn disk n = some (FileHeader.headerAt disk s) := by
  obtain ⟨hmem, hname⟩ := hI.has_directoryOn.mpr ⟨hi, hhas⟩
  have hsec : Directory.sector (directoryOn disk) i = s := (hI.sameEntry hi).2.1.trans hF.sector
  unfold headerOn
  cases hfind : entryOn disk n with
  | none => exact absurd hname (by simpa using List.find?_eq_none.mp hfind i hmem)
  | some j =>
    have hj :=
      hI.has_directoryOn.mp ⟨List.mem_of_find?_eq_some hfind, by simpa using List.find?_some hfind⟩
    have he := hI.names j hj.1 i hi hj.2.1 hhas.1 (hj.2.2.trans hhas.2.symm)
    rw [Option.map_some, he, headerOf, hsec]

theorem Inv.headerOn_none (hI : Inv fs disk)
    (habs : ∀ i < numDirEntries, ¬ Has (tableOf disk) i n) : headerOn disk n = none := by
  unfold headerOn
  rw [Option.map_eq_none_iff]
  refine List.find?_eq_none.mpr fun i hi hname => ?_
  obtain ⟨hlt, hhas⟩ := hI.has_directoryOn.mp ⟨hi, by simpa using hname⟩
  exact habs i hlt hhas

theorem Inv.filesOn_some (hI : Inv fs disk) (hi : i < numDirEntries) (hhas : Has (tableOf disk) i n)
    (hF : FileAt disk i s l) :
    filesOn disk n = some ((FileHeader.headerAt disk s).bytesOn disk) := by
  rw [filesOn, hI.headerOn_some hi hhas hF, Option.map_some]

theorem Inv.filesOn_none (hI : Inv fs disk) (habs : ∀ i < numDirEntries, ¬ Has (tableOf disk) i n) :
    filesOn disk n = none := by
  rw [filesOn, hI.headerOn_none habs, Option.map_none]

theorem Inv.filesOn_ne_none (hI : Inv fs disk) :
    filesOn disk n ≠ none ↔ ∃ i < numDirEntries, Has (tableOf disk) i n := by
  constructor
  · intro hne
    by_contra habs
    exact hne (hI.filesOn_none fun i hi hhas => habs ⟨i, hi, hhas⟩)
  · rintro ⟨i, hi, hhas⟩
    obtain ⟨s, l, hF⟩ := hI.files i hi hhas.1
    rw [hI.filesOn_some hi hhas hF]
    exact Option.some_ne_none _

/-- As many names as entries in use. -/
theorem Inv.ncard_names (hI : Inv fs disk) :
    {n | filesOn disk n ≠ none}.ncard = (entriesOn disk).length := by
  have hset : {n | filesOn disk n ≠ none} = ((entriesOn disk).toFinset.image fun i => Directory.name
      (directoryOn disk) i : Finset _) := by
    ext n
    rw [Set.mem_ofPred_eq, hI.filesOn_ne_none, Finset.mem_coe, Finset.mem_image]
    refine exists_congr fun i => ?_
    rw [List.mem_toFinset, hI.has_directoryOn]
  have hinj : Set.InjOn (fun i => Directory.name (directoryOn disk) i)
      (entriesOn disk).toFinset := by
    intro i hi j hj he
    obtain ⟨hi, hhas⟩ := hI.has_directoryOn.mp ⟨List.mem_toFinset.mp hi, rfl⟩
    obtain ⟨hj, hhas'⟩ := hI.has_directoryOn.mp ⟨List.mem_toFinset.mp hj, rfl⟩
    exact hI.names i hi j hj hhas.1 hhas'.1 ((hhas.2.trans he).trans hhas'.2.symm)
  rw [hset, Set.ncard_coe_finset, Finset.card_image_of_injOn hinj, List.toFinset_card_of_nodup]
  exact List.nodup_range.filter _

theorem Inv.ncard_lt_iff (hI : Inv fs disk) :
    {n | filesOn disk n ≠ none}.ncard < numDirEntries ↔
    ∃ i < numDirEntries, Directory.inUse (tableOf disk) i = false := by
  have hlen := List.length_filter_lt_length_iff_exists (l := List.range numDirEntries)
    (p := fun i => Directory.inUse (directoryOn disk) i)
  rw [List.length_range] at hlen
  rw [hI.ncard_names, entriesOn, hlen]
  refine exists_congr fun i => ?_
  rw [List.mem_range]
  refine and_congr_right fun hi => ?_
  rw [(hI.sameEntry hi).1, Bool.not_eq_true]

/-! ### The updates -/

theorem FileHeader.bytesOn_congr {hdr : FileHeader}
    (h : ∀ k, 0 ≤ k → k < hdr.fileLength → hdr.content disk' k = hdr.content disk k) :
    hdr.bytesOn disk' = hdr.bytesOn disk := by
  refine List.map_congr_left fun k hk => ?_
  have := List.mem_range.mp hk
  exact h k (by omega) (by omega)

theorem FileHeader.length_bytesOn (hdr : FileHeader) (disk : Store) :
    (hdr.bytesOn disk).length = hdr.fileLength.toNat := by
  rw [FileHeader.bytesOn, List.length_map, List.length_range]

/-- A name whose entry and file are left alone keeps its file. -/
theorem Inv.filesOn_other (hI : Inv fs disk) (hI' : Inv fs disk')
    (hhas : ∀ i < numDirEntries, Has (tableOf disk') i n ↔ Has (tableOf disk) i n)
    (hfile : ∀ i < numDirEntries, Has (tableOf disk) i n → ∀ s l, FileAt disk i s l →
      FileAt disk' i s l ∧
      ∀ m ∈ s :: l, ∀ y, InSector m y → disk' y = disk y) : filesOn disk' n = filesOn disk n := by
  by_cases hn : ∃ i < numDirEntries, Has (tableOf disk) i n
  · obtain ⟨i, hi, h⟩ := hn
    obtain ⟨s, l, hF⟩ := hI.files i hi h.1
    obtain ⟨hF', hbytes⟩ := hfile i hi h s l hF
    have hhdr : FileHeader.headerAt disk' s = FileHeader.headerAt disk s :=
      FileHeader.headerAt_congr (hbytes s List.mem_cons_self)
    rw [hI'.filesOn_some hi ((hhas i hi).mpr h) hF', hI.filesOn_some hi h hF, hhdr]
    refine congrArg some (FileHeader.bytesOn_congr fun k h0 h1 => ?_)
    refine OpenFile.content_congr hF.good (fun m hm y hy => ?_) h0 h1
    rw [hF.sectors] at hm
    obtain ⟨m', hm', rfl⟩ := List.mem_map.mp hm
    exact hbytes m' (List.mem_cons_of_mem _ hm') y hy
  · have habs : ∀ i < numDirEntries, ¬ Has (tableOf disk) i n := fun i hi h => hn ⟨i, hi, h⟩
    rw [hI.filesOn_none habs, hI'.filesOn_none fun i hi h => habs i hi ((hhas i hi).mp h)]

/-- `Create` adds a file of the length. -/
theorem Inv.filesOn_created (hI : Inv fs disk) (hC : Created disk disk' name size i s l)
    (h0 : 0 ≤ size) (h1 : size ≤ maxFileSize)
    (habs : ∀ j < numDirEntries, ¬ Has (tableOf disk) j name.key) :
    ∃ bytes : List Byte, (bytes.length : ℤ) = size ∧ filesOn disk' = Function.update (filesOn disk)
      name.key (some bytes) := by
  have hI' := hI.created hC h0 h1 habs
  refine ⟨(FileHeader.headerAt disk' s).bytesOn disk', ?_, ?_⟩
  · rw [FileHeader.length_bytesOn, FileHeader.fileLength, hC.numBytes]
    omega
  · funext n
    by_cases he : n = name.key
    · subst he
      rw [Function.update_self, hI'.filesOn_some hC.lt ⟨hC.inUse, hC.name⟩ (hC.file hI.ready h0 h1)]
    · rw [Function.update_of_ne he]
      have hne : ∀ k < numDirEntries, Has (tableOf disk) k n → k ≠ i := by
        rintro k - hhas rfl
        have := hhas.1
        rw [hC.unused] at this
        cases this
      refine hI.filesOn_other hI' (fun k hk => ?_) fun k hk hhas s1 l1 hF =>
        ⟨hC.keep hk (hne k hk hhas) hF, fun m hm y hy => ?_⟩
      · by_cases hki : k = i
        · subst hki
          exact iff_of_false (fun h => he (h.2.symm.trans hC.name)) fun h => hne k hk h rfl
        · exact (hC.other k hk hki).has
      · obtain ⟨h5, -, hmark⟩ := hF.marked m hm
        exact hC.byte h5 hmark hy

/-- `Remove` deletes the file. -/
theorem Inv.filesOn_removed (hI : Inv fs disk) (hD : Removed disk disk' i s l)
    (hi : i < numDirEntries) (hhas : Has (tableOf disk) i n) (hF : FileAt disk i s l) :
    filesOn disk' = Function.update (filesOn disk) n none := by
  have hI' := hI.removed hD hi hhas.1 hF
  have hgone : ∀ m, ¬ Has (tableOf disk') i m := by
    intro m h
    have := h.1
    rw [hD.unused] at this
    cases this
  have hother : ∀ m, ∀ k < numDirEntries, k ≠ i →
      (Has (tableOf disk') k m ↔ Has (tableOf disk) k m) :=
    fun m k hk hki => (hD.other k hk hki).has
  funext m
  by_cases he : m = n
  · subst he
    rw [Function.update_self]
    refine hI'.filesOn_none fun k hk h => ?_
    by_cases hki : k = i
    · exact hgone m (hki ▸ h)
    · have h' := (hother m k hk hki).mp h
      exact hki (hI.names k hk i hi h'.1 hhas.1 (h'.2.trans hhas.2.symm))
  · rw [Function.update_of_ne he]
    have hne : ∀ k, Has (tableOf disk) k m → k ≠ i := by
      rintro k h rfl
      exact he (h.2.symm.trans hhas.2)
    refine hI.filesOn_other hI' (fun k hk => ?_) fun k hk h s1 l1 hF1 =>
      ⟨hD.keep hI hi hhas.1 hF hk (hne k h) h.1 hF1, fun p hp y hy =>
        hD.byte (hF1.marked p hp).1 hy⟩
    by_cases hki : k = i
    · subst hki
      exact iff_of_false (hgone m) fun h => hne k h rfl
    · exact hother m k hk hki

/-- The bytes that a request replaces are the request's, up to the end of the file. -/
theorem OpenFile.copy_clip {hdr : FileHeader} (src m : Store) (q : ℤ) {numBytes position k : ℤ}
    (h1 : k < hdr.fileLength) :
    Bytes.copy src q m position (OpenFile.clip hdr.fileLength numBytes position) k =
      if position ≤ k ∧ k < position + numBytes then src (q + (k - position)) else m k := by
  have hclip : (position ≤ k ∧ k < position + OpenFile.clip hdr.fileLength numBytes position) ↔
      position ≤ k ∧ k < position + numBytes := by
    unfold OpenFile.clip
    split_ifs
    · omega
    · omega
  by_cases hk : position ≤ k ∧ k < position + numBytes
  · rw [if_pos hk, Bytes.copy_inside hk.1 (hclip.mpr hk).2]
  · rw [if_neg hk, Bytes.copy_outside]
    have := mt hclip.mp hk
    omega

/-- `WriteAt` through an open file changes its bytes. -/
theorem Inv.filesOn_written (hI : Inv fs disk) {x : Handle} (hx : Run.HandleOf disk x i s l)
    (hW : WrittenIn disk disk' l) {src : Store} {q numBytes position : ℤ}
    (hin : ∀ k, 0 ≤ k → k < x.file.hdr.fileLength → x.file.hdr.content disk' k =
      Bytes.copy src q (x.file.hdr.content disk) position
      (OpenFile.clip x.file.hdr.fileLength numBytes position) k) :
    filesOn disk' = (filesOn disk).writeAt x.key (fun k => src (q + k)) position numBytes := by
  have hI' := hI.written hW hx.lt hx.has.1 hx.file
  obtain ⟨hF', hhdr⟩ := hW.keep hI hx.lt hx.has.1 hx.file hx.lt hx.has.1 hx.file
  unfold FileMap.writeAt
  funext n
  by_cases he : n = x.key
  · subst he
    rw [Function.update_self, hI.filesOn_some hx.lt hx.has hx.file,
      hI'.filesOn_some hx.lt ((hW.entry hx.file hx.lt).has.mpr hx.has) hF', hhdr, ← hx.hdr,
      Option.map_some]
    refine congrArg some (List.ext_getElem? fun k => ?_)
    rw [List.getElem?_mapIdx]
    unfold FileHeader.bytesOn
    by_cases hk : k < x.file.hdr.fileLength.toNat
    · rw [List.getElem?_map, List.getElem?_map, List.getElem?_range hk, Option.map_some,
        Option.map_some, Option.map_some, hin k (by omega) (by omega), OpenFile.copy_clip _ _
        _ (by omega)]
    · rw [List.getElem?_eq_none (by simpa using hk), List.getElem?_eq_none (by simpa using hk),
        Option.map_none]
  · rw [Function.update_of_ne he]
    refine hI.filesOn_other hI' (fun k hk => (hW.entry hx.file hk).has) fun k hk hhas s1 l1 hF => ?_
    refine ⟨(hW.keep hI hx.lt hx.has.1 hx.file hk hhas.1 hF).1, fun m hm y hy =>
      hW.byte (fun p hp hpm => ?_) hy⟩
    obtain rfl := Nat.cast_inj.mp hpm
    have hki :=
      hI.apart k hk i hx.lt hhas.1 hx.has.1 s1 l1 s l hF hx.file p hm (List.mem_cons_of_mem _ hp)
    subst hki
    exact he (hhas.2.symm.trans hx.has.2)

/-! ### Room -/

theorem Created.length (hC : Created disk disk' name size i s l) :
    (l.length : ℤ) = max 0 (divRoundUp size Disk.sectorSize) := by
  have h := congrArg List.length hC.sectors
  rw [FileHeader.sectors, List.length_map, List.length_range, List.length_map, hC.numSectors] at h
  omega

/-- `Create` answers TRUE where there is room. -/
theorem create_room (hI : Inv fs disk) (mem : ℕ → Store) (name : CString) (h0 : 0 ≤ size)
    (h1 : size ≤ maxFileSize) :
    (∃ disk' i s l, fs.create mem name size disk = .ok (true, disk') ∧
      Created disk disk' name size i s l ∧
      (∀ j < numDirEntries, ¬ Has (tableOf disk) j name.key) ∧
      (filesOn disk).Room name.key size (freeMapOn disk).numClear) ∨
    (fs.create mem name size disk = .ok (false, disk) ∧
      ¬ (filesOn disk).Room name.key size (freeMapOn disk).numClear) := by
  rw [hI.freeMapOn]
  rcases create_ok hI.mounted hI.ready mem name (Or.inl ⟨h0, h1⟩) with
    ⟨disk', i, s, l, h, -, -, habs, hC⟩ | ⟨h, hwhy⟩
  · refine Or.inl ⟨disk', i, s, l, h, hC, habs, hI.filesOn_none habs,
      hI.ncard_lt_iff.mpr ⟨i, hC.lt, hC.unused⟩, ?_⟩
    have hclear := Bitmap.numClear_foldl_mark (b := mapOf disk) (s :: l) hC.nodup hC.free
    have hlen := hC.length
    rw [List.length_cons] at hclear
    omega
  · refine Or.inr ⟨h, fun hroom => ?_⟩
    rcases hwhy with hhas | hfull | hclear
    · exact hI.filesOn_ne_none.mpr hhas hroom.absent
    · obtain ⟨i, hi, hu⟩ := hI.ncard_lt_iff.mp hroom.entries
      rw [hfull i hi] at hu
      cases hu
    · have := hroom.sectors
      omega

/-! ### Runs with their history -/

/-- A run with the header that the latest successful `Create` of each name has
made. -/
structure History where
  run : Run
  latest : List Byte → Option FileHeader

namespace History

/-- What a call adds to the history. -/
def latestAfter (h : History) : Run.Label → List Byte → Option FileHeader
  | .create mem name size =>
    match h.run.fs.create mem name size h.run.disk with
    | .ok (true, disk') => Function.update h.latest name.key (headerOn disk' name.key)
    | _ => h.latest
  | _ => h.latest

def step (h : History) (label : Run.Label) : Option History :=
  (h.run.step label).map fun st' => ⟨st', h.latestAfter label⟩

def Initial (h : History) : Prop := h.run.Initial ∧ h.latest = fun _ => none

/-- The runs of `Run.Reach`, with their histories. -/
abbrev Reach : History → Prop := Runs.Reach step Initial fun h label => h.run.Allowed label

theorem reach_run {h : History} (hr : h.Reach) : h.run.Reach := by
  refine Runs.Reach.map History.run (fun h hi => hi.1) (fun h label h' _ hok hst => ?_) hr
  obtain ⟨st', hst', rfl⟩ := Option.map_eq_some_iff.mp hst
  exact Or.inr ⟨label, hok, hst'⟩

/-- Every run has its history. -/
theorem of_run {st : Run} (hr : st.Reach) : ∃ h : History, h.Reach ∧ h.run = st := by
  induction hr with
  | init hi => exact ⟨⟨_, fun _ => none⟩, .init ⟨hi, rfl⟩, rfl⟩
  | step label _ hok hst ih =>
    obtain ⟨h, hr, rfl⟩ := ih
    have hstep : h.step label = some ⟨_, h.latestAfter label⟩ :=
      Option.map_eq_some_iff.mpr ⟨_, hst, rfl⟩
    exact ⟨_, .step label hr hok hstep, rfl⟩

/-- The files that are there have the headers of their `Create`. -/
def Latest (h : History) : Prop :=
  ∀ i < numDirEntries, ∀ n s l, Has (tableOf h.run.disk) i n → FileAt h.run.disk i s l →
  h.latest n = some (FileHeader.headerAt h.run.disk s)

/-- A call that leaves the entries and the headers of the files that it leaves. -/
theorem Latest.keep {h h' : History} (hL : h.Latest) (hI : Inv h.run.fs h.run.disk)
    (hlatest : h'.latest = h.latest)
    (hold : ∀ i < numDirEntries, ∀ n, Has (tableOf h'.run.disk) i n → Has (tableOf h.run.disk) i n)
    (hfile : ∀ i < numDirEntries, ∀ n s l, Has (tableOf h'.run.disk) i n → FileAt h.run.disk i s l →
      FileAt h'.run.disk i s l ∧ FileHeader.headerAt h'.run.disk s = FileHeader.headerAt h.run.disk
      s) : h'.Latest := by
  intro i hi n s l hhas hF
  obtain ⟨s1, l1, hF1⟩ := hI.files i hi (hold i hi n hhas).1
  obtain ⟨hF', hhdr⟩ := hfile i hi n s1 l1 hhas hF1
  obtain ⟨rfl, rfl⟩ := hF.unique hF'
  rw [hlatest, hhdr]
  exact hL i hi n s l (hold i hi n hhas) hF1

/-- The disk is left. -/
theorem Latest.same {h h' : History} (hL : h.Latest) (hlatest : h'.latest = h.latest)
    (hdisk : h'.run.disk = h.run.disk) : h'.Latest := by
  intro i hi n s l hhas hF
  rw [hdisk] at hhas hF ⊢
  rw [hlatest]
  exact hL i hi n s l hhas hF

theorem disk_andThen {α : Type} (st : Run) (r : Except Stop α) {f : α → Run}
    (hf : ∀ a, (f a).disk = st.disk) :
    (st.andThen r f).disk = st.disk := by
  unfold Run.andThen
  split
  · exact hf _
  · rfl

/-- **One call** keeps the headers. -/
theorem Latest.step {h h' : History} (hG : h.run.Good) (hL : h.Latest) {label : Run.Label}
    (hok : h.run.Allowed label) (hst : h.step label = some h') : h'.Latest := by
  obtain ⟨st', hst', rfl⟩ := Option.map_eq_some_iff.mp hst
  have hI := hG.inv
  have hcall : h.run.call label = some st' := (hG.step_eq label).symm.trans hst'
  have hwrite : ∀ k x, label.writes = some k → h.run.handles[k]? = some x →
      h.latestAfter label = h.latest →
      Latest ⟨st', h.latestAfter label⟩ := by
    intro k x hw hx hlatest
    obtain ⟨i, s, l, hh, hW⟩ := hG.writes hok hst' hw hx
    refine hL.keep hI hlatest (fun j hj n hhas => (hW.entry hh.file hj).has.mp hhas)
      fun j hj n s1 l1 hhas hF => ?_
    exact hW.keep hI hh.lt hh.has.1 hh.file hj ((hW.entry hh.file hj).has.mp hhas).1 hF
  cases label with
  | create mem name size =>
    cases hcall
    rcases create_ok hI.mounted hI.ready mem name hok with
      ⟨disk', i, s, l, hc, h0, h1, habs, hC⟩ | ⟨hc, -⟩
    · rw [hc]
      intro j hj n s1 l1 hhas hF
      simp only [latestAfter, hc]
      by_cases hji : j = i
      · subst hji
        obtain rfl : n = name.key := hhas.2.symm.trans hC.name
        rw [Function.update_self]
        exact (hI.created hC h0 h1 habs).headerOn_some hj hhas hF
      · have hhas' := (hC.other j hj hji).has.mp hhas
        obtain ⟨s2, l2, hF2⟩ := hI.files j hj hhas'.1
        obtain ⟨rfl, rfl⟩ := hF.unique (hC.keep hj hji hF2)
        obtain ⟨h5, -, hm⟩ := hF2.marked s1 List.mem_cons_self
        rw [Function.update_of_ne fun he : n = name.key => habs j hj (he ▸ hhas'),
          hL j hj n s1 l1 hhas' hF2]
        exact congrArg some (FileHeader.headerAt_congr fun y hy => hC.byte h5 hm hy).symm
    · refine hL.same ?_ ?_
      · simp only [latestAfter, hc]
      · rw [hc]
        rfl
  | remove mem name =>
    cases hcall
    rcases remove_ok hI.mounted hI.ready hI.files mem name with
      ⟨disk', i, s, l, hd, hi, hhas, hF, hD⟩ | ⟨hd, -⟩
    · rw [hd]
      have hne : ∀ j, ∀ n, Has (tableOf disk') j n → j ≠ i := by
        rintro j n hj rfl
        have := hj.1
        rw [hD.unused] at this
        cases this
      have hold : ∀ j < numDirEntries, ∀ n, Has (tableOf disk') j n →
          Has (tableOf h.run.disk) j n :=
        fun j hj n hh => (hD.other j hj (hne j n hh)).has.mp hh
      refine hL.keep hI rfl hold fun j hj n s1 l1 hh hF1 =>
        ⟨hD.keep hI hi hhas.1 hF hj (hne j n hh) (hold j hj n hh).1 hF1, ?_⟩
      exact FileHeader.headerAt_congr fun y hy => hD.byte (hF1.marked s1 List.mem_cons_self).1 hy
    · refine hL.same rfl ?_
      rw [hd]
      rfl
  | open_ mem name =>
    cases hcall
    refine hL.same rfl ?_
    rcases open_ok hI.mounted hI.ready hI.files mem name with ⟨i, s, l, -, -, -, ho⟩ | ⟨-, ho⟩
    · rw [ho]
      rfl
    · rw [ho]
      rfl
  | seek k position =>
    obtain ⟨x, -, rfl⟩ := Option.map_eq_some_iff.mp hcall
    exact hL.same rfl rfl
  | readAt k new into p numBytes position =>
    obtain ⟨x, -, rfl⟩ := Option.map_eq_some_iff.mp hcall
    exact hL.same rfl (disk_andThen _ _ fun _ => rfl)
  | read k new into p numBytes =>
    obtain ⟨x, -, rfl⟩ := Option.map_eq_some_iff.mp hcall
    exact hL.same rfl (disk_andThen _ _ fun _ => rfl)
  | writeAt k news src q numBytes position =>
    obtain ⟨x, hx, -⟩ := Option.map_eq_some_iff.mp hcall
    exact hwrite k x rfl hx rfl
  | write k news src q numBytes =>
    obtain ⟨x, hx, -⟩ := Option.map_eq_some_iff.mp hcall
    exact hwrite k x rfl hx rfl

/-- **Every run** has the headers of the latest `Create`. -/
theorem latest_reach {h : History} (hr : h.Reach) : h.Latest := by
  refine Runs.Reach.inv Latest (fun h hi => ?_) (fun h label h' hr hL hok hst => ?_) hr
  · intro i hi' n s l hhas
    obtain ⟨mem, disk, hformat, -, -⟩ := hi.1
    obtain ⟨fs, disk', hfmt, -, -, -, hunused, -⟩ := format_ok mem disk
    rw [hfmt] at hformat
    obtain ⟨-, hdisk⟩ := Prod.mk.inj (Except.ok.inj hformat)
    have := hhas.1
    rw [← hdisk, hunused i hi'] at this
    cases this
  · exact hL.step (Run.good_reach (reach_run hr)) hok hst

end History

/-! ### The refinement -/

/-- `Remove` gives back the sectors that `Create` took. -/
theorem Created.remove (hI : Inv fs disk) (hC : Created disk disk' name size i s l) (h0 : 0 ≤ size)
    (h1 : size ≤ maxFileSize) (habs : ∀ j < numDirEntries, ¬ Has (tableOf disk) j name.key)
    (mem : ℕ → Store) :
    ∃ disk'', fs.remove mem name disk' = .ok (true, disk'') ∧ Inv fs disk'' ∧
      (∀ n < Disk.numSectors, (mapOf disk'').test n = (mapOf disk).test n) ∧
      ∀ k < numDirEntries, Directory.inUse (tableOf disk'') k =
        Directory.inUse (tableOf disk) k := by
  have hI' := hI.created hC h0 h1 habs
  rcases remove_ok hI'.mounted hI'.ready hI'.files mem name with
    ⟨disk'', j, s', l', hd, hj, hhas, hF, hD⟩ | ⟨-, hnone⟩
  · obtain rfl : j = i := hI'.names j hj i hC.lt hhas.1 hC.inUse (hhas.2.trans hC.name.symm)
    obtain ⟨rfl, rfl⟩ := hF.unique (hC.file hI.ready h0 h1)
    refine ⟨disk'', hd, hI'.removed hD hj hhas.1 hF, fun n hn => ?_, fun k hk => ?_⟩
    · rw [hD.map n hn, hC.map n hn]
      by_cases hmem : n ∈ s' :: l'
      · rw [decide_eq_true hmem, (hC.free n hmem).2]
        rfl
      · rw [decide_eq_false hmem, Bool.false_or, Bool.not_false, Bool.true_and]
    · by_cases hkj : k = j
      · rw [hkj, hD.unused, hC.unused]
      · exact (hD.other k hk hkj).1.trans (hC.other k hk hkj).1
  · exact absurd ⟨hC.inUse, hC.name⟩ (hnone i hC.lt)

/-- **The file system is a map from names to files.** On the disk of every run
whose reads and writes go through open files that are still there: `Create` of
a name that fits answers TRUE exactly if there is room for it, and then adds a
file of its length, and else changes no file; `Remove` then gives back all that
it took; `Remove` answers TRUE exactly if the name is there and deletes it;
`Open` gives the file of the latest `Create` if the name is there; and `WriteAt`
changes bytes of the one file. -/
theorem refines_name_map (h : History) (hr : h.Reach) :
    (∀ (mem : ℕ → Store) (name : CString) (size : ℤ), name.1.length ≤ fileNameMaxLen → 0 ≤ size →
      size ≤ maxFileSize →
      ∃ ok disk', h.run.fs.create mem name size h.run.disk = .ok (ok, disk') ∧
        (ok = true ↔ (filesOn h.run.disk).Room name.1 size (freeMapOn h.run.disk).numClear) ∧
        (ok = true → ∃ bytes : List Byte, (bytes.length : ℤ) = size ∧
          filesOn disk' = Function.update (filesOn h.run.disk) name.1 (some bytes)) ∧
        (ok = false → filesOn disk' = filesOn h.run.disk) ∧
        (filesOn h.run.disk name.1 = none → ∀ mem', ∃ disk'',
          h.run.fs.remove mem' name disk' = .ok (ok, disk'') ∧
          ∀ n < Disk.numSectors, (freeMapOn disk'').test n = (freeMapOn h.run.disk).test n)) ∧
    (∀ (mem : ℕ → Store) (name : CString), name.1.length ≤ fileNameMaxLen →
      ∃ ok disk', h.run.fs.remove mem name h.run.disk = .ok (ok, disk') ∧
        (ok = true ↔ filesOn h.run.disk name.1 ≠ none) ∧
        filesOn disk' = Function.update (filesOn h.run.disk) name.1 none) ∧
    (∀ (mem : ℕ → Store) (name : CString), name.1.length ≤ fileNameMaxLen →
      ∃ file, h.run.fs.open_ mem name h.run.disk = .ok (file, h.run.disk) ∧
        (file.isSome = true ↔ filesOn h.run.disk name.1 ≠ none) ∧
        ∀ x, file = some x → h.latest name.1 = some x.hdr ∧
          filesOn h.run.disk name.1 = some (x.hdr.bytesOn h.run.disk)) ∧
    ∀ x ∈ h.run.handles, x.live = true →
    ∀ (news : ℕ → Store) (src : Store) (q numBytes position : ℤ),
      0 ≤ position → position + numBytes < 2 ^ 31 →
      ∃ disk' r,
        OpenFile.writeAt h.run.disk x.file.hdr news src q numBytes position = .ok (disk', r) ∧
        filesOn h.run.disk x.key ≠ none ∧
        filesOn disk' =
          (filesOn h.run.disk).writeAt x.key (fun k => src (q + k)) position numBytes := by
  have hG := Run.good_reach (History.reach_run hr)
  have hI := hG.inv
  refine ⟨fun mem name size hlen h0 h1 => ?_, fun mem name hlen => ?_, fun mem name hlen => ?_,
    fun x hx hlive news src q numBytes position h0 _ => ?_⟩
  · rw [← CString.key_eq hlen]
    rcases create_room hI mem name h0 h1 with ⟨disk', i, s, l, hc, hC, habs, hroom⟩ | ⟨hc, hroom⟩
    · refine ⟨true, disk', hc, iff_of_true rfl hroom, fun _ => hI.filesOn_created hC h0 h1 habs,
        nofun, fun _ mem' => ?_⟩
      obtain ⟨disk'', hd, hI'', hmap, -⟩ := hC.remove hI h0 h1 habs mem'
      refine ⟨disk'', hd, fun n hn => ?_⟩
      rw [hI''.freeMapOn, hI.freeMapOn, hmap n hn]
    · refine ⟨false, h.run.disk, hc, iff_of_false (by decide) hroom, nofun, fun _ => rfl,
        fun hnone mem' => ?_⟩
      rcases remove_ok hI.mounted hI.ready hI.files mem' name with
        ⟨-, i, -, -, -, hi, hhas, -⟩ | ⟨hd, -⟩
      · exact absurd hnone (hI.filesOn_ne_none.mpr ⟨i, hi, hhas⟩)
      · exact ⟨h.run.disk, hd, fun _ _ => rfl⟩
  · rw [← CString.key_eq hlen]
    rcases remove_ok hI.mounted hI.ready hI.files mem name with
      ⟨disk', i, s, l, hd, hi, hhas, hF, hD⟩ | ⟨hd, habs⟩
    · exact ⟨true, disk', hd, iff_of_true rfl (hI.filesOn_ne_none.mpr ⟨i, hi, hhas⟩),
        hI.filesOn_removed hD hi hhas hF⟩
    · have hnone := hI.filesOn_none habs
      refine ⟨false, h.run.disk, hd, iff_of_false (by decide) (not_not.mpr hnone), ?_⟩
      rw [← hnone, Function.update_eq_self]
  · rw [← CString.key_eq hlen]
    rcases open_ok hI.mounted hI.ready hI.files mem name with
      ⟨i, s, l, hi, hhas, hF, ho⟩ | ⟨habs, ho⟩
    · refine ⟨_, ho, iff_of_true rfl (hI.filesOn_ne_none.mpr ⟨i, hi, hhas⟩), fun x hx => ?_⟩
      obtain rfl := Option.some.inj hx
      exact ⟨History.latest_reach hr i hi _ s l hhas hF, hI.filesOn_some hi hhas hF⟩
    · exact ⟨none, ho, iff_of_false (by decide) (not_not.mpr (hI.filesOn_none habs)), nofun⟩
  · obtain ⟨i, s, l, hh⟩ := hG.handles x hx hlive
    obtain ⟨disk', r, hw, hW, rfl, hin⟩ := hh.writeAt news src q numBytes (Or.inr h0)
    exact ⟨disk', _, hw, hI.filesOn_ne_none.mpr ⟨i, hh.lt, hh.has⟩, hI.filesOn_written hh hW hin⟩

/-- A file is created, opened and removed. -/
theorem refines_name_map_first : ∃ h : History, h.Reach ∧ filesOn h.run.disk [97] ≠ none ∧
    ∃ disk', h.run.fs.remove (fun _ _ => 0) ⟨[97], by decide⟩ h.run.disk = .ok (true, disk') ∧
    filesOn disk' [97] = none := by
  obtain ⟨st, x, hr, hx, hlive, hkey⟩ :=
    reach_opened (fun _ _ => 0) ⟨[97], by decide⟩ (show (0 : ℤ) ≤ 200 by omega) (by decide)
  obtain ⟨h, hh, rfl⟩ := History.of_run hr
  obtain ⟨-, hremove, -, hwrite⟩ := refines_name_map h hh
  have hthere : filesOn h.run.disk [97] ≠ none := by
    obtain ⟨disk', r, -, hne, -⟩ := hwrite x (hx ▸ List.mem_singleton_self x) hlive (fun _ _ => 0)
      (fun _ => 0) 0 0 0 (le_refl 0) (by omega)
    rw [show x.key = [97] from hkey] at hne
    exact hne
  obtain ⟨ok, disk', hd, hok, hfiles⟩ := hremove (fun _ _ => 0) ⟨[97], by decide⟩ (by decide)
  obtain rfl : ok = true := hok.mpr hthere
  refine ⟨h, hh, hthere, disk', hd, ?_⟩
  rw [hfiles, Function.update_self]

/-! ### An open file whose name was removed

The headers in memory outlive the file, and `Create` takes the sectors again. -/

/-- Files within the capacity and requests at positions from 0 on, through any
handle. -/
def Run.AnyHandle (st : Run) : Run.Label → Prop
  | .create _ _ size => 0 ≤ size ∧ size ≤ maxFileSize
  | .readAt _ _ _ _ numBytes position => 0 ≤ position ∧ position + numBytes < 2 ^ 31
  | .writeAt _ _ _ _ numBytes position => 0 ≤ position ∧ position + numBytes < 2 ^ 31
  | .read h _ _ _ numBytes =>
    ∀ x, st.handles[h]? = some x → 0 ≤ x.file.seekPosition ∧ x.file.seekPosition + numBytes < 2 ^ 31
  | .write h _ _ _ numBytes =>
    ∀ x, st.handles[h]? = some x → 0 ≤ x.file.seekPosition ∧ x.file.seekPosition + numBytes < 2 ^ 31
  | _ => True

/-- The first file of a disk has its data in sector 6. -/
theorem Fresh.sectors {st : Run} (h : Fresh st) (hC : Created st.disk disk' name 128 i 5 l) :
    l = [6] := by
  have hlen := hC.length
  rw [show divRoundUp 128 Disk.sectorSize = 1 by decide] at hlen
  obtain ⟨n, rfl⟩ := List.length_eq_one_iff.mp (show l.length = 1 by omega)
  obtain ⟨hlt, hclear⟩ := hC.free n (by simp)
  have h5 := h.good.inv.ready.le_of_clear hclear
  have hne : n ≠ 5 := by
    have := hC.nodup
    simp only [List.nodup_cons, List.mem_singleton] at this
    exact fun he => this.1 he.symm
  by_contra hn
  have hn6 : n ≠ 6 := fun he => hn (by rw [he])
  rcases hC.firstFit n (by simp) 6 (by omega) with hm | hm
  · rw [h.map 6 (by decide)] at hm
    cases hm
  · simp only [List.mem_cons, List.not_mem_nil, or_false] at hm
    omega

/-- What a header of one sector says of its content. -/
theorem content_first {hdr : FileHeader} (hnum : hdr.numSectors = 1) {n : ℕ}
    (hsec : hdr.sectors = [(n : ℤ)]) (disk : Store) {x : ℤ} (h0 : 0 ≤ x) (h1 : x < 128) :
    hdr.content disk x = disk (Disk.offset n + x) := by
  have hn : hdr.dataSectors 0 = n := by simpa [FileHeader.sectors, hnum] using hsec
  unfold FileHeader.content FileHeader.place
  rw [OpenFile.sectorSize_cast, show x / 128 = 0 by omega, show x % 128 = x by omega,
    Int.toNat_zero, hn]

/-- `a` is created, opened and removed, and `b` is created: a byte written to
the open file is the first of `b`. -/
theorem stale_handle_writes_other :
    ∃ (st st' : Run) (x : Handle) (src : Store), Runs.Reach Run.step Run.Initial Run.AnyHandle st ∧
    st.handles = [x] ∧ x.key = [97] ∧
      st.step (.writeAt 0 (fun _ _ => 0) src 0 1 0) = some st' ∧
      filesOn st'.disk [98] ≠ filesOn st.disk [98] := by
  let mem : ℕ → Store := fun _ _ => 0
  let a : CString := ⟨[97], by decide⟩
  let b : CString := ⟨[98], by decide⟩
  have hsize : (0 : ℤ) ≤ 128 ∧ 128 ≤ maxFileSize := by decide
  obtain ⟨fs, d0, d1, i, l, hinit, hcreate, hopen, hfresh, hG1, hC, hF⟩ :=
    first_opened mem a hsize.1 hsize.2
  let x : Handle := ⟨⟨FileHeader.headerAt d1 5, 0⟩, a.key, true⟩
  -- the name is removed, and the disk is as it was before
  have habs : ∀ j < numDirEntries, ¬ Has (tableOf d0) j a.key := by
    intro j hj hhas
    have := hhas.1
    rw [hfresh.unused j hj] at this
    cases this
  obtain ⟨d2, hremove, hI2, hmap, hused⟩ := hC.remove hfresh.good.inv hsize.1 hsize.2 habs mem
  have hstep3 : Run.step ⟨fs, d1, [x], none⟩ (.remove mem a) =
      some ⟨fs, d2, [{ x with live := false }], none⟩ := by
    show some (Run.andThen _ (fs.remove mem a d1) _) = _
    rw [hremove]
    rfl
  have hfresh2 : Fresh ⟨fs, d2, [{ x with live := false }], none⟩ :=
    { good := ⟨rfl, hI2, by simp⟩
      unused := fun j hj => (hused j hj).trans (hfresh.unused j hj)
      map := fun j hj => (hmap j hj).trans (hfresh.map j hj) }
  -- so the other name gets the same sectors
  obtain ⟨d3, i', l', hstep4, hC', hG3⟩ := hfresh2.create mem b hsize.1 hsize.2
  obtain rfl := hfresh.sectors hC
  obtain rfl := hfresh2.sectors hC'
  have hF' := hC'.file hI2.ready hsize.1 hsize.2
  have hone : divRoundUp 128 Disk.sectorSize = 1 := by decide
  have hcontent : ∀ (disk : Store) (k : ℤ), 0 ≤ k → k < 128 →
      (FileHeader.headerAt d1 5).content disk k = (FileHeader.headerAt d3 5).content disk k := by
    intro disk k h0 h1
    calc (FileHeader.headerAt d1 5).content disk k
        = disk (Disk.offset 6 + k) := content_first (hC.numSectors.trans hone) hC.sectors disk h0 h1
      _ = (FileHeader.headerAt d3 5).content disk k :=
        (content_first (hC'.numSectors.trans hone) hC'.sectors disk h0 h1).symm
  have hlen : (FileHeader.headerAt d1 5).fileLength = 128 ∧
      (FileHeader.headerAt d3 5).fileLength = 128 := ⟨hC.numBytes, hC'.numBytes⟩
  let src : Store := fun _ => (FileHeader.headerAt d3 5).content d3 0 + 1
  have hgood : (FileHeader.headerAt d1 5).Good := hF.good
  have hsectors : (FileHeader.headerAt d1 5).sectors = [6] := hF.sectors
  have hI3 : Inv fs d3 := hG3.inv
  obtain ⟨d4, hwrite, hin, hout⟩ := OpenFile.writeAt_ok d3 hgood mem src 0 1 (le_refl 0)
  have hW : WrittenIn d3 d4 [6] := by
    refine fun y hy => hout y fun n hn => ?_
    rw [hsectors] at hn
    obtain rfl : n = (6 : ℕ) := by simpa using hn
    exact hy 6 (by simp)
  let z : Handle := ⟨⟨FileHeader.headerAt d3 5, 0⟩, b.key, true⟩
  have hz : Run.HandleOf d3 z i' 5 [6] := ⟨hC'.lt, ⟨hC'.inUse, hC'.name⟩, hF', rfl⟩
  have hfiles : filesOn d4 = (filesOn d3).writeAt [98] (fun k => src (0 + k)) 0 1 := by
    refine hI3.filesOn_written hz hW fun k h0 h1 => ?_
    have hk : k < 128 := hlen.2 ▸ h1
    have hkA : k < (FileHeader.headerAt d1 5).fileLength := hlen.1.symm ▸ hk
    show (FileHeader.headerAt d3 5).content d4 k = _
    rw [← hcontent d4 k h0 hk, hin k h0 hkA, OpenFile.copy_clip _ _ _ hkA,
      OpenFile.copy_clip _ _ _ h1, hcontent d3 k h0 hk]
  have hb : filesOn d3 [98] = some ((FileHeader.headerAt d3 5).bytesOn d3) :=
    hI3.filesOn_some hz.lt hz.has hz.file
  have hfirst : ((FileHeader.headerAt d3 5).bytesOn d3)[0]? =
      some ((FileHeader.headerAt d3 5).content d3 0) := by
    rw [FileHeader.bytesOn, hlen.2, List.getElem?_map, List.getElem?_range (by decide)]
    rfl
  refine ⟨⟨fs, d3, [{ x with live := false }], none⟩, ⟨fs, d4, [{ x with live := false }], none⟩,
    { x with live := false }, src, ?_, rfl, rfl, ?_, fun he => ?_⟩
  · refine Runs.Reach.step _ (Runs.Reach.step _
      (Runs.Reach.step _ (Runs.Reach.step _ (Runs.Reach.init hinit) ?_ hcreate) ?_ hopen) ?_
      hstep3) ?_ hstep4
    · exact hsize
    · trivial
    · trivial
    · exact hsize
  · show some (Run.andThen _ (OpenFile.writeAt d3 (FileHeader.headerAt d1 5) mem src 0 1 0) _) = _
    rw [hwrite]
    rfl
  · rw [show filesOn d4 [98] = _ from congrFun hfiles [98], FileMap.writeAt, Function.update_self,
      hb, Option.map_some] at he
    have h0 := congrArg (fun l : List Byte => l[0]?) (Option.some.inj he)
    simp only [List.getElem?_mapIdx, hfirst, Option.map_some, Option.some.injEq] at h0
    rw [if_pos (by decide)] at h0
    simp only [src] at h0
    generalize (FileHeader.headerAt d3 5).content d3 0 = v at h0
    bv_omega

end Nachos.Filesys
