/-
# The directory and the free map (`filesys/directory.cc`, `filesys/pbitmap.cc`)

Both are kept in files. The directory is a table of entries of 20 bytes: the
flag `inUse`, the sector of the file's header at byte 4, and the name at byte
8, of which `strncpy` and `strncmp` use the first `FileNameMaxLen` characters.
The table stays the array of bytes that it is; `inUse`, `sector` and `name`
read an entry, and each operation is specified by what it does to the entries
(`Directory.findIndex_eq_some`, `Directory.add_ok`; `Remove` clears `inUse`). The
free map is the words of a bitmap, so a map read from the bytes of another is
that map (`test_mapOfBytes`).

Key definitions: `strncmp`, `strncpy`, `Directory`, `Directory.findIndex`,
`Directory.add`, `Directory.remove`, `PersistentBitmap.fetch`,
`PersistentBitmap.writeBack`.
-/
import Mathlib
import Nachos.Base.Bytes
import Nachos.Lib.Bitmap
import Nachos.Filesys.OpenFile

namespace Nachos.Filesys

open Bytes (Byte Store)

/-- `class OpenFile`: a file whose header is in memory. -/
structure OpenFile where
  hdr : FileHeader
  seekPosition : ℤ

/-- `OpenFile::OpenFile(sector)`. -/
def OpenFile.new (disk : Store) (sector : ℤ) : Except Stop OpenFile :=
  (FileHeader.fetchFrom disk sector).map fun hdr => ⟨hdr, 0⟩

/-! ### Names -/

/-- A C string, without its end. -/
abbrev CString := { l : List Byte // (0 : Byte) ∉ l }

/-- Character `k` of a string. -/
def CString.char (s : CString) (k : ℕ) : Byte := s.1.getD k 0

/-- `strncmp` on the characters from `k` on. -/
def strncmp (s t : ℕ → Byte) : ℕ → ℕ → ℤ
  | _, 0 => 0
  | k, n + 1 =>
    if s k ≠ t k then (s k).toNat - (t k).toNat
    else if s k = 0 then 0 else strncmp s t (k + 1) n

/-- `strncpy(m + p, s, n)`: the characters, then zeros. -/
def strncpy (m : Store) (p : ℤ) (s : CString) (n : ℕ) : Store :=
  Bytes.write m p ((List.range n).map s.char)

/-- The string in `n` characters from `k` on: up to a zero. -/
def cstring (s : ℕ → Byte) : ℕ → ℕ → List Byte
  | _, 0 => []
  | k, n + 1 => if s k = 0 then [] else s k :: cstring s (k + 1) n

/-- `strncmp` compares strings. -/
theorem strncmp_eq_zero_iff (s t : ℕ → Byte) (k n : ℕ) :
    strncmp s t k n = 0 ↔ cstring s k n = cstring t k n := by
  induction n generalizing k with
  | zero => simp [strncmp, cstring]
  | succ n ih =>
    unfold strncmp cstring
    by_cases he : s k = t k
    · rw [if_neg (not_not.mpr he), he]
      by_cases h0 : t k = 0
      · rw [if_pos h0, if_pos h0, if_pos h0]
        exact iff_of_true rfl rfl
      · rw [if_neg h0, if_neg h0, if_neg h0, ih]
        exact ⟨fun h => by rw [h], fun h => (List.cons.inj h).2⟩
    · rw [if_pos he]
      constructor
      · intro h
        have hnat : (s k).toNat = (t k).toNat := by omega
        exact absurd (BitVec.eq_of_toNat_eq hnat) he
      · intro h
        exfalso
        split_ifs at h with h0 h1 h1
        · exact he (h0.trans h1.symm)
        · exact he (List.cons.inj h).1

theorem cstring_congr {s t : ℕ → Byte} {k n : ℕ} (h : ∀ j, k ≤ j → j < k + n → s j = t j) :
    cstring s k n = cstring t k n := by
  induction n generalizing k with
  | zero => rfl
  | succ n ih =>
    unfold cstring
    rw [h k (by omega) (by omega), ih fun j h1 h2 => h j (by omega) (by omega)]

/-- The string in the characters of a string. -/
theorem cstring_char (s : CString) (k n : ℕ) : cstring s.char k n = (s.1.drop k).take n := by
  induction n generalizing k with
  | zero => simp [cstring]
  | succ n ih =>
    unfold cstring
    by_cases hk : k < s.1.length
    · have hne : s.char k ≠ 0 := by
        intro h0
        have hget : s.1[k] = 0 := by simpa [CString.char, hk] using h0
        have hmem := List.getElem_mem hk
        rw [hget] at hmem
        exact s.2 hmem
      rw [if_neg hne, ih, List.drop_eq_getElem_cons hk, List.take_succ_cons]
      simp [CString.char, hk]
    · have h0 : s.char k = 0 := by simp [CString.char, Nat.not_lt.mp hk]
      rw [if_pos h0, List.drop_eq_nil_of_le (Nat.not_lt.mp hk), List.take_nil]

/-! ### The directory -/

/-- `FileNameMaxLen`. -/
def fileNameMaxLen : ℕ := 9
/-- `sizeof(DirectoryEntry)`. -/
def sizeofDirectoryEntry : ℕ := 20

/-- What a name is known by. -/
def CString.key (s : CString) : List Byte := s.1.take fileNameMaxLen

/-- `class Directory`. -/
structure Directory where
  table : Store
  tableSize : ℕ

namespace Directory

/-- `table[i].inUse`. -/
def inUse (t : Store) (i : ℕ) : Bool := t (sizeofDirectoryEntry * i) ≠ 0

/-- `table[i].sector`. -/
def sector (t : Store) (i : ℕ) : ℤ := (Bytes.wordAt t (sizeofDirectoryEntry * i + 4)).toInt

/-- The characters of `table[i].name`. -/
def nameChar (t : Store) (i k : ℕ) : Byte := t (sizeofDirectoryEntry * i + 8 + k)

/-- `table[i].inUse = b`. -/
def setInUse (t : Store) (i : ℕ) (b : Bool) : Store :=
  Bytes.write t (sizeofDirectoryEntry * i) [if b then 1 else 0]

/-- `Directory::Directory` on memory that holds `new`. -/
def new (size : ℕ) (new : Store) : Directory :=
  ⟨(List.range size).foldl (fun t i => setInUse t i false) new, size⟩

/-- `Directory::FetchFrom`. -/
def fetchFrom (d : Directory) (disk : Store) (file : OpenFile) (new : Store) :
    Except Stop Directory :=
  (OpenFile.readAt disk file.hdr new d.table 0 (d.tableSize * sizeofDirectoryEntry) 0).map fun r =>
    { d with table := r.1 }

/-- `Directory::WriteBack`. -/
def writeBack (d : Directory) (disk : Store) (file : OpenFile) (news : ℕ → Store) :
    Except Stop Store :=
  (OpenFile.writeAt disk file.hdr news d.table 0 (d.tableSize * sizeofDirectoryEntry) 0).map
    Prod.fst

/-- `Directory::FindIndex`; `none` for -1. -/
def findIndex (d : Directory) (name : CString) : Option ℕ :=
  (List.range d.tableSize).find? fun i => inUse d.table i &&
    strncmp (nameChar d.table i) name.char 0 fileNameMaxLen = 0

/-- `Directory::Find`. -/
def find (d : Directory) (name : CString) : ℤ :=
  match d.findIndex name with
  | some i => sector d.table i
  | none => -1

/-- The entry that `Add` fills in. -/
def setEntry (t : Store) (i : ℕ) (name : CString) (newSector : ℤ) : Store :=
  let t := setInUse t i true
  let t := strncpy t (sizeofDirectoryEntry * i + 8) name fileNameMaxLen
  Bytes.write t (sizeofDirectoryEntry * i + 4) (Bytes.wordBytes (BitVec.ofInt 32 newSector))

/-- `Directory::Add`. -/
def add (d : Directory) (name : CString) (newSector : ℤ) : Directory × Bool :=
  if d.findIndex name ≠ none then (d, false)
  else
    match (List.range d.tableSize).find? fun i => !inUse d.table i with
    | some i => ({ d with table := setEntry d.table i name newSector }, true)
    | none => (d, false)

/-- `Directory::Remove`. -/
def remove (d : Directory) (name : CString) : Directory × Bool :=
  match d.findIndex name with
  | none => (d, false)
  | some i => ({ d with table := setInUse d.table i false }, true)

/-- The name in an entry. -/
def name (t : Store) (i : ℕ) : List Byte := cstring (nameChar t i) 0 fileNameMaxLen

variable {t t' : Store} {d : Directory} {i j : ℕ} {s : CString}

/-- The entry is in use and has the name. -/
def Has (t : Store) (i : ℕ) (key : List Byte) : Prop := inUse t i = true ∧ name t i = key

theorem match_iff : (inUse t i && strncmp (nameChar t i) s.char 0 fileNameMaxLen = 0) = true ↔
    Has t i s.key := by
  rw [Bool.and_eq_true, decide_eq_true_eq, strncmp_eq_zero_iff, cstring_char]
  rfl

theorem findIndex_eq_some (h : d.findIndex s = some i) : i < d.tableSize ∧ Has d.table i s.key := by
  obtain ⟨h1, h2, -⟩ := List.find?_range_eq_some.mp h
  exact ⟨List.mem_range.mp h2, match_iff.mp h1⟩

theorem findIndex_eq_none : d.findIndex s = none ↔ ∀ i < d.tableSize, ¬ Has d.table i s.key := by
  unfold findIndex
  rw [List.find?_eq_none]
  constructor
  · intro h i hi hhas
    exact h i (List.mem_range.mpr hi) (match_iff.mpr hhas)
  · intro h i hi hm
    exact h i (List.mem_range.mp hi) (match_iff.mp hm)

/-! ### Changes of an entry -/

/-- Two tables have the same entry `i`. -/
def SameEntry (t t' : Store) (i : ℕ) : Prop :=
  inUse t i = inUse t' i ∧ sector t i = sector t' i ∧ name t i = name t' i

/-- An entry is read from its 20 bytes. -/
theorem sameEntry_of_bytes (h : ∀ x : ℤ, 20 * i ≤ x → x < 20 * i + 20 → t x = t' x) :
    SameEntry t t' i := by
  refine ⟨?_, ?_, ?_⟩
  · unfold inUse sizeofDirectoryEntry
    rw [h _ (by omega) (by omega)]
  · unfold sector sizeofDirectoryEntry
    rw [Bytes.wordAt_congr fun k h0 h1 => h _ (by omega) (by omega)]
  · refine cstring_congr fun k _ hk => ?_
    unfold fileNameMaxLen at hk
    unfold nameChar sizeofDirectoryEntry
    exact h _ (by omega) (by omega)

theorem SameEntry.trans {t'' : Store} (h : SameEntry t t' i) (h' : SameEntry t' t'' i) :
    SameEntry t t'' i :=
  ⟨h.1.trans h'.1, h.2.1.trans h'.2.1, h.2.2.trans h'.2.2⟩

theorem SameEntry.has {key : List Byte} (h : SameEntry t t' i) : Has t i key ↔ Has t' i key := by
  unfold Has
  rw [h.1, h.2.2]

theorem setInUse_other (h : j ≠ i) (b : Bool) : SameEntry (setInUse t i b) t j := by
  refine sameEntry_of_bytes fun x h0 h1 => ?_
  unfold setInUse sizeofDirectoryEntry
  exact Bytes.write_outside (by simp only [List.length_singleton]; omega)

theorem inUse_setInUse (t : Store) (i : ℕ) (b : Bool) : inUse (setInUse t i b) i = b := by
  unfold inUse setInUse
  rw [Bytes.write_inside (le_refl _) (by simp)]
  cases b <;> simp

/-- `Add` leaves the other entries alone. -/
theorem setEntry_other (h : j ≠ i) (s : CString) (n : ℤ) : SameEntry (setEntry t i s n) t j := by
  refine sameEntry_of_bytes fun x h0 h1 => ?_
  have hw : ((Bytes.wordBytes (BitVec.ofInt 32 n)).length : ℤ) = 4 := rfl
  unfold setEntry strncpy setInUse sizeofDirectoryEntry
  simp only
  rw [Bytes.write_outside (by omega),
    Bytes.write_outside (by simp only [List.length_map, List.length_range, fileNameMaxLen]; omega),
    Bytes.write_outside (by simp only [List.length_singleton]; omega)]

/-- The entry that `Add` writes. -/
theorem setEntry_self (t : Store) (i : ℕ) (s : CString) (n : ℤ) :
    inUse (setEntry t i s n) i = true ∧ sector (setEntry t i s n) i = (BitVec.ofInt 32 n).toInt ∧
      name (setEntry t i s n) i = s.key := by
  have hw : ((Bytes.wordBytes (BitVec.ofInt 32 n)).length : ℤ) = 4 := rfl
  refine ⟨?_, ?_, ?_⟩
  · have hb : (setEntry t i s n) (sizeofDirectoryEntry * i) = (setInUse t i true)
        (sizeofDirectoryEntry * i) := by
      unfold setEntry strncpy
      rw [Bytes.write_outside (by omega), Bytes.write_outside (by omega)]
    have := inUse_setInUse t i true
    unfold inUse at *
    rw [hb]
    exact this
  · unfold sector setEntry
    simp only
    rw [Bytes.wordAt_write]
  · unfold name CString.key
    rw [← List.drop_zero (l := s.1), ← cstring_char]
    refine cstring_congr fun k _ hk => ?_
    unfold nameChar setEntry strncpy
    rw [Bytes.write_outside (by omega), Bytes.write_inside (by omega)
      (by simp only [List.length_map, List.length_range]; omega)]
    have hcast : (↑sizeofDirectoryEntry * ↑i + 8 + ↑k - (↑sizeofDirectoryEntry * ↑i + 8) :
        ℤ).toNat = k := by omega
    have hlt : k < fileNameMaxLen := by omega
    rw [hcast]
    simp [hlt]

/-- `Add` of an absent name takes an unused entry, if there is one. -/
theorem add_ok (habs : ∀ i < d.tableSize, ¬ Has d.table i s.key) (n : ℤ) :
    (∃ i < d.tableSize, inUse d.table i = false ∧
      d.add s n = ({ d with table := setEntry d.table i s n }, true)) ∨
    (d.add s n = (d, false) ∧ ∀ i < d.tableSize, inUse d.table i = true) := by
  unfold add
  rw [if_neg (not_not.mpr (findIndex_eq_none.mpr habs))]
  cases hf : (List.range d.tableSize).find? fun i => !inUse d.table i with
  | none =>
    refine Or.inr ⟨rfl, fun i hi => ?_⟩
    have := List.find?_eq_none.mp hf i (List.mem_range.mpr hi)
    simpa using this
  | some i =>
    obtain ⟨h1, h2, -⟩ := List.find?_range_eq_some.mp hf
    exact Or.inl ⟨i, List.mem_range.mp h2, by simpa using h1, rfl⟩

end Directory

/-! ### The free map -/

/-- The words of the map as bytes. -/
def mapBytes (b : Bitmap) : Store := Bytes.ofWords fun k => b.map.getD k.toNat 0

/-- The map of `numBits` bits in the bytes `m`. -/
def mapOfBytes (numBits : ℕ) (m : Store) : Bitmap where
  numBits := numBits
  map := (List.range (numWords numBits)).map fun k : ℕ => Bytes.wordAt m (4 * k)
  words := by simp

namespace PersistentBitmap

/-- `PersistentBitmap::PersistentBitmap(file, numItems)`. -/
def fetch (disk : Store) (file : OpenFile) (numItems : ℕ) (new : Store) : Except Stop Bitmap :=
  (OpenFile.readAt disk file.hdr new (mapBytes (Bitmap.new numItems)) 0 (numWords numItems * 4)
    0).map fun r =>
    mapOfBytes numItems r.1

/-- `PersistentBitmap::WriteBack`. -/
def writeBack (b : Bitmap) (disk : Store) (file : OpenFile) (news : ℕ → Store) :
    Except Stop Store :=
  (OpenFile.writeAt disk file.hdr news (mapBytes b) 0 (numWords b.numBits * 4) 0).map Prod.fst

end PersistentBitmap

variable {m m' : Store} {b : Bitmap} {n j : ℕ}

@[simp] theorem numBits_mapOfBytes (n : ℕ) (m : Store) : (mapOfBytes n m).numBits = n := rfl

theorem numBits_fetch {disk new : Store} {file : OpenFile}
    (h : PersistentBitmap.fetch disk file n new = .ok b) : b.numBits = n := by
  unfold PersistentBitmap.fetch at h
  cases hr : OpenFile.readAt disk file.hdr new (mapBytes (Bitmap.new n)) 0 (numWords n * 4) 0 with
  | error e =>
    rw [hr] at h
    cases h
  | ok r =>
    rw [hr] at h
    cases h
    rfl

theorem word_mapOfBytes (hj : j < n) (m : Store) :
    (mapOfBytes n m).word j = Bytes.wordAt m (4 * (j / bitsInWord : ℕ)) := by
  have h := lt_numWords hj
  simp [Bitmap.word, mapOfBytes, h]

/-- The map read from bytes that agree is the same. -/
theorem mapOfBytes_congr (h : ∀ x : ℤ, 0 ≤ x → x < 4 * numWords n → m x = m' x) :
    mapOfBytes n m = mapOfBytes n m' := by
  have hmap : (List.range (numWords n)).map (fun k : ℕ => Bytes.wordAt m (4 * k)) =
      (List.range (numWords n)).map fun k : ℕ => Bytes.wordAt m' (4 * k) := by
    refine List.map_congr_left fun k hk => Bytes.wordAt_congr fun i h0 h1 => h _ (by omega) ?_
    have := List.mem_range.mp hk
    omega
  unfold mapOfBytes
  simp only [hmap]

/-- A map is read back as it was written. -/
theorem test_mapOfBytes (hj : j < b.numBits) :
    (mapOfBytes b.numBits (mapBytes b)).test j = b.test j := by
  rw [Bitmap.test_eq_getLsbD, Bitmap.test_eq_getLsbD, word_mapOfBytes hj, mapBytes,
    Bytes.wordAt_ofWords, Int.toNat_natCast]
  rfl

end Nachos.Filesys
