/-
# One Nachos after another on the same disk (`threads/main.cc`)

Each start of Nachos formats the disk or finds its file system there
(`FileSystem(formatFlag)`), and then does what its arguments ask for: remove a
file (`-r`), copy a UNIX file in (`-cp`, with `Copy`) and print one (`-p`, with
`Print`). Only the disk stays from one start to the next. The magic number in
front of the sectors, with the `ASSERT` on it in `Disk::Disk`, is left out.

`Copy` writes the bytes as `ReadPartial` gives them, each piece where the one
before it has ended; the loop is specified by what is in the file after the
pieces so far (`copyLoop_ok`), and the loop of `Print` by what is left to print
(`printLoop_ok`). On the disks of `Consistency` a start is then a call on the
map of `NameMap`, and the map with the number of free sectors says what every
later start does (`Shelf`).

* `boots_refine`: the starts one after another, as calls on the map.
* `copied_is_printed`: what was copied is printed by the later starts.

Key definitions: `Main.copy`, `Main.print`, `Boot`, `Boot.call`, `Shelf`, `Shelf.call`.
Key theorems: `Main.copy_ok`, `Main.print_ok`, `boots_refine`, `copied_is_printed`.
-/
import Mathlib
import Nachos.Base.Bytes
import Nachos.Base.Calls
import Nachos.Filesys.NameMap

namespace Nachos.Filesys

open Bytes (Byte Store)
open Directory (Has SameEntry)

/-! ### The code -/

/-- `OpenFile::Read`. -/
def OpenFile.read (file : OpenFile) (disk new into : Store) (p numBytes : ℤ) :
    Except Stop (OpenFile × Store × ℤ) :=
  (readAt disk file.hdr new into p numBytes file.seekPosition).map fun r =>
    ({ file with seekPosition := file.seekPosition + r.2 }, r)

/-- `OpenFile::Write`. -/
def OpenFile.write (file : OpenFile) (disk : Store) (news : ℕ → Store) (src : Store)
    (q numBytes : ℤ) :
    Except Stop (OpenFile × Store × ℤ) :=
  (writeAt disk file.hdr news src q numBytes file.seekPosition).map fun r =>
    ({ file with seekPosition := file.seekPosition + r.2 }, r)

/-- A read that moves bytes leaves less of the file. -/
theorem OpenFile.left_read {file file' : OpenFile} {disk new into into' : Store} {p numBytes r : ℤ}
    (h : file.read disk new into p numBytes = .ok (file', into', r)) (hr : 0 < r) :
    (file'.hdr.fileLength - file'.seekPosition).toNat <
    (file.hdr.fileLength - file.seekPosition).toNat := by
  unfold OpenFile.read at h
  cases hat : readAt disk file.hdr new into p numBytes file.seekPosition with
  | error e => simp [hat, Except.map] at h
  | ok a =>
    rw [hat] at h
    cases h
    have hpos : file.seekPosition < file.hdr.fileLength := by
      by_contra hpos
      unfold readAt at hat
      rw [if_pos (Or.inr (by omega))] at hat
      cases hat
      omega
    simp only
    omega

namespace Main

/-- `TransferSize`. -/
def transferSize : ℕ := 128

/-- A UNIX file that can be read: its bytes, of which there are as many as an
`int` counts, and the pieces in which `ReadPartial` gives them. -/
structure UnixFile where
  bytes : List Byte
  pieces : List (List Byte)
  flatten : pieces.flatten = bytes
  piece : ∀ piece ∈ pieces, 0 < piece.length ∧ piece.length ≤ transferSize
  length : bytes.length < 2 ^ 31

/-- The loop of `Copy`, for the pieces to come. -/
def copyLoop (news : ℕ → ℕ → Store) (disk : Store) (openFile : OpenFile) (buffer : Store) :
    List (List Byte) → Except Stop Store
  | [] => .ok disk
  | piece :: pieces => do
    let buffer := Bytes.write buffer 0 piece
    let (openFile, disk, _) ← openFile.write disk (news pieces.length) buffer 0 piece.length
    copyLoop news disk openFile buffer pieces

/-- How `Copy` ends: with one of its two messages, or at its end. -/
inductive Copied
  | noInputFile
  | noOutputFile
  | done
  deriving DecidableEq, Repr

/-- `Copy`, where `fromFile` is what there is to open; `mem` is what the memory
held that is allocated on the way. -/
def copy (fs : FileSystem) (mem : ℕ → ℕ → Store) (fromFile : Option UnixFile) (name : CString) :
    Fs Copied := fun disk =>
  match fromFile with
  | none => .ok (.noInputFile, disk)
  | some file => do
    let (created, disk) ← fs.create (mem 0) name file.bytes.length disk
    if !created then .ok (.noOutputFile, disk)
    else
      let (openFile, disk) ← fs.open_ (mem 1) name disk
      match openFile with
      | none => .error .assert
      | some openFile =>
        let disk ← copyLoop (fun k => mem (3 + k)) disk openFile (mem 2 0) file.pieces
        .ok (.done, disk)

/-- The loop of `Print`: what it prints from here on. -/
def printLoop (news : ℤ → Store) (disk : Store) (openFile : OpenFile) (buffer : Store) :
    Except Stop (List Byte) :=
  match _h : openFile.read disk (news openFile.seekPosition) buffer 0 transferSize with
  | .error e => .error e
  | .ok (openFile', buffer', amountRead) =>
    if _hread : 0 < amountRead then
      (printLoop news disk openFile' buffer').map fun rest =>
        (List.range amountRead.toNat).map (fun i : ℕ => buffer' i) ++ rest
    else .ok []
termination_by (openFile.hdr.fileLength - openFile.seekPosition).toNat
decreasing_by exact OpenFile.left_read _h _hread

/-- How `Print` ends: with its message, or after printing the bytes. -/
inductive Printed
  | unableToOpen
  | bytes (l : List Byte)
  deriving DecidableEq, Repr

/-- `Print`. -/
def print (fs : FileSystem) (mem : ℕ → Store) (news : ℤ → Store) (buffer : Store) (name : CString) :
    Fs Printed := fun disk => do
  let (openFile, disk) ← fs.open_ mem name disk
  match openFile with
  | none => .ok (.unableToOpen, disk)
  | some openFile =>
    let l ← printLoop news disk openFile buffer
    .ok (.bytes l, disk)

end Main

/-- One start of Nachos: its arguments, with what there is to open under the name
of the UNIX file, and what the memory holds that it allocates. -/
structure Boot where
  formatFlag : Bool
  removeFileName : Option CString
  copyNames : Option (Option Main.UnixFile × CString)
  printFileName : Option CString
  mem : ℕ → ℕ → Store

/-- What is printed. -/
structure Output where
  copied : Option Main.Copied
  printed : Option Main.Printed

namespace Boot

/-- `kernel->fileSystem`. -/
def fileSystem (b : Boot) : Fs FileSystem :=
  if b.formatFlag then FileSystem.format (b.mem 0) else FileSystem.mount

def remove (b : Boot) (fs : FileSystem) : Fs Unit := fun disk =>
  match b.removeFileName with
  | some name => (fs.remove (b.mem 1) name disk).map fun r => ((), r.2)
  | none => .ok ((), disk)

def copy (b : Boot) (fs : FileSystem) : Fs (Option Main.Copied) := fun disk =>
  match b.copyNames with
  | some (fromFile, name) =>
    (Main.copy fs (fun k => b.mem (5 + k)) fromFile name disk).map fun r => (some r.1, r.2)
  | none => .ok (none, disk)

def print (b : Boot) (fs : FileSystem) : Fs (Option Main.Printed) := fun disk =>
  match b.printFileName with
  | some name =>
    (Main.print fs (b.mem 2) (fun k => b.mem 3 k.toNat) (b.mem 4 0) name disk).map fun r =>
      (some r.1, r.2)
  | none => .ok (none, disk)

/-- What `main` does to the disk. -/
def main (b : Boot) : Fs Output := do
  let fs ← b.fileSystem
  b.remove fs
  let copied ← b.copy fs
  let printed ← b.print fs
  pure ⟨copied, printed⟩

/-- A start as a call on the disk. -/
def call (disk : Store) (b : Boot) : Option (Store × Output) :=
  match b.main disk with
  | .ok (out, disk') => some (disk', out)
  | .error _ => none

/-- The UNIX file is no longer than a file can be. -/
def Fits (b : Boot) : Prop :=
  ∀ file name, b.copyNames = some (some file, name) → (file.bytes.length : ℤ) ≤ maxFileSize

end Boot

/-! ### The map -/

/-- The files, and the number of free sectors. -/
structure Shelf where
  files : FileMap
  free : ℕ

/-- The sectors of a file: one for its header, and its data. -/
def taken (bytes : List Byte) : ℕ := 1 + (divRoundUp bytes.length Disk.sectorSize).toNat

namespace Shelf

def empty : Shelf := ⟨fun _ => none, Disk.numSectors - 5⟩

def remove (s : Shelf) (n : List Byte) : Shelf :=
  match s.files n with
  | some bytes => ⟨Function.update s.files n none, s.free + taken bytes⟩
  | none => s

open Classical in
/-- A file is copied in if there is room for it. -/
noncomputable def copy (s : Shelf) (fromFile : Option Main.UnixFile) (n : List Byte) :
    Main.Copied × Shelf :=
  match fromFile with
  | none => (.noInputFile, s)
  | some file =>
    if s.files.Room n file.bytes.length s.free then
      (.done, ⟨Function.update s.files n (some file.bytes), s.free - taken file.bytes⟩)
    else (.noOutputFile, s)

def print (s : Shelf) (n : List Byte) : Main.Printed :=
  match s.files n with
  | some bytes => .bytes bytes
  | none => .unableToOpen

/-- What a start finds. -/
def found (s : Shelf) (b : Boot) : Shelf := if b.formatFlag then empty else s

/-- After the removal that a start asks for. -/
def removed (s : Shelf) (b : Boot) : Shelf :=
  match b.removeFileName with
  | some name => s.remove name.key
  | none => s

/-- The copy that a start asks for. -/
noncomputable def copied (s : Shelf) (b : Boot) : Option Main.Copied × Shelf :=
  match b.copyNames with
  | some (fromFile, name) => (some (s.copy fromFile name.key).1, (s.copy fromFile name.key).2)
  | none => (none, s)

/-- A start as a call on the map. -/
noncomputable def call (s : Shelf) (b : Boot) : Option (Shelf × Output) :=
  let r := ((s.found b).removed b).copied b
  some (r.2, ⟨r.1, b.printFileName.map fun name => r.2.print name.key⟩)

end Shelf

variable {disk disk' disk'' : Store} {fs : FileSystem} {name : CString} {i s : ℕ} {l : List ℕ}
  {n : List Byte} {x : Handle}

/-! ### The loop of `Copy` -/

theorem WrittenIn.trans (h : WrittenIn disk disk' l) (h' : WrittenIn disk' disk'' l) :
    WrittenIn disk disk'' l :=
  fun y hy => (h' y hy).trans (h y hy)

/-- An open file is one after a write through it. -/
theorem Run.HandleOf.written (hI : Inv fs disk) (hx : Run.HandleOf disk x i s l)
    (hW : WrittenIn disk disk' l) :
    Run.HandleOf disk' x i s l := by
  obtain ⟨hF, hhdr⟩ := hW.keep hI hx.lt hx.has.1 hx.file hx.lt hx.has.1 hx.file
  exact ⟨hx.lt, (hW.entry hx.file hx.lt).has.mpr hx.has, hF, hx.hdr.trans hhdr.symm⟩

/-- The length of an open file is that of its bytes. -/
theorem Run.HandleOf.fileLength (hI : Inv fs disk) (hx : Run.HandleOf disk x i s l)
    {bytes : List Byte} (hfile : filesOn disk x.key = some bytes) :
    x.file.hdr.fileLength = bytes.length := by
  rw [hI.filesOn_some hx.lt hx.has hx.file, Option.some.injEq] at hfile
  have hnonneg := hx.file.nonneg
  rw [hx.hdr, ← hfile, FileHeader.length_bytesOn, FileHeader.fileLength]
  omega

/-- A piece that is written after the bytes that are there. -/
theorem FileMap.writeAt_append {files : FileMap} {written old piece : List Byte}
    (h : files n = some (written ++ old)) (hle : piece.length ≤ old.length) (bytes : ℤ → Byte)
    (hbytes : ∀ k : ℕ, k < piece.length → bytes k = piece.getD k 0) :
    files.writeAt n bytes written.length piece.length =
      Function.update files n (some (written ++ (piece ++ old.drop piece.length))) := by
  unfold FileMap.writeAt
  rw [h, Option.map_some]
  refine congrArg (fun l => Function.update files n (some l)) (List.ext_getElem? fun k => ?_)
  rw [List.getElem?_mapIdx]
  by_cases hw : k < written.length
  · rw [List.getElem?_append_left hw, List.getElem?_append_left hw, List.getElem?_eq_getElem hw,
      Option.map_some, if_neg (by omega)]
  · obtain ⟨j, rfl⟩ := Nat.exists_eq_add_of_le (Nat.not_lt.mp hw)
    rw [List.getElem?_append_right (by omega), List.getElem?_append_right (by omega),
      Nat.add_sub_cancel_left]
    by_cases hj : j < piece.length
    · have hold : j < old.length := by omega
      have hpos : ((written.length + j : ℕ) : ℤ) - written.length = j := by omega
      rw [List.getElem?_append_left hj, List.getElem?_eq_getElem hold, List.getElem?_eq_getElem hj,
        Option.map_some, if_pos (by omega), hpos, hbytes j hj, List.getD_eq_getElem _ _ hj]
    · rw [List.getElem?_append_right (by omega), List.getElem?_drop,
        show piece.length + (j - piece.length) = j by omega]
      cases old[j]? with
      | none => rfl
      | some b => rw [Option.map_some, if_neg (by omega)]

namespace Main

/-- **The loop of `Copy`** writes the pieces after the bytes that are there. -/
theorem copyLoop_ok (news : ℕ → ℕ → Store) (hI : Inv fs disk) (hx : Run.HandleOf disk x i s l)
    (pieces : List (List Byte)) (buffer : Store) {written old : List Byte}
    (hfile : filesOn disk x.key = some (written ++ old))
    (hpos : x.file.seekPosition = written.length) (hlen : pieces.flatten.length = old.length) :
    ∃ disk', copyLoop news disk x.file buffer pieces = .ok disk' ∧ WrittenIn disk disk' l ∧
      filesOn disk' = Function.update (filesOn disk) x.key (some (written ++ pieces.flatten)) := by
  induction pieces generalizing disk x buffer written old with
  | nil =>
    obtain rfl : old = [] := List.length_eq_zero_iff.mp hlen.symm
    refine ⟨disk, rfl, fun _ _ => rfl, ?_⟩
    rw [List.flatten_nil, ← hfile, Function.update_eq_self]
  | cons piece pieces ih =>
    rw [List.flatten_cons, List.length_append] at hlen
    let src := Bytes.write buffer 0 piece
    obtain ⟨d1, r, hwrite, hW, hr, hin⟩ :=
      hx.writeAt (news pieces.length) src 0 piece.length
        (Or.inr (show 0 ≤ x.file.seekPosition by omega))
    -- all of the piece is inside the file
    obtain rfl : r = piece.length := by
      have hl := hx.fileLength hI hfile
      rw [List.length_append] at hl
      rw [hr]
      unfold OpenFile.clip
      split_ifs <;> omega
    have hbytes : ∀ k : ℕ, k < piece.length → src (0 + k) = piece.getD k 0 := by
      intro k hk
      have hin : src (0 + k) = piece.getD (0 + k - 0 : ℤ).toNat 0 :=
        Bytes.write_inside (by omega) (by omega)
      rw [hin, show (0 + k - 0 : ℤ).toNat = k by omega]
    have hfiles : filesOn d1 = Function.update (filesOn disk) x.key
        (some (written ++ (piece ++ old.drop piece.length))) := by
      rw [← FileMap.writeAt_append hfile (by omega) (fun k => src (0 + k)) hbytes, ← hpos]
      exact hI.filesOn_written hx hW fun k h0 h1 => (hin k h0 h1).trans (by rw [← hr])
    -- the next piece goes after this one
    let x' : Handle :=
      { x with file := { x.file with seekPosition := x.file.seekPosition + piece.length } }
    have hx' : Run.HandleOf d1 x' i s l := (hx.written hI hW).seek rfl rfl
    have hfile' : filesOn d1 x'.key = some ((written ++ piece) ++ old.drop piece.length) := by
      rw [hfiles, show x'.key = x.key from rfl, Function.update_self, List.append_assoc]
    have hpos' : x'.file.seekPosition = (written ++ piece).length := by
      rw [List.length_append, show x'.file.seekPosition = x.file.seekPosition +
        piece.length from rfl]
      omega
    obtain ⟨disk', hloop, hW', hfiles'⟩ :=
      ih (hI.written hW hx.lt hx.has.1 hx.file) hx' src hfile' hpos'
        (by rw [List.length_drop]; omega)
    refine ⟨disk', ?_, hW.trans hW', ?_⟩
    · have hcall : x.file.write disk (news pieces.length) src 0 piece.length =
          .ok (x'.file, d1, piece.length) := by
        unfold OpenFile.write
        rw [hwrite]
        rfl
      show (x.file.write disk (news pieces.length) src 0 piece.length >>= _) = _
      rw [hcall]
      exact hloop
    · rw [hfiles', hfiles, show x'.key = x.key from rfl, Function.update_idem, List.flatten_cons,
        List.append_assoc]

/-! ### The loop of `Print` -/

theorem printLoop_eq (news : ℤ → Store) (disk : Store) (openFile : OpenFile) (buffer : Store) :
    printLoop news disk openFile buffer =
      (openFile.read disk (news openFile.seekPosition) buffer 0 transferSize).bind fun r =>
        if 0 < r.2.2 then
          (printLoop news disk r.1 r.2.1).map fun rest => (List.range r.2.2.toNat).map
          (fun i : ℕ => r.2.1 i) ++ rest
        else .ok [] := by
  rw [printLoop]
  split
  · next h => rw [h]; rfl
  · next h => rw [h]; rfl

/-- What a buffer holds of the bytes of a file. -/
theorem map_copy_bytesOn {hdr : FileHeader} (into : Store) {k r : ℕ}
    (h : k + r ≤ hdr.fileLength.toNat) :
    (List.range r).map (fun j : ℕ => Bytes.copy (hdr.content disk) k into 0 r j) =
      ((hdr.bytesOn disk).drop k).take r := by
  refine List.ext_getElem? fun j => ?_
  rw [List.getElem?_take, List.getElem?_drop, FileHeader.bytesOn, List.getElem?_map,
    List.getElem?_map]
  by_cases hj : j < r
  · rw [if_pos hj, List.getElem?_range hj, List.getElem?_range (by omega), Option.map_some,
      Option.map_some, Bytes.copy_inside (by omega) (by omega)]
    congr 2
  · rw [if_neg hj, List.getElem?_eq_none (by rw [List.length_range]; omega)]
    rfl

/-- **The loop of `Print`** prints the bytes from `seekPosition` on. -/
theorem printLoop_ok (news : ℤ → Store) (disk : Store) {hdr : FileHeader} (hG : hdr.Good)
    (buffer : Store) (k : ℕ) :
    printLoop news disk ⟨hdr, k⟩ buffer = .ok ((hdr.bytesOn disk).drop k) := by
  have hlen := hdr.length_bytesOn disk
  -- by the number of bytes that are left
  induction hleft : hdr.fileLength.toNat - k using Nat.strong_induction_on
    generalizing buffer k with
  | _ left ih =>
    have hread : OpenFile.read ⟨hdr, k⟩ disk (news k) buffer 0 transferSize = .ok _ :=
      congrArg (Except.map _) (OpenFile.readAt_ok hG _ buffer 0 transferSize (Int.natCast_nonneg k))
    rw [printLoop_eq, hread]
    by_cases hend : hdr.fileLength ≤ k
    · have hclip : OpenFile.clip hdr.fileLength transferSize k = 0 := if_pos (Or.inr hend)
      show ite (0 < OpenFile.clip hdr.fileLength transferSize k) _ _ = _
      rw [if_neg (by omega), List.drop_of_length_le (by omega)]
    · obtain ⟨r, hclip, h0, hle⟩ : ∃ r : ℕ, OpenFile.clip hdr.fileLength transferSize k = r ∧
          0 < r ∧ k + r ≤ hdr.fileLength.toNat := by
        refine ⟨(min (transferSize : ℤ) (hdr.fileLength - k)).toNat, ?_⟩
        unfold OpenFile.clip transferSize
        rw [if_neg (by omega)]
        omega
      have hrest : ∀ buffer', printLoop news disk ⟨hdr, k + r⟩ buffer' =
          .ok ((hdr.bytesOn disk).drop (k + r)) := fun buffer' => by
        rw [← Nat.cast_add]
        exact ih _ (by omega) buffer' (k + r) rfl
      show ite (0 < OpenFile.clip hdr.fileLength transferSize k) _ _ = _
      simp only [hclip]
      rw [if_pos (by omega), hrest]
      rw [Int.toNat_natCast, map_copy_bytesOn _ hle, ← List.drop_drop]
      exact congrArg Except.ok (List.take_append_drop r _)

end Main

/-! ### The calls on the disk of a map -/

/-- The map is on the disk, where `fs` has its files. -/
structure Shows (fs : FileSystem) (disk : Store) (s : Shelf) : Prop where
  inv : Inv fs disk
  files : filesOn disk = s.files
  free : (freeMapOn disk).numClear = s.free

variable {shelf : Shelf}

theorem numBits_mapOf (disk : Store) : (mapOf disk).numBits = Disk.numSectors :=
  numBits_mapOfBytes ..

/-- Sectors that a map has marked in addition are clear in the other. -/
theorem numClear_of_marked {b b' : Bitmap} {l : List ℕ} (hbits : b'.numBits = b.numBits)
    (hl : l.Nodup) (hdisj : Disjoint b.marked l.toFinset)
    (hmarked : b'.marked = b.marked ∪ l.toFinset) :
    b'.numClear + l.length = b.numClear := by
  have h := Bitmap.numClear_add_card b
  have h' := Bitmap.numClear_add_card b'
  rw [hmarked, Finset.card_union_of_disjoint hdisj, List.toFinset_card_of_nodup hl] at h'
  omega

theorem FileAt.length (hF : FileAt disk i s l) :
    (s :: l).length = taken ((FileHeader.headerAt disk s).bytesOn disk) := by
  have hnonneg := hF.nonneg
  have hlen := congrArg List.length hF.sectors
  rw [FileHeader.sectors, List.length_map, List.length_range, List.length_map,
    hF.numSectors] at hlen
  have hbytes : (((FileHeader.headerAt disk s).bytesOn disk).length : ℤ) =
      (FileHeader.headerAt disk s).numBytes := by
    rw [FileHeader.length_bytesOn, FileHeader.fileLength]
    omega
  unfold taken
  rw [hbytes, List.length_cons, hlen, add_comm]

/-- `Create` takes the sectors of the file. -/
theorem Created.numClear {size : ℤ} (hC : Created disk disk' name size i s l) :
    (mapOf disk').numClear + (s :: l).length = (mapOf disk).numClear := by
  refine numClear_of_marked (by rw [numBits_mapOf, numBits_mapOf]) hC.nodup ?_ ?_
  · refine Finset.disjoint_left.mpr fun n hn hl => ?_
    have hclear := (hC.free n (List.mem_toFinset.mp hl)).2
    rw [(Bitmap.mem_marked.mp hn).2] at hclear
    cases hclear
  · ext n
    rw [Finset.mem_union, Bitmap.mem_marked, Bitmap.mem_marked, List.mem_toFinset, numBits_mapOf,
      numBits_mapOf]
    constructor
    · rintro ⟨hn, ht⟩
      rw [hC.map n hn, Bool.or_eq_true, decide_eq_true_eq] at ht
      exact ht.symm.imp_left fun ht => ⟨hn, ht⟩
    · rintro (⟨hn, ht⟩ | hmem)
      · exact ⟨hn, by rw [hC.map n hn, ht, Bool.or_true]⟩
      · have hn := (hC.free n hmem).1
        exact ⟨hn, by rw [hC.map n hn, decide_eq_true hmem, Bool.true_or]⟩

/-- `Remove` gives them back. -/
theorem Removed.numClear (hD : Removed disk disk' i s l) (hF : FileAt disk i s l) :
    (mapOf disk').numClear = (mapOf disk).numClear + (s :: l).length := by
  refine (numClear_of_marked (by rw [numBits_mapOf, numBits_mapOf]) hF.nodup ?_ ?_).symm
  · refine Finset.disjoint_left.mpr fun n hn hl => ?_
    obtain ⟨hlt, ht⟩ := Bitmap.mem_marked.mp hn
    rw [hD.map n hlt, decide_eq_true (List.mem_toFinset.mp hl)] at ht
    cases ht
  · ext n
    rw [Finset.mem_union, Bitmap.mem_marked, Bitmap.mem_marked, List.mem_toFinset, numBits_mapOf,
      numBits_mapOf]
    constructor
    · rintro ⟨hn, ht⟩
      by_cases hmem : n ∈ s :: l
      · exact Or.inr hmem
      · exact Or.inl ⟨hn, by rw [hD.map n hn, ht, decide_eq_false hmem]; rfl⟩
    · rintro (⟨hn, ht⟩ | hmem)
      · rw [hD.map n hn, Bool.and_eq_true] at ht
        exact ⟨hn, ht.2⟩
      · exact (hF.marked n hmem).2

/-- A disk is formatted. -/
theorem format_shows (mem : ℕ → Store) (disk : Store) :
    ∃ fs disk', FileSystem.format mem disk = .ok (fs, disk') ∧ Shows fs disk' .empty := by
  obtain ⟨fs, disk', hfmt, -, -, -, hunused, htest⟩ := format_ok mem disk
  have hinit : Run.Initial ⟨fs, disk', [], none⟩ := ⟨mem, disk, hfmt, rfl, rfl⟩
  have hI : Inv fs disk' := (Run.good_initial hinit).inv
  refine ⟨fs, disk', hfmt, hI, funext fun n => hI.filesOn_none fun i hi hhas => ?_, ?_⟩
  · have := hhas.1
    rw [hunused i hi] at this
    cases this
  · have hclear := numClear_fresh htest
    rw [hI.freeMapOn]
    exact Nat.eq_sub_of_add_eq hclear

/-- A file system is found on its disk. -/
theorem Shows.mount (h : Shows fs disk shelf) :
    ∃ fs', FileSystem.mount disk = .ok (fs', disk) ∧ Shows fs' disk shelf := by
  have hnew : ∀ n : ℤ, 0 ≤ n → n < 5 →
      OpenFile.new disk n = .ok ⟨FileHeader.headerAt disk n, 0⟩ := fun n h0 h5 =>
    congrArg (Except.map _) (FileHeader.fetchFrom_ok h0 (h5.trans (by decide)))
  refine ⟨⟨⟨FileHeader.headerAt disk 0, 0⟩, ⟨FileHeader.headerAt disk 1, 0⟩⟩, ?_,
    { h.inv with mounted := ⟨h.inv.mapHdr, h.inv.dirHdr⟩ }, h.files, h.free⟩
  exact (Fs.read_bind (hnew 0 (by omega) (by omega))).trans
    ((Fs.read_bind (hnew 1 (by omega) (by omega))).trans rfl)

/-- A file is removed. -/
theorem Shows.remove (h : Shows fs disk shelf) (mem : ℕ → Store) (name : CString) :
    ∃ ok disk', fs.remove mem name disk = .ok (ok, disk') ∧
    Shows fs disk' (shelf.remove name.key) := by
  have hI := h.inv
  rcases remove_ok hI.mounted hI.ready hI.files mem name with
    ⟨disk', i, s, l, hd, hi, hhas, hF, hD⟩ | ⟨hd, habs⟩
  · have hfile : shelf.files name.key = some _ :=
      (congrFun h.files _).symm.trans (hI.filesOn_some hi hhas hF)
    have hI' := hI.removed hD hi hhas.1 hF
    refine ⟨true, disk', hd, ?_⟩
    unfold Shelf.remove
    rw [hfile]
    refine ⟨hI', ?_, ?_⟩
    · rw [hI.filesOn_removed hD hi hhas hF, h.files]
    · rw [hI'.freeMapOn, hD.numClear hF, hF.length, ← hI.freeMapOn, h.free]
  · have hfile : shelf.files name.key = none :=
      (congrFun h.files _).symm.trans (hI.filesOn_none habs)
    refine ⟨false, disk, hd, ?_⟩
    unfold Shelf.remove
    rw [hfile]
    exact h

namespace Main

/-- **Copy** puts the bytes of the UNIX file under the name, if there is room. -/
theorem copy_ok (h : Shows fs disk shelf) (mem : ℕ → ℕ → Store) (fromFile : Option UnixFile)
    (name : CString)
    (hfits : ∀ file, fromFile = some file → (file.bytes.length : ℤ) ≤ maxFileSize) :
    ∃ disk', copy fs mem fromFile name disk = .ok ((shelf.copy fromFile name.key).1, disk') ∧
      Shows fs disk' (shelf.copy fromFile name.key).2 := by
  cases fromFile with
  | none => exact ⟨disk, rfl, h⟩
  | some file =>
    have hI := h.inv
    have h0 : (0 : ℤ) ≤ file.bytes.length := Int.natCast_nonneg _
    have h1 := hfits file rfl
    unfold Shelf.copy
    rcases create_room hI (mem 0) name h0 h1 with ⟨d1, i, s, l, hcreate, hC, habs, hroom⟩ |
      ⟨hcreate, hroom⟩
    · rw [h.files, h.free] at hroom
      simp only [if_pos hroom]
      have hI1 := hI.created hC h0 h1 habs
      have hF := hC.file hI.ready h0 h1
      have hhas : Has (tableOf d1) i name.key := ⟨hC.inUse, hC.name⟩
      obtain ⟨old, hold, hfiles1⟩ := hI.filesOn_created hC h0 h1 habs
      -- the file is found again, and its bytes are written
      have hopen : fs.open_ (mem 1) name d1 = .ok (some ⟨FileHeader.headerAt d1 s, 0⟩, d1) := by
        rcases open_ok hI1.mounted hI1.ready hI1.files (mem 1) name with
          ⟨j, s', l', hj, hhas', hF', ho⟩ | ⟨hnone, -⟩
        · obtain rfl : j = i := hI1.names j hj i hC.lt hhas'.1 hhas.1 (hhas'.2.trans hhas.2.symm)
          obtain ⟨rfl, rfl⟩ := hF'.unique hF
          exact ho
        · exact absurd hhas (hnone i hC.lt)
      let x : Handle := ⟨⟨FileHeader.headerAt d1 s, 0⟩, name.key, true⟩
      have hx : Run.HandleOf d1 x i s l := ⟨hC.lt, hhas, hF, rfl⟩
      have hfile : filesOn d1 x.key = some ([] ++ old) := by
        rw [hfiles1, show x.key = name.key from rfl, Function.update_self, List.nil_append]
      obtain ⟨d2, hloop, hW, hfiles2⟩ :=
        copyLoop_ok (fun k => mem (3 + k)) hI1 hx file.pieces (mem 2 0) hfile rfl
        (by rw [file.flatten]; omega)
      have hI2 := hI1.written hW hx.lt hx.has.1 hx.file
      refine ⟨d2, ?_, hI2, ?_, ?_⟩
      · show (fs.create (mem 0) name file.bytes.length disk >>= _) = _
        rw [hcreate]
        show (fs.open_ (mem 1) name d1 >>= _) = _
        rw [hopen]
        show (copyLoop (fun k => mem (3 + k)) d1 x.file (mem 2 0) file.pieces >>= _) = _
        rw [hloop]
        rfl
      · rw [hfiles2, hfiles1, file.flatten, show x.key = name.key from rfl, Function.update_idem,
          h.files, List.nil_append]
      · have hclear := hC.numClear
        rw [hF.length, ← hI.freeMapOn, h.free] at hclear
        have hlen : taken ((FileHeader.headerAt d1 s).bytesOn d1) = taken file.bytes := by
          unfold taken
          rw [FileHeader.length_bytesOn, FileHeader.fileLength, hC.numBytes, Int.toNat_natCast]
        have hfree : (mapOf d1).numClear = shelf.free - taken file.bytes := by omega
        rw [hI2.freeMapOn, hW.map hF]
        exact hfree
    · rw [h.files, h.free] at hroom
      simp only [if_neg hroom]
      refine ⟨disk, ?_, h⟩
      show (fs.create (mem 0) name file.bytes.length disk >>= _) = _
      rw [hcreate]
      rfl

/-- **Print** prints the bytes of the file. -/
theorem print_ok (h : Shows fs disk shelf) (mem : ℕ → Store) (news : ℤ → Store) (buffer : Store)
    (name : CString) :
    print fs mem news buffer name disk = .ok (shelf.print name.key, disk) := by
  have hI := h.inv
  unfold Shelf.print
  rw [← h.files]
  rcases open_ok hI.mounted hI.ready hI.files mem name with ⟨i, s, l, hi, hhas, hF, ho⟩ | ⟨habs, ho⟩
  · rw [hI.filesOn_some hi hhas hF]
    show (fs.open_ mem name disk >>= _) = _
    rw [ho]
    show (printLoop news disk ⟨FileHeader.headerAt disk s, (0 : ℕ)⟩ buffer >>= _) = _
    rw [printLoop_ok news disk hF.good buffer 0]
    rfl
  · rw [hI.filesOn_none habs]
    show (fs.open_ mem name disk >>= _) = _
    rw [ho]
    rfl

end Main

/-! ### A start -/

/-- One part of a start after another. -/
theorem Fs.bind_ok {α β : Type} {f : Fs α} {g : α → Fs β} {a : α} (h : f disk = .ok (a, disk')) :
    (f >>= g) disk = g a disk' := by
  show (f disk >>= _) = _
  rw [h]
  rfl

/-- What a start finds: the disk formatted, or as the start before has left it. -/
theorem Boot.fileSystem_ok (b : Boot) (h : b.formatFlag = true ∨ ∃ fs, Shows fs disk shelf) :
    ∃ fs disk', b.fileSystem disk = .ok (fs, disk') ∧ Shows fs disk' (shelf.found b) := by
  unfold Boot.fileSystem Shelf.found
  cases hb : b.formatFlag with
  | true => exact format_shows (b.mem 0) disk
  | false =>
    rw [hb] at h
    obtain ⟨fs, hfs⟩ := h.resolve_left Bool.false_ne_true
    obtain ⟨fs', hmount, hfs'⟩ := hfs.mount
    exact ⟨fs', disk, hmount, hfs'⟩

theorem Boot.remove_ok (b : Boot) (h : Shows fs disk shelf) :
    ∃ disk', b.remove fs disk = .ok ((), disk') ∧ Shows fs disk' (shelf.removed b) := by
  unfold Boot.remove Shelf.removed
  cases b.removeFileName with
  | none => exact ⟨disk, rfl, h⟩
  | some name =>
    obtain ⟨ok, disk', hd, hs⟩ := h.remove (b.mem 1) name
    simp only [hd]
    exact ⟨disk', rfl, hs⟩

theorem Boot.copy_ok (b : Boot) (hb : b.Fits) (h : Shows fs disk shelf) :
    ∃ disk', b.copy fs disk = .ok ((shelf.copied b).1, disk') ∧
    Shows fs disk' (shelf.copied b).2 := by
  unfold Boot.copy Shelf.copied
  cases hc : b.copyNames with
  | none => exact ⟨disk, rfl, h⟩
  | some c =>
    obtain ⟨fromFile, name⟩ := c
    obtain ⟨disk', hd, hs⟩ := Main.copy_ok h (fun k => b.mem (5 + k)) fromFile name fun file hf =>
      hb file name (hc.trans (by rw [hf]))
    simp only [hd]
    exact ⟨disk', rfl, hs⟩

theorem Boot.print_ok (b : Boot) (h : Shows fs disk shelf) :
    b.print fs disk = .ok (b.printFileName.map fun name => shelf.print name.key, disk) := by
  unfold Boot.print
  cases b.printFileName with
  | none => rfl
  | some name =>
    simp only [Main.print_ok h]
    rfl

/-- **One start** is the call on the map. -/
theorem Boot.call_ok (b : Boot) (hb : b.Fits) (disk : Store) (shelf : Shelf)
    (h : b.formatFlag = true ∨ ∃ fs, Shows fs disk shelf) :
    ∃ disk' shelf' out, Boot.call disk b = some (disk', out) ∧ shelf.call b = some (shelf', out) ∧
    ∃ fs, Shows fs disk' shelf' := by
  obtain ⟨fs, d1, h1, hs1⟩ := b.fileSystem_ok h
  obtain ⟨d2, h2, hs2⟩ := b.remove_ok hs1
  obtain ⟨d3, h3, hs3⟩ := b.copy_ok hb hs2
  have hmain : b.main disk = .ok (_, d3) := calc
    b.main disk = _ := Fs.bind_ok h1
    _ = _ := Fs.bind_ok h2
    _ = _ := Fs.bind_ok h3
    _ = _ := Fs.bind_ok (b.print_ok hs3)
  refine ⟨d3, _, _, ?_, rfl, fs, hs3⟩
  unfold Boot.call
  rw [hmain]

/-! ### The starts one after another -/

theorem run_shows (bs : List Boot) (hbs : ∀ b ∈ bs, b.Fits) (h : ∃ fs, Shows fs disk shelf) :
    ∃ disk' shelf' outs, Calls.run Boot.call disk bs = some (disk', outs) ∧
    Calls.run Shelf.call shelf bs = some (shelf', outs) ∧
      ∃ fs, Shows fs disk' shelf' :=
  Calls.run_agree (fun _ _ b hR hb => b.call_ok hb _ _ (Or.inr hR)) bs h hbs

/-- **The starts of Nachos are calls on a map.** The first formats the disk,
whatever is on it; each prints what it would print of the map that the ones
before it have left, and none of them is stopped. -/
theorem boots_refine (disk : Store) (b : Boot) (bs : List Boot) (hformat : b.formatFlag = true)
    (hfits : ∀ c ∈ b :: bs, c.Fits) :
    ∃ disk' shelf outs, Calls.run Boot.call disk (b :: bs) = some (disk', outs) ∧
      Calls.run Shelf.call .empty (b :: bs) = some (shelf, outs) ∧ filesOn disk' = shelf.files ∧
      (freeMapOn disk').numClear = shelf.free := by
  obtain ⟨d1, s1, out, hd1, hs1, hR⟩ :=
    b.call_ok (hfits b List.mem_cons_self) disk .empty (Or.inl hformat)
  obtain ⟨d2, s2, outs, hd2, hs2, fs, hR2⟩ :=
    run_shows bs (fun c hc => hfits c (List.mem_cons_of_mem _ hc)) hR
  exact ⟨d2, s2, out :: outs, Calls.run_cons hd1 hd2, Calls.run_cons hs1 hs2, hR2.files, hR2.free⟩

/-- The disk is formatted. -/
def sampleFormat : Boot := ⟨true, none, none, none, fun _ _ _ => 1⟩

/-- A UNIX file of two bytes. -/
def sampleFile : Main.UnixFile := ⟨[104, 105], [[104], [105]], rfl, by decide, by decide⟩

/-- Its copy under the name `a`, on a disk that is formatted or not. -/
def sampleCopy (formatFlag : Bool) : Boot :=
  ⟨formatFlag, none, some (some sampleFile, ⟨[97], by decide⟩), none, fun _ _ _ => 1⟩

/-- The file `a` is printed. -/
def samplePrint : Boot := ⟨false, none, none, some ⟨[97], by decide⟩, fun _ _ _ => 2⟩

theorem fits_sample (formatFlag : Bool) : (sampleCopy formatFlag).Fits ∧ samplePrint.Fits := by
  constructor
  · intro file name h
    cases h
    decide
  · intro file name h
    cases h

/-- There is room for the file on a formatted disk. -/
theorem copy_sampleFile : Shelf.empty.copy (some sampleFile) [97] =
    (.done, ⟨Function.update Shelf.empty.files [97] (some [104, 105]),
      Shelf.empty.free - taken [104, 105]⟩) := by
  have hroom : Shelf.empty.files.Room [97] (2 : ℕ) Shelf.empty.free :=
    ⟨rfl, by simp [Shelf.empty, numDirEntries], by decide⟩
  exact if_pos hroom

theorem boots_refine_sample : ∃ disk' outs, Calls.run Boot.call (fun _ => 0)
    [sampleCopy true, samplePrint] = some (disk', outs) ∧
    outs.map Output.printed = [none, some (.bytes [104, 105])] := by
  obtain ⟨disk', shelf, outs, h, hs, -⟩ :=
    boots_refine (fun _ => 0) (sampleCopy true) [samplePrint] rfl
    (by simpa using fits_sample true)
  refine ⟨disk', outs, h, ?_⟩
  have hfirst : Shelf.call .empty (sampleCopy true) =
      some ((Shelf.empty.copy (some sampleFile) [97]).2,
        ⟨some (Shelf.empty.copy (some sampleFile) [97]).1, none⟩) := rfl
  have hlast : ∀ s : Shelf, s.call samplePrint = some (s, ⟨none, some (s.print [97])⟩) :=
    fun _ => rfl
  have hprint : (Shelf.empty.copy (some sampleFile) [97]).2.print [97] = .bytes [104, 105] := by
    rw [copy_sampleFile]
    rfl
  rw [Calls.run_cons hfirst (Calls.run_cons (hlast _) rfl), hprint, Option.some.injEq] at hs
  cases hs
  rfl

/-! ### What was copied -/

namespace Shelf

/-- A start that leaves the file of a name. -/
structure Leaves (n : List Byte) (b : Boot) : Prop where
  formatFlag : b.formatFlag = false
  removeFileName : ∀ name, b.removeFileName = some name → name.key ≠ n

theorem files_removed {b : Boot} (hb : Leaves n b) {bytes : List Byte}
    (h : shelf.files n = some bytes) :
    (shelf.removed b).files n = some bytes := by
  unfold removed
  cases hr : b.removeFileName with
  | none => exact h
  | some name =>
    show (shelf.remove name.key).files n = some bytes
    unfold remove
    cases shelf.files name.key with
    | none => exact h
    | some bytes' => exact (Function.update_of_ne (hb.removeFileName name hr).symm ..).trans h

/-- No copy goes over a file that is there. -/
theorem files_copied {b : Boot} {bytes : List Byte} (h : shelf.files n = some bytes) :
    (shelf.copied b).2.files n = some bytes := by
  unfold copied
  rcases b.copyNames with _ | ⟨_ | file, name⟩
  · exact h
  · exact h
  · simp only [copy]
    split_ifs with hroom
    · have hne : n ≠ name.key := by
        rintro rfl
        rw [hroom.absent] at h
        cases h
      exact (Function.update_of_ne hne ..).trans h
    · exact h

theorem found_of_leaves {b : Boot} (hb : Leaves n b) : shelf.found b = shelf := by
  unfold found
  rw [if_neg (by rw [hb.formatFlag]; decide)]

theorem call_keeps {b : Boot} {shelf' : Shelf} {out : Output} {bytes : List Byte}
    (h : shelf.files n = some bytes) (hb : Leaves n b) (hcall : shelf.call b = some (shelf', out)) :
    shelf'.files n = some bytes := by
  cases hcall
  rw [found_of_leaves hb]
  exact files_copied (files_removed hb h)

/-- After a copy the bytes are there. -/
theorem call_copied {b : Boot} {shelf' : Shelf} {out : Output} {file : Main.UnixFile}
    (hcopy : b.copyNames = some (some file, name)) (hcall : shelf.call b = some (shelf', out))
    (hdone : out.copied = some .done) : shelf'.files name.key = some file.bytes := by
  cases hcall
  unfold copied at hdone ⊢
  rw [hcopy] at hdone ⊢
  simp only [copy] at hdone ⊢
  split_ifs at hdone ⊢
  · exact Function.update_self ..
  · cases hdone

theorem call_printed {b : Boot} {shelf' : Shelf} {out : Output} {name' : CString}
    {bytes : List Byte} (h : shelf.files n = some bytes)
    (hb : Leaves n b) (hprint : b.printFileName = some name') (hkey : name'.key = n)
    (hcall : shelf.call b = some (shelf', out)) :
    out.printed = some (.bytes bytes) := by
  have h' := call_keeps h hb hcall
  cases hcall
  simp only [hprint, Option.map_some, print, hkey]
  rw [h']

end Shelf

/-- **What was copied is printed**, byte for byte, by every later start until the
file is removed or the disk formatted, whatever else is copied and removed
meanwhile. -/
theorem copied_is_printed (disk : Store) (first b last : Boot) (before later : List Boot)
    (file : Main.UnixFile) (name name' : CString) (hformat : first.formatFlag = true)
    (hfits : ∀ c ∈ first :: before ++ b :: later ++ [last], c.Fits)
    (hcopy : b.copyNames = some (some file, name))
    (hlater : ∀ c ∈ later ++ [last], Shelf.Leaves name.key c)
    (hprint : last.printFileName = some name') (hkey : name'.key = name.key) :
    ∃ d0 outs0 d1 out1 d2 outs2 d3 out3,
      Calls.run Boot.call disk (first :: before) = some (d0, outs0) ∧
      Boot.call d0 b = some (d1, out1) ∧ Calls.run Boot.call d1 later = some (d2, outs2) ∧
      Boot.call d2 last = some (d3, out3) ∧
      (out1.copied = some .done → out3.printed = some (.bytes file.bytes)) := by
  have hmem : ∀ c, c = first ∨ c ∈ before ∨ c = b ∨ c ∈ later ∨ c = last → c.Fits :=
    fun c hc => hfits c (by simpa [or_assoc] using hc)
  obtain ⟨d, s, out, hd, -, hR⟩ := first.call_ok (hmem _ (by simp)) disk .empty (Or.inl hformat)
  obtain ⟨d0, s0, outs0, hd0, -, hR0⟩ := run_shows before (fun c hc => hmem c (by simp [hc])) hR
  obtain ⟨d1, s1, out1, hd1, hs1, hR1⟩ := b.call_ok (hmem _ (by simp)) _ _ (Or.inr hR0)
  obtain ⟨d2, s2, outs2, hd2, hs2, hR2⟩ := run_shows later (fun c hc => hmem c (by simp [hc])) hR1
  obtain ⟨d3, s3, out3, hd3, hs3, -⟩ := last.call_ok (hmem _ (by simp)) _ _ (Or.inr hR2)
  refine ⟨d0, out :: outs0, d1, out1, d2, outs2, d3, out3, Calls.run_cons hd hd0, hd1, hd2, hd3,
    fun hdone => ?_⟩
  have hthere : s1.files name.key = some file.bytes := Shelf.call_copied hcopy hs1 hdone
  have hkept : s2.files name.key = some file.bytes :=
    Calls.run_keeps (fun _ _ _ _ h hc hcall => Shelf.call_keeps h hc hcall) later hthere
      (fun c hc => hlater c (List.mem_append_left _ hc)) hs2
  exact Shelf.call_printed hkept (hlater last (by simp)) hprint hkey hs3

/-- The file is copied onto a formatted disk, and printed by the second start
after that. -/
theorem copied_is_printed_sample : ∃ d0 outs0 d1 out1 d2 outs2 d3 out3,
    Calls.run Boot.call (fun _ => 0) [sampleFormat] = some (d0, outs0) ∧
    Boot.call d0 (sampleCopy false) = some (d1, out1) ∧
      Calls.run Boot.call d1 [samplePrint] = some (d2, outs2) ∧
      Boot.call d2 samplePrint = some (d3, out3) ∧
      out1.copied = some .done ∧ out3.printed = some (.bytes [104, 105]) := by
  obtain ⟨hcopyFits, hprintFits⟩ := fits_sample false
  have hformatFits : sampleFormat.Fits := fun file name h => by cases h
  have hfits : ∀ c ∈ [sampleFormat, sampleCopy false, samplePrint, samplePrint], c.Fits := by
    simp [hformatFits, hcopyFits, hprintFits]
  have hleaves : ∀ c ∈ [samplePrint, samplePrint], Shelf.Leaves
      (CString.key ⟨[97], by decide⟩) c := by
    intro c hc
    obtain rfl : c = samplePrint := by simpa using hc
    exact ⟨rfl, fun name h => by cases h⟩
  obtain ⟨d0, outs0, d1, out1, d2, outs2, d3, out3, h0, h1, h2, h3, hprinted⟩ :=
    copied_is_printed (fun _ => 0) sampleFormat (sampleCopy false) samplePrint []
      [samplePrint] sampleFile
      ⟨[97], by decide⟩ ⟨[97], by decide⟩ rfl hfits rfl hleaves rfl rfl
  -- the copy is that of the map, which has room for it
  have hdone : out1.copied = some .done := by
    obtain ⟨e0, s0, o0, he0, hs0, hR0⟩ :=
      sampleFormat.call_ok hformatFits (fun _ => 0) .empty (Or.inl rfl)
    obtain ⟨e1, s1, o1, he1, hs1, -⟩ := (sampleCopy false).call_ok hcopyFits e0 s0 (Or.inr hR0)
    rw [Calls.run_cons he0 rfl, Option.some.injEq, Prod.mk.injEq] at h0
    rw [← h0.1, he1, Option.some.injEq, Prod.mk.injEq] at h1
    cases hs0
    cases hs1
    rw [← h1.2]
    exact congrArg (fun r => some r.1) copy_sampleFile
  exact ⟨d0, outs0, d1, out1, d2, outs2, d3, out3, h0, h1, h2, h3, hdone, hprinted hdone⟩

end Nachos.Filesys
