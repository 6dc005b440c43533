/-
# Files as user programs see them

What the file system calls are for: a directory of named byte sequences, and
open files, each on a name with an offset. The calls on it are what a program
that makes the system call gets: the result, and for `Read` the content of the
buffer after it, with the zeros that the kernel's copies stop at.

Key definitions: `FileStore`, `FileStore.create`, `FileStore.open_`, `FileStore.read`,
`FileStore.write`, `FileStore.seek`, `FileStore.close`, `FileStore.remove`.
-/
import Mathlib
import Nachos.Base.Programs
import Nachos.Userprog.Ksyscall
import Nachos.Userprog.Remove
import Nachos.Userprog.Transfer

namespace Nachos

open Bytes (Byte)
open Programs (Outcome)

/-- An open file. -/
structure Handle where
  name : List Byte
  offset : ℤ
  writable : Bool
  deriving DecidableEq

/-- The named files, and those that are open. -/
structure FileStore where
  dir : List Byte → Option (List Byte)
  handles : AList fun _ : ℤ => Handle

/-- The bytes that `SysWrite` takes from a buffer: behind the first zero there
are only zeros. -/
def zeroed (buffer : List Byte) : List Byte :=
  (List.range buffer.length).map (untilZero fun k => buffer.getD k 0)

/-- The user's buffer after `bytes` were read into it. -/
def overwritten (bytes old : List Byte) : List Byte :=
  (List.range old.length).map
    (Io.landed (Io.overlaid (fun k => bytes.getD k 0) (fun k => old.getD k 0) bytes.length) fun k =>
      old.getD k 0)

namespace FileStore

/-- The content of an open file. -/
def content (s : FileStore) (h : Handle) : List Byte := (s.dir h.name).getD []

def setHandle (s : FileStore) (id : ℤ) (h : Handle) : FileStore :=
  { s with handles := s.handles.insert id h }

/-- `Create`: a new file, or the one that has the name, emptied. -/
def create (s : FileStore) (name : List Byte) : FileStore × ℤ :=
  if name = [] then (s, -1) else ({ s with dir := Function.update s.dir name (some []) }, 0)

/-- `Open`, where the host's `open` returns `fd`. There are 18 descriptors. -/
def open_ (s : FileStore) (name : List Byte) (type fd : ℤ) : FileStore × ℤ :=
  if type ≠ 0 ∧ type ≠ 1 then (s, -1)
  else if name = [] then (s, -1)
  else if usable.length ≤ s.handles.keys.length then (s, -1)
  else if s.dir name = none then (s, -1)
  else (s.setHandle fd ⟨name, 0, type = 0⟩, fd)

/-- `Close`. -/
def close (s : FileStore) (id : ℤ) : FileStore × ℤ :=
  if s.handles.lookup id = none then (s, -1) else ({ s with handles := s.handles.erase id }, 0)

/-- `Seek` on a file. An id that is not open is a NULL descriptor. -/
def seek (s : FileStore) (pos id : ℤ) : Outcome (FileStore × ℤ) :=
  if id < 2 then .next (s, -1)
  else
    match s.handles.lookup id with
    | none => .fault
    | some h =>
      if (s.content h).length ≤ pos then .next (s, -1)
      else if pos = -1 then
        .next (s.setHandle id { h with offset := (s.content h).length }, (s.content h).length)
      else .next (s.setHandle id { h with offset := pos }, pos)

/-- `Read` into a buffer that holds `old`: the buffer afterwards and the result.
The console is not a file; what is typed there is `getChar`. -/
def read (getChar : ℕ → Byte) (s : FileStore) (old : List Byte) (id : ℤ) :
    Outcome (FileStore × List Byte × ℤ) :=
  if id < 0 ∨ id = consoleOutputID then .next (s, old, -1)
  else if id = consoleInputID then
    let (buffer, i) := Io.readConsole getChar (zeroed old) 0 old.length
    .next (s, overwritten buffer old, i)
  else
    match s.handles.lookup id with
    | none => .fault
    | some h =>
      if h.offset < 0 then .fault
      else
        let bytes := ((s.content h).drop h.offset.toNat).take old.length
        .next (s.setHandle id { h with offset := h.offset + bytes.length }, overwritten bytes old,
          bytes.length)

/-- `Write` of a buffer to a file. -/
def write (s : FileStore) (buffer : List Byte) (id : ℤ) : Outcome (FileStore × ℤ) :=
  if id < 2 then .next (s, -1)
  else
    match s.handles.lookup id with
    | none => .fault
    | some h =>
      if h.writable = false then .next (s, -1)
      else if h.offset < 0 then .fault
      else
        let s := { s with
          dir := Function.update s.dir h.name
            (some (splice (s.content h) h.offset.toNat (zeroed buffer))) }
        .next (s.setHandle id { h with offset := h.offset + buffer.length }, buffer.length)

/-- `Remove`. A name that is open, in whatever case, is not removed. -/
def remove (s : FileStore) (name : List Byte) : FileStore × ℤ :=
  if s.handles.entries.any fun e => strcaseEq e.2.name name then (s, -1)
  else if s.dir name = none then (s, -1)
  else ({ s with dir := Function.update s.dir name none }, 0)

/-! ### One open file -/

/-- The file `name` is there with the content `bytes`, and open, alone, at `offset`. -/
structure Opened (s : FileStore) (id : ℤ) (name bytes : List Byte) (offset : ℕ) (writable : Bool) :
    Prop where
  dir : s.dir name = some bytes
  two_le : 2 ≤ id
  handles : s.handles = AList.singleton id ⟨name, offset, writable⟩

variable {s : FileStore} {name bytes buffer old : List Byte} {id fd type : ℤ} {offset : ℕ}
  {writable : Bool}

theorem overwritten_length (bytes old : List Byte) :
    (overwritten bytes old).length = old.length := by
  rw [overwritten, List.length_map, List.length_range]

/-- What has no zero is taken as it is. -/
theorem zeroed_of_ne (h : ∀ b ∈ buffer, b ≠ 0) : zeroed buffer = buffer := by
  refine List.ext_getElem (by rw [zeroed, List.length_map, List.length_range]) fun k h1 h2 => ?_
  have hne : ∀ j < k, buffer.getD j 0 ≠ 0 := by
    intro j hj
    rw [List.getD_eq_getElem _ _ (by omega)]
    exact h _ (List.getElem_mem _)
  simp only [zeroed, List.getElem_map, List.getElem_range, untilZero_of_ne hne,
    List.getD_eq_getElem _ _ h2]

/-- What has no zero arrives. -/
theorem take_overwritten (h : ∀ b ∈ bytes, b ≠ 0) (hlen : bytes.length ≤ old.length) :
    (overwritten bytes old).take bytes.length = bytes := by
  refine List.ext_getElem (by rw [List.length_take, overwritten_length, min_eq_left hlen])
    fun k h1 h2 => ?_
  have hover : ∀ j < bytes.length, Io.overlaid (fun k => bytes.getD k 0) (fun k => old.getD k 0)
      bytes.length j = bytes.getD j 0 :=
    fun j hj => if_pos hj
  have hne : ∀ j < k, Io.overlaid (fun k => bytes.getD k 0) (fun k => old.getD k 0)
      bytes.length j ≠ 0 := by
    intro j hj
    rw [hover j (by omega), List.getD_eq_getElem _ _ (by omega)]
    exact h _ (List.getElem_mem _)
  simp only [List.getElem_take, overwritten, List.getElem_map, List.getElem_range]
  rw [Io.landed, if_pos hne, hover k h2, List.getD_eq_getElem _ _ h2]

theorem Opened.lookup (h : s.Opened id name bytes offset writable) :
    s.handles.lookup id = some ⟨name, offset, writable⟩ := by
  rw [h.handles]
  exact AList.lookup_insert ∅

theorem Opened.content (h : s.Opened id name bytes offset writable) :
    s.content ⟨name, offset, writable⟩ = bytes := by
  unfold FileStore.content
  rw [h.dir]
  rfl

theorem Opened.setHandle (h : s.Opened id name bytes offset writable) (offset' : ℕ) :
    (s.setHandle id ⟨name, offset', writable⟩).Opened id name bytes offset' writable := by
  refine ⟨h.dir, h.two_le, ?_⟩
  show s.handles.insert id _ = _
  rw [h.handles]
  exact AList.insert_singleton_eq

theorem open_missing (ht : type = 0 ∨ type = 1) (hs : s.dir name = none) :
    s.open_ name type fd = (s, -1) := by
  unfold open_
  rw [if_neg (by omega), hs]
  split_ifs <;> first | rfl | contradiction

/-- The only open file. -/
theorem open_first (ht : type = 0 ∨ type = 1) (hname : name ≠ []) (hs : s.handles = ∅)
    (hdir : s.dir name = some bytes) (hfd : 2 ≤ fd) :
    (s.open_ name type fd).2 = fd ∧ (s.open_ name type fd).1.Opened fd name bytes 0 (type = 0) := by
  have hopen : s.open_ name type fd = (s.setHandle fd ⟨name, 0, type = 0⟩, fd) := by
    unfold open_
    rw [if_neg (by omega), if_neg hname, if_neg (by rw [hs]; decide),
      if_neg (by rw [hdir]; exact Option.some_ne_none _)]
  rw [hopen]
  refine ⟨rfl, hdir, hfd, ?_⟩
  show s.handles.insert fd _ = _
  rw [hs]
  rfl

theorem Opened.close (h : s.Opened id name bytes offset writable) :
    s.close id = ({ s with handles := ∅ }, 0) := by
  unfold FileStore.close
  rw [h.lookup, if_neg (Option.some_ne_none _), h.handles]
  refine Prod.ext (congrArg (FileStore.mk s.dir) (AList.ext ?_)) rfl
  simp [AList.erase]

/-- Seeking to where the file is. -/
theorem Opened.seek (h : s.Opened id name bytes 0 writable) :
    ∃ s' r, s.seek 0 id = .next (s', r) ∧ s'.Opened id name bytes 0 writable := by
  unfold FileStore.seek
  rw [if_neg (not_lt.mpr h.two_le), h.lookup]
  simp only [if_neg (show ¬ (0 : ℤ) = -1 by decide)]
  split_ifs
  · exact ⟨s, -1, rfl, h⟩
  · exact ⟨_, 0, rfl, h.setHandle 0⟩

/-- A read gives the bytes from the offset on. -/
theorem Opened.read (h : s.Opened id name bytes offset writable) (getChar : ℕ → Byte)
    (old : List Byte) :
    let out := (bytes.drop offset).take old.length
    ∃ s', s.read getChar old id = .next (s', overwritten out old, out.length) ∧
      s'.Opened id name bytes (offset + out.length) writable := by
  intro out
  have hid := h.two_le
  unfold FileStore.read
  rw [if_neg (by unfold consoleOutputID; omega), if_neg (by unfold consoleInputID; omega), h.lookup]
  simp only [h.content, Int.toNat_natCast, if_neg (not_lt.mpr (Int.natCast_nonneg offset))]
  exact ⟨_, rfl, by exact_mod_cast h.setHandle (offset + out.length)⟩

/-- A buffer without zeros is written to an empty file. -/
theorem Opened.write (h : s.Opened id name [] 0 true) (hb : ∀ b ∈ buffer, b ≠ 0) :
    ∃ s', s.write buffer id = .next (s', buffer.length) ∧
    s'.Opened id name buffer buffer.length true := by
  have hid := h.two_le
  unfold FileStore.write
  rw [if_neg (not_lt.mpr hid), h.lookup]
  simp only [Nat.cast_zero, Int.toNat_zero, lt_self_iff_false, if_false,
    Bool.true_eq_false, zero_add]
  refine ⟨_, rfl, ?_, hid, ?_⟩
  · show Function.update s.dir name _ name = _
    rw [Function.update_self, show s.content ⟨name, 0, true⟩ = [] from h.content, zeroed_of_ne hb]
    by_cases hnil : buffer = []
    · simp [splice, hnil]
    · simp [splice, hnil]
  · show s.handles.insert id _ = _
    rw [h.handles]
    exact AList.insert_singleton_eq

theorem remove_closed (hs : s.handles = ∅) :
    ∃ r, s.remove name = ({ s with dir := Function.update s.dir name none }, r) := by
  unfold remove
  rw [if_neg (by rw [hs]; simp)]
  by_cases hd : s.dir name = none
  · rw [if_pos hd, show Function.update s.dir name none =
      s.dir by rw [← hd, Function.update_eq_self]]
    exact ⟨-1, rfl⟩
  · rw [if_neg hd]
    exact ⟨0, rfl⟩

end FileStore

end Nachos
