/-
# Files of the host (`filesys/openfile.h` with `FILESYS_STUB`, `lib/sysdep.cc`)

With the stub a file of the kernel is a file of the host: `ReadAt` and `WriteAt`
seek and then read or write, and `Lseek` and `WriteFile` assert that the host
did as it was told. The host has the content of its files and, for each
descriptor, the file it is open on and the position there. What it answers in
one system call is part of the call (`HostEnv`): which of the `lseek`s succeed,
how many bytes a `read`, `write` or `send` moves at most or that it fails, and
what is typed at the console.

Key definitions: `HostFiles`, `HostEnv`, `OpenFile.read`, `OpenFile.write`,
`OpenFile.length`, `FileDescriptor.read`, `FileDescriptor.write`, `FileDescriptor.seek`.
Key theorems: `FileDescriptor.read_ok`, `FileDescriptor.write_ok`.
-/
import Mathlib
import Nachos.Base.Bytes
import Nachos.Userprog.FileDescriptors
import Nachos.Userprog.UserMemory

namespace Nachos

open Bytes (Byte)

/-- The files of the host, and what was given to `send`. -/
structure HostFiles where
  /-- the file that a descriptor is open on -/
  node : ℤ → ℕ
  content : ℕ → List Byte
  position : ℤ → ℤ
  sent : List (ℤ × List Byte)

/-- What the host does in one system call. -/
structure HostEnv where
  /-- whether the `k`-th `lseek` succeeds -/
  lseek : ℕ → Bool
  /-- the bytes that are moved at most; `none` for an error -/
  read : Option ℕ
  write : Option ℕ
  send : Option ℕ
  close : Bool
  /-- what `SynchConsoleInput::GetChar` returns -/
  getChar : ℕ → Byte

inductive Whence
  | set | cur | end_

/-- A file after `bytes` were written at `pos`: a gap is filled with zeros, and
writing nothing changes nothing. -/
def splice (old : List Byte) (pos : ℕ) (bytes : List Byte) : List Byte :=
  if bytes = [] then old
  else old.take pos ++ List.replicate (pos - old.length) 0 ++ bytes ++ old.drop (pos + bytes.length)

namespace HostFiles

def fileOf (h : HostFiles) (fd : ℤ) : List Byte := h.content (h.node fd)

/-- `lseek(fd, offset, whence)` as an `int`. -/
def lseek (h : HostFiles) (ok : Bool) (fd offset : ℤ) (whence : Whence) : HostFiles × ℤ :=
  let target := match whence with
    | .set => offset
    | .cur => h.position fd + offset
    | .end_ => (h.fileOf fd).length + offset
  if ok = true ∧ 0 ≤ target then
    ({ h with position := Function.update h.position fd target }, wrap32 target) else (h, -1)

/-- `read(fd, _, n)`: the bytes and the result. A negative count is too large
for the host. -/
def read (h : HostFiles) (outcome : Option ℕ) (fd n : ℤ) : HostFiles × List Byte × ℤ :=
  match outcome with
  | none => (h, [], -1)
  | some most =>
    if n < 0 then (h, [], -1)
    else
      let bytes := ((h.fileOf fd).drop (h.position fd).toNat).take (min most n.toNat)
      ({ h with position := Function.update h.position fd (h.position fd + bytes.length) }, bytes,
        bytes.length)

/-- `write(fd, buffer, n)`. -/
def write (h : HostFiles) (outcome : Option ℕ) (fd : ℤ) (buffer : List Byte) (n : ℤ) :
    HostFiles × ℤ :=
  match outcome with
  | none => (h, -1)
  | some most =>
    if n < 0 then (h, -1)
    else
      let bytes := buffer.take (min most n.toNat)
      let content :=
        Function.update h.content (h.node fd) (splice (h.fileOf fd) (h.position fd).toNat bytes)
      ({ h with
        content := content,
        position := Function.update h.position fd (h.position fd + bytes.length) }, bytes.length)

/-- `send(socketid, buffer, n, 0)`. -/
def send (h : HostFiles) (outcome : Option ℕ) (socketid : ℤ) (buffer : List Byte) (n : ℤ) :
    HostFiles × ℤ :=
  let h := { h with sent := h.sent ++ [(socketid, buffer.take n.toNat)] }
  match outcome with
  | none => (h, -1)
  | some most => if n < 0 then (h, -1) else (h, (min most n.toNat : ℕ))

end HostFiles

namespace Sysdep

/-- `Lseek`. -/
def lseek (h : HostFiles) (ok : Bool) (fd offset : ℤ) (whence : Whence) :
    Except SysStop HostFiles :=
  if 0 ≤ (h.lseek ok fd offset whence).2 then .ok (h.lseek ok fd offset whence).1
    else .error .assert

/-- `Tell`. -/
def tell (h : HostFiles) (ok : Bool) (fd : ℤ) : HostFiles × ℤ := h.lseek ok fd 0 .cur

/-- `WriteFile`. -/
def writeFile (h : HostFiles) (outcome : Option ℕ) (fd : ℤ) (buffer : List Byte) (n : ℤ) :
    Except SysStop HostFiles :=
  if (h.write outcome fd buffer n).2 = n then .ok (h.write outcome fd buffer n).1
    else .error .assert

end Sysdep

/-! ### Open files -/

namespace OpenFile

/-- `OpenFile::ReadAt`. -/
def readAt (f : OpenFile) (env : HostEnv) (h : HostFiles) (numBytes position : ℤ) :
    Except SysStop (HostFiles × List Byte × ℤ) := do
  let h ← Sysdep.lseek h (env.lseek 0) f.file position .set
  pure (h.read env.read f.file numBytes)

/-- `OpenFile::WriteAt`. -/
def writeAt (f : OpenFile) (env : HostEnv) (h : HostFiles) (buffer : List Byte)
    (numBytes position : ℤ) :
    Except SysStop (HostFiles × ℤ) := do
  let h ← Sysdep.lseek h (env.lseek 0) f.file position .set
  let h ← Sysdep.writeFile h env.write f.file buffer numBytes
  pure (h, numBytes)

/-- `OpenFile::Read`. -/
def read (f : OpenFile) (env : HostEnv) (h : HostFiles) (numBytes : ℤ) :
    Except SysStop (OpenFile × HostFiles × List Byte × ℤ) := do
  let (h, bytes, numRead) ← f.readAt env h numBytes f.currentOffset
  pure ({ f with currentOffset := wrap32 (f.currentOffset + numRead) }, h, bytes, numRead)

/-- `OpenFile::Write`. -/
def write (f : OpenFile) (env : HostEnv) (h : HostFiles) (buffer : List Byte) (numBytes : ℤ) :
    Except SysStop (OpenFile × HostFiles × ℤ) := do
  let (h, numWritten) ← f.writeAt env h buffer numBytes f.currentOffset
  pure ({ f with currentOffset := wrap32 (f.currentOffset + numWritten) }, h, numWritten)

/-- `OpenFile::Seek`. -/
def seek (f : OpenFile) (pos : ℤ) : OpenFile × ℤ := ({ f with currentOffset := pos }, pos)

/-- `OpenFile::Length`, with the `lseek`s `k` and `k + 1` of the call. -/
def length (f : OpenFile) (env : HostEnv) (h : HostFiles) (k : ℕ) :
    Except SysStop (HostFiles × ℤ) := do
  let h ← Sysdep.lseek h (env.lseek k) f.file 0 .end_
  pure (Sysdep.tell h (env.lseek (k + 1)) f.file)

end OpenFile

namespace FileDescriptor

/-- `FileDescriptor::Read`. -/
def read (d : FileDescriptor) (env : HostEnv) (h : HostFiles) (size : ℤ) :
    Except SysStop (FileDescriptor × HostFiles × List Byte × ℤ) :=
  match d.file with
  | none => .error .nullFile
  | some f => (f.read env h size).map fun r => ({ d with file := some r.1 }, r.2)

/-- `FileDescriptor::Write`. -/
def write (d : FileDescriptor) (env : HostEnv) (h : HostFiles) (buffer : List Byte) (size : ℤ) :
    Except SysStop (FileDescriptor × HostFiles × ℤ) :=
  if d.mode = readWriteFile then
    match d.file with
    | none => .error .nullFile
    | some f => (f.write env h buffer size).map fun r => ({ d with file := some r.1 }, r.2)
  else .ok (d, h, -1)

/-- `FileDescriptor::Seek`. -/
def seek (d : FileDescriptor) (env : HostEnv) (h : HostFiles) (position : ℤ) :
    Except SysStop (FileDescriptor × HostFiles × ℤ) :=
  match d.file with
  | none => .error .nullFile
  | some f => do
    let (h, len) ← f.length env h 0
    if position ≥ len then pure (d, h, -1)
    else if position = -1 then
      let (h, len) ← f.length env h 2
      pure ({ d with file := some (f.seek len).1 }, h, (f.seek len).2)
    else pure ({ d with file := some (f.seek position).1 }, h, (f.seek position).2)

/-- The C string in a buffer. -/
def cstr (buffer : List Byte) : List Byte := buffer.takeWhile (· ≠ 0)

/-- `FileDescriptor::Send`; "exit" is reported as 0. -/
def send (env : HostEnv) (h : HostFiles) (socketid : ℤ) (buffer : List Byte) (len : ℤ) :
    HostFiles × ℤ :=
  let (h, sent) := h.send env.send socketid buffer len
  if sent < 0 then (h, -1)
  else if cstr buffer = [101, 120, 105, 116] then (h, 0)
  else (h, sent)

/-- What has no zero is all in the string. -/
theorem cstr_append {l : List Byte} (hl : ∀ b ∈ l, b ≠ 0) (rest : List Byte) :
    cstr (l ++ rest) = l ++ cstr rest :=
  List.takeWhile_append_of_pos fun b hb => decide_eq_true (hl b hb)

theorem cstr_of_ne {l : List Byte} (hl : ∀ b ∈ l, b ≠ 0) : cstr l = l :=
  List.takeWhile_eq_self_iff.mpr fun b hb => decide_eq_true (hl b hb)

theorem cstr_append_zero {l : List Byte} (hl : ∀ b ∈ l, b ≠ 0) (rest : List Byte) :
    cstr (l ++ 0 :: rest) = l := by
  rw [cstr_append hl]
  exact List.append_nil l

theorem length_cstr_lt {l : List Byte} (h0 : (0 : Byte) ∈ l) : (cstr l).length < l.length := by
  refine lt_of_le_of_ne (List.takeWhile_prefix _).length_le fun hlen => ?_
  have hall := List.takeWhile_eq_self_iff.mp ((List.takeWhile_prefix _).eq_of_length hlen)
  exact absurd rfl (of_decide_eq_true (hall 0 h0))

/-- Nothing is in the string behind a zero. -/
theorem cstr_of_zero {l : List Byte} (h0 : (0 : Byte) ∈ l) (rest : List Byte) :
    cstr (l ++ rest) = cstr l := by
  have hlt := length_cstr_lt h0
  unfold cstr at hlt ⊢
  rw [List.takeWhile_append, if_neg hlt.ne]

end FileDescriptor

/-! ### What an open file becomes -/

/-- The values of an `int`. -/
def IntRange (x : ℤ) : Prop := -2 ^ 31 ≤ x ∧ x < 2 ^ 31

theorem intRange_wrap32 (x : ℤ) : IntRange (wrap32 x) := wrap32_range x

theorem intRange_zero : IntRange 0 := ⟨by decide, by decide⟩

/-- The descriptor stays, or its file moves. -/
def FileDescriptor.Moves (d d' : FileDescriptor) : Prop :=
  d' = d ∨ ∃ f off, d.file = some f ∧ IntRange off ∧
    d' = { d with file := some { f with currentOffset := off } }

theorem FileDescriptor.read_moves {d d' : FileDescriptor} {env : HostEnv} {h : HostFiles} {size : ℤ}
    {r : HostFiles × List Byte × ℤ} (hr : d.read env h size = .ok (d', r)) : d.Moves d' := by
  unfold FileDescriptor.read at hr
  cases hf : d.file with
  | none =>
    rw [hf] at hr
    cases hr
  | some f =>
    rw [hf] at hr
    simp only [OpenFile.read] at hr
    cases hat : f.readAt env h size f.currentOffset with
    | error e =>
      rw [hat] at hr
      cases hr
    | ok a =>
      rw [hat] at hr
      cases hr
      exact Or.inr ⟨f, _, hf, intRange_wrap32 _, rfl⟩

theorem FileDescriptor.write_moves {d d' : FileDescriptor} {env : HostEnv} {h : HostFiles}
    {buffer : List Byte} {size : ℤ} {r : HostFiles × ℤ}
    (hr : d.write env h buffer size = .ok (d', r)) : d.Moves d' := by
  unfold FileDescriptor.write at hr
  by_cases hm : d.mode = readWriteFile
  · rw [if_pos hm] at hr
    cases hf : d.file with
    | none =>
      rw [hf] at hr
      cases hr
    | some f =>
      rw [hf] at hr
      simp only [OpenFile.write] at hr
      cases hat : f.writeAt env h buffer size f.currentOffset with
      | error e =>
        rw [hat] at hr
        cases hr
      | ok a =>
        rw [hat] at hr
        cases hr
        exact Or.inr ⟨f, _, hf, intRange_wrap32 _, rfl⟩
  · rw [if_neg hm] at hr
    cases hr
    exact Or.inl rfl

theorem HostFiles.intRange_lseek (h : HostFiles) (ok : Bool) (fd offset : ℤ) (whence : Whence) :
    IntRange (h.lseek ok fd offset whence).2 := by
  unfold HostFiles.lseek
  simp only
  split_ifs
  · exact intRange_wrap32 _
  · show IntRange (-1)
    exact ⟨by decide, by decide⟩

theorem OpenFile.intRange_length {f : OpenFile} {env : HostEnv} {h h' : HostFiles} {k : ℕ} {len : ℤ}
    (hl : f.length env h k = .ok (h', len)) : IntRange len := by
  unfold OpenFile.length at hl
  obtain ⟨h1, -, hl⟩ := bind_eq_ok hl
  have hlen := h1.intRange_lseek (env.lseek (k + 1)) f.file 0 .cur
  rw [show h1.lseek (env.lseek (k + 1)) f.file 0 .cur = (h', len) from Except.ok.inj hl] at hlen
  exact hlen

theorem FileDescriptor.seek_moves {d d' : FileDescriptor} {env : HostEnv} {h : HostFiles} {pos : ℤ}
    (hpos : IntRange pos) {r : HostFiles × ℤ} (hr : d.seek env h pos = .ok (d', r)) :
    d.Moves d' := by
  unfold FileDescriptor.seek at hr
  cases hf : d.file with
  | none =>
    rw [hf] at hr
    cases hr
  | some f =>
    rw [hf] at hr
    obtain ⟨⟨h1, len⟩, -, hr⟩ := bind_eq_ok hr
    simp only at hr
    split_ifs at hr
    · cases hr
      exact Or.inl rfl
    · obtain ⟨⟨h2, len2⟩, hl, hr⟩ := bind_eq_ok hr
      cases hr
      exact Or.inr ⟨f, len2, hf, OpenFile.intRange_length hl, rfl⟩
    · cases hr
      exact Or.inr ⟨f, pos, hf, hpos, rfl⟩

/-! ### What the host answers -/

/-- A position that the host can seek to. -/
theorem Sysdep.lseek_set (h : HostFiles) (fd : ℤ) {offset : ℤ} (h0 : 0 ≤ offset)
    (h1 : offset < 2 ^ 31) :
    Sysdep.lseek h true fd offset .set = .ok
      { h with position := Function.update h.position fd offset } := by
  unfold Sysdep.lseek HostFiles.lseek
  simp only [true_and, if_pos h0, wrap32_of_lt h0 h1]

theorem Sysdep.lseek_error {h : HostFiles} {ok : Bool} {fd offset : ℤ}
    (hbad : ¬ (ok = true ∧ 0 ≤ offset)) :
    Sysdep.lseek h ok fd offset .set = .error .assert := by
  unfold Sysdep.lseek HostFiles.lseek
  simp only [if_neg hbad]
  rfl

/-- What `read` gives of a file from `off` on, and its result. -/
def HostEnv.delivers (env : HostEnv) (file : List Byte) (off : ℕ) (n : ℤ) : List Byte × ℤ :=
  match env.read with
  | none => ([], -1)
  | some most =>
    if n < 0 then ([], -1)
    else (((file.drop off).take (min most n.toNat)),
      (((file.drop off).take (min most n.toNat)).length : ℕ))

theorem HostEnv.length_delivers (env : HostEnv) (file : List Byte) (off : ℕ) (n : ℤ) :
    (env.delivers file off n).1.length ≤ n.toNat := by
  unfold HostEnv.delivers
  cases env.read with
  | none => exact Nat.zero_le _
  | some most =>
    simp only
    split_ifs
    · exact Nat.zero_le _
    · simp only [List.length_take]
      omega

theorem HostFiles.read_eq (h : HostFiles) (env : HostEnv) (fd n : ℤ) : ∃ h', h.read env.read fd n =
    (h', env.delivers (h.fileOf fd) (h.position fd).toNat n) ∧ h'.node = h.node ∧
    h'.content = h.content := by
  unfold HostFiles.read HostEnv.delivers
  cases env.read with
  | none => exact ⟨h, rfl, rfl, rfl⟩
  | some most =>
    by_cases hn : n < 0
    · simp only [if_pos hn]
      exact ⟨h, rfl, rfl, rfl⟩
    · simp only [if_neg hn]
      exact ⟨_, rfl, rfl, rfl⟩

/-- `write` moves all it is given; of a negative count nothing, which is -1. -/
theorem HostFiles.write_eq_iff (h : HostFiles) (outcome : Option ℕ) (fd : ℤ) {buffer : List Byte}
    {n : ℤ} (h1 : -1 ≤ n) (hlen : n.toNat ≤ buffer.length) :
    (h.write outcome fd buffer n).2 = n ↔ n = -1 ∨ ∃ most : ℕ, outcome = some most ∧ n ≤ most := by
  unfold HostFiles.write
  cases outcome with
  | none =>
    simp only [reduceCtorEq, false_and, exists_false, or_false]
    omega
  | some most =>
    simp only [Option.some.injEq]
    split_ifs with hn
    · omega
    · simp only [List.length_take]
      constructor
      · intro h
        exact Or.inr ⟨most, rfl, by omega⟩
      · rintro (hneg | ⟨m, rfl, hm⟩)
        · omega
        · omega

/-! ### Descriptors on files -/

section File

variable {d : FileDescriptor} {f : OpenFile} {env : HostEnv} {n : ℤ} {buffer : List Byte}

/-- `Read` of an open file: the bytes from the offset on. -/
theorem FileDescriptor.read_ok (hf : d.file = some f) (hseek : env.lseek 0 = true)
    (h : HostFiles) (n : ℤ) (h0 : 0 ≤ f.currentOffset) (h1 : f.currentOffset < 2 ^ 31) :
    let out := env.delivers (h.fileOf f.file) f.currentOffset.toNat n
    ∃ h', d.read env h n =
      .ok ({ d with file := some { f with currentOffset := wrap32 (f.currentOffset + out.2) } }, h',
        out) ∧
      h'.node = h.node ∧ h'.content = h.content := by
  intro out
  have hat : ∃ h', f.readAt env h n f.currentOffset = .ok (h', out) ∧ h'.node = h.node ∧
      h'.content = h.content := by
    unfold OpenFile.readAt
    rw [hseek, Sysdep.lseek_set h f.file h0 h1]
    obtain ⟨h', hread, hnode, hcontent⟩ :=
      HostFiles.read_eq { h with position := Function.update h.position f.file f.currentOffset }
        env f.file n
    refine ⟨h', ?_, hnode, hcontent⟩
    simp only [Function.update_self] at hread
    exact congrArg Except.ok hread
  obtain ⟨h', hat, hnode, hcontent⟩ := hat
  refine ⟨h', ?_, hnode, hcontent⟩
  unfold FileDescriptor.read OpenFile.read
  rw [hf]
  simp only [hat, bind, Except.bind]
  rfl

theorem FileDescriptor.read_error (hf : d.file = some f)
    (hbad : ¬ (env.lseek 0 = true ∧ 0 ≤ f.currentOffset)) (h : HostFiles) (n : ℤ) :
    d.read env h n = .error .assert := by
  unfold FileDescriptor.read OpenFile.read OpenFile.readAt
  rw [hf]
  simp only [Sysdep.lseek_error hbad]
  rfl

/-- `Write` of an open file: the bytes go to the offset. -/
theorem FileDescriptor.write_ok (hmode : d.mode = readWriteFile) (hf : d.file = some f)
    (hseek : env.lseek 0 = true) (h : HostFiles) (h0 : 0 ≤ f.currentOffset)
    (h1 : f.currentOffset < 2 ^ 31) (hn : -1 ≤ n) (hlen : n.toNat ≤ buffer.length)
    (hwrite : n = -1 ∨ ∃ most : ℕ, env.write = some most ∧ n ≤ most) :
    ∃ h', d.write env h buffer n = .ok
      ({ d with file := some { f with currentOffset := wrap32 (f.currentOffset + n) } }, h', n) ∧
      h'.node = h.node ∧
      (0 ≤ n → h'.content =
        Function.update h.content (h.node f.file)
        (splice (h.fileOf f.file) f.currentOffset.toNat (buffer.take n.toNat))) := by
  let h2 : HostFiles := { h with position := Function.update h.position f.file f.currentOffset }
  have hresult := (HostFiles.write_eq_iff h2 env.write f.file hn hlen).mpr hwrite
  have hat : f.writeAt env h buffer n f.currentOffset =
      .ok ((h2.write env.write f.file buffer n).1, n) := by
    unfold OpenFile.writeAt
    rw [hseek, Sysdep.lseek_set h f.file h0 h1]
    simp only [bind, Except.bind, Sysdep.writeFile]
    rw [if_pos hresult]
    rfl
  refine ⟨(h2.write env.write f.file buffer n).1, ?_, ?_, fun hpos => ?_⟩
  · unfold FileDescriptor.write OpenFile.write
    rw [if_pos hmode, hf]
    simp only [hat, bind, Except.bind]
    rfl
  · unfold HostFiles.write
    cases env.write with
    | none => rfl
    | some most =>
      simp only
      split_ifs
      · rfl
      · rfl
  · obtain hneg | ⟨most, hmost, hle⟩ := hwrite
    · omega
    · have htake : min most n.toNat = n.toNat := by omega
      unfold HostFiles.write
      simp only [hmost, if_neg (not_lt.mpr hpos), htake, HostFiles.fileOf, h2, Function.update_self]

theorem FileDescriptor.write_error (hmode : d.mode = readWriteFile) (hf : d.file = some f)
    (h : HostFiles) (h1 : f.currentOffset < 2 ^ 31) (hn : -1 ≤ n) (hlen : n.toNat ≤ buffer.length)
    (hbad : ¬ (env.lseek 0 = true ∧ 0 ≤ f.currentOffset ∧
      (n = -1 ∨ ∃ most : ℕ, env.write = some most ∧ n ≤ most))) :
    d.write env h buffer n = .error .assert := by
  have hat : f.writeAt env h buffer n f.currentOffset = .error .assert := by
    unfold OpenFile.writeAt
    by_cases hseek : env.lseek 0 = true ∧ 0 ≤ f.currentOffset
    · rw [hseek.1, Sysdep.lseek_set h f.file hseek.2 h1]
      simp only [bind, Except.bind, Sysdep.writeFile]
      rw [if_neg fun hresult =>
        hbad ⟨hseek.1, hseek.2, (HostFiles.write_eq_iff _ env.write f.file hn hlen).mp hresult⟩]
    · rw [Sysdep.lseek_error hseek]
      rfl
  unfold FileDescriptor.write OpenFile.write
  rw [if_pos hmode, hf]
  simp only [hat]
  rfl

/-- `Length` of an open file; the position may still not be told. -/
theorem OpenFile.length_ok (f : OpenFile) (h : HostFiles) {k : ℕ} (hseek : env.lseek k = true)
    (hlen : 0 ≤ wrap32 (h.fileOf f.file).length) :
    ∃ h', f.length env h k =
      .ok (h', if env.lseek (k + 1) = true then wrap32 (h.fileOf f.file).length else -1) ∧
      h'.node = h.node ∧ h'.content = h.content := by
  have hnat : (0 : ℤ) ≤ (h.fileOf f.file).length := Int.natCast_nonneg _
  have hend : Sysdep.lseek h true f.file 0 .end_ =
      .ok { h with position := Function.update h.position f.file (h.fileOf f.file).length } := by
    unfold Sysdep.lseek HostFiles.lseek
    simp only [add_zero, true_and, if_pos hnat, if_pos hlen]
  unfold OpenFile.length
  rw [hseek, hend]
  simp only [bind, Except.bind, Sysdep.tell, HostFiles.lseek, Function.update_self, add_zero,
    and_iff_left hnat]
  by_cases htell : env.lseek (k + 1) = true
  · rw [if_pos htell, if_pos htell]
    exact ⟨_, rfl, rfl, rfl⟩
  · rw [if_neg htell, if_neg htell]
    exact ⟨_, rfl, rfl, rfl⟩

theorem OpenFile.length_error (f : OpenFile) (h : HostFiles) {k : ℕ}
    (hbad : ¬ (env.lseek k = true ∧ 0 ≤ wrap32 (h.fileOf f.file).length)) :
    f.length env h k = .error .assert := by
  have hvalue : (h.lseek (env.lseek k) f.file 0 .end_).2 =
      if env.lseek k = true then wrap32 (h.fileOf f.file).length else -1 := by
    unfold HostFiles.lseek
    simp only [add_zero, and_iff_left (Int.natCast_nonneg (h.fileOf f.file).length),
      apply_ite Prod.snd]
  have hresult : (h.lseek (env.lseek k) f.file 0 .end_).2 < 0 := by
    rw [hvalue]
    by_cases hseek : env.lseek k = true
    · rw [if_pos hseek]
      exact not_le.mp fun hlen => hbad ⟨hseek, hlen⟩
    · rw [if_neg hseek]
      decide
  unfold OpenFile.length Sysdep.lseek
  rw [if_neg (not_le.mpr hresult)]
  rfl

/-- `Seek` of an open file returns. -/
theorem FileDescriptor.seek_returns_iff (hf : d.file = some f) (h : HostFiles) (pos : ℤ) :
    (∃ x, d.seek env h pos = .ok x) ↔ env.lseek 0 = true ∧ 0 ≤ wrap32 (h.fileOf f.file).length ∧
      (pos = -1 → env.lseek 1 = true → env.lseek 2 = true) := by
  unfold FileDescriptor.seek
  rw [hf]
  simp only
  by_cases hlen : env.lseek 0 = true ∧ 0 ≤ wrap32 (h.fileOf f.file).length
  · obtain ⟨h1, hl, hnode, hcontent⟩ := OpenFile.length_ok f h hlen.1 hlen.2
    have hsame : h1.fileOf f.file = h.fileOf f.file := by
      unfold HostFiles.fileOf
      rw [hnode, hcontent]
    rw [and_iff_right hlen.1, and_iff_right hlen.2, hl]
    simp only [bind, Except.bind]
    by_cases hpos : pos = -1
    · subst hpos
      by_cases htell : env.lseek 1 = true
      · rw [if_pos htell, if_neg (by omega), if_pos rfl]
        by_cases hagain : env.lseek 2 = true
        · obtain ⟨h2, hl2, -⟩ := OpenFile.length_ok f h1 hagain (hsame ▸ hlen.2)
          rw [hl2]
          exact iff_of_true ⟨_, rfl⟩ fun _ _ => hagain
        · rw [OpenFile.length_error f h1 fun h => hagain h.1]
          exact iff_of_false (fun ⟨_, hx⟩ => by cases hx) fun h => hagain (h rfl htell)
      · rw [if_neg htell, if_pos (le_refl _)]
        exact iff_of_true ⟨_, rfl⟩ fun _ h => absurd h htell
    · refine iff_of_true ?_ fun h => absurd h hpos
      rw [if_neg hpos]
      by_cases hge : pos ≥ if env.lseek (0 + 1) = true then wrap32 (h.fileOf f.file).length else -1
      · rw [if_pos hge]
        exact ⟨_, rfl⟩
      · rw [if_neg hge]
        exact ⟨_, rfl⟩
  · rw [OpenFile.length_error f h hlen]
    exact iff_of_false (fun ⟨_, hx⟩ => by cases hx) fun h => hlen ⟨h.1, h.2.1⟩

end File

end Nachos
