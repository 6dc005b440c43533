/-
# Which calls return (`userprog/ksyscall.h`)

`SysRead`, `SysWrite`, `SysSeek` and `SysClose` with any argument and any answer
of the host. A call that does not return halts the machine at an address outside
the space, throws in `new`, uses a descriptor or a file that is NULL, or fails an
`ASSERT`. Each call has its own condition for returning, and an exact one:

* the test `!table.IsOpening(id)` is of an index or -1 and never holds, so an id
  that is not open, and a socket that is read or moved, is a NULL pointer;
* an offset that has become negative, a seek, a short `write` or a `close` that
  fails at the host is a failed `ASSERT`, and so is a file that `SysCreate` cannot
  make.

Key definitions: `Io.SafeOn`, `Io.ReadOk`, `Io.WriteOk`, `Io.SeekOk`.
Key theorems: `Io.calls_safe_iff`.
-/
import Mathlib
import Nachos.Base.Runs
import Nachos.Base.Bytes
import Nachos.Userprog.FileDescriptors
import Nachos.Userprog.UserMemory
import Nachos.Userprog.HostFiles
import Nachos.Userprog.Ksyscall
import Nachos.Userprog.Transfer

namespace Nachos

open Bytes (Byte)

namespace Slots

variable {t : Table} {h : Host} {i : Fin capacity} {id : ℤ}

/-- The slot that `IsOpening` finds holds the descriptor. -/
theorem fdMap_of_slotOf (hS : Slots t h) (h0 : 0 ≤ id) (hi : t.slotOf id = some i) :
    t.fdMap id = some (t.slot i) := by
  obtain ⟨hmem, hid⟩ := Table.slotOf_some hi
  refine (Table.fdMap_eq_some hS.table.distinct).mpr ⟨i, hmem, fun hm => ?_, hid, rfl⟩
  have hfree := (hS.table.free i).mp hm
  simp only at hfree
  omega

theorem fdMap_of_slotOf_none (hS : Slots t h) (hi : t.slotOf id = none) : t.fdMap id = none := by
  cases hd : t.fdMap id with
  | none => rfl
  | some d =>
    obtain ⟨i, -, hslotOf, -⟩ := hS.lookup hd
    rw [hi] at hslotOf
    cases hslotOf

theorem fdMap_console (hS : Slots t h) (hid : id < 2) : t.fdMap id = none := by
  cases hd : t.fdMap id with
  | none => rfl
  | some d =>
    obtain ⟨i, -, -, -, h2⟩ := hS.lookup hd
    omega

end Slots

namespace Io

variable {s : Io} {env : HostEnv} {v : BitVec 32} {n id : ℤ}

/-! ### What is asked of a call -/

def Returns (x : Except SysStop (Io × ℤ)) : Prop := ∃ s' r, x = .ok (s', r)

/-- The call fails and leaves the table, the files and the user's memory. -/
def Refuses (s : Io) (x : Except SysStop (Io × ℤ)) : Prop :=
  ∃ s', x = .ok (s', -1) ∧ s'.table = s.table ∧ s'.files = s.files ∧ s'.user.mem = s.user.mem

/-- `id` is the id of an open file. -/
def IsFile (s : Io) (id : ℤ) : Prop := ∃ d f, s.table.fdMap id = some d ∧ d.file = some f

/-- A call on `id` returns, and fails without effect if `id` is neither of the
console nor an open file. -/
def SafeOn (s : Io) (id : ℤ) (x : Except SysStop (Io × ℤ)) : Prop :=
  Returns x ∧ (id ≠ consoleInputID → id ≠ consoleOutputID → ¬ s.IsFile id → Refuses s x)

theorem returns_ok (s' : Io) (r : ℤ) : Returns (.ok (s', r)) := ⟨s', r, rfl⟩

theorem not_returns_error (e : SysStop) : ¬ Returns (.error e) := by
  rintro ⟨s', r, h⟩
  cases h

/-- What comes after the last step that can fail. -/
theorem returns_bind_iff {α : Type} {x : Except SysStop α} {f : α → Except SysStop (Io × ℤ)}
    (hf : ∀ a, Returns (f a)) :
    Returns (x >>= f) ↔ ∃ a, x = .ok a := by
  cases x with
  | error e => exact iff_of_false (not_returns_error e) fun ⟨_, h⟩ => by cases h
  | ok a => exact iff_of_true (hf a) ⟨a, rfl⟩

/-- A call that fails at once. -/
theorem safeOn_refused (s : Io) (id : ℤ) : s.SafeOn id (.ok (s, -1)) :=
  ⟨returns_ok s (-1), fun _ _ _ => ⟨s, rfl, rfl, rfl, rfl⟩⟩

/-- On the console and on files only the return is asked. -/
theorem safeOn_iff_returns {x : Except SysStop (Io × ℤ)}
    (h : id = consoleInputID ∨ id = consoleOutputID ∨ s.IsFile id) :
    s.SafeOn id x ↔ Returns x := by
  refine and_iff_left fun h0 h1 hf => ?_
  rcases h with h | h | h
  · exact absurd h h0
  · exact absurd h h1
  · exact absurd h hf

/-! ### The copy into the kernel -/

/-- `User2System` returns. -/
def CanCopy (s : Io) (v : BitVec 32) (n : ℤ) : Prop :=
  SizeOk n ∧ Within (fun k => s.user.byte (v.toNat + k)) v.toNat n.toNat s.user.size

theorem user2System_error (hI : Inv s) (h : ¬ s.CanCopy v n) :
    ∃ e, user2System s.user v n = .error e := by
  by_cases hsize : SizeOk n
  · exact ⟨.halt, user2System_halt hI.space hsize fun hin => h ⟨hsize, hin⟩⟩
  · exact ⟨.badAlloc, user2System_badAlloc hsize⟩

/-- What is typed, as it gets into the buffer. -/
def typed (getChar : ℕ → Byte) (k : ℕ) : Byte :=
  if getChar k = 0xff ∨ getChar k = 10 then 0 else getChar k

/-- The loop at the console leaves what was typed, up to the first zero. -/
theorem readConsole_spec (getChar : ℕ → Byte) (m : ℕ) :
    ∀ (i : ℕ) (buffer : List Byte), i + m ≤ buffer.length →
    (readConsole getChar buffer i m).1.length = buffer.length ∧
    (∀ k < i, (readConsole getChar buffer i m).1.getD k 0 = buffer.getD k 0) ∧
    ∀ k < i + m, i ≤ k → (∀ j < k, i ≤ j → typed getChar j ≠ 0) →
    (readConsole getChar buffer i m).1.getD k 0 = typed getChar k := by
  induction m with
  | zero => exact fun i buffer _ => ⟨rfl, fun _ _ => rfl, fun k hk hik => by omega⟩
  | succ m ih =>
    intro i buffer hlen
    have hset : ∀ (c : Byte) (k : ℕ), (buffer.set i c).getD k 0 = if k = i then c
        else buffer.getD k 0 := by
      intro c k
      rw [List.getD_eq_getElem?_getD, List.getElem?_set]
      by_cases hk : i = k
      · rw [if_pos hk, if_pos (by omega), if_pos hk.symm]
        rfl
      · rw [if_neg hk, if_neg (Ne.symm hk), ← List.getD_eq_getElem?_getD]
    rw [readConsole]
    by_cases hstop : getChar i = 0xff ∨ getChar i = 10
    · have htyped : typed getChar i = 0 := if_pos hstop
      rw [if_pos hstop]
      refine ⟨List.length_set, fun k hk => ?_, fun k hk hik hz => ?_⟩
      · rw [hset, if_neg (by omega)]
      · rcases hik.eq_or_lt with rfl | hlt
        · rw [hset, if_pos rfl, htyped]
        · exact absurd htyped (hz i hlt le_rfl)
    · have htyped : typed getChar i = getChar i := if_neg hstop
      rw [if_neg hstop]
      obtain ⟨hlen', hbefore, hafter⟩ :=
        ih (i + 1) (buffer.set i (getChar i)) (by rw [List.length_set]; omega)
      refine ⟨by rw [hlen', List.length_set], fun k hk => ?_, fun k hk hik hz => ?_⟩
      · rw [hbefore k (by omega), hset, if_neg (by omega)]
      · rcases hik.eq_or_lt with rfl | hlt
        · rw [hbefore i (by omega), hset, if_pos rfl, htyped]
        · exact hafter k (by omega) hlt fun j hj hij => hz j hj (by omega)

/-! ### SysRead -/

/-- The kernel buffer of a read of a file. -/
def kernelBuffer (s : Io) (env : HostEnv) (v : BitVec 32) (n : ℤ) (f : OpenFile) : ℕ → Byte :=
  let bytes := (env.delivers (s.files.fileOf f.file) f.currentOffset.toNat n).1
  overlaid (fun j => bytes.getD j 0) (fun k => s.user.byte (v.toNat + k)) bytes.length

/-- When `SysRead` does as it should: always on an id below zero and on the
console's output; on the console's input and on a file if the copies stay in the
space, the host can seek and the offset is not negative. -/
def ReadOk (s : Io) (env : HostEnv) (v : BitVec 32) (n id : ℤ) : Prop :=
  id < 0 ∨ id = consoleOutputID ∨
    (id = consoleInputID ∧ s.CanCopy v n ∧ Within (typed env.getChar) v.toNat n.toNat s.user.size) ∨
    ∃ d f, s.table.fdMap id = some d ∧ d.file = some f ∧ s.CanCopy v n ∧ env.lseek 0 = true ∧
    0 ≤ f.currentOffset ∧
      Within (s.kernelBuffer env v n f) v.toNat n.toNat s.user.size

/-- A copy out of a buffer that agrees with `b` up to the first zero. -/
theorem system2User_returns_iff (hI : Inv s) {u : UserMem}
    (hcore : u.pageTable.map TranslationEntry.core = s.user.pageTable.map TranslationEntry.core)
    {buffer : List Byte} {b : ℕ → Byte} (hlen : n.toNat ≤ buffer.length)
    (hb : ∀ k < n.toNat, (∀ j < k, b j ≠ 0) → b k = buffer.getD k 0) :
    (∃ x, system2User u v n buffer = .ok x) ↔ Within b v.toNat n.toNat s.user.size := by
  rw [within_congr hb, ← size_congr hcore]
  constructor
  · rintro ⟨x, hx⟩
    by_contra hout
    rw [system2User_halt (hI.space.congr hcore) hlen hout] at hx
    cases hx
  · intro hin
    obtain ⟨u', m, hok, -⟩ := system2User_ok (hI.space.congr hcore) hlen hin
    exact ⟨_, hok⟩

theorem returns_input_iff (hI : Inv s) :
    Returns (s.sysRead env v n 0) ↔ s.CanCopy v n ∧
    Within (typed env.getChar) v.toNat n.toNat s.user.size := by
  rw [sysRead_input]
  by_cases hcopy : s.CanCopy v n
  · obtain ⟨l, u', hu, hlen, htake, hmem, hcore⟩ := user2System_ok hI.space hcopy.1 hcopy.2
    obtain ⟨hlen', -, hbuffer⟩ := readConsole_spec env.getChar n.toNat 0 l (by omega)
    have hback := system2User_returns_iff (v := v) (n := n) (b := typed env.getChar) hI hcore
      (by rw [hlen']; omega)
      fun k hk hz => (hbuffer k (by omega) (by omega) fun j hj _ => hz j hj).symm
    rw [and_iff_right hcopy, ← hback, hu]
    exact returns_bind_iff fun _ => returns_ok _ _
  · obtain ⟨e, hu⟩ := user2System_error hI hcopy
    rw [hu]
    exact iff_of_false (not_returns_error e) fun h => hcopy h.1

/-- A read of an open file. -/
theorem returns_file_iff (hI : Inv s) {d : FileDescriptor} {f : OpenFile}
    (hd : s.table.fdMap id = some d) (hf : d.file = some f) :
    Returns (s.sysRead env v n id) ↔ s.CanCopy v n ∧ env.lseek 0 = true ∧ 0 ≤ f.currentOffset ∧
      Within (s.kernelBuffer env v n f) v.toNat n.toNat s.user.size := by
  obtain ⟨i, hi, hslotOf, rfl, h2⟩ := hI.slots.lookup hd
  have hrange := (hI.slots.offset rfl hf (hI.slots.occupied hd)).2
  rw [sysRead_some h2 hslotOf]
  by_cases hcopy : s.CanCopy v n
  · obtain ⟨l, u', hu, hlen, htake, hmem, hcore⟩ := user2System_ok hI.space hcopy.1 hcopy.2
    rw [and_iff_right hcopy, hu]
    by_cases hseek : env.lseek 0 = true ∧ 0 ≤ f.currentOffset
    · obtain ⟨h', hread, -, -⟩ := FileDescriptor.read_ok hf hseek.1 s.files n hseek.2 hrange.2
      have hout := env.length_delivers (s.files.fileOf f.file) f.currentOffset.toNat n
      have hback :=
        system2User_returns_iff (v := v) (n := n) (b := s.kernelBuffer env v n f) hI hcore
        (by rw [List.length_append, List.length_drop]; omega) fun k hk _ =>
          (getD_overlaid htake hk).symm
      rw [and_iff_right hseek.1, and_iff_right hseek.2, ← hback]
      simp only [bind, Except.bind]
      rw [hread]
      exact returns_bind_iff fun _ => returns_ok _ _
    · have hread := FileDescriptor.read_error hf hseek s.files n
      simp only [bind, Except.bind]
      rw [hread]
      exact iff_of_false (not_returns_error _) fun h => hseek ⟨h.1, h.2.1⟩
  · obtain ⟨e, hu⟩ := user2System_error hI hcopy
    rw [hu]
    exact iff_of_false (not_returns_error e) fun h => hcopy h.1

/-- A read of an id that is no file. -/
theorem not_returns_read (hI : Inv s) (h2 : 2 ≤ id) (hfile : ¬ s.IsFile id) :
    ¬ Returns (s.sysRead env v n id) := by
  rintro ⟨s', r, hc⟩
  cases hi : s.table.slotOf id with
  | none =>
    rw [sysRead_none h2 hi] at hc
    obtain ⟨b, -, hc⟩ := bind_eq_ok hc
    cases hc
  | some i =>
    have hd := hI.slots.fdMap_of_slotOf (by omega) hi
    have hnone : (s.table.slot i).file = none := by
      cases hf : (s.table.slot i).file with
      | none => rfl
      | some f => exact absurd ⟨_, f, hd, hf⟩ hfile
    rw [sysRead_some h2 hi] at hc
    obtain ⟨b, -, hc⟩ := bind_eq_ok hc
    obtain ⟨x, hread, -⟩ := bind_eq_ok hc
    unfold FileDescriptor.read at hread
    rw [hnone] at hread
    cases hread

theorem sysRead_safe_iff (hI : Inv s) :
    s.SafeOn id (s.sysRead env v n id) ↔ s.ReadOk env v n id := by
  by_cases hneg : id < 0
  · rw [sysRead_neg hneg]
    exact iff_of_true (safeOn_refused s id) (Or.inl hneg)
  by_cases hout : id = consoleOutputID
  · rw [show s.sysRead env v n id = .ok (s, -1) by rw [hout]; exact sysRead_output]
    exact iff_of_true (safeOn_refused s id) (Or.inr (Or.inl hout))
  unfold ReadOk
  rw [or_iff_right hneg, or_iff_right hout]
  by_cases hin : id = consoleInputID
  · have hnone := hI.slots.fdMap_console (show id < 2 by rw [hin]; decide)
    rw [safeOn_iff_returns (Or.inl hin), hin, show consoleInputID = 0 from rfl,
      returns_input_iff hI, and_iff_right rfl]
    refine (or_iff_left ?_).symm
    rintro ⟨d, f, hd, -⟩
    rw [hin] at hnone
    exact absurd (hnone.symm.trans hd) (by simp)
  · rw [or_iff_right fun h => hin h.1]
    have h2 : 2 ≤ id := by
      unfold consoleOutputID at hout
      unfold consoleInputID at hin
      omega
    by_cases hfile : s.IsFile id
    · obtain ⟨d, f, hd, hf⟩ := hfile
      rw [safeOn_iff_returns (Or.inr (Or.inr ⟨d, f, hd, hf⟩)), returns_file_iff hI hd hf]
      constructor
      · exact fun h => ⟨d, f, hd, hf, h⟩
      · rintro ⟨d', f', hd', hf', h⟩
        rw [hd, Option.some.injEq] at hd'
        rw [← hd', hf, Option.some.injEq] at hf'
        exact hf' ▸ h
    · refine iff_of_false (fun h => not_returns_read hI h2 hfile h.1) ?_
      rintro ⟨d, f, hd, hf, -⟩
      exact hfile ⟨d, f, hd, hf⟩

/-! ### SysWrite -/

/-- When `SysWrite` does as it should: always on an id below zero and on the
console's input; else the copy stays in the space and, for a file that may be
written, the host can seek and writes all, and the offset is not negative. -/
def WriteOk (s : Io) (env : HostEnv) (v : BitVec 32) (n id : ℤ) : Prop :=
  id < 0 ∨ id = consoleInputID ∨
    s.CanCopy v n ∧ (id = consoleOutputID ∨ ∃ d, s.table.fdMap id = some d ∧
      (d.mode = readWriteFile → ∃ f, d.file = some f ∧ env.lseek 0 = true ∧ 0 ≤ f.currentOffset ∧
        (n = -1 ∨ ∃ most : ℕ, env.write = some most ∧ n ≤ most)))

theorem returns_output_iff (hI : Inv s) : Returns (s.sysWrite env v n 1) ↔ s.CanCopy v n := by
  rw [sysWrite_output]
  by_cases hcopy : s.CanCopy v n
  · obtain ⟨l, u', hu, -⟩ := user2System_ok hI.space hcopy.1 hcopy.2
    obtain ⟨u2, m, hback, -, -⟩ := system2User_user2System hI.space hu
    rw [hu]
    exact iff_of_true ((returns_bind_iff fun _ => returns_ok _ _).mpr ⟨_, hback⟩) hcopy
  · obtain ⟨e, hu⟩ := user2System_error hI hcopy
    rw [hu]
    exact iff_of_false (not_returns_error e) hcopy

/-- A file that may be written. -/
theorem returns_write_iff (hI : Inv s) {d : FileDescriptor} {f : OpenFile}
    (hd : s.table.fdMap id = some d) (hmode : d.mode = readWriteFile) (hf : d.file = some f) :
    Returns (s.sysWrite env v n id) ↔ s.CanCopy v n ∧ env.lseek 0 = true ∧ 0 ≤ f.currentOffset ∧
      (n = -1 ∨ ∃ most : ℕ, env.write = some most ∧ n ≤ most) := by
  obtain ⟨i, hi, hslotOf, rfl, h2⟩ := hI.slots.lookup hd
  have hrange := (hI.slots.offset rfl hf (hI.slots.occupied hd)).2
  rw [sysWrite_some h2 hslotOf]
  by_cases hcopy : s.CanCopy v n
  · obtain ⟨l, u', hu, hlen, -⟩ := user2System_ok hI.space hcopy.1 hcopy.2
    have hlen' : n.toNat ≤ l.length := by omega
    rw [and_iff_right hcopy, hu]
    by_cases hhost : env.lseek 0 = true ∧ 0 ≤ f.currentOffset ∧
      (n = -1 ∨ ∃ most : ℕ, env.write = some most ∧ n ≤ most)
    · obtain ⟨h', hw, -⟩ := FileDescriptor.write_ok hmode hf hhost.1 s.files hhost.2.1 hrange.2
        hcopy.1.1 hlen' hhost.2.2
      obtain ⟨u2, m, hback, -, -⟩ := system2User_user2System hI.space hu
      refine iff_of_true ?_ hhost
      simp only [bind, Except.bind]
      rw [hw]
      exact (returns_bind_iff fun _ => returns_ok _ _).mpr ⟨_, hback⟩
    · have hw := FileDescriptor.write_error hmode hf s.files hrange.2 hcopy.1.1 hlen' hhost
      refine iff_of_false ?_ hhost
      simp only [bind, Except.bind]
      rw [hw]
      exact not_returns_error _
  · obtain ⟨e, hu⟩ := user2System_error hI hcopy
    rw [hu]
    exact iff_of_false (not_returns_error e) fun h => hcopy h.1

/-- A file that may only be read, or a socket. -/
theorem refuses_write (hI : Inv s) (env : HostEnv) {d : FileDescriptor}
    (hd : s.table.fdMap id = some d) (hmode : d.mode ≠ readWriteFile) (hcopy : s.CanCopy v n) :
    Refuses s (s.sysWrite env v n id) := by
  obtain ⟨i, hi, hslotOf, rfl, h2⟩ := hI.slots.lookup hd
  obtain ⟨l, u', hu, -⟩ := user2System_ok hI.space hcopy.1 hcopy.2
  obtain ⟨u2, m, hback, hmem, -⟩ := system2User_user2System hI.space hu
  have hw : (s.table.slot i).write env s.files l n = .ok (s.table.slot i, s.files, -1) :=
    if_neg hmode
  have hset : s.table.set i (s.table.slot i) = s.table := by simp [Table.set]
  refine ⟨{ s with user := u2 }, ?_, rfl, rfl, hmem⟩
  rw [sysWrite_some h2 hslotOf, hu]
  simp only [bind, Except.bind]
  rw [hw]
  simp only
  rw [hback, hset]
  rfl

/-- The copy comes first. -/
theorem canCopy_of_returns (hI : Inv s) (h0 : 0 < id) (h : Returns (s.sysWrite env v n id)) :
    s.CanCopy v n := by
  by_contra hcopy
  obtain ⟨e, hu⟩ := user2System_error hI hcopy
  refine not_returns_error e (?_ : Returns (.error e))
  rcases (show id = 1 ∨ 2 ≤ id by omega) with rfl | h2
  · rwa [sysWrite_output, hu] at h
  · cases hi : s.table.slotOf id with
    | none => rwa [sysWrite_none h2 hi, hu] at h
    | some i => rwa [sysWrite_some h2 hi, hu] at h

theorem sysWrite_safe_iff (hI : Inv s) :
    s.SafeOn id (s.sysWrite env v n id) ↔ s.WriteOk env v n id := by
  by_cases hneg : id < 0
  · rw [sysWrite_neg hneg]
    exact iff_of_true (safeOn_refused s id) (Or.inl hneg)
  by_cases hin : id = consoleInputID
  · rw [show s.sysWrite env v n id = .ok (s, -1) by rw [hin]; exact sysWrite_input]
    exact iff_of_true (safeOn_refused s id) (Or.inr (Or.inl hin))
  unfold WriteOk
  rw [or_iff_right hneg, or_iff_right hin]
  by_cases hout : id = consoleOutputID
  · rw [safeOn_iff_returns (Or.inr (Or.inl hout)), and_iff_left (Or.inl hout), hout]
    exact returns_output_iff hI
  rw [or_iff_right hout]
  have h2 : 2 ≤ id := by
    unfold consoleOutputID at hout
    unfold consoleInputID at hin
    omega
  cases hi : s.table.slotOf id with
  | none =>
    rw [sysWrite_none h2 hi, hI.slots.fdMap_of_slotOf_none hi]
    refine iff_of_false (fun h => ?_) fun h => ?_
    · obtain ⟨s', r, hc⟩ := h.1
      obtain ⟨b, -, hc⟩ := bind_eq_ok hc
      cases hc
    · obtain ⟨d, hd, -⟩ := h.2
      cases hd
  | some i =>
    have hd := hI.slots.fdMap_of_slotOf (by omega) hi
    simp only [hd, Option.some.injEq, exists_eq_left']
    by_cases hmode : (s.table.slot i).mode = readWriteFile
    · obtain ⟨f, hf, -⟩ := hI.slots.table.file i (Or.inl hmode)
      rw [safeOn_iff_returns (Or.inr (Or.inr ⟨_, f, hd, hf⟩)), returns_write_iff hI hd hmode hf]
      refine and_congr_right fun _ => ⟨fun h _ => ⟨f, hf, h⟩, fun h => ?_⟩
      obtain ⟨f', hf', h'⟩ := h hmode
      rw [show (s.table.slot i).file = some f from hf, Option.some.injEq] at hf'
      exact hf' ▸ h'
    · rw [and_iff_left fun h => absurd h hmode]
      constructor
      · exact fun h => canCopy_of_returns hI (by omega) h.1
      · intro hcopy
        obtain ⟨s', hc, hrest⟩ := refuses_write hI env hd hmode hcopy
        exact ⟨⟨s', -1, hc⟩, fun _ _ _ => ⟨s', hc, hrest⟩⟩

/-! ### SysSeek -/

/-- When `SysSeek` does as it should: always below 2; else on a file whose
length is an `int` and that the host can seek in. -/
def SeekOk (s : Io) (env : HostEnv) (pos id : ℤ) : Prop :=
  id < 2 ∨ ∃ d f, s.table.fdMap id = some d ∧ d.file = some f ∧ env.lseek 0 = true ∧
    0 ≤ wrap32 (s.files.fileOf f.file).length ∧
    (pos = -1 → env.lseek 1 = true → env.lseek 2 = true)

theorem sysSeek_safe_iff (hI : Inv s) (pos : ℤ) :
    s.SafeOn id (s.sysSeek env pos id) ↔ s.SeekOk env pos id := by
  by_cases h2 : id < 2
  · rw [sysSeek_console h2]
    exact iff_of_true (safeOn_refused s id) (Or.inl h2)
  unfold SeekOk
  rw [or_iff_right h2]
  cases hi : s.table.slotOf id with
  | none =>
    rw [sysSeek_none (not_lt.mp h2) hi, hI.slots.fdMap_of_slotOf_none hi]
    refine iff_of_false (fun h => not_returns_error _ h.1) ?_
    rintro ⟨d, f, hd, -⟩
    cases hd
  | some i =>
    have hd := hI.slots.fdMap_of_slotOf (by omega) hi
    rw [sysSeek_some (not_lt.mp h2) hi]
    simp only [hd, Option.some.injEq, exists_and_left, exists_eq_left']
    cases hf : (s.table.slot i).file with
    | none =>
      refine iff_of_false (fun h => ?_) (by simp)
      obtain ⟨x, hseek⟩ := (returns_bind_iff fun _ => returns_ok _ _).mp h.1
      unfold FileDescriptor.seek at hseek
      rw [hf] at hseek
      cases hseek
    | some f =>
      rw [safeOn_iff_returns (Or.inr (Or.inr ⟨_, f, hd, hf⟩))]
      refine (returns_bind_iff fun _ => returns_ok _ _).trans ?_
      rw [FileDescriptor.seek_returns_iff hf]
      simp

/-! ### SysClose and SysCreate -/

theorem sysClose_returns_iff (hI : Inv s) :
    Returns (s.sysClose env id) ↔ (s.table.IsOpen id → env.close = true) := by
  unfold sysClose
  cases hi : s.table.slotOf id with
  | none =>
    refine iff_of_true (returns_ok s (-1)) ?_
    rintro ⟨i, hmem, -, hid⟩
    exact absurd hid (Table.slotOf_none hi i hmem)
  | some i =>
    obtain ⟨hmem, hid⟩ := Table.slotOf_some hi
    simp only
    by_cases hfree : (s.table.slot i).id = -1
    · rw [if_neg fun h => h.1 hfree]
      refine iff_of_true ?_ ?_
      · rw [FileDescriptor.closeFile, if_pos hfree]
        exact returns_ok _ _
      · rintro ⟨j, -, hocc, hjd⟩
        have := hI.slots.ids j hocc
        omega
    · have hocc : (s.table.slot i).Occupied := fun hm => hfree ((hI.slots.table.free i).mp hm)
      have hopen : s.table.IsOpen id := ⟨i, hmem, hocc, hid⟩
      have hlive := (hI.slots.table.live i hocc).2
      by_cases hclose : env.close = true
      · rw [if_neg fun h => by rw [hclose] at h; exact absurd h.2 (by decide)]
        refine iff_of_true ?_ fun _ => hclose
        have hhost : (s.host.close (s.table.slot i).id).2 = 0 := if_pos hlive
        rw [FileDescriptor.closeFile, if_neg hfree, hhost, if_neg (by decide)]
        exact returns_ok _ _
      · rw [if_pos ⟨hfree, by simpa using hclose⟩]
        exact iff_of_false (not_returns_error _) fun h => hclose (h hopen)

/-- The name that `SysCreate` has read is empty when its first byte is zero. -/
theorem cstr_eq_nil_iff {f : ℕ → Byte} {l : List Byte} {m : ℕ}
    (htake : l.take (m + 1) = (List.range (m + 1)).map (untilZero f)) :
    FileDescriptor.cstr l = [] ↔ f 0 = 0 := by
  rw [List.range_succ_eq_map, List.map_cons, untilZero_zero] at htake
  cases l with
  | nil => cases htake
  | cons b rest =>
    rw [List.take_succ_cons, List.cons.injEq] at htake
    rw [← htake.1, FileDescriptor.cstr, List.takeWhile_cons]
    by_cases hb : b = 0
    · rw [if_neg (by simpa using hb)]
      exact iff_of_true rfl hb
    · rw [if_pos (by simpa using hb)]
      exact iff_of_false (by simp) hb

/-- A file that cannot be made is reported only when its name is empty. -/
theorem sysCreate_fails_iff (hI : Inv s) {ret : ℤ} (hret : ret < 0) (node : ℕ) :
    (∃ s', s.sysCreate env v ret node = .ok (s', -1)) ↔ v.toNat < s.user.size ∧
    s.user.byte v.toNat = 0 := by
  have hsize : SizeOk (maxFileLength + 1) := by decide
  unfold sysCreate
  by_cases hin : Within (fun k => s.user.byte (v.toNat + k)) v.toNat
    (maxFileLength + 1).toNat s.user.size
  · obtain ⟨l, u', hu, -, htake, -⟩ := user2System_ok hI.space hsize hin
    have hv : v.toNat < s.user.size := hin 0 (by decide) fun j hj => absurd hj (Nat.not_lt_zero j)
    have hname : FileDescriptor.cstr l = [] ↔ s.user.byte v.toNat = 0 :=
      cstr_eq_nil_iff (m := 32) htake
    rw [and_iff_right hv, ← hname, hu]
    simp only
    by_cases hempty : FileDescriptor.cstr l = []
    · rw [if_pos hempty]
      exact iff_of_true ⟨_, rfl⟩ hempty
    · rw [if_neg hempty, if_pos hret]
      exact iff_of_false (fun ⟨_, h⟩ => by cases h) hempty
  · rw [user2System_halt hI.space hsize hin]
    refine iff_of_false (fun ⟨_, h⟩ => by cases h) fun h => hin ?_
    exact (within_succ_of_zero (n := 32) h.2).mpr h.1

/-! ### All calls -/

/-- **Which calls are safe.** In every state that calls with any arguments reach,
for every argument and every answer of the host. -/
theorem calls_safe_iff {s : Io} (h : Reach s) :
    (∀ env v n id, s.SafeOn id (s.sysRead env v n id) ↔ s.ReadOk env v n id) ∧
    (∀ env v n id, s.SafeOn id (s.sysWrite env v n id) ↔ s.WriteOk env v n id) ∧
    (∀ env pos id, s.SafeOn id (s.sysSeek env pos id) ↔ s.SeekOk env pos id) ∧
    (∀ env id, Returns (s.sysClose env id) ↔ (s.table.IsOpen id → env.close = true)) ∧
    (∀ env v ret node, (ret < 0 → ∃ s', s.sysCreate env v ret node = .ok (s', -1)) ↔
      (ret < 0 → v.toNat < s.user.size ∧ s.user.byte v.toNat = 0)) := by
  have hI := inv_reach h
  refine ⟨fun env v n id => sysRead_safe_iff hI, fun env v n id => sysWrite_safe_iff hI,
    fun env pos id => sysSeek_safe_iff hI pos, fun env id => sysClose_returns_iff hI,
    fun env v ret node => ?_⟩
  exact imp_congr_right fun hret => sysCreate_fails_iff hI hret node

/-- A file that is open under 3 is read, written and moved in. -/
theorem calls_safe_file : ∃ s, Reach s ∧ s.SafeOn 3 (s.sysRead sampleEnv 32 3 3) ∧
    s.SafeOn 3 (s.sysWrite sampleEnv 32 3 3) ∧
    s.SafeOn 3 (s.sysSeek sampleEnv 1 3) ∧ Returns (s.sysClose sampleEnv 3) := by
  obtain ⟨s, hs, ht⟩ := reach_sample
    (fun s => s.table.fdMap 3 = some sampleEntry ∧ s.user.size = 128 ∧ s.files.fileOf 3 = [1, 0, 5])
    (by decide)
  simp only [decide_eq_true_eq] at ht
  obtain ⟨h3, hsize, hfile⟩ := ht
  obtain ⟨hread, hwrite, hseek, hclose, -⟩ := calls_safe_iff hs
  have hmapped : ∀ f : ℕ → Byte, Within f (32 : BitVec 32).toNat (3 : ℤ).toNat s.user.size := by
    intro f
    rw [hsize]
    exact Within.of_mapped (by decide)
  have hcopy : s.CanCopy 32 3 := ⟨by decide, hmapped _⟩
  refine ⟨s, hs, (hread _ _ _ _).mpr ?_, (hwrite _ _ _ _).mpr ?_, (hseek _ _ _).mpr ?_,
    (hclose _ _).mpr fun _ => rfl⟩
  · exact Or.inr (Or.inr (Or.inr ⟨_, sampleFile, h3, rfl, hcopy, rfl, by decide, hmapped _⟩))
  · exact Or.inr (Or.inr ⟨hcopy, Or.inr
      ⟨_, h3, fun _ => ⟨sampleFile, rfl, rfl, by decide, Or.inr ⟨100, rfl, by decide⟩⟩⟩⟩)
  · refine Or.inr ⟨_, sampleFile, h3, rfl, rfl, ?_, fun _ _ => rfl⟩
    rw [show s.files.fileOf sampleFile.file = [1, 0, 5] from hfile]
    decide

/-- How a call ends without returning. -/
def stop : Except SysStop (Io × ℤ) → Option SysStop
  | .error e => some e
  | .ok _ => none

theorem eq_error_of_stop {x : Except SysStop (Io × ℤ)} {e : SysStop} (h : stop x = some e) :
    x = .error e := by
  cases x with
  | error e' => exact congrArg Except.error (Option.some.inj h)
  | ok y => cases h

/-- An id that is not open is a NULL descriptor for `SysRead`, `SysWrite` and
`SysSeek`, a socket is a NULL file for `SysRead`, and a file that the host cannot
make fails an `ASSERT` in `SysCreate`. -/
theorem calls_unsafe :
    ∃ s, Reach s ∧ ¬ s.table.IsOpen 5 ∧ s.sysRead sampleEnv 32 3 5 = .error .nullDescriptor ∧
    s.sysWrite sampleEnv 32 3 5 = .error .nullDescriptor ∧
    s.sysSeek sampleEnv 0 5 = .error .nullDescriptor ∧
    s.sysRead sampleEnv 32 3 4 = .error .nullFile ∧
    s.sysCreate sampleEnv 0 (-1) 7 = .error .assert := by
  obtain ⟨s, hs, ht⟩ := reach_sample
    (fun s => (s.table.fdMap 5).isSome = false ∧
      stop (s.sysRead sampleEnv 32 3 5) = some .nullDescriptor ∧
      stop (s.sysWrite sampleEnv 32 3 5) = some .nullDescriptor ∧
      stop (s.sysSeek sampleEnv 0 5) = some .nullDescriptor ∧
      stop (s.sysRead sampleEnv 32 3 4) = some .nullFile ∧
      stop (s.sysCreate sampleEnv 0 (-1) 7) = some .assert) (by decide)
  simp only [decide_eq_true_eq] at ht
  obtain ⟨h5, hread, hwrite, hseek, hsocket, hcreate⟩ := ht
  refine ⟨s, hs, fun hopen => ?_, eq_error_of_stop hread, eq_error_of_stop hwrite,
    eq_error_of_stop hseek, eq_error_of_stop hsocket, eq_error_of_stop hcreate⟩
  rw [Table.isSome_fdMap.mpr hopen] at h5
  cases h5

end Io
end Nachos
