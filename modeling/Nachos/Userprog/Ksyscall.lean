/-
# The file system calls (`userprog/ksyscall.h`)

The calls on files and sockets as the kernel runs them: a buffer is copied in
with `User2System`, the descriptor looked up in the table, the host asked, and
the buffer copied out with `System2User`. `IsOpening` returns an index or -1,
and the test `!table.IsOpening(id)` is of that number; a lookup that fails is
NULL, and so is the file of a socket. A call returns or stops (`SysStop`).

`Io` is the state of all calls in any order, with any results of the host that
a host may give, and with the user's memory and the host's files changed in
between. Its table keeps the invariant of `FileDescriptors` although the calls
move the offsets of open files, and slots are free, files or sockets, under
descriptors from 2 on (`Io.inv_reach`).

Key definitions: `Io`, `Io.sysRead`, `Io.sysWrite`, `Io.sysSeek`, `Io.sysClose`,
`Io.sysSend`, `Io.sysOpen`, `Io.sysCreate`, `Io.step`, `Io.Inv`.
Key theorems: `Io.inv_step`, `Io.inv_reach`.
-/
import Mathlib
import Nachos.Base.Runs
import Nachos.Base.Bytes
import Nachos.Userprog.FileDescriptors
import Nachos.Userprog.UserMemory
import Nachos.Userprog.HostFiles

namespace Nachos

open Bytes (Byte)

def consoleInputID : ℤ := 0
def consoleOutputID : ℤ := 1
/-- `MaxFileLength`. -/
def maxFileLength : ℤ := 32

/-- `Table::GetFileDescriptor`: the slot, or NULL. -/
def Table.getFileDescriptor (t : Table) (id : ℤ) : Option (Fin capacity) := t.slotOf id

/-- A descriptor that `open` has returned. -/
def HostFiles.opened (h : HostFiles) (fd : ℤ) (node : ℕ) : HostFiles :=
  { h with node := Function.update h.node fd node, position := Function.update h.position fd 0 }

/-- What the calls work on. -/
structure Io where
  table : Table
  host : Host
  files : HostFiles
  user : UserMem
  /-- what was put on the console -/
  console : List Byte

namespace Io

/-- The loop of `SysRead` at the console: `n` more characters from `i` on. -/
def readConsole (getChar : ℕ → Byte) (buffer : List Byte) (i : ℕ) : ℕ → List Byte × ℕ
  | 0 => (buffer, i)
  | n + 1 =>
    -- `EOF` as a `char`, or a newline
    if getChar i = 0xff ∨ getChar i = 10 then (buffer.set i 0, i)
    else readConsole getChar (buffer.set i (getChar i)) (i + 1) n

/-- `SysRead`. -/
def sysRead (s : Io) (env : HostEnv) (virtAddr : BitVec 32) (size id : ℤ) :
    Except SysStop (Io × ℤ) :=
  if id < 0 then .ok (s, -1)
  else if id = consoleOutputID then .ok (s, -1)
  else if s.table.isOpening id = 0 then .ok (s, -1)
  else
    match user2System s.user virtAddr size with
    | .error e => .error e
    | .ok (buffer, user) =>
      if id = consoleInputID then
        let (buffer, i) := readConsole env.getChar buffer 0 size.toNat
        (system2User user virtAddr size buffer).map fun r => ({ s with user := r.1 }, (i : ℤ))
      else
        match s.table.getFileDescriptor id with
        | none => .error .nullDescriptor
        | some i =>
          match (s.table.slot i).read env s.files size with
          | .error e => .error e
          | .ok (d, files, bytes, result) =>
            (system2User user virtAddr size (bytes ++ buffer.drop bytes.length)).map fun r =>
              ({ s with table := s.table.set i d, files := files, user := r.1 }, result)

/-- `SysWrite`. -/
def sysWrite (s : Io) (env : HostEnv) (virtAddr : BitVec 32) (size id : ℤ) :
    Except SysStop (Io × ℤ) :=
  if id < 0 then .ok (s, -1)
  else if id = consoleInputID then .ok (s, -1)
  else if s.table.isOpening id = 0 then .ok (s, -1)
  else
    match user2System s.user virtAddr size with
    | .error e => .error e
    | .ok (buffer, user) =>
      if id = consoleOutputID then
        let chars := FileDescriptor.cstr (buffer.take size.toNat)
        (system2User user virtAddr size buffer).map fun r =>
          ({ s with user := r.1, console := s.console ++ chars }, (chars.length : ℤ))
      else
        match s.table.getFileDescriptor id with
        | none => .error .nullDescriptor
        | some i =>
          match (s.table.slot i).write env s.files buffer size with
          | .error e => .error e
          | .ok (d, files, result) =>
            (system2User user virtAddr size buffer).map fun r =>
              ({ s with table := s.table.set i d, files := files, user := r.1 }, result)

/-- `SysSeek`. -/
def sysSeek (s : Io) (env : HostEnv) (pos id : ℤ) : Except SysStop (Io × ℤ) :=
  if id < 0 then .ok (s, -1)
  else if id = consoleOutputID then .ok (s, -1)
  else if id = consoleInputID then .ok (s, -1)
  else if s.table.isOpening id = 0 then .ok (s, -1)
  else
    match s.table.getFileDescriptor id with
    | none => .error .nullDescriptor
    | some i =>
      ((s.table.slot i).seek env s.files pos).map fun r =>
        ({ s with table := s.table.set i r.1, files := r.2.1 }, r.2.2)

/-- `SysClose`; `Close` asserts that the host closed. -/
def sysClose (s : Io) (env : HostEnv) (id : ℤ) : Except SysStop (Io × ℤ) :=
  match s.table.slotOf id with
  | none => .ok (s, -1)
  | some i =>
    if (s.table.slot i).id ≠ -1 ∧ env.close = false then .error .assert
    else
      match (s.table.slot i).closeFile s.host with
      | none => .error .assert
      | some (d, h, r) =>
        .ok ({ s with table := s.table.set i d, host := h }, if r = -1 then -1 else 0)

/-- `SysOpen`; `ret` is what `open` returns, on the file `node`. -/
def sysOpen (s : Io) (virtAddr : BitVec 32) (type ret : ℤ) (node : ℕ) : Except SysStop (Io × ℤ) :=
  if type ≠ 0 ∧ type ≠ 1 then .ok (s, -1)
  else
    match user2System s.user virtAddr maxFileLength with
    | .error e => .error e
    | .ok (filename, user) =>
      if FileDescriptor.cstr filename = [] then .ok ({ s with user := user }, -1)
      else
        let (t, h, r) := s.table.open_ s.host (FileDescriptor.cstr filename) type ret
        let files := if r = -1 then s.files else s.files.opened r node
        .ok ({ s with table := t, host := h, files := files, user := user }, r)

/-- `SysSocketTCP`. -/
def sysSocketTCP (s : Io) (ret : ℤ) : Except SysStop (Io × ℤ) :=
  let (t, h, r) := s.table.socketTCP s.host ret
  .ok ({ s with table := t, host := h }, r)

/-- `SysCloseSocket`. -/
def sysCloseSocket (s : Io) (socketid : ℤ) : Except SysStop (Io × ℤ) :=
  let (t, h, r) := s.table.closeSocket s.host socketid
  .ok ({ s with table := t, host := h }, r)

/-- `SysSend`. -/
def sysSend (s : Io) (env : HostEnv) (socketid : ℤ) (virtAddr : BitVec 32) (length : ℤ) :
    Except SysStop (Io × ℤ) :=
  match user2System s.user virtAddr length with
  | .error e => .error e
  | .ok (buffer, user) =>
    match s.table.slotOf socketid with
    | none => .ok ({ s with user := user }, -1)
    | some _ =>
      let (files, r) := FileDescriptor.send env s.files socketid buffer length
      .ok ({ s with files := files, user := user }, r)

/-- `SysCreate`: `OpenForWrite` asserts that `open` has returned a descriptor,
`ret`, on the file `node`, which is then empty. -/
def sysCreate (s : Io) (env : HostEnv) (virtAddr : BitVec 32) (ret : ℤ) (node : ℕ) :
    Except SysStop (Io × ℤ) :=
  match user2System s.user virtAddr (maxFileLength + 1) with
  | .error e => .error e
  | .ok (filename, user) =>
    if FileDescriptor.cstr filename = [] then .ok ({ s with user := user }, -1)
    else if ret < 0 then .error .assert
    else if env.close = false then .error .assert
    else
      let files := { s.files with content := Function.update s.files.content node [] }
      .ok ({ s with host := ((s.host.opened ret).close ret).1, files := files, user := user }, 0)

/-! ### Runs -/

inductive Label
  | create (env : HostEnv) (virtAddr : BitVec 32) (ret : ℤ) (node : ℕ)
  | open_ (virtAddr : BitVec 32) (type ret : ℤ) (node : ℕ)
  | socketTCP (ret : ℤ)
  | close (env : HostEnv) (id : ℤ)
  | closeSocket (socketid : ℤ)
  | read (env : HostEnv) (virtAddr : BitVec 32) (size id : ℤ)
  | write (env : HostEnv) (virtAddr : BitVec 32) (size id : ℤ)
  | seek (env : HostEnv) (pos : BitVec 32) (id : ℤ)
  | send (env : HostEnv) (socketid : ℤ) (virtAddr : BitVec 32) (length : ℤ)
  /-- what user programs and other processes of the host do -/
  | world (user : UserMem) (files : HostFiles)

def call (s : Io) : Label → Except SysStop (Io × ℤ)
  | .create env virtAddr ret node => s.sysCreate env virtAddr ret node
  | .open_ virtAddr type ret node => s.sysOpen virtAddr type ret node
  | .socketTCP ret => s.sysSocketTCP ret
  | .close env id => s.sysClose env id
  | .closeSocket id => s.sysCloseSocket id
  | .read env virtAddr size id => s.sysRead env virtAddr size id
  | .write env virtAddr size id => s.sysWrite env virtAddr size id
  | .seek env pos id => s.sysSeek env pos.toInt id
  | .send env socketid virtAddr length => s.sysSend env socketid virtAddr length
  | .world user files => .ok ({ s with user := user, files := files }, 0)

/-- A call that returns. -/
def step (s : Io) (l : Label) : Option Io :=
  match s.call l with
  | .ok (s', _) => some s'
  | .error _ => none

/-- A new table, in a process whose standard input and output are open. -/
def initial (s : Io) : Prop :=
  s.table = Table.new ∧ s.host.closes = [] ∧ 0 ∈ s.host.openFds ∧ 1 ∈ s.host.openFds ∧
    UserSpace s.user.pageTable

/-- The host never returns a descriptor that is open, and a program runs in an
address space. -/
def Fair (s : Io) : Label → Prop
  | .create _ _ ret _ => s.host.Result ret
  | .open_ _ _ ret _ => s.host.Result ret
  | .socketTCP ret => s.host.Result ret
  | .world user _ => UserSpace user.pageTable
  | _ => True

instance (s : Io) : (l : Label) → Decidable (Fair s l)
  | .create _ _ ret _ => inferInstanceAs (Decidable (s.host.Result ret))
  | .open_ _ _ ret _ => inferInstanceAs (Decidable (s.host.Result ret))
  | .socketTCP ret => inferInstanceAs (Decidable (s.host.Result ret))
  | .close _ _ => inferInstanceAs (Decidable True)
  | .closeSocket _ => inferInstanceAs (Decidable True)
  | .read _ _ _ _ => inferInstanceAs (Decidable True)
  | .write _ _ _ _ => inferInstanceAs (Decidable True)
  | .seek _ _ _ => inferInstanceAs (Decidable True)
  | .send _ _ _ _ => inferInstanceAs (Decidable True)
  | .world user _ => inferInstanceAs (Decidable (UserSpace user.pageTable))

abbrev Reach : Io → Prop := Runs.Reach step initial Fair

end Io

/-! ### The slots -/

/-- What a slot may hold: nothing, a file at some offset, or a socket. -/
def FileDescriptor.Kind (d : FileDescriptor) : Prop :=
  d.mode = -1 ∨ ((d.mode = readWriteFile ∨ d.mode = readFile) ∧ ∃ f, d.file = some f ∧
    IntRange f.currentOffset) ∨
    d.mode = socketMode ∧ d.file = none

/-- What the calls keep of the table and the host. -/
structure Slots (t : Table) (h : Host) : Prop where
  table : TableSys.Inv ⟨t, h⟩
  kinds : ∀ i, (t.slot i).Kind
  ids : ∀ i, (t.slot i).Occupied → 2 ≤ (t.slot i).id
  std : 0 ∈ h.openFds ∧ 1 ∈ h.openFds

namespace Slots

variable {t : Table} {h h' : Host} {i : Fin capacity} {d : FileDescriptor} {ret id : ℤ}

theorem set_slot (hS : Slots t h) (hT : TableSys.Inv ⟨t.set i d, h'⟩) (hkind : d.Kind)
    (hid : d.Occupied → 2 ≤ d.id) (hstd : 0 ∈ h'.openFds ∧ 1 ∈ h'.openFds) :
    Slots (t.set i d) h' := by
  refine ⟨hT, fun j => ?_, fun j => ?_, hstd⟩
  · by_cases hj : j = i
    · rw [hj, Table.slot_set_self]
      exact hkind
    · rw [Table.slot_set_of_ne hj]
      exact hS.kinds j
  · by_cases hj : j = i
    · rw [hj, Table.slot_set_self]
      exact hid
    · rw [Table.slot_set_of_ne hj]
      exact hS.ids j

/-- A descriptor that the host returns is not one of the console's. -/
theorem two_le (hS : Slots t h) (h0 : 0 ≤ ret) (hnew : ret ∉ h.openFds) : 2 ≤ ret := by
  have h1 : ret ≠ 0 := fun he => hnew (he ▸ hS.std.1)
  have h2 : ret ≠ 1 := fun he => hnew (he ▸ hS.std.2)
  omega

theorem std_opened (hS : Slots t h) (ret : ℤ) :
    0 ∈ (h.opened ret).openFds ∧ 1 ∈ (h.opened ret).openFds := by
  unfold Host.opened
  split_ifs
  · exact hS.std
  · exact ⟨Finset.mem_insert_of_mem hS.std.1, Finset.mem_insert_of_mem hS.std.2⟩

theorem std_close (hS : Slots t h) (hid : 2 ≤ id) :
    0 ∈ (h.close id).1.openFds ∧ 1 ∈ (h.close id).1.openFds :=
  ⟨Finset.mem_erase.mpr ⟨by omega, hS.std.1⟩, Finset.mem_erase.mpr ⟨by omega, hS.std.2⟩⟩

/-- The file of a slot has moved. -/
theorem moved (hS : Slots t h) (hd : (t.slot i).Moves d) : Slots (t.set i d) h := by
  rcases hd with rfl | ⟨f, off, hf, hoff, rfl⟩
  · rwa [show t.set i (t.slot i) = t by simp [Table.set]]
  · refine hS.set_slot (TableSys.inv_moved (s := ⟨t, h⟩) hS.table hf rfl) ?_ (hS.ids i) hS.std
    rcases hS.kinds i with hfree | ⟨hfile, -⟩ | ⟨-, hnone⟩
    · exact Or.inl hfree
    · exact Or.inr (Or.inl ⟨hfile, _, rfl, hoff⟩)
    · rw [hf] at hnone
      cases hnone

theorem open_ (hS : Slots t h) (name : List Byte) (type : ℤ) (hr : h.Result ret) :
    Slots (t.open_ h name type ret).1 (t.open_ h name type ret).2.1 := by
  obtain ⟨s', r, hc, hT, -⟩ := TableSys.open_spec hS.table name type hr
  cases hc
  cases hf : t.findFreeSlot with
  | none => simpa only [Table.open_, hf] using hS
  | some i =>
    have hm := (Table.findFreeSlot_some hf).2
    simp only [Table.open_, hf] at hT ⊢
    refine hS.set_slot hT ?_ ?_ (hS.std_opened ret)
    · rcases hr with rfl | ⟨h0, hnew⟩
      · exact Or.inl hm
      · rw [show (t.slot i).openFile name type ret = (TableSys.fileEntry name type ret, ret) by
          simp [FileDescriptor.openFile, fileSystemOpen, TableSys.fileEntry, OpenFile.fileID,
            show ret ≠ -1 by omega]]
        refine Or.inr (Or.inl ⟨?_, _, rfl, intRange_zero⟩)
        by_cases ht : type = 0
        · exact Or.inl (if_pos ht)
        · exact Or.inr (if_neg ht)
    · rcases hr with rfl | ⟨h0, hnew⟩
      · exact fun hocc => absurd hm hocc
      · have h2 := hS.two_le h0 hnew
        simp [FileDescriptor.openFile, fileSystemOpen, OpenFile.fileID, show ret ≠ -1 by omega, h2]

theorem socketTCP (hS : Slots t h) (hr : h.Result ret) :
    Slots (t.socketTCP h ret).1 (t.socketTCP h ret).2.1 := by
  obtain ⟨s', r, hc, hT, -⟩ := TableSys.socketTCP_spec hS.table hr
  cases hc
  cases hf : t.findFreeSlot with
  | none => simpa only [Table.socketTCP, hf] using hS
  | some i =>
    have hm := (Table.findFreeSlot_some hf).2
    simp only [Table.socketTCP, hf] at hT ⊢
    refine hS.set_slot hT ?_ ?_ (hS.std_opened ret)
    · rcases hr with rfl | ⟨h0, hnew⟩
      · exact Or.inl hm
      · rw [FileDescriptor.socketTCP, if_neg (by omega)]
        exact Or.inr (Or.inr ⟨rfl, rfl⟩)
    · rcases hr with rfl | ⟨h0, hnew⟩
      · exact fun hocc => absurd hm hocc
      · rw [FileDescriptor.socketTCP, if_neg (by omega)]
        exact fun _ => hS.two_le h0 hnew

/-- A slot that was closed, and the host's descriptor with it. -/
theorem closed (hS : Slots t h) (hf : t.slotOf id = some i) (hid : (t.slot i).id ≠ -1)
    (hd : d.mode = -1) (hd' : d.id = -1) :
    Slots (t.set i d) (h.close (t.slot i).id).1 := by
  have hocc : (t.slot i).Occupied := fun hm => hid ((hS.table.free i).mp hm)
  have hfile : d.mode ≠ readWriteFile ∧ d.mode ≠ readFile := by
    rw [hd]
    decide
  have hT := (TableSys.removes_ok (s := ⟨t, h⟩) hS.table hf hid hd hd' hfile).1
  rw [← (Table.slotOf_some hf).2] at hT
  exact hS.set_slot hT (Or.inl hd) (fun hocc => absurd hd hocc) (hS.std_close (hS.ids i hocc))

theorem closeFile (hS : Slots t h) (hf : t.slotOf id = some i) {r : ℤ}
    (hc : (t.slot i).closeFile h = some (d, h', r)) :
    Slots (t.set i d) h' := by
  unfold FileDescriptor.closeFile at hc
  split_ifs at hc with hid hclose
  · cases hc
    exact hS.moved (Or.inl rfl)
  · cases hc
    exact hS.closed hf hid rfl rfl

theorem closeSocket (hS : Slots t h) (id : ℤ) :
    Slots (t.closeSocket h id).1 (t.closeSocket h id).2.1 := by
  cases hf : t.slotOf id with
  | none => simpa only [Table.closeSocket, hf] using hS
  | some i =>
    simp only [Table.closeSocket, hf, FileDescriptor.closeSocket]
    split_ifs with hid
    · exact hS.moved (Or.inl rfl)
    · exact hS.closed hf hid rfl rfl

/-- A descriptor that is opened and closed at once. -/
theorem created (hS : Slots t h) (h0 : 0 ≤ ret) (hr : h.Result ret) :
    Slots t ((h.opened ret).close ret).1 := by
  have hnew : ret ∉ h.openFds := by
    rcases hr with rfl | ⟨-, hnew⟩
    · omega
    · exact hnew
  have hfds : ((h.opened ret).close ret).1.openFds = h.openFds := by
    rw [TableSys.opened_of_nonneg h0]
    exact Finset.erase_insert hnew
  refine ⟨⟨hS.table.free, hS.table.distinct, hS.table.file, fun i hocc => ?_⟩, hS.kinds, hS.ids, ?_⟩
  · rw [show (TableSys.mk t ((h.opened ret).close ret).1).host.openFds = h.openFds from hfds]
    exact hS.table.live i hocc
  · rw [hfds]
    exact hS.std

end Slots

namespace Io

/-- The invariant of the calls. -/
structure Inv (s : Io) : Prop where
  slots : Slots s.table s.host
  space : UserSpace s.user.pageTable

variable {s s' : Io} {r : ℤ} {env : HostEnv} {virtAddr : BitVec 32} {size id : ℤ}

theorem inv_initial (h : initial s) : Inv s := by
  obtain ⟨ht, hcloses, h0, h1, hspace⟩ := h
  refine ⟨⟨TableSys.inv_initial ⟨ht, hcloses⟩, fun i => ?_, fun i hocc => ?_, h0, h1⟩, hspace⟩
  · rw [ht]
    exact Or.inl rfl
  · rw [ht] at hocc
    exact absurd rfl hocc

/-- What reading, writing and seeking leave: the host's descriptors, the slots
but for the offset of one file, and the pages. -/
structure Keeps (s s' : Io) : Prop where
  host : s'.host = s.host
  table : s'.table = s.table ∨ ∃ i d, (s.table.slot i).Moves d ∧ s'.table = s.table.set i d
  pages : s'.user.pageTable.map TranslationEntry.core = s.user.pageTable.map TranslationEntry.core

theorem Keeps.refl (s : Io) : Keeps s s := ⟨rfl, Or.inl rfl, rfl⟩

theorem Inv.of_keeps (hI : Inv s) (hk : Keeps s s') : Inv s' := by
  refine ⟨?_, hI.space.congr hk.pages⟩
  rw [hk.host]
  rcases hk.table with ht | ⟨i, d, hd, ht⟩
  · exact ht ▸ hI.slots
  · exact ht ▸ hI.slots.moved hd

/-! ### The calls, one kind of descriptor at a time -/

theorem usable_ne_zero : ∀ i ∈ usable, (i : ℕ) ≠ 0 := by decide

/-- The test `!table.IsOpening(id)` never succeeds. -/
theorem isOpening_ne_zero (t : Table) (id : ℤ) : t.isOpening id ≠ 0 := by
  unfold Table.isOpening
  cases hf : t.slotOf id with
  | none => decide
  | some i =>
    have hi := usable_ne_zero i (Table.slotOf_some hf).1
    simpa using hi

theorem sysRead_neg (h : id < 0) : s.sysRead env virtAddr size id = .ok (s, -1) := if_pos h

theorem sysRead_output : s.sysRead env virtAddr size 1 = .ok (s, -1) := rfl

theorem sysRead_input : s.sysRead env virtAddr size 0 = (do
    let (buffer, user) ← user2System s.user virtAddr size
    let (u', _) ← system2User user virtAddr size (readConsole env.getChar buffer 0 size.toNat).1
    pure ({ s with user := u' }, ((readConsole env.getChar buffer 0 size.toNat).2 : ℤ))) := by
  unfold sysRead
  rw [if_neg (by decide), if_neg (by decide), if_neg (isOpening_ne_zero _ _)]
  cases user2System s.user virtAddr size with
  | error e => rfl
  | ok b => exact if_pos rfl

theorem sysRead_none (h2 : 2 ≤ id) (hi : s.table.slotOf id = none) :
    s.sysRead env virtAddr size id = user2System s.user virtAddr size >>= fun _ =>
    .error .nullDescriptor := by
  unfold sysRead consoleOutputID consoleInputID Table.getFileDescriptor
  rw [if_neg (by omega), if_neg (by omega), if_neg (isOpening_ne_zero _ _), hi]
  cases user2System s.user virtAddr size with
  | error e => rfl
  | ok b => exact if_neg (by omega)

theorem sysRead_some {i : Fin capacity} (h2 : 2 ≤ id) (hi : s.table.slotOf id = some i) :
    s.sysRead env virtAddr size id = (do
      let (buffer, user) ← user2System s.user virtAddr size
      let (d, files, bytes, result) ← (s.table.slot i).read env s.files size
      let (u', _) ← system2User user virtAddr size (bytes ++ buffer.drop bytes.length)
      pure ({ s with table := s.table.set i d, files := files, user := u' }, result)) := by
  unfold sysRead consoleOutputID consoleInputID Table.getFileDescriptor
  rw [if_neg (by omega), if_neg (by omega), if_neg (isOpening_ne_zero _ _), hi]
  cases user2System s.user virtAddr size with
  | error e => rfl
  | ok b =>
    simp only
    rw [if_neg (by omega)]
    cases (s.table.slot i).read env s.files size with
    | error e => rfl
    | ok x => rfl

theorem sysWrite_neg (h : id < 0) : s.sysWrite env virtAddr size id = .ok (s, -1) := if_pos h

theorem sysWrite_input : s.sysWrite env virtAddr size 0 = .ok (s, -1) := rfl

theorem sysWrite_output : s.sysWrite env virtAddr size 1 = (do
    let (buffer, user) ← user2System s.user virtAddr size
    let (u', _) ← system2User user virtAddr size buffer
    pure
      ({ s with user := u', console := s.console ++ FileDescriptor.cstr (buffer.take size.toNat) },
        ((FileDescriptor.cstr (buffer.take size.toNat)).length : ℤ))) := by
  unfold sysWrite
  rw [if_neg (by decide), if_neg (by decide), if_neg (isOpening_ne_zero _ _)]
  cases user2System s.user virtAddr size with
  | error e => rfl
  | ok b => exact if_pos rfl

theorem sysWrite_none (h2 : 2 ≤ id) (hi : s.table.slotOf id = none) :
    s.sysWrite env virtAddr size id = user2System s.user virtAddr size >>= fun _ =>
    .error .nullDescriptor := by
  unfold sysWrite consoleOutputID consoleInputID Table.getFileDescriptor
  rw [if_neg (by omega), if_neg (by omega), if_neg (isOpening_ne_zero _ _), hi]
  cases user2System s.user virtAddr size with
  | error e => rfl
  | ok b => exact if_neg (by omega)

theorem sysWrite_some {i : Fin capacity} (h2 : 2 ≤ id) (hi : s.table.slotOf id = some i) :
    s.sysWrite env virtAddr size id = (do
      let (buffer, user) ← user2System s.user virtAddr size
      let (d, files, result) ← (s.table.slot i).write env s.files buffer size
      let (u', _) ← system2User user virtAddr size buffer
      pure ({ s with table := s.table.set i d, files := files, user := u' }, result)) := by
  unfold sysWrite consoleOutputID consoleInputID Table.getFileDescriptor
  rw [if_neg (by omega), if_neg (by omega), if_neg (isOpening_ne_zero _ _), hi]
  cases user2System s.user virtAddr size with
  | error e => rfl
  | ok b =>
    simp only
    rw [if_neg (by omega)]
    simp only [bind, Except.bind]
    cases (s.table.slot i).write env s.files b.1 size with
    | error e => rfl
    | ok x => rfl

theorem sysSeek_console {pos : ℤ} (h : id < 2) : s.sysSeek env pos id = .ok (s, -1) := by
  unfold sysSeek consoleOutputID consoleInputID
  split_ifs
  · rfl
  · rfl
  · rfl
  · rfl
  · omega

theorem sysSeek_none {pos : ℤ} (h2 : 2 ≤ id) (hi : s.table.slotOf id = none) :
    s.sysSeek env pos id = .error .nullDescriptor := by
  unfold sysSeek consoleOutputID consoleInputID Table.getFileDescriptor
  rw [if_neg (by omega), if_neg (by omega), if_neg (by omega), if_neg (isOpening_ne_zero _ _), hi]

theorem sysSeek_some {pos : ℤ} {i : Fin capacity} (h2 : 2 ≤ id) (hi : s.table.slotOf id = some i) :
    s.sysSeek env pos id = (do
      let (d, files, result) ← (s.table.slot i).seek env s.files pos
      pure ({ s with table := s.table.set i d, files := files }, result)) := by
  unfold sysSeek consoleOutputID consoleInputID Table.getFileDescriptor
  rw [if_neg (by omega), if_neg (by omega), if_neg (by omega), if_neg (isOpening_ne_zero _ _), hi]
  simp only
  cases (s.table.slot i).seek env s.files pos with
  | error e => rfl
  | ok x => rfl

/-- The kinds of descriptor that the calls tell apart. -/
theorem id_cases (t : Table) (id : ℤ) :
    id < 0 ∨ id = 0 ∨ id = 1 ∨ (2 ≤ id ∧ t.slotOf id = none) ∨ ∃ i, 2 ≤ id ∧
    t.slotOf id = some i := by
  by_cases h2 : 2 ≤ id
  · cases hf : t.slotOf id with
    | none => exact Or.inr (Or.inr (Or.inr (Or.inl ⟨h2, rfl⟩)))
    | some i => exact Or.inr (Or.inr (Or.inr (Or.inr ⟨i, h2, rfl⟩)))
  · omega

theorem keeps_sysRead (hI : Inv s) (hc : s.sysRead env virtAddr size id = .ok (s', r)) :
    Keeps s s' := by
  obtain h | rfl | rfl | ⟨h2, hi⟩ | ⟨i, h2, hi⟩ := id_cases s.table id
  · rw [sysRead_neg h] at hc
    cases hc
    exact .refl s
  · rw [sysRead_input] at hc
    obtain ⟨⟨buffer, user⟩, hu, hc⟩ := bind_eq_ok hc
    obtain ⟨⟨u', m⟩, hout, hc⟩ := bind_eq_ok hc
    cases hc
    exact ⟨rfl, Or.inl rfl, core_of_copies hI.space hu hout⟩
  · cases hc
    exact .refl s
  · rw [sysRead_none h2 hi] at hc
    obtain ⟨b, -, hc⟩ := bind_eq_ok hc
    cases hc
  · rw [sysRead_some h2 hi] at hc
    obtain ⟨⟨buffer, user⟩, hu, hc⟩ := bind_eq_ok hc
    obtain ⟨⟨d, files, bytes, result⟩, hread, hc⟩ := bind_eq_ok hc
    obtain ⟨⟨u', m⟩, hout, hc⟩ := bind_eq_ok hc
    cases hc
    exact ⟨rfl, Or.inr ⟨i, d, FileDescriptor.read_moves hread, rfl⟩,
      core_of_copies hI.space hu hout⟩

theorem keeps_sysWrite (hI : Inv s) (hc : s.sysWrite env virtAddr size id = .ok (s', r)) :
    Keeps s s' := by
  obtain h | rfl | rfl | ⟨h2, hi⟩ | ⟨i, h2, hi⟩ := id_cases s.table id
  · rw [sysWrite_neg h] at hc
    cases hc
    exact .refl s
  · cases hc
    exact .refl s
  · rw [sysWrite_output] at hc
    obtain ⟨⟨buffer, user⟩, hu, hc⟩ := bind_eq_ok hc
    obtain ⟨⟨u', m⟩, hout, hc⟩ := bind_eq_ok hc
    cases hc
    exact ⟨rfl, Or.inl rfl, core_of_copies hI.space hu hout⟩
  · rw [sysWrite_none h2 hi] at hc
    obtain ⟨b, -, hc⟩ := bind_eq_ok hc
    cases hc
  · rw [sysWrite_some h2 hi] at hc
    obtain ⟨⟨buffer, user⟩, hu, hc⟩ := bind_eq_ok hc
    obtain ⟨⟨d, files, result⟩, hwrite, hc⟩ := bind_eq_ok hc
    obtain ⟨⟨u', m⟩, hout, hc⟩ := bind_eq_ok hc
    cases hc
    exact ⟨rfl, Or.inr ⟨i, d, FileDescriptor.write_moves hwrite, rfl⟩,
      core_of_copies hI.space hu hout⟩

theorem keeps_sysSeek {pos : ℤ} (hpos : IntRange pos) (hc : s.sysSeek env pos id = .ok (s', r)) :
    Keeps s s' := by
  by_cases h2 : 2 ≤ id
  · cases hi : s.table.slotOf id with
    | none =>
      rw [sysSeek_none h2 hi] at hc
      cases hc
    | some i =>
      rw [sysSeek_some h2 hi] at hc
      obtain ⟨⟨d, files, result⟩, hseek, hc⟩ := bind_eq_ok hc
      cases hc
      exact ⟨rfl, Or.inr ⟨i, d, FileDescriptor.seek_moves hpos hseek, rfl⟩, rfl⟩
  · rw [sysSeek_console (by omega)] at hc
    cases hc
    exact .refl s

theorem keeps_sysSend (hI : Inv s) {length : ℤ}
    (hc : s.sysSend env id virtAddr length = .ok (s', r)) : Keeps s s' := by
  unfold sysSend at hc
  cases hu : user2System s.user virtAddr length with
  | error e =>
    rw [hu] at hc
    cases hc
  | ok b =>
    have hcore := core_of_user2System hI.space
      (show user2System s.user virtAddr length = .ok (b.1, b.2) from hu)
    rw [hu] at hc
    cases hi : s.table.slotOf id with
    | none =>
      rw [hi] at hc
      cases hc
      exact ⟨rfl, Or.inl rfl, hcore⟩
    | some i =>
      rw [hi] at hc
      cases hc
      exact ⟨rfl, Or.inl rfl, hcore⟩

/-! ### Whole runs -/

theorem inv_sysOpen (hI : Inv s) {type ret : ℤ} {node : ℕ} (hr : s.host.Result ret)
    (hc : s.sysOpen virtAddr type ret node = .ok (s', r)) : Inv s' := by
  unfold sysOpen at hc
  by_cases htype : type ≠ 0 ∧ type ≠ 1
  · rw [if_pos htype] at hc
    cases hc
    exact hI
  rw [if_neg htype] at hc
  cases hu : user2System s.user virtAddr maxFileLength with
  | error e =>
    rw [hu] at hc
    cases hc
  | ok b =>
    obtain ⟨filename, user⟩ := b
    have hspace := hI.space.congr (core_of_user2System hI.space hu)
    rw [hu] at hc
    simp only at hc
    by_cases hname : FileDescriptor.cstr filename = []
    · rw [if_pos hname] at hc
      cases hc
      exact ⟨hI.slots, hspace⟩
    · rw [if_neg hname] at hc
      cases hc
      exact ⟨hI.slots.open_ _ type hr, hspace⟩

theorem inv_sysCreate (hI : Inv s) {ret : ℤ} {node : ℕ} (hr : s.host.Result ret)
    (hc : s.sysCreate env virtAddr ret node = .ok (s', r)) : Inv s' := by
  unfold sysCreate at hc
  cases hu : user2System s.user virtAddr (maxFileLength + 1) with
  | error e =>
    rw [hu] at hc
    cases hc
  | ok b =>
    obtain ⟨filename, user⟩ := b
    have hspace := hI.space.congr (core_of_user2System hI.space hu)
    rw [hu] at hc
    simp only at hc
    split_ifs at hc with hname hret hclose
    · cases hc
      exact ⟨hI.slots, hspace⟩
    · cases hc
      exact ⟨hI.slots.created (not_lt.mp hret) hr, hspace⟩

theorem inv_sysClose (hI : Inv s) (hc : s.sysClose env id = .ok (s', r)) : Inv s' := by
  unfold sysClose at hc
  cases hi : s.table.slotOf id with
  | none =>
    rw [hi] at hc
    cases hc
    exact hI
  | some i =>
    rw [hi] at hc
    simp only at hc
    split_ifs at hc
    cases hclose : (s.table.slot i).closeFile s.host with
    | none =>
      rw [hclose] at hc
      cases hc
    | some x =>
      rw [hclose] at hc
      cases hc
      exact ⟨hI.slots.closeFile hi (show _ = some (x.1, x.2.1, x.2.2) from hclose), hI.space⟩

/-- A step is a call that has returned. -/
theorem call_of_step {l : Label} (hs : s.step l = some s') : ∃ r, s.call l = .ok (s', r) := by
  unfold step at hs
  cases hc : s.call l with
  | error e =>
    rw [hc] at hs
    cases hs
  | ok x =>
    rw [hc] at hs
    cases hs
    exact ⟨_, rfl⟩

/-- **One call.** -/
theorem inv_step (hI : Inv s) (l : Label) (hl : Fair s l) (hs : s.step l = some s') : Inv s' := by
  obtain ⟨r, hc⟩ := call_of_step hs
  cases l with
  | create env virtAddr ret node => exact inv_sysCreate hI hl hc
  | open_ virtAddr type ret node => exact inv_sysOpen hI hl hc
  | socketTCP ret =>
    cases hc
    exact ⟨hI.slots.socketTCP hl, hI.space⟩
  | close env id => exact inv_sysClose hI hc
  | closeSocket id =>
    cases hc
    exact ⟨hI.slots.closeSocket id, hI.space⟩
  | read env virtAddr size id => exact hI.of_keeps (keeps_sysRead hI hc)
  | write env virtAddr size id => exact hI.of_keeps (keeps_sysWrite hI hc)
  | seek env pos id => exact hI.of_keeps (keeps_sysSeek ⟨BitVec.le_toInt pos, BitVec.toInt_lt⟩ hc)
  | send env socketid virtAddr length => exact hI.of_keeps (keeps_sysSend hI hc)
  | world user files =>
    cases hc
    exact ⟨hI.slots, hl⟩

/-- **Every run** keeps the invariant. -/
theorem inv_reach (h : Reach s) : Inv s :=
  h.inv Inv (fun _ h0 => inv_initial h0) fun _ l _ _ hI hl hs => inv_step hI l hl hs

/-! ### What holds of every slot -/

/-- `P` holds of the descriptors that are opened and closed. -/
structure SlotRule (P : FileDescriptor → Prop) : Prop where
  opened : ∀ d name type ret, d.mode = -1 → P d → P (d.openFile name type ret).1
  socket : ∀ d ret, d.mode = -1 → P d → P (d.socketTCP ret).1
  closed : P ⟨-1, -1, none, none⟩
  released : ∀ d, P d → P { d with mode := -1, id := -1 }

/-- The calls that move the offset of a file. -/
def Label.moves : Label → Bool
  | .read _ _ _ _ => true
  | .write _ _ _ _ => true
  | .seek _ _ _ => true
  | _ => false

variable {P : FileDescriptor → Prop}

theorem slots_set {t : Table} {i : Fin capacity} {d : FileDescriptor} (h : ∀ j, P (t.slot j))
    (hd : P d) (j : Fin capacity) :
    P ((t.set i d).slot j) := by
  by_cases hj : j = i
  · rw [hj, Table.slot_set_self]
    exact hd
  · rw [Table.slot_set_of_ne hj]
    exact h j

/-- The other calls keep what holds of the slots. -/
theorem SlotRule.step (hP : SlotRule P) {l : Label} (hs : s.step l = some s') (hl : l.moves = false)
    (h : ∀ i, P (s.table.slot i)) :
    ∀ i, P (s'.table.slot i) := by
  obtain ⟨r, hc⟩ := call_of_step hs
  cases l with
  | create env virtAddr ret node =>
    rw [call, sysCreate] at hc
    split at hc
    · cases hc
    · split_ifs at hc
      · cases hc
        exact h
      · cases hc
        exact h
  | open_ virtAddr type ret node =>
    rw [call, sysOpen] at hc
    split_ifs at hc
    · cases hc
      exact h
    · split at hc
      · cases hc
      · split_ifs at hc
        · cases hc
          exact h
        · cases hc
          simp only
          cases hf : s.table.findFreeSlot with
          | none => exact h
          | some i => exact slots_set h (hP.opened _ _ _ _ (Table.findFreeSlot_some hf).2 (h i))
  | socketTCP ret =>
    cases hc
    cases hf : s.table.findFreeSlot with
    | none => exact h
    | some i => exact slots_set h (hP.socket _ _ (Table.findFreeSlot_some hf).2 (h i))
  | close env id =>
    rw [call, sysClose] at hc
    cases hi : s.table.slotOf id with
    | none =>
      rw [hi] at hc
      cases hc
      exact h
    | some i =>
      simp only [hi, FileDescriptor.closeFile] at hc
      split_ifs at hc
      · cases hc
        exact slots_set h (h i)
      · cases hc
        exact slots_set h hP.closed
  | closeSocket id =>
    cases hc
    cases hi : s.table.slotOf id with
    | none => exact h
    | some i =>
      refine slots_set h ?_
      unfold FileDescriptor.closeSocket
      split_ifs
      · exact h i
      · exact hP.released _ (h i)
  | read env virtAddr size id => cases hl
  | write env virtAddr size id => cases hl
  | seek env pos id => cases hl
  | send env socketid virtAddr length =>
    rw [call, sysSend] at hc
    split at hc
    · cases hc
    · split at hc
      · cases hc
        exact h
      · cases hc
        exact h
  | world user files =>
    cases hc
    exact h

/-- What moving a file keeps too, holds of every slot in every run. -/
theorem SlotRule.reach (hP : SlotRule P) (hmoves : ∀ d d', P d → d.Moves d' → P d') (h : Reach s) :
    ∀ i, P (s.table.slot i) := by
  have hall : Inv s ∧ ∀ i, P (s.table.slot i) := by
    refine h.inv (fun s => Inv s ∧ ∀ i, P (s.table.slot i))
      (fun s h0 => ⟨inv_initial h0, fun i => ?_⟩) fun s l s' _ hIH hl hs => ?_
    · rw [h0.1]
      exact hP.closed
    · obtain ⟨hI, hslots⟩ := hIH
      refine ⟨inv_step hI l hl hs, ?_⟩
      have hkeeps : Keeps s s' → ∀ i, P (s'.table.slot i) := by
        intro hk
        rcases hk.table with ht | ⟨i, d, hd, ht⟩
        · exact ht ▸ hslots
        · exact ht ▸ slots_set hslots (hmoves _ _ (hslots i) hd)
      obtain ⟨r, hc⟩ := call_of_step hs
      cases l with
      | read env virtAddr size id => exact hkeeps (keeps_sysRead hI hc)
      | write env virtAddr size id => exact hkeeps (keeps_sysWrite hI hc)
      | seek env pos id => exact hkeeps (keeps_sysSeek ⟨BitVec.le_toInt pos, BitVec.toInt_lt⟩ hc)
      | create env virtAddr ret node => exact hP.step hs rfl hslots
      | open_ virtAddr type ret node => exact hP.step hs rfl hslots
      | socketTCP ret => exact hP.step hs rfl hslots
      | close env id => exact hP.step hs rfl hslots
      | closeSocket id => exact hP.step hs rfl hslots
      | send env socketid virtAddr length => exact hP.step hs rfl hslots
      | world user files => exact hP.step hs rfl hslots
  exact hall.2

end Io
end Nachos
