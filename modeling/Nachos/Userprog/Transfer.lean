/-
# What reading and writing move (`userprog/ksyscall.h`)

`SysWrite`, `SysSend` and `SysRead` move bytes between a user's buffer and a
file or a socket through a kernel buffer, which is filled by `User2System` and
emptied by `System2User`. Both stop after a zero byte, so binary data is cut:

* a zero byte in the buffer turns all that is behind it into zeros on the way to
  the file or the socket (`write_exact_iff`);
* a zero byte in the file ends what the user gets of it, and a short read writes
  a zero behind the data when the old buffer had one before (`read_exact_iff`).

The offset is an `int`, so a file ends at 2 GiB for both.

Key definitions: `Io.WritesExactly`, `Io.SendsExactly`, `Io.ReadsExactly`, `ZerosLast`.
Key theorems: `Io.write_exact_iff`, `Io.read_exact_iff`.
-/
import Mathlib
import Nachos.Base.Runs
import Nachos.Base.Bytes
import Nachos.Userprog.FileDescriptors
import Nachos.Userprog.UserMemory
import Nachos.Userprog.HostFiles
import Nachos.Userprog.Ksyscall

namespace Nachos

open Bytes (Byte)

/-- The `n` bytes of the user from `v` on. -/
def UserMem.bytes (u : UserMem) (v n : ℕ) : List Byte := (List.range n).map fun k => u.byte (v + k)

/-- Behind a zero there are only zeros. -/
def ZerosLast (f : ℕ → Byte) (n : ℕ) : Prop := ∀ k < n, ∀ j < k, f j = 0 → f k = 0

instance (f : ℕ → Byte) (n : ℕ) : Decidable (ZerosLast f n) :=
  inferInstanceAs (Decidable (∀ k < n, ∀ j < k, _))

/-! ### Lookups -/

namespace Slots

variable {t : Table} {h : Host} {i : Fin capacity} {d : FileDescriptor} {id : ℤ}

/-- The slot of an open descriptor is the one that `IsOpening` finds. -/
theorem lookup (hS : Slots t h) (hd : t.fdMap id = some d) :
    ∃ i ∈ usable, t.slotOf id = some i ∧ t.slot i = d ∧ 2 ≤ id := by
  obtain ⟨i, hi, hocc, hid, hslot⟩ := (Table.fdMap_eq_some hS.table.distinct).mp hd
  have h2 : 2 ≤ id := hid ▸ hS.ids i hocc
  cases hf : t.slotOf id with
  | none => exact absurd hid (Table.slotOf_none hf i hi)
  | some j =>
    obtain ⟨hj, hjd⟩ := Table.slotOf_some hf
    have hoccj : (t.slot j).Occupied := by
      intro hm
      have hfree := (hS.table.free j).mp hm
      simp only at hfree
      omega
    have hji : j = i := hS.table.distinct j i hoccj hocc (hjd.trans hid.symm)
    exact ⟨j, hj, rfl, hji ▸ hslot, h2⟩

/-- The map after the file of an open descriptor has moved. -/
theorem fdMap_moved (hS : Slots t h) (hd : t.fdMap id = some (t.slot i)) (hi : i ∈ usable)
    (hmoves : (t.slot i).Moves d) :
    (t.set i d).fdMap = Function.update t.fdMap id (some d) := by
  have hsame : d.mode = (t.slot i).mode ∧ d.id = (t.slot i).id := by
    rcases hmoves with rfl | ⟨f, off, -, -, rfl⟩
    · exact ⟨rfl, rfl⟩
    · exact ⟨rfl, rfl⟩
  obtain ⟨j, -, hocc, hjd, hj⟩ := (Table.fdMap_eq_some hS.table.distinct).mp hd
  rw [hj] at hocc hjd
  have hocc' : d.Occupied := by
    unfold FileDescriptor.Occupied
    rw [hsame.1]
    exact hocc
  funext k
  rw [Table.fdMap_set hS.table.distinct (hS.moved hmoves).table.distinct hi, Function.update_apply,
    hsame.2, hjd]
  by_cases hk : k = id
  · rw [if_pos ⟨hocc', hk.symm⟩, if_pos hk]
  · rw [if_neg fun h => hk h.2.symm, if_neg fun h => hk h.2.symm, if_neg hk]

theorem occupied (hS : Slots t h) (hd : t.fdMap id = some d) : d.Occupied := by
  obtain ⟨i, -, hocc, -, hslot⟩ := (Table.fdMap_eq_some hS.table.distinct).mp hd
  exact hslot ▸ hocc

/-- The offset of an open file. -/
theorem offset (hS : Slots t h) {f : OpenFile} (hslot : t.slot i = d) (hf : d.file = some f)
    (hocc : d.Occupied) :
    (d.mode = readWriteFile ∨ d.mode = readFile) ∧ IntRange f.currentOffset := by
  rcases hslot ▸ hS.kinds i with hfree | ⟨hmode, f1, hf1, hrange⟩ | ⟨-, hnone⟩
  · exact absurd hfree hocc
  · rw [hf, Option.some.injEq] at hf1
    exact ⟨hmode, hf1 ▸ hrange⟩
  · rw [hf] at hnone
    cases hnone

end Slots

/-- A buffer in the space is not too large. -/
theorem sizeOk_of_mapped {u : UserMem} {v n : ℕ} (hs : UserSpace u.pageTable)
    (hmapped : ∀ k < n, v + k < u.size) : SizeOk n := by
  have hle : u.size ≤ numPhysPages * pageSize := Nat.mul_le_mul_right _ hs.length_le
  unfold numPhysPages pageSize at hle
  unfold SizeOk
  rcases Nat.eq_zero_or_pos n with h0 | hpos
  · omega
  · have := hmapped (n - 1) (by omega)
    omega

theorem bytes_eq_iff (u : UserMem) (v n : ℕ) :
    (List.range n).map (untilZero fun k => u.byte (v + k)) = u.bytes v n ↔
    ZerosLast (fun k => u.byte (v + k)) n := by
  unfold UserMem.bytes ZerosLast
  rw [List.map_inj_left]
  simp only [List.mem_range, untilZero_eq_iff]

theorem splice_inj {old a b : List Byte} {pos : ℕ} (hlen : a.length = b.length)
    (h : splice old pos a = splice old pos b) : a = b := by
  unfold splice at h
  by_cases ha : a = []
  · rw [ha, List.length_nil] at hlen
    rw [ha, List.length_eq_zero_iff.mp hlen.symm]
  · have hb : b ≠ [] := by
      rintro rfl
      exact ha (List.length_eq_zero_iff.mp hlen)
    rw [if_neg ha, if_neg hb, List.append_assoc, List.append_assoc _ b] at h
    exact (List.append_inj (List.append_cancel_left h) hlen).1

namespace Io

variable {s : Io} {env : HostEnv} {v : BitVec 32} {n : ℕ} {id : ℤ} {d : FileDescriptor}
  {f : OpenFile}

/-! ### Writing -/

/-- `SysWrite` stores the user's bytes at the offset, and moves it. -/
def WritesExactly (s : Io) (env : HostEnv) (v : BitVec 32) (n : ℕ) (id : ℤ) (d : FileDescriptor)
    (f : OpenFile) : Prop :=
  ∃ s', s.sysWrite env v n id = .ok (s', n) ∧
    s'.files.content = Function.update s.files.content (s.files.node f.file)
      (splice (s.files.fileOf f.file) f.currentOffset.toNat (s.user.bytes v.toNat n)) ∧
    s'.table.fdMap = Function.update s.table.fdMap id
      (some { d with file := some { f with currentOffset := f.currentOffset + n } })

/-- `SysSend` gives the user's bytes to the host. -/
def SendsExactly (s : Io) (env : HostEnv) (v : BitVec 32) (n : ℕ) (socketid : ℤ) : Prop :=
  ∃ s' r, s.sysSend env socketid v n = .ok (s', r) ∧
    s'.files.sent = s.files.sent ++ [(socketid, s.user.bytes v.toNat n)]

theorem intRange_iff_wrap32 (x : ℤ) : wrap32 x = x ↔ IntRange x := by
  constructor
  · intro h
    exact h ▸ intRange_wrap32 x
  · intro h
    unfold IntRange at h
    unfold wrap32
    rw [Int.bmod_def]
    split_ifs
    · omega
    · omega

/-- An offset that is still an `int` when it has moved. -/
theorem wrap32_eq_iff (h0 : 0 ≤ f.currentOffset) (m : ℕ) :
    wrap32 (f.currentOffset + m) = f.currentOffset + m ↔ f.currentOffset + m < 2 ^ 31 := by
  rw [intRange_iff_wrap32, IntRange]
  omega

/-- `SysWrite` of a buffer in the space to a file. -/
theorem sysWrite_file (hI : Inv s) (hmapped : ∀ k < n, v.toNat + k < s.user.size)
    (hd : s.table.fdMap id = some d) (hmode : d.mode = readWriteFile) (hf : d.file = some f)
    (h0 : 0 ≤ f.currentOffset) {most : ℕ} (hwrite : env.write = some most) (hmost : n ≤ most)
    (hseek : env.lseek 0 = true) :
    ∃ s', s.sysWrite env v n id = .ok (s', n) ∧
      s'.files.content = Function.update s.files.content (s.files.node f.file)
        (splice (s.files.fileOf f.file) f.currentOffset.toNat
          ((List.range n).map (untilZero fun k => s.user.byte (v.toNat + k)))) ∧
      s'.table.fdMap = Function.update s.table.fdMap id
        (some { d with
          file := some { f with currentOffset := wrap32 (f.currentOffset + n) } }) := by
  obtain ⟨i, hi, hslotOf, rfl, h2⟩ := hI.slots.lookup hd
  have hrange := (hI.slots.offset rfl hf (hI.slots.occupied hd)).2
  obtain ⟨l, u', hu, hlen, htake, -, -⟩ :=
    user2System_ok hI.space (sizeOk_of_mapped hI.space hmapped) (Within.of_mapped hmapped)
  obtain ⟨h', hw, -, hcontent⟩ :=
    FileDescriptor.write_ok (n := n) hmode hf hseek s.files h0 hrange.2 (by omega)
    (show (n : ℤ).toNat ≤ l.length by omega) (Or.inr ⟨most, hwrite, by exact_mod_cast hmost⟩)
  obtain ⟨u2, m, hback, -, -⟩ := system2User_user2System hI.space hu
  have hmoves : (s.table.slot i).Moves { s.table.slot i with
      file := some { f with currentOffset := wrap32 (f.currentOffset + n) } } :=
    Or.inr ⟨f, _, hf, intRange_wrap32 _, rfl⟩
  refine ⟨⟨_, s.host, h', u2, s.console⟩, ?_, ?_, hI.slots.fdMap_moved hd hi hmoves⟩
  · rw [sysWrite_some h2 hslotOf, hu]
    simp only [bind, Except.bind]
    rw [hw]
    simp only
    rw [hback]
    rfl
  · have hcontent := hcontent (by omega)
    rwa [htake, Int.toNat_natCast] at hcontent

/-- The host's `lseek` fails. -/
theorem sysWrite_stops (hI : Inv s) (hmapped : ∀ k < n, v.toNat + k < s.user.size)
    (hd : s.table.fdMap id = some d) (hmode : d.mode = readWriteFile) (hf : d.file = some f)
    (hseek : env.lseek 0 ≠ true) : s.sysWrite env v n id = .error .assert := by
  obtain ⟨i, hi, hslotOf, rfl, h2⟩ := hI.slots.lookup hd
  have hrange := (hI.slots.offset rfl hf (hI.slots.occupied hd)).2
  obtain ⟨l, u', hu, hlen, htake, -, -⟩ :=
    user2System_ok hI.space (sizeOk_of_mapped hI.space hmapped) (Within.of_mapped hmapped)
  have hw := FileDescriptor.write_error (n := n) hmode hf s.files hrange.2 (by omega)
    (show (n : ℤ).toNat ≤ l.length by omega) fun h => hseek h.1
  rw [sysWrite_some h2 hslotOf, hu]
  simp only [bind, Except.bind]
  rw [hw]

theorem sysWrite_exact_iff (hI : Inv s) (hmapped : ∀ k < n, v.toNat + k < s.user.size)
    (hd : s.table.fdMap id = some d) (hmode : d.mode = readWriteFile) (hf : d.file = some f)
    (h0 : 0 ≤ f.currentOffset) {most : ℕ} (hwrite : env.write = some most) (hmost : n ≤ most) :
    s.WritesExactly env v n id d f ↔
      env.lseek 0 = true ∧ f.currentOffset + n < 2 ^ 31 ∧
      ZerosLast (fun k => s.user.byte (v.toNat + k)) n := by
  by_cases hseek : env.lseek 0 = true
  · obtain ⟨s1, hcall, hcontent, hmap⟩ := sysWrite_file hI hmapped hd hmode hf h0 hwrite hmost hseek
    rw [and_iff_right hseek, ← bytes_eq_iff, ← wrap32_eq_iff h0]
    constructor
    · rintro ⟨s', hc, hc1, hc2⟩
      rw [hcall] at hc
      cases hc
      rw [hcontent] at hc1
      rw [hmap] at hc2
      have hfile := congrFun hc1 (s.files.node f.file)
      have hentry := congrFun hc2 id
      simp only [Function.update_self, Option.some.injEq, FileDescriptor.mk.injEq,
        OpenFile.mk.injEq] at hfile hentry
      refine ⟨hentry.2.2.1.2.1, splice_inj ?_ hfile⟩
      simp [UserMem.bytes]
    · rintro ⟨hoff, hbytes⟩
      rw [hbytes] at hcontent
      rw [hoff] at hmap
      exact ⟨s1, hcall, hcontent, hmap⟩
  · have hstops := sysWrite_stops hI hmapped hd hmode hf hseek
    constructor
    · rintro ⟨s', hc, -⟩
      rw [hstops] at hc
      cases hc
    · exact fun h => absurd h.1 hseek

theorem sysSend_exact_iff (hI : Inv s) (hmapped : ∀ k < n, v.toNat + k < s.user.size) {socketid : ℤ}
    (hopen : s.table.IsOpen socketid) :
    s.SendsExactly env v n socketid ↔ ZerosLast (fun k => s.user.byte (v.toNat + k)) n := by
  obtain ⟨l, u', hu, hlen, htake, -, -⟩ :=
    user2System_ok hI.space (sizeOk_of_mapped hI.space hmapped) (Within.of_mapped hmapped)
  obtain ⟨d, hd⟩ := Option.isSome_iff_exists.mp (Table.isSome_fdMap.mpr hopen)
  obtain ⟨i, -, hslotOf, -, -⟩ := hI.slots.lookup hd
  rw [Int.toNat_natCast] at htake
  have hsent : (FileDescriptor.send env s.files socketid l n).1.sent = s.files.sent ++
      [(socketid, l.take n)] := by
    unfold FileDescriptor.send HostFiles.send
    rw [Int.toNat_natCast]
    cases env.send with
    | none => rfl
    | some most =>
      simp only
      split_ifs <;> rfl
  have hcall : ∃ s' r, s.sysSend env socketid v n = .ok (s', r) ∧
      s'.files.sent = s.files.sent ++
      [(socketid, (List.range n).map (untilZero fun k => s.user.byte (v.toNat + k)))] := by
    unfold sysSend
    rw [hu, ← htake]
    simp only [hslotOf]
    exact ⟨_, _, rfl, hsent⟩
  obtain ⟨s1, r1, hcall, hsent1⟩ := hcall
  rw [← bytes_eq_iff]
  constructor
  · rintro ⟨s', r, hc, hc1⟩
    rw [hcall] at hc
    cases hc
    rw [hsent1] at hc1
    simpa using hc1
  · intro hbytes
    rw [hbytes] at hsent1
    exact ⟨s1, r1, hcall, hsent1⟩

/-- **What SysWrite and SysSend move** is the user's bytes just when behind a
zero byte there are only zeros; and the offset has to stay an `int`. -/
theorem write_exact_iff {s : Io} (h : Reach s) (env : HostEnv) {v : BitVec 32} {n : ℕ}
    (hmapped : ∀ k < n, v.toNat + k < s.user.size) :
    (∀ id d f most, s.table.fdMap id = some d → d.mode = readWriteFile → d.file = some f →
      0 ≤ f.currentOffset → env.write = some most → n ≤ most →
      (s.WritesExactly env v n id d f ↔
        env.lseek 0 = true ∧ f.currentOffset + n < 2 ^ 31 ∧
        ZerosLast (fun k => s.user.byte (v.toNat + k)) n)) ∧
    ∀ socketid, s.table.IsOpen socketid →
      (s.SendsExactly env v n socketid ↔ ZerosLast (fun k => s.user.byte (v.toNat + k)) n) := by
  have hI := inv_reach h
  constructor
  · intro id d f most hd hmode hf h0 hwrite hmost
    exact sysWrite_exact_iff hI hmapped hd hmode hf h0 hwrite hmost
  · intro socketid hopen
    exact sysSend_exact_iff hI hmapped hopen

/-! A program of one page: the name "a" at 0, the bytes 1, 0, 5 at 32 and 9, 9, 9
at 64. It opens a file with the bytes 1, 0, 5 and a socket. -/

def sampleUser : UserMem :=
  ⟨fun x => if x = 0 then 97 else if x = 32 then 1 else if x = 34 then 5 else if 64 ≤ x ∧
    x < 67 then 9 else 0, [⟨0, 0, true, false, false, false⟩]⟩

def sampleStart : Io :=
  ⟨Table.new, ⟨{0, 1}, []⟩, ⟨fun _ => 0, fun _ => [1, 0, 5], fun _ => 0, []⟩, sampleUser, []⟩

/-- A host that does as it is told. -/
def sampleEnv : HostEnv := ⟨fun _ => true, some 100, some 100, some 100, true, fun _ => 0⟩

def sampleFile : OpenFile := ⟨3, 0, 0⟩
def sampleEntry : FileDescriptor := ⟨readWriteFile, 3, some sampleFile, some [97]⟩

theorem initial_sample : initial sampleStart := ⟨rfl, rfl, by decide, by decide, by decide⟩

theorem reach_sample (t : Io → Bool)
    (ht : (Runs.exec step sampleStart [.open_ 0 0 3 7, .socketTCP 4]).any t = true) :
    ∃ s, Reach s ∧ t s = true := by
  refine Runs.Reach.of_exec step initial initial_sample _ ?_ t ht
  exact Runs.Along.of_along (c := fun s l => Fair s l) (fun _ _ h => of_decide_eq_true h)
    _ _ (by decide)

/-- Text is written and sent as it is. -/
theorem write_exact_text : ∃ s, Reach s ∧ s.WritesExactly sampleEnv 0 2 3 sampleEntry sampleFile ∧
    s.SendsExactly sampleEnv 0 2 4 := by
  obtain ⟨s, hs, ht⟩ := reach_sample
    (fun s => s.table.fdMap 3 = some sampleEntry ∧ (s.table.fdMap 4).isSome ∧ s.user.size = 128 ∧
      ZerosLast (fun k => s.user.byte (0 + k)) 2) (by decide)
  simp only [decide_eq_true_eq] at ht
  obtain ⟨h3, h4, hsize, hzeros⟩ := ht
  have hexact :=
    write_exact_iff hs sampleEnv (v := 0) (n := 2) fun k hk => by rw [hsize]; simp; omega
  refine ⟨s, hs, ?_, ?_⟩
  · exact (hexact.1 3 sampleEntry sampleFile 100 h3 rfl rfl (by decide) rfl (by decide)).mpr
      ⟨rfl, by decide, hzeros⟩
  · exact (hexact.2 4 (Table.isSome_fdMap.mp h4)).mpr hzeros

/-- The bytes 1, 0, 5 are not. -/
theorem write_binary_wrong : ∃ s, Reach s ∧ s.table.fdMap 3 = some sampleEntry ∧
    (∀ k < 3, (32 : BitVec 32).toNat + k < s.user.size) ∧
    s.user.bytes 32 3 = [1, 0, 5] ∧ ¬ s.WritesExactly sampleEnv 32 3 3 sampleEntry sampleFile ∧
    ¬ s.SendsExactly sampleEnv 32 3 4 := by
  obtain ⟨s, hs, ht⟩ := reach_sample
    (fun s => s.table.fdMap 3 = some sampleEntry ∧ (s.table.fdMap 4).isSome ∧ s.user.size = 128 ∧
      s.user.bytes 32 3 = [1, 0, 5] ∧
      ¬ ZerosLast (fun k => s.user.byte (32 + k)) 3) (by decide)
  simp only [decide_eq_true_eq] at ht
  obtain ⟨h3, h4, hsize, hbytes, hzeros⟩ := ht
  have hmapped : ∀ k < 3, (32 : BitVec 32).toNat + k < s.user.size :=
    fun k hk => by rw [hsize]; simp; omega
  have hI := inv_reach hs
  refine ⟨s, hs, h3, hmapped, hbytes, fun hw => ?_, fun hw => ?_⟩
  · exact hzeros ((sysWrite_exact_iff hI hmapped h3 rfl rfl (by decide)
      (show sampleEnv.write = some 100 from rfl) (by decide)).mp hw).2.2
  · exact hzeros ((sysSend_exact_iff hI hmapped (Table.isSome_fdMap.mp h4)).mp hw)

/-! ### Reading -/

/-- The kernel buffer when `r` bytes of a file `f` were read over the user's `u`. -/
def overlaid (f u : ℕ → Byte) (r k : ℕ) : Byte := if k < r then f k else untilZero u k

/-- The user's byte after a kernel buffer `b` was copied out. -/
def landed (b u : ℕ → Byte) (k : ℕ) : Byte := if ∀ j < k, b j ≠ 0 then b k else u k

/-- Where the bytes that were read arrive and the others stay. -/
theorem landed_overlaid_iff (f u : ℕ → Byte) (r n : ℕ) :
    ((∀ k < r, landed (overlaid f u r) u k = f k) ∧ ∀ k < n, r ≤ k →
      landed (overlaid f u r) u k = u k) ↔
      (∀ k < r, (∃ j < k, f j = 0) → f k = u k) ∧
      (r < n → (∀ j < r, f j ≠ 0) → (∃ j < r, u j = 0) → u r = 0) := by
  have hfile : ∀ k ≤ r, (∀ j < k, overlaid f u r j ≠ 0) ↔ ∀ j < k, f j ≠ 0 := by
    intro k hk
    refine forall₂_congr fun j hj => ?_
    rw [overlaid, if_pos (by omega)]
  refine and_congr (forall₂_congr fun k hk => ?_) ⟨fun h hrn hf hu => ?_, fun h k hkn hk => ?_⟩
  · unfold landed
    rw [overlaid, if_pos hk, if_congr (hfile k hk.le) rfl rfl]
    by_cases hzero : ∀ j < k, f j ≠ 0
    · rw [if_pos hzero]
      exact iff_of_true rfl fun ⟨j, hj, h0⟩ => absurd h0 (hzero j hj)
    · rw [if_neg hzero]
      push Not at hzero
      exact ⟨fun he _ => he.symm, fun he => (he hzero).symm⟩
  · have hland := h r hrn le_rfl
    rw [landed, if_pos ((hfile r le_rfl).mpr hf), overlaid, if_neg (lt_irrefl r), untilZero,
      if_pos hu] at hland
    exact hland.symm
  · unfold landed
    split_ifs with hzero
    · rw [overlaid, if_neg (not_lt.mpr hk)]
      by_cases hu : ∃ j < k, u j = 0
      · rw [untilZero, if_pos hu]
        rcases hk.eq_or_lt with rfl | hlt
        · exact (h hkn ((hfile r le_rfl).mp hzero) hu).symm
        · -- the copy would have stopped at the zero that is before the last byte
          exfalso
          have hlast := hzero (k - 1) (by omega)
          rw [overlaid, if_neg (by omega)] at hlast
          obtain ⟨j, hj, hu0⟩ := hu
          rcases (show j ≤ k - 1 by omega).eq_or_lt with rfl | hj'
          · refine hlast ?_
            unfold untilZero
            split_ifs
            · rfl
            · exact hu0
          · exact hlast (by rw [untilZero, if_pos ⟨j, hj', hu0⟩])
      · exact untilZero_of_ne fun j hj hu0 => hu ⟨j, hj, hu0⟩
    · rfl

/-- What `Read` leaves in the kernel buffer. -/
theorem getD_overlaid {u : ℕ → Byte} {buffer bytes : List Byte} {m : ℕ}
    (hbuffer : buffer.take m = (List.range m).map (untilZero u)) {k : ℕ} (hk : k < m) :
    (bytes ++ buffer.drop bytes.length).getD k 0 = overlaid (fun j => bytes.getD j 0)
      u bytes.length k := by
  unfold overlaid
  split_ifs with hlt
  · exact List.getD_append _ _ _ _ hlt
  · have hget : buffer[k]? = some (untilZero u k) := by
      rw [← List.getElem?_take_of_lt hk, hbuffer, List.getElem?_map, List.getElem?_range hk]
      rfl
    rw [List.getD_append_right _ _ _ _ (not_lt.mp hlt), List.getD_eq_getElem?_getD,
      List.getElem?_drop, Nat.add_sub_cancel' (not_lt.mp hlt), hget]
    rfl

/-- A byte of the buffer after the copy, and a byte elsewhere. -/
theorem copied_eq_landed {l : List Byte} {b u : ℕ → Byte} (hb : ∀ k < l.length, l.getD k 0 = b k)
    {v k : ℕ} (hk : k < l.length) :
    copied l v (v + k) (u k) = landed b u k := by
  unfold copied landed
  rw [Nat.add_sub_cancel_left, hb k hk]
  refine if_congr ?_ rfl rfl
  have hzero : (∀ j < k, l.getD j 0 ≠ 0) ↔ ∀ j < k, b j ≠ 0 :=
    forall₂_congr fun j hj => by rw [hb j (by omega)]
  rw [hzero]
  exact ⟨fun h => h.2.2, fun h => ⟨by omega, by omega, h⟩⟩

theorem copied_outside {l : List Byte} {v w : ℕ} (hw : w < v ∨ v + l.length ≤ w) (old : Byte) :
    copied l v w old = old := by
  unfold copied
  rw [if_neg fun h => by omega]

/-- `SysRead` of a file into a buffer in the space. -/
theorem sysRead_file (hI : Inv s) (hmapped : ∀ k < n, v.toNat + k < s.user.size)
    (hd : s.table.fdMap id = some d) (hf : d.file = some f) (h0 : 0 ≤ f.currentOffset)
    (hseek : env.lseek 0 = true) :
    let out := env.delivers (s.files.fileOf f.file) f.currentOffset.toNat n
    let old := fun k => s.user.byte (v.toNat + k)
    ∃ s', s.sysRead env v n id = .ok (s', out.2) ∧
      (∀ k < n, s'.user.byte (v.toNat + k) = landed
        (overlaid (fun j => out.1.getD j 0) old out.1.length) old k) ∧
      (∀ w, w < v.toNat ∨ v.toNat + n ≤ w → s'.user.byte w = s.user.byte w) ∧
      s'.table.fdMap = Function.update s.table.fdMap id
        (some { d with
          file := some { f with currentOffset := wrap32 (f.currentOffset + out.2) } }) := by
  intro out old
  obtain ⟨i, hi, hslotOf, rfl, h2⟩ := hI.slots.lookup hd
  have hrange := (hI.slots.offset rfl hf (hI.slots.occupied hd)).2
  obtain ⟨l, u', hu, hlen, htake, hmem, hcore⟩ :=
    user2System_ok hI.space (sizeOk_of_mapped hI.space hmapped) (Within.of_mapped hmapped)
  rw [Int.toNat_natCast] at htake
  obtain ⟨h', hread, -, -⟩ := FileDescriptor.read_ok hf hseek s.files n h0 hrange.2
  have hout : out.1.length ≤ n := by
    have := env.length_delivers (s.files.fileOf f.file) f.currentOffset.toNat n
    rwa [Int.toNat_natCast] at this
  set buffer := out.1 ++ l.drop out.1.length with hbuffer
  have hbuflen : (n : ℤ).toNat ≤ buffer.length := by
    rw [hbuffer, List.length_append, List.length_drop]
    omega
  have hsize := size_congr hcore
  obtain ⟨u2, m, hback, hcore2, hbyte⟩ := system2User_ok (hI.space.congr hcore) hbuflen
    (Within.of_mapped fun k hk => by rw [hsize]; exact hmapped k (by omega))
  rw [Int.toNat_natCast] at hbuflen hbyte
  have htakelen : (buffer.take n).length = n := by
    rw [List.length_take]
    omega
  have hmoves : (s.table.slot i).Moves { s.table.slot i with
      file := some { f with currentOffset := wrap32 (f.currentOffset + out.2) } } :=
    Or.inr ⟨f, _, hf, intRange_wrap32 _, rfl⟩
  refine ⟨⟨_, s.host, h', u2, s.console⟩, ?_, fun k hk => ?_, fun w hw => ?_,
    hI.slots.fdMap_moved hd hi hmoves⟩
  · rw [sysRead_some h2 hslotOf, hu]
    simp only [bind, Except.bind]
    rw [hread]
    simp only
    rw [hback]
    rfl
  · simp only
    rw [hbyte _ (by rw [hsize]; exact hmapped k hk), byte_same hmem hcore]
    refine copied_eq_landed (u := old) (fun j hj => ?_) (by rw [htakelen]; exact hk)
    rw [htakelen] at hj
    rw [List.getD_eq_getElem?_getD, List.getElem?_take_of_lt hj, ← List.getD_eq_getElem?_getD]
    exact getD_overlaid htake hj
  · simp only
    by_cases hwsize : w < s.user.size
    · rw [hbyte w (by rw [hsize]; exact hwsize), byte_same hmem hcore]
      exact copied_outside (by rw [htakelen]; exact hw) _
    · rw [byte_of_size_le (u := u2) (by rw [size_congr (hcore2.trans hcore)]; omega),
        byte_of_size_le (not_lt.mp hwsize)]

/-- The host's `lseek` fails. -/
theorem sysRead_stops (hI : Inv s) (hmapped : ∀ k < n, v.toNat + k < s.user.size)
    (hd : s.table.fdMap id = some d) (hf : d.file = some f) (hseek : env.lseek 0 ≠ true) :
    s.sysRead env v n id = .error .assert := by
  obtain ⟨i, hi, hslotOf, rfl, h2⟩ := hI.slots.lookup hd
  obtain ⟨l, u', hu, -⟩ :=
    user2System_ok hI.space (sizeOk_of_mapped hI.space hmapped) (Within.of_mapped hmapped)
  have hread := FileDescriptor.read_error hf (fun h => hseek h.1) s.files n
  rw [sysRead_some h2 hslotOf, hu]
  simp only [bind, Except.bind]
  rw [hread]

/-- The bytes of a file that a read of `n` from the offset on can give. -/
def readable (s : Io) (f : OpenFile) (n : ℕ) : ℕ :=
  min n ((s.files.fileOf f.file).length - f.currentOffset.toNat)

/-- Byte `k` of a file from the offset on. -/
def fileByte (s : Io) (f : OpenFile) (k : ℕ) : Byte :=
  (s.files.fileOf f.file).getD (f.currentOffset.toNat + k) 0

/-- `SysRead` puts the bytes of the file into the buffer and no others, and
moves the offset by their number. -/
def ReadsExactly (s : Io) (env : HostEnv) (v : BitVec 32) (n : ℕ) (id : ℤ) (d : FileDescriptor)
    (f : OpenFile) : Prop :=
  ∃ s', s.sysRead env v n id = .ok (s', (s.readable f n : ℤ)) ∧
    (∀ k < s.readable f n, s'.user.byte (v.toNat + k) = s.fileByte f k) ∧
    (∀ w, w < v.toNat ∨ v.toNat + s.readable f n ≤ w → s'.user.byte w = s.user.byte w) ∧
    s'.table.fdMap = Function.update s.table.fdMap id
      (some { d with file := some { f with currentOffset := f.currentOffset + s.readable f n } })

/-- Zeros do not cut what is read: behind a zero of the file the buffer has the
file's bytes already, and no zero is written behind data without zeros. -/
def ReadFits (s : Io) (v : BitVec 32) (n : ℕ) (f : OpenFile) : Prop :=
  (∀ k < s.readable f n, (∃ j < k, s.fileByte f j = 0) →
    s.fileByte f k = s.user.byte (v.toNat + k)) ∧
    (s.readable f n < n → (∀ j < s.readable f n, s.fileByte f j ≠ 0) →
      (∃ j < s.readable f n, s.user.byte (v.toNat + j) = 0) →
      s.user.byte (v.toNat + s.readable f n) = 0)

instance (s : Io) (v : BitVec 32) (n : ℕ) (f : OpenFile) : Decidable (s.ReadFits v n f) :=
  inferInstanceAs (Decidable (_ ∧ _))

/-- The host gives all there is. -/
theorem delivers_all {most : ℕ} (hread : env.read = some most) :
    (env.delivers (s.files.fileOf f.file) f.currentOffset.toNat n).2 =
      (min most (s.readable f n) : ℕ) ∧
      (env.delivers (s.files.fileOf f.file) f.currentOffset.toNat n).1.length = min most
      (s.readable f n) ∧
      ∀ k < min most (s.readable f n),
        (env.delivers (s.files.fileOf f.file) f.currentOffset.toNat n).1.getD k 0 =
          s.fileByte f k := by
  have hlen : (((s.files.fileOf f.file).drop f.currentOffset.toNat).take (min most n)).length =
      min most (s.readable f n) := by
    unfold readable
    rw [List.length_take, List.length_drop]
    omega
  unfold HostEnv.delivers
  rw [hread]
  simp only [if_neg (show ¬ (n : ℤ) < 0 by omega), Int.toNat_natCast]
  refine ⟨by rw [hlen], hlen, fun k hk => ?_⟩
  unfold fileByte
  rw [List.getD_eq_getElem?_getD, List.getElem?_take_of_lt (by unfold readable at hk; omega),
    List.getElem?_drop, ← List.getD_eq_getElem?_getD]

/-- What `SysRead` does when the host gives all there is. -/
theorem sysRead_all (hI : Inv s) (hmapped : ∀ k < n, v.toNat + k < s.user.size)
    (hd : s.table.fdMap id = some d) (hf : d.file = some f) (h0 : 0 ≤ f.currentOffset)
    (hseek : env.lseek 0 = true) {most : ℕ} (hread : env.read = some most)
    (hmost : s.readable f n ≤ most) :
    let old := fun k => s.user.byte (v.toNat + k)
    ∃ s', s.sysRead env v n id = .ok (s', (s.readable f n : ℤ)) ∧
      (∀ k < n, s'.user.byte (v.toNat + k) = landed (overlaid (s.fileByte f) old (s.readable f n))
        old k) ∧
      (∀ w, w < v.toNat ∨ v.toNat + n ≤ w → s'.user.byte w = s.user.byte w) ∧
      s'.table.fdMap = Function.update s.table.fdMap id
        (some { d with file := some { f with
          currentOffset := wrap32 (f.currentOffset + s.readable f n) } }) := by
  intro old
  obtain ⟨hresult, hlen, hbytes⟩ := delivers_all (s := s) (f := f) (n := n) hread
  rw [min_eq_right hmost] at hresult hlen hbytes
  obtain ⟨s', hcall, hin, hout, hmap⟩ := sysRead_file hI hmapped hd hf h0 hseek
  rw [hresult] at hcall hmap
  rw [hlen] at hin
  refine ⟨s', hcall, fun k hk => ?_, hout, hmap⟩
  have hsame : ∀ j, overlaid
      (fun j => (env.delivers (s.files.fileOf f.file) f.currentOffset.toNat n).1.getD j 0) old
      (s.readable f n) j =
        overlaid (s.fileByte f) old (s.readable f n) j := by
    intro j
    unfold overlaid
    split_ifs with hj
    · exact hbytes j hj
    · rfl
  rw [hin k hk]
  exact congrArg (fun b => landed b old k) (funext hsame)

/-- The host gives less than there is. -/
theorem not_readsExactly (hI : Inv s) (hmapped : ∀ k < n, v.toNat + k < s.user.size)
    (hd : s.table.fdMap id = some d) (hf : d.file = some f) (h0 : 0 ≤ f.currentOffset)
    (hseek : env.lseek 0 = true) (hread : ¬ ∃ most, env.read = some most ∧ s.readable f n ≤ most) :
    ¬ s.ReadsExactly env v n id d f := by
  rintro ⟨s', hc, -⟩
  obtain ⟨s1, hcall, -⟩ := sysRead_file hI hmapped hd hf h0 hseek
  rw [hcall, Except.ok.injEq, Prod.mk.injEq] at hc
  cases hr : env.read with
  | none =>
    have hfail : (env.delivers (s.files.fileOf f.file) f.currentOffset.toNat n).2 = -1 := by
      unfold HostEnv.delivers
      rw [hr]
    omega
  | some most =>
    have hresult := (delivers_all (s := s) (f := f) (n := n) hr).1
    exact hread ⟨most, hr, by omega⟩

/-- **What SysRead moves** is the file's bytes, and nothing else changes, just
when zeros do not cut it, the host gives all there is and the offset stays an
`int`. -/
theorem read_exact_iff {s : Io} (h : Reach s) {env : HostEnv} {v : BitVec 32} {n : ℕ} {id : ℤ}
    {d : FileDescriptor} {f : OpenFile} (hmapped : ∀ k < n, v.toNat + k < s.user.size)
    (hd : s.table.fdMap id = some d) (hf : d.file = some f) (h0 : 0 ≤ f.currentOffset) :
    s.ReadsExactly env v n id d f ↔
      env.lseek 0 = true ∧ (∃ most, env.read = some most ∧ s.readable f n ≤ most) ∧
        f.currentOffset + s.readable f n < 2 ^ 31 ∧ s.ReadFits v n f := by
  have hI := inv_reach h
  by_cases hseek : env.lseek 0 = true
  · by_cases hread : ∃ most, env.read = some most ∧ s.readable f n ≤ most
    · obtain ⟨most, hmost, hle⟩ := hread
      obtain ⟨s1, hcall, hin, hout, hmap⟩ := sysRead_all hI hmapped hd hf h0 hseek hmost hle
      have hr : s.readable f n ≤ n := min_le_left _ _
      rw [and_iff_right hseek, and_iff_right ⟨most, hmost, hle⟩, ← wrap32_eq_iff h0]
      unfold ReadFits
      rw [← landed_overlaid_iff]
      constructor
      · rintro ⟨s', hc, hin', hout', hmap'⟩
        rw [hcall] at hc
        cases hc
        rw [hmap] at hmap'
        have hentry := congrFun hmap' id
        simp only [Function.update_self, Option.some.injEq, FileDescriptor.mk.injEq,
          OpenFile.mk.injEq] at hentry
        refine ⟨hentry.2.2.1.2.1, fun k hk => ?_, fun k hkn hk => ?_⟩
        · rw [← hin k (by omega)]
          exact hin' k hk
        · rw [← hin k hkn]
          exact hout' _ (Or.inr (by omega))
      · rintro ⟨hoff, hdata, hrest⟩
        rw [hoff] at hmap
        refine ⟨s1, hcall, fun k hk => ?_, fun w hw => ?_, hmap⟩
        · rw [hin k (by omega)]
          exact hdata k hk
        · by_cases hbuf : v.toNat + s.readable f n ≤ w ∧ w < v.toNat + n
          · obtain ⟨k, rfl⟩ := Nat.exists_eq_add_of_le (show v.toNat ≤ w by omega)
            rw [hin k (by omega)]
            exact hrest k (by omega) (by omega)
          · exact hout w (by omega)
    · have hnot := not_readsExactly hI hmapped hd hf h0 hseek hread
      exact iff_of_false hnot fun h => hread h.2.1
  · have hstops := sysRead_stops hI hmapped hd hf hseek
    refine iff_of_false ?_ fun h => hseek h.1
    rintro ⟨s', hc, -⟩
    rw [hstops] at hc
    cases hc

/-- The file's bytes are read into a buffer that has them already. -/
theorem read_exact_same :
    ∃ s, Reach s ∧ s.ReadsExactly sampleEnv 32 3 3 sampleEntry sampleFile := by
  obtain ⟨s, hs, ht⟩ := reach_sample
    (fun s => s.table.fdMap 3 = some sampleEntry ∧ s.user.size = 128 ∧ s.readable sampleFile 3 = 3 ∧
      s.ReadFits 32 3 sampleFile)
    (by decide)
  simp only [decide_eq_true_eq] at ht
  obtain ⟨h3, hsize, hall, hfits⟩ := ht
  refine ⟨s, hs, (read_exact_iff hs (fun k hk => ?_) h3 rfl (by decide)).mpr
    ⟨rfl, ⟨100, rfl, ?_⟩, ?_, hfits⟩⟩
  · rw [hsize]
    simp
    omega
  · rw [hall]
    decide
  · rw [hall]
    decide

/-- The bytes 1, 0, 5 of a file do not all get to a buffer with 9, 9, 9. -/
theorem read_binary_wrong : ∃ s, Reach s ∧ s.table.fdMap 3 = some sampleEntry ∧
    (∀ k < 3, (64 : BitVec 32).toNat + k < s.user.size) ∧
    s.files.fileOf 3 = [1, 0, 5] ∧ s.user.bytes 64 3 = [9, 9, 9] ∧
    ¬ s.ReadsExactly sampleEnv 64 3 3 sampleEntry sampleFile := by
  obtain ⟨s, hs, ht⟩ := reach_sample
    (fun s => s.table.fdMap 3 = some sampleEntry ∧ s.user.size = 128 ∧
      s.files.fileOf 3 = [1, 0, 5] ∧ s.user.bytes 64 3 = [9, 9, 9] ∧
      s.readable sampleFile 3 = 3 ∧ s.fileByte sampleFile 2 = 5 ∧
      (s.sysRead sampleEnv 64 3 3).toOption.all fun x => x.1.user.byte 66 = 9) (by decide)
  simp only [decide_eq_true_eq] at ht
  obtain ⟨h3, hsize, hfile, hbytes, hall, hbyte, hcall⟩ := ht
  refine ⟨s, hs, h3, fun k hk => ?_, hfile, hbytes, ?_⟩
  · rw [hsize]
    simp
    omega
  · rintro ⟨s', hc, hin, -⟩
    rw [show ((3 : ℕ) : ℤ) = 3 from rfl] at hc
    rw [hc] at hcall
    have h9 : s'.user.byte 66 = 9 := of_decide_eq_true hcall
    have h5 : s'.user.byte 66 = 5 := (hin 2 (by rw [hall]; decide)).trans hbyte
    rw [h9] at h5
    exact absurd h5 (by decide)

end Io
end Nachos
