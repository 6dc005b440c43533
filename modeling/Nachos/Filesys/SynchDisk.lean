/-
# The disk (`machine/disk.cc`, `filesys/synchdisk.cc`)

The disk is a host file: four bytes of magic number, then the sectors. A
request reads or writes the file at once and sets `active`; its interrupt
clears the flag and calls `SynchDisk::CallBack`. `SynchDisk` is the
`SynchDevice` of this device. The latency of a request only decides when its
interrupt comes, so it is not in this module.

* `sector_after`: the sectors are disjoint parts of the file, so a sector is
  what the last write to it has put there.
* `atomic_sector_store`: for any number of threads, `ReadSector` and
  `WriteSector` are atomic at their requests.

Key definitions: `Disk.readRequest`, `Disk.writeRequest`, `Disk.device`,
`SynchDisk.lastWrite`.
Key theorems: `SynchDisk.sector_after`, `SynchDisk.atomic_sector_store`.
-/
import Mathlib
import Nachos.Base.Bytes
import Nachos.Threads.SynchDevice

namespace Nachos

/-- `class Disk`. -/
structure Disk where
  /-- the content of the host file -/
  fileno : Bytes.Store
  /-- is a disk operation in progress? -/
  active : Bool

namespace Disk

def sectorSize : ℕ := 128
def sectorsPerTrack : ℕ := 32
def numTracks : ℕ := 32
def numSectors : ℕ := sectorsPerTrack * numTracks
def magicNumber : BitVec 32 := 0x456789ab
def magicSize : ℕ := 4

/-- The content of a sector. -/
abbrev Sector := { data : List Bytes.Byte // data.length = sectorSize }

/-- A file that is created: the magic number, then zeros. -/
def create : Disk := ⟨Bytes.write (fun _ => 0) 0 (Bytes.wordBytes magicNumber), false⟩

/-- `Disk::Disk`: the file is there, with the magic number, or it is created. -/
def new : Option Bytes.Store → Option Disk
  | some file =>
    if Bytes.word (file 0) (file 1) (file 2) (file 3) = magicNumber then
      some ⟨file, false⟩
    else none
  | none => some create

/-- Where a sector is in the file. -/
def offset (sectorNumber : ℤ) : ℤ := sectorSize * sectorNumber + magicSize

/-- `Read(fileno, data, SectorSize)` after the `Lseek`. -/
def sector (file : Bytes.Store) (sectorNumber : ℤ) : Sector :=
  ⟨(List.range sectorSize).map fun i : ℕ => file (offset sectorNumber + i), by simp⟩

/-- `Disk::ReadRequest`, past its `ASSERT`s. -/
def readRequest (x : Disk) (sectorNumber : ℤ) : Disk × Sector :=
  ({ x with active := true }, sector x.fileno sectorNumber)

/-- `Disk::WriteRequest`, past its `ASSERT`s. -/
def writeRequest (x : Disk) (sectorNumber : ℤ) (data : Sector) : Disk :=
  { fileno := Bytes.write x.fileno (offset sectorNumber) data.1, active := true }

inductive Request
  | read (sectorNumber : ℤ)
  | write (sectorNumber : ℤ) (data : Sector)
  deriving DecidableEq

def Request.sectorNumber : Request → ℤ
  | .read n => n
  | .write n _ => n

/-- A sector number in `[0, NumSectors)`. -/
def InRange (r : Request) : Prop := 0 ≤ r.sectorNumber ∧ r.sectorNumber < numSectors

instance (r : Request) : Decidable (InRange r) := inferInstanceAs (Decidable (_ ∧ _))

/-- The disk as a device: both requests have the same `ASSERT`s, and a read
fills the caller's buffer. -/
def device : Device Disk Request (Option Sector) where
  ok x r := !x.active && decide (InRange r)
  request x r :=
    match r with
    | .read n => ((x.readRequest n).1, some (x.readRequest n).2)
    | .write n data => (x.writeRequest n data, none)
  callBack x := { x with active := false }

variable {x : Disk} {rs : List Request} {n m : ℤ}

theorem active_after (hx : x.active = false) : (device.after x rs).active = false := by
  rcases List.eq_nil_or_concat rs with rfl | ⟨rs, r, rfl⟩
  · exact hx
  · rw [List.concat_eq_append, device.after_concat]
    rfl

theorem active_new {file : Option Bytes.Store} (h : new file = some x) : x.active = false := by
  unfold new at h
  split at h
  · split_ifs at h
    cases h
    rfl
  · cases h
    rfl

theorem sector_write_self (file : Bytes.Store) (n : ℤ) (data : Sector) :
    sector (Bytes.write file (offset n) data.1) n = data := by
  refine Subtype.ext (List.ext_getElem (by simp [sector, data.2]) fun i h1 h2 => ?_)
  have hi : i < sectorSize := by simpa [sector] using h1
  have hlen : (data.1.length : ℤ) = sectorSize := by rw [data.2]
  simp only [sector, List.getElem_map, List.getElem_range]
  rw [Bytes.write_inside (by omega) (by omega)]
  simp [h2]

theorem sector_write_of_ne (file : Bytes.Store) (data : Sector) (h : m ≠ n) :
    sector (Bytes.write file (offset n) data.1) m = sector file m := by
  have hlen : (data.1.length : ℤ) = sectorSize := by rw [data.2]
  refine Subtype.ext (List.map_congr_left fun i hi => Bytes.write_outside ?_)
  have hi' : i < sectorSize := List.mem_range.mp hi
  rw [hlen]
  simp only [offset, sectorSize, magicSize] at *
  omega

end Disk

/-- `class SynchDisk`, for the calls of any number of threads. -/
abbrev SynchDisk := SynchDevice Disk Disk.Request (Option Disk.Sector)

namespace SynchDisk

open Disk (Request Sector)

/-- `SynchDisk::ReadSector` by thread `t`; the answer is what it leaves in `data`. -/
def readSector (t : Tid) (sectorNumber : ℤ) : SynchDevice.Label Request :=
  .call t (.read sectorNumber)

/-- `SynchDisk::WriteSector`. -/
def writeSector (t : Tid) (sectorNumber : ℤ) (data : Sector) : SynchDevice.Label Request :=
  .call t (.write sectorNumber data)

def step : SynchDisk → SynchDevice.Label Request → Option SynchDisk := SynchDevice.step Disk.device

/-- The states of the runs from the disk `x` with sector numbers in range. -/
abbrev Reach (x : Disk) : SynchDisk → Prop := SynchDevice.Reach Disk.device x Disk.InRange

/-- The data of the last write to a sector among the requests. -/
def lastWrite (rs : List Request) (n : ℤ) : Option Sector :=
  rs.foldl (fun last r => match r with
    | .read _ => last
    | .write m data => if m = n then some data else last) none

/-- A sector holds what was last written to it. -/
theorem sector_after (x : Disk) (rs : List Request) (n : ℤ) :
    Disk.sector (Disk.device.after x rs).fileno n = (lastWrite rs n).getD
      (Disk.sector x.fileno n) := by
  induction rs using List.reverseRecOn with
  | nil => rfl
  | append_singleton rs r ih =>
    rw [Disk.device.after_concat]
    unfold lastWrite at ih ⊢
    rw [List.foldl_append]
    cases r with
    | read m => exact ih
    | write m data =>
      simp only [Disk.device, Disk.writeRequest, List.foldl_cons, List.foldl_nil]
      by_cases hm : m = n
      · rw [if_pos hm, hm, Disk.sector_write_self]
        rfl
      · rw [if_neg hm, Disk.sector_write_of_ne _ _ (Ne.symm hm)]
        exact ih

/-- **An atomic sector store.** For any number of threads and any times of the
interrupts: no `ASSERT` fails; the interrupts come one for each request and in
their order, each lets one call go on, the one of its request, and a call
returns after that; and a read returns what the last write before its request
has put into the sector, or what was there at first. -/
theorem atomic_sector_store {host : Option Bytes.Store} {x : Disk} (hx : Disk.new host = some x)
    {s : SynchDisk} (hr : Reach x s) :
    s.aborted = false ∧ s.mon.aborted = false ∧
      s.delivered ++ s.scheduled = List.range s.issued.length ∧
      s.released <+: s.delivered ∧
      (∀ k ∈ s.delivered, k ∉ s.released → s.semaphore = ⟨1, []⟩ ∧ ∃ t a, s.pc t = .waiting k a) ∧
      s.returned.map Prod.fst <+: s.released ∧
      ∀ k a, (k, a) ∈ s.returned → ∃ r, s.issued[k]? = some (r, a) ∧ ∀ n, r = .read n →
        a = some ((lastWrite ((s.issued.take k).map Prod.fst) n).getD
          (Disk.sector x.fileno n)) := by
  have hok : ∀ rs r, (∀ r' ∈ rs, Disk.InRange r') → Disk.InRange r →
      Disk.device.ok (Disk.device.after x rs) r = true := by
    intro rs r _ hr
    have hactive : (Disk.device.after x rs).active = false := Disk.active_after (Disk.active_new hx)
    show (!(Disk.device.after x rs).active && decide (Disk.InRange r)) = true
    rw [hactive, decide_eq_true hr]
    rfl
  have h := SynchDevice.synchronous hok hr
  refine ⟨h.aborted.1, h.aborted.2, h.interrupts, h.released, h.next, h.returned, fun k a hka => ?_⟩
  obtain ⟨r, hk⟩ := h.answer (k, a) hka
  refine ⟨r, hk, fun n hn => ?_⟩
  obtain ⟨hlt, hget⟩ := List.getElem?_eq_some_iff.mp hk
  have hsplit : s.issued = s.issued.take k ++ (r, a) :: s.issued.drop (k + 1) := by
    rw [← hget, ← List.drop_eq_getElem_cons hlt, List.take_append_drop]
  have ha := h.sequential _ _ _ _ hsplit
  subst hn
  rw [ha, ← sector_after]
  rfl

set_option maxRecDepth 20000 in
/-- Thread 2 asks for the sector that thread 1 is writing. -/
theorem atomic_sector_store_overlap :
    ∃ s : SynchDisk, Disk.new none = some Disk.create ∧ Reach Disk.create s ∧
    s.issued[1]?.map Prod.fst = some (.read 3) ∧ s.returned.map Prod.fst <+: s.released ∧
    s.returned = [(0, none), (1, some ⟨List.replicate 128 7, rfl⟩)] := by
  obtain ⟨s, hs, ht⟩ := Runs.Reach.of_exec step (· = SynchDevice.initial Disk.create) rfl
    [writeSector 1 3 ⟨List.replicate 128 7, rfl⟩, .run 1, .run 1, readSector 2 3, .run 1,
      .interrupt 0, .run 1, .run 1, .run 2, .run 2, .run 2, .interrupt 1, .run 2, .run 2]
    (Runs.Along.of_along (c := fun s l => SynchDevice.Calls Disk.InRange s l)
      (fun _ _ h => of_decide_eq_true h) _ _
      (by decide))
    (fun s => s.issued[1]?.map Prod.fst = some (.read 3) ∧
      s.returned = [(0, none), (1, some ⟨List.replicate 128 7, rfl⟩)]) (by decide)
  simp only [decide_eq_true_eq] at ht
  have hret := (atomic_sector_store (show Disk.new none = some Disk.create from rfl) hs).2.2.2.2.2.1
  exact ⟨s, rfl, hs, ht.1, hret, ht.2⟩

end SynchDisk
end Nachos
