/-
# The latency of a disk request (`machine/disk.cc`)

The disk turns by one sector every `RotationTime` ticks, so sector `k` of the
track passes under the head from `RotationTime * k` on, for all `k` that are
the same modulo `SectorsPerTrack`. `ComputeLatency` seeks, waits for the next
sector boundary, waits until the sector comes and lets it pass; a read from
the track that the head is on may find the sector in the track buffer.

Here the formula is compared with what it is to mean. The completion time is
the first time at which the sector has just passed under the head
(`Passed`), counted from the end of the seek (`completion_isLeast`), and the
buffer is used just when the sector has passed since the buffer was started
(`inTrackBuffer_iff`). What is assumed of a request, the last one has left
(`Ready.request`), so it holds of every request of a run (`ready_serve`).

Key definitions: `DiskHead.timeToSeek`, `DiskHead.computeLatency`, `DiskHead.updateLast`,
`DiskHead.Passed`, `DiskHead.Ready`.
Key theorems: `DiskHead.timeToSeek_isLeast`, `DiskHead.disk_latency`, `DiskHead.Ready.request`.
-/
import Mathlib
import Nachos.Filesys.SynchDisk
import Nachos.Machine.Interrupt

namespace Nachos

open Disk (sectorsPerTrack numSectors)

/-- `RotationTime` of `stats.h`: a sector passes under the head. -/
def rotationTime : ℤ := 500
/-- `SeekTime` of `stats.h`: the head passes a track. -/
def seekTime : ℤ := 500

/-- What `class Disk` remembers for the latency of the next request. -/
structure DiskHead where
  /-- the previous disk request -/
  lastSector : ℤ
  /-- when the track buffer started being loaded -/
  bufferInit : ℤ

namespace DiskHead

/-- `Disk::Disk`. -/
def new : DiskHead := ⟨0, 0⟩

/-- `Disk::TimeToSeek`: the time to get to the new track, and `*rotation`. -/
def timeToSeek (x : DiskHead) (totalTicks newSector : ℤ) : ℤ × ℤ :=
  let newTrack := newSector.tdiv sectorsPerTrack
  let oldTrack := x.lastSector.tdiv sectorsPerTrack
  let seek := |newTrack - oldTrack| * seekTime
  let «over» := (totalTicks + seek).tmod rotationTime
  (seek, if «over» > 0 then rotationTime - «over» else 0)

/-- `Disk::ModuloDiff`. -/
def moduloDiff («to» «from» : ℤ) : ℤ :=
  let toOffset := «to».tmod sectorsPerTrack
  let fromOffset := «from».tmod sectorsPerTrack
  ((toOffset - fromOffset) + sectorsPerTrack).tmod sectorsPerTrack

/-- `timeAfter` of `ComputeLatency`. -/
def timeAfter (x : DiskHead) (totalTicks newSector : ℤ) : ℤ :=
  totalTicks + (x.timeToSeek totalTicks newSector).1 + (x.timeToSeek totalTicks newSector).2

/-- Does the track buffer apply? -/
def InTrackBuffer (x : DiskHead) (totalTicks newSector : ℤ) (writing : Bool) : Prop :=
  writing = false ∧ (x.timeToSeek totalTicks newSector).1 = 0 ∧
    (x.timeAfter totalTicks newSector - x.bufferInit).tdiv rotationTime >
      moduloDiff newSector (x.bufferInit.tdiv rotationTime)

instance (x : DiskHead) (totalTicks newSector : ℤ) (writing : Bool) :
    Decidable (x.InTrackBuffer totalTicks newSector writing) := inferInstanceAs (Decidable (_ ∧ _))

/-- `Disk::ComputeLatency`. -/
def computeLatency (x : DiskHead) (totalTicks newSector : ℤ) (writing : Bool) : ℤ :=
  let (seek, rotation) := x.timeToSeek totalTicks newSector
  if x.InTrackBuffer totalTicks newSector writing then rotationTime
  else
    let rotation := rotation +
      moduloDiff newSector ((x.timeAfter totalTicks newSector).tdiv rotationTime) * rotationTime
    seek + rotation + rotationTime

/-- `Disk::UpdateLast`. -/
def updateLast (x : DiskHead) (totalTicks newSector : ℤ) : DiskHead :=
  let (seek, rotate) := x.timeToSeek totalTicks newSector
  { lastSector := newSector
    bufferInit := if seek ≠ 0 then totalTicks + seek + rotate else x.bufferInit }

/-! ### What the formula is to mean -/

/-- At time `T`, a sector boundary, the head has just passed over sector `n`
of its track. -/
def Passed (n T : ℤ) : Prop :=
  rotationTime ∣ T ∧ (T / rotationTime - 1) % sectorsPerTrack = n % sectorsPerTrack

/-- The sector boundaries from `t` on. -/
def boundaries (t : ℤ) : Set ℤ := {T | rotationTime ∣ T ∧ t ≤ T}

variable {x : DiskHead} {t n : ℤ} {writing : Bool}

/-- The disk is ready for a request at time `t`. -/
structure Ready (x : DiskHead) (t : ℤ) : Prop where
  lastSector : 0 ≤ x.lastSector ∧ x.lastSector < numSectors
  started : 0 ≤ x.bufferInit ∧ x.bufferInit ≤ t
  boundary : rotationTime ∣ x.bufferInit

theorem seek_eq (hl : 0 ≤ x.lastSector) (hn : 0 ≤ n) : (x.timeToSeek t n).1 =
    |n / sectorsPerTrack - x.lastSector / sectorsPerTrack| * seekTime := by
  rw [timeToSeek, Int.tdiv_eq_ediv_of_nonneg hn, Int.tdiv_eq_ediv_of_nonneg hl]

theorem seek_nonneg (x : DiskHead) (t n : ℤ) : 0 ≤ (x.timeToSeek t n).1 :=
  mul_nonneg (abs_nonneg _) (by decide)

/-- No seek: the sector is on the track of the last one. -/
theorem seek_eq_zero_iff (hl : 0 ≤ x.lastSector) (hn : 0 ≤ n) :
    (x.timeToSeek t n).1 = 0 ↔ n / sectorsPerTrack = x.lastSector / sectorsPerTrack := by
  rw [seek_eq hl hn, mul_eq_zero, abs_eq_zero, sub_eq_zero]
  exact or_iff_left (by decide)

/-- **The next boundary.** After the seek, `*rotation` ticks lead to the first
sector boundary. -/
theorem timeToSeek_isLeast (ht : 0 ≤ t) :
    IsLeast (boundaries (t + (x.timeToSeek t n).1)) (x.timeAfter t n) := by
  have hs := seek_nonneg x t n
  unfold timeAfter
  set s := (x.timeToSeek t n).1 with hseek
  have hrot : (x.timeToSeek t n).2 =
      if (t + s) % rotationTime > 0 then rotationTime - (t + s) % rotationTime else 0 := by
    rw [← Int.tmod_eq_emod_of_nonneg (by omega : 0 ≤ t + s)]
    rfl
  rw [hrot]
  unfold boundaries rotationTime
  constructor
  · constructor
    · split_ifs <;> omega
    · split_ifs <;> omega
  · rintro T ⟨hT, hle⟩
    split_ifs <;> omega

theorem rotation_bounds (ht : 0 ≤ t) :
    0 ≤ (x.timeToSeek t n).2 ∧ (x.timeToSeek t n).2 < rotationTime := by
  have hs := seek_nonneg x t n
  have hmod : 0 ≤ (t + (x.timeToSeek t n).1).tmod rotationTime := Int.tmod_nonneg _ (by omega)
  have hlt : (t + (x.timeToSeek t n).1).tmod rotationTime < rotationTime :=
    Int.tmod_lt_of_pos _ (by decide)
  have hrot : (x.timeToSeek t n).2 =
      if (t + (x.timeToSeek t n).1).tmod rotationTime > 0 then
        rotationTime - (t + (x.timeToSeek t n).1).tmod rotationTime
      else 0 := rfl
  rw [hrot]
  split_ifs <;> omega

/-- The sectors that pass until the target comes. -/
theorem moduloDiff_spec {k : ℤ} (hn : 0 ≤ n) (hk : 0 ≤ k) :
    0 ≤ moduloDiff n k ∧ moduloDiff n k < sectorsPerTrack ∧
      (k + moduloDiff n k) % sectorsPerTrack = n % sectorsPerTrack := by
  have hm : moduloDiff n k = (n % sectorsPerTrack - k % sectorsPerTrack + sectorsPerTrack) %
      sectorsPerTrack := by
    rw [moduloDiff, Int.tmod_eq_emod_of_nonneg hn, Int.tmod_eq_emod_of_nonneg hk,
      Int.tmod_eq_emod_of_nonneg (by unfold sectorsPerTrack; omega)]
  rw [hm]
  unfold sectorsPerTrack
  omega

/-- Of the sectors from `k` on that are the same as `n`, this is the first. -/
theorem moduloDiff_le {k j : ℤ} (hn : 0 ≤ n) (hk : 0 ≤ k) (hj : k ≤ j)
    (hmod : j % sectorsPerTrack = n % sectorsPerTrack) : k + moduloDiff n k ≤ j := by
  obtain ⟨h0, h1, h2⟩ := moduloDiff_spec hn hk
  unfold sectorsPerTrack at *
  omega

/-! ### The latency -/

theorem latency_of_not_inTrackBuffer (h : ¬ x.InTrackBuffer t n writing) :
    t + x.computeLatency t n writing =
      x.timeAfter t n + moduloDiff n ((x.timeAfter t n).tdiv rotationTime) * rotationTime +
    rotationTime := by
  simp only [computeLatency, if_neg h, timeAfter]
  ring

theorem latency_of_inTrackBuffer (h : x.InTrackBuffer t n writing) :
    x.computeLatency t n writing = rotationTime :=
  if_pos h

/-- The head stands at a boundary when it starts to wait for the sector. -/
theorem timeAfter_eq (ht : 0 ≤ t) : ∃ k, 0 ≤ k ∧ x.timeAfter t n = rotationTime * k ∧
    (x.timeAfter t n).tdiv rotationTime = k := by
  have hs := seek_nonneg x t n
  obtain ⟨⟨⟨k, hk⟩, hle⟩, -⟩ := timeToSeek_isLeast (x := x) (n := n) ht
  have h0 : 0 ≤ x.timeAfter t n := by omega
  refine ⟨k, ?_, hk, ?_⟩
  · unfold rotationTime at hk
    omega
  · rw [hk]
    exact Int.mul_tdiv_cancel_left k (by decide)

/-- **The completion time** is the first at which the sector has just passed
under the head, once the seek is over. -/
theorem completion_isLeast (ht : 0 ≤ t) (hn : 0 ≤ n) (h : ¬ x.InTrackBuffer t n writing) :
    IsLeast {T | Passed n T ∧ t + (x.timeToSeek t n).1 + rotationTime ≤ T}
    (t + x.computeLatency t n writing) := by
  obtain ⟨k, hk0, hk, hdiv⟩ := timeAfter_eq (x := x) (n := n) ht
  obtain ⟨⟨-, hle⟩, hleast⟩ := timeToSeek_isLeast (x := x) (n := n) ht
  obtain ⟨h0, h1, h2⟩ := moduloDiff_spec hn hk0
  have hT : t + x.computeLatency t n writing = rotationTime * (k + moduloDiff n k + 1) := by
    rw [latency_of_not_inTrackBuffer h, hdiv, hk]
    ring
  rw [hT]
  constructor
  · refine ⟨⟨dvd_mul_right _ _, ?_⟩, ?_⟩
    · rw [Int.mul_ediv_cancel_left _ (by decide), add_sub_cancel_right]
      exact h2
    · rw [hk] at hle
      unfold rotationTime at *
      omega
  · -- a boundary at which the sector has passed: it began to pass at one after the seek
    rintro T ⟨⟨⟨q, rfl⟩, hq⟩, hT⟩
    rw [Int.mul_ediv_cancel_left _ (by decide)] at hq
    have hb : rotationTime * (q - 1) ∈ boundaries (t + (x.timeToSeek t n).1) := by
      refine ⟨dvd_mul_right _ _, ?_⟩
      rw [mul_sub, mul_one]
      omega
    have hkq := hleast hb
    rw [hk] at hkq
    have hle' := moduloDiff_le hn hk0 (by unfold rotationTime at hkq; omega : k ≤ q - 1) hq
    unfold rotationTime
    omega

theorem latency_le (ht : 0 ≤ t) (hn : 0 ≤ n) (h : ¬ x.InTrackBuffer t n writing) :
    x.computeLatency t n writing ≤ (x.timeToSeek t n).1 + sectorsPerTrack * rotationTime +
    rotationTime - 1 := by
  obtain ⟨k, hk0, -, hdiv⟩ := timeAfter_eq (x := x) (n := n) ht
  obtain ⟨-, h1, -⟩ := moduloDiff_spec hn hk0
  obtain ⟨-, hr⟩ := rotation_bounds (x := x) (n := n) ht
  have hT := latency_of_not_inTrackBuffer h
  rw [hdiv, timeAfter] at hT
  unfold rotationTime sectorsPerTrack at *
  omega

theorem latency_pos (ht : 0 ≤ t) (hn : 0 ≤ n) (writing : Bool) :
    0 < x.computeLatency t n writing := by
  by_cases h : x.InTrackBuffer t n writing
  · rw [latency_of_inTrackBuffer h]
    decide
  · have hs := seek_nonneg x t n
    have hle := (completion_isLeast ht hn h).1.2
    unfold rotationTime at hle
    omega

/-- **The track buffer** has the sector if all of it has passed under the head
since the buffer was started, on the way to the next boundary. -/
theorem inTrackBuffer_iff (hx : x.Ready t) (hn : 0 ≤ n) : x.InTrackBuffer t n writing ↔
    writing = false ∧ n / sectorsPerTrack = x.lastSector / sectorsPerTrack ∧
      ∃ k b, IsLeast (boundaries t) b ∧ x.bufferInit ≤ rotationTime * k ∧
      rotationTime * (k + 1) ≤ b ∧
        k % sectorsPerTrack = n % sectorsPerTrack := by
  have ht : 0 ≤ t := hx.started.1.trans hx.started.2
  obtain ⟨a, -, ha, -⟩ := timeAfter_eq (x := x) (n := n) ht
  obtain ⟨c, hc⟩ := hx.boundary
  have hc0 : 0 ≤ c := by
    have := hx.started.1
    unfold rotationTime at hc
    omega
  have hleast := timeToSeek_isLeast (x := x) (n := n) ht
  unfold InTrackBuffer
  rw [← seek_eq_zero_iff (t := t) hx.lastSector.1 hn]
  refine and_congr_right fun _ => and_congr_right fun hs => ?_
  rw [hs, add_zero] at hleast
  rw [ha, hc, ← mul_sub, Int.mul_tdiv_cancel_left _ (by decide), Int.mul_tdiv_cancel_left _
    (by decide)]
  constructor
  · intro hlt
    obtain ⟨h0, -, h2⟩ := moduloDiff_spec hn hc0
    refine ⟨c + moduloDiff n c, rotationTime * a, ha ▸ hleast, ?_, ?_, h2⟩
    · unfold rotationTime
      omega
    · unfold rotationTime
      omega
  · rintro ⟨k, b, hb, hk, hkb, hmod⟩
    have hba : b = rotationTime * a := hb.unique (ha ▸ hleast)
    rw [hba] at hkb
    unfold rotationTime at hk hkb
    have hle := moduloDiff_le hn hc0 (by omega : c ≤ k) hmod
    omega

/-- **A request leaves the disk ready** for the next one, which comes when this
one is over. -/
theorem Ready.request (hx : x.Ready t) (hn : 0 ≤ n ∧ n < numSectors) (writing : Bool) {t' : ℤ}
    (ht' : t + x.computeLatency t n writing ≤ t') : (x.updateLast t n).Ready t' := by
  have ht : 0 ≤ t := hx.started.1.trans hx.started.2
  have hpos := latency_pos (x := x) ht hn.1 writing
  obtain ⟨k, hk0, hk, hdiv⟩ := timeAfter_eq (x := x) (n := n) ht
  by_cases hs : (x.timeToSeek t n).1 = 0
  · have hb : (x.updateLast t n).bufferInit = x.bufferInit := if_neg (not_not.mpr hs)
    refine ⟨hn, ?_, hb ▸ hx.boundary⟩
    rw [hb]
    exact ⟨hx.started.1, by have := hx.started.2; omega⟩
  · have hb : (x.updateLast t n).bufferInit = x.timeAfter t n := if_pos hs
    have hno : ¬ x.InTrackBuffer t n writing := fun h => hs h.2.1
    have hT := latency_of_not_inTrackBuffer hno
    obtain ⟨h0, -, -⟩ := moduloDiff_spec hn.1 hk0
    rw [hdiv] at hT
    refine ⟨hn, ?_, ?_⟩
    · rw [hb]
      unfold rotationTime at *
      omega
    · rw [hb, hk]
      exact dvd_mul_right _ _

theorem ready_new {t : ℤ} (ht : 0 ≤ t) : new.Ready t :=
  ⟨⟨le_refl 0, by decide⟩, ⟨le_refl 0, ht⟩, dvd_zero _⟩

/-- A disk that serves requests one after the other, each some ticks after the
one before is over. -/
def serve : DiskHead → ℤ → List (ℤ × Bool × ℕ) → DiskHead × ℤ
  | x, t, [] => (x, t)
  | x, t, (n, writing, idle) :: requests =>
    serve (x.updateLast t n) (t + x.computeLatency t n writing + idle) requests

/-- The disk is ready for each request of a run. -/
theorem ready_serve (requests : List (ℤ × Bool × ℕ)) (hx : x.Ready t)
    (hn : ∀ r ∈ requests, 0 ≤ r.1 ∧ r.1 < numSectors) :
    (serve x t requests).1.Ready (serve x t requests).2 := by
  induction requests generalizing x t with
  | nil => exact hx
  | cons r requests ih =>
    obtain ⟨n, writing, idle⟩ := r
    rw [List.forall_mem_cons] at hn
    obtain ⟨hn, hrest⟩ := hn
    have hlater : t + x.computeLatency t n writing ≤ t + x.computeLatency t n writing + idle :=
      Int.le_add_of_nonneg_right (Int.natCast_nonneg idle)
    exact ih (hx.request hn writing hlater) hrest

/-- **Disk latency.** -/
theorem disk_latency (hx : x.Ready t) (hn : 0 ≤ n ∧ n < numSectors) (writing : Bool) :
    -- the `ASSERT` of `Schedule`
    (0 < x.computeLatency t n writing ∧
      ∀ (s : Interrupt) toCall,
        (s.schedule toCall (x.computeLatency t n writing) .diskInt).isSome) ∧
    -- without the track buffer
    (¬ x.InTrackBuffer t n writing →
      IsLeast {T | Passed n T ∧ t + (x.timeToSeek t n).1 + rotationTime ≤ T}
        (t + x.computeLatency t n writing) ∧
      x.computeLatency t n writing ≤
        (x.timeToSeek t n).1 + sectorsPerTrack * rotationTime + rotationTime - 1) ∧
    -- with it
    (x.InTrackBuffer t n writing → x.computeLatency t n writing = rotationTime) ∧
    (x.InTrackBuffer t n writing ↔ writing = false ∧
      n / sectorsPerTrack = x.lastSector / sectorsPerTrack ∧
      ∃ k b, IsLeast (boundaries t) b ∧ x.bufferInit ≤ rotationTime * k ∧
        rotationTime * (k + 1) ≤ b ∧ k % sectorsPerTrack = n % sectorsPerTrack) := by
  have ht : 0 ≤ t := hx.started.1.trans hx.started.2
  have hpos := latency_pos (x := x) ht hn.1 writing
  refine ⟨⟨hpos, fun s toCall => ?_⟩, fun h => ⟨completion_isLeast ht hn.1 h, latency_le ht hn.1 h⟩,
    latency_of_inTrackBuffer, inTrackBuffer_iff hx hn.1⟩
  simp only [Interrupt.schedule, gt_iff_lt, hpos, if_true, Option.isSome_some]

/-- A write to sector 70 at tick 1234: two tracks away, and round to the sector. -/
theorem disk_latency_write :
    Passed 70 (1234 + new.computeLatency 1234 70 true) ∧
    new.computeLatency 1234 70 true = 2266 := by
  have h := disk_latency (ready_new (by decide : (0 : ℤ) ≤ 1234)) (n := 70) (by decide) true
  exact ⟨(h.2.1 (by decide)).1.1.1, by decide⟩

end DiskHead

end Nachos
