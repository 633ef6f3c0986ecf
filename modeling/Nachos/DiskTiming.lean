import Nachos.Devices
import Nachos.Lib.TwosComplement

namespace Nachos
open TwosComplement

def rotationTime : Int := 500
def seekTime : Int := 500

structure DiskHead where
  lastSector : Int
  bufferInit : Int
  deriving DecidableEq, Repr

namespace DiskHead

def seek (d : DiskHead) (newSector : Int) : Int :=
  let newTrack := newSector.tdiv sectorsPerTrack
  let oldTrack := d.lastSector.tdiv sectorsPerTrack
  (newTrack - oldTrack).natAbs * seekTime

/-- The `rotation` of `TimeToSeek`: the time from the end of the seek to the next sector
boundary. -/
def rotation (d : DiskHead) (totalTicks newSector : Int) : Int :=
  let past := (wrap (totalTicks + d.seek newSector)).tmod rotationTime
  if past > 0 then rotationTime - past else 0

def timeToSeek (d : DiskHead) (totalTicks newSector : Int) : Int × Int :=
  (d.seek newSector, d.rotation totalTicks newSector)

def moduloDiff (target start : Int) : Int :=
  let toOffset := target.tmod sectorsPerTrack
  let fromOffset := start.tmod sectorsPerTrack
  ((toOffset - fromOffset) + sectorsPerTrack).tmod sectorsPerTrack

def timeAfter (d : DiskHead) (totalTicks newSector : Int) : Int :=
  let (seek, rotation) := d.timeToSeek totalTicks newSector
  wrap (totalTicks + seek + rotation)

/-- The sector has gone past the head since the track buffer began to be loaded. -/
def trackBuffer (d : DiskHead) (totalTicks newSector : Int) (writing : Bool) : Bool :=
  !writing && decide (d.seek newSector = 0) &&
    decide ((wrap (d.timeAfter totalTicks newSector - d.bufferInit)).tdiv rotationTime >
      moduloDiff newSector (d.bufferInit.tdiv rotationTime))

def computeLatency (d : DiskHead) (totalTicks newSector : Int) (writing : Bool) : Int :=
  if d.trackBuffer totalTicks newSector writing then rotationTime
  else
    let (seek, rotation) := d.timeToSeek totalTicks newSector
    let distance := moduloDiff newSector ((d.timeAfter totalTicks newSector).tdiv rotationTime)
    seek + (rotation + distance * rotationTime) + rotationTime

variable {totalTicks newSector : Int}

theorem seek_nonneg (d : DiskHead) (newSector : Int) : 0 ≤ d.seek newSector :=
  mul_nonneg (Int.natCast_nonneg _) (by decide)

theorem rotation_nonneg (d : DiskHead) (totalTicks newSector : Int) :
    0 ≤ d.rotation totalTicks newSector := by
  have hlt := Int.tmod_lt_of_pos (wrap (totalTicks + d.seek newSector))
    (show 0 < rotationTime by decide)
  unfold rotation
  dsimp only
  split_ifs
  · omega
  · exact le_rfl

theorem rotation_spec (d : DiskHead) (newSector : Int) (hticks : 0 ≤ totalTicks)
    (hint : totalTicks + d.seek newSector ≤ intMax) :
    d.rotation totalTicks newSector < rotationTime ∧
      (totalTicks + d.seek newSector + d.rotation totalTicks newSector) % rotationTime = 0 := by
  have hseek := d.seek_nonneg newSector
  have hwrap : wrap (totalTicks + d.seek newSector) = totalTicks + d.seek newSector :=
    wrap_of_range (by omega) hint
  unfold rotation
  dsimp only
  rw [hwrap, Int.tmod_eq_emod_of_nonneg (by omega)]
  unfold rotationTime
  split_ifs <;> omega

theorem moduloDiff_spec {target start : Int} (htarget : 0 ≤ target) (hstart : 0 ≤ start) :
    0 ≤ moduloDiff target start ∧ moduloDiff target start < sectorsPerTrack ∧
      (start + moduloDiff target start) % sectorsPerTrack = target % sectorsPerTrack := by
  unfold moduloDiff
  dsimp only
  rw [Int.tmod_eq_emod_of_nonneg htarget, Int.tmod_eq_emod_of_nonneg hstart,
    Int.tmod_eq_emod_of_nonneg (by unfold sectorsPerTrack; omega)]
  unfold sectorsPerTrack
  omega

/-- A request takes at least the time of one sector, so that `Interrupt::Schedule` accepts it.
Without the track buffer it ends when the sector has gone past the head, within the seek, one
revolution and two sectors. -/
theorem latency_in_phase (d : DiskHead) (writing : Bool) (hticks : 0 ≤ totalTicks)
    (hsector : Disk.validSector newSector)
    (hint : totalTicks + d.seek newSector + d.rotation totalTicks newSector ≤ intMax) :
    rotationTime ≤ d.computeLatency totalTicks newSector writing ∧
    0 < d.computeLatency totalTicks newSector writing ∧
    (d.trackBuffer totalTicks newSector writing = false →
      (totalTicks + d.computeLatency totalTicks newSector writing) % rotationTime = 0 ∧
      (totalTicks + d.computeLatency totalTicks newSector writing) / rotationTime %
        sectorsPerTrack = (newSector + 1) % sectorsPerTrack ∧
      d.computeLatency totalTicks newSector writing ≤
        d.seek newSector + sectorsPerTrack * rotationTime + 2 * rotationTime) := by
  by_cases hbuffer : d.trackBuffer totalTicks newSector writing = true
  · rw [computeLatency, if_pos hbuffer]
    exact ⟨le_rfl, by decide, fun h => absurd hbuffer (by simp [h])⟩
  · have hseek := d.seek_nonneg newSector
    have hround := d.rotation_nonneg totalTicks newSector
    obtain ⟨hless, hboundary⟩ := d.rotation_spec newSector hticks (by omega)
    have hafter : d.timeAfter totalTicks newSector =
        totalTicks + d.seek newSector + d.rotation totalTicks newSector :=
      wrap_of_range (by omega) hint
    have hdiv : (d.timeAfter totalTicks newSector).tdiv rotationTime =
        d.timeAfter totalTicks newSector / rotationTime :=
      Int.tdiv_eq_ediv_of_nonneg (by omega)
    obtain ⟨hdiff, hdiff', hphase⟩ := moduloDiff_spec hsector.1
      (Int.ediv_nonneg (show 0 ≤ d.timeAfter totalTicks newSector by omega)
        (show 0 ≤ rotationTime by decide))
    rw [computeLatency, if_neg hbuffer, hdiv]
    dsimp only [timeToSeek]
    rw [hafter] at hdiff hdiff' hphase ⊢
    generalize moduloDiff newSector _ = distance at *
    unfold rotationTime sectorsPerTrack at *
    omega

/-- At tick 730 the disk is in sector 1 of a track.  A write to sector 33 waits for the seek of
one track, for the end of sector 2, and for 30 sectors until sector 1 comes round again. -/
theorem latency_in_phase_next_track :
    (DiskHead.mk 1 0).computeLatency 730 33 true = 16270 ∧
    (730 + (DiskHead.mk 1 0).computeLatency 730 33 true) / rotationTime % sectorsPerTrack = 2 := by
  obtain ⟨-, -, hphase⟩ := latency_in_phase (DiskHead.mk 1 0) true (show 0 ≤ (730 : Int) by decide)
    (show Disk.validSector 33 by decide) (by decide)
  exact ⟨by decide, (hphase (by decide)).2.1.trans (by decide)⟩

end DiskHead
end Nachos
