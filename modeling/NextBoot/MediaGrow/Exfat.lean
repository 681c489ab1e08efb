import NextBoot.MediaGrow.Gpt

namespace NextBoot.MediaGrow

open Results Words Bytes BlockStore

def exfatBootBackupLba : Nat := 12

def exfatBootRegionSectors : Nat := 12

def exfatAllocationBitmapEntry : UInt8 := 0x81

def exfatClusterEoc : Nat := 0xffffffff

def exfatJump : List UInt8 := [0xeb, 0x76, 0x90]

def exfatName : List UInt8 := asciiBytes ['E', 'X', 'F', 'A', 'T', ' ', ' ', ' ']

structure GrowthPlan where
  volumeBlocks : Nat
  clusterCount : Nat
deriving DecidableEq, Repr

structure ExfatGrowth where
  oldBlocks : Nat
  newBlocks : Nat
  clusterCount : Nat
deriving DecidableEq, Repr

def planGrowth (oldBlocks availableBlocks heapOffset sectorsPerCluster fatCapacity : Nat) :
    Except GrowError GrowthPlan := do
  rejectIf (availableBlocks < oldBlocks) "refusing to shrink existing exFAT volume"
  rejectIf (¬ sectorsPerCluster.isPowerOfTwo ∨ oldBlocks ≤ heapOffset) "invalid exFAT growth geometry"
  let capacity := min fatCapacity (2 ^ 32 - 1 - 2)
  rejectIf ((oldBlocks - heapOffset) / sectorsPerCluster > capacity) "existing exFAT clusters exceed FAT capacity"
  let capacityBlocks ← okOr ((checkedMul 64 capacity sectorsPerCluster).bind (checkedAdd 64 · heapOffset))
    "exFAT growth overflows"
  -- Trailing sectors that do not form a full cluster stay in the volume on a no-op run.
  let volumeBlocks := min availableBlocks (max capacityBlocks oldBlocks)
  let clusterCount := (volumeBlocks - heapOffset) / sectorsPerCluster
  rejectIf (clusterCount < 16) "expanded exFAT cluster count is too small"
  return ⟨volumeBlocks, clusterCount % 2 ^ 32⟩

/-- What an accepted growth plan says about its inputs. -/
structure PlanAccepted (oldBlocks availableBlocks heapOffset sectorsPerCluster fatCapacity : Nat)
    (plan : GrowthPlan) : Prop where
  noShrink : oldBlocks ≤ availableBlocks
  powerOfTwo : sectorsPerCluster.isPowerOfTwo
  heapInside : heapOffset < oldBlocks
  oldFits : (oldBlocks - heapOffset) / sectorsPerCluster ≤ min fatCapacity (2 ^ 32 - 1 - 2)
  capacityFits : min fatCapacity (2 ^ 32 - 1 - 2) * sectorsPerCluster + heapOffset < 2 ^ 64
  volumeBlocks : plan.volumeBlocks =
    min availableBlocks (max (min fatCapacity (2 ^ 32 - 1 - 2) * sectorsPerCluster + heapOffset) oldBlocks)
  clusterCount : plan.clusterCount = (plan.volumeBlocks - heapOffset) / sectorsPerCluster
  enough : 16 ≤ (plan.volumeBlocks - heapOffset) / sectorsPerCluster

theorem grown_fits (available : Nat) {heap perCluster capacity old : Nat} (hpos : 0 < perCluster)
    (hold : (old - heap) / perCluster ≤ capacity) :
    (min available (max (capacity * perCluster + heap) old) - heap) / perCluster ≤ capacity := by
  rcases Nat.le_total old (capacity * perCluster + heap) with hle | hle
  · have hsub : min available (max (capacity * perCluster + heap) old) - heap ≤ perCluster * capacity := by
      rw [Nat.mul_comm perCluster capacity]
      omega
    exact (Nat.div_le_div_right hsub).trans (Nat.mul_div_cancel_left capacity hpos).le
  · have hsub : min available (max (capacity * perCluster + heap) old) - heap ≤ old - heap := by omega
    exact (Nat.div_le_div_right hsub).trans hold

theorem planGrowth_eq_ok {oldBlocks availableBlocks heapOffset sectorsPerCluster fatCapacity : Nat}
    {plan : GrowthPlan} :
    planGrowth oldBlocks availableBlocks heapOffset sectorsPerCluster fatCapacity = .ok plan ↔
      PlanAccepted oldBlocks availableBlocks heapOffset sectorsPerCluster fatCapacity plan := by
  simp only [planGrowth, bind_eq_ok, okOr_eq_ok, rejectIf_eq_ok, pure_eq_ok, Option.bind_eq_some_iff,
    checkedMul_eq_some, checkedAdd_eq_some]
  constructor
  · rintro ⟨_, hshrink, _, hgeo, _, hold, _, ⟨_, ⟨_, rfl⟩, hcap, rfl⟩, _, hmin, rfl⟩
    have hpow : sectorsPerCluster.isPowerOfTwo := by tauto
    have hfit := grown_fits availableBlocks (Nat.pos_of_isPowerOfTwo hpow) (Nat.not_lt.mp hold)
    refine ⟨by omega, hpow, by omega, by omega, hcap, rfl, ?_, by simpa using hmin⟩
    exact Nat.mod_eq_of_lt (by omega)
  · rintro ⟨hshrink, hpow, hheap, hold, hcap, hvol, hcount, hmin⟩
    have hfit := grown_fits availableBlocks (Nat.pos_of_isPowerOfTwo hpow) hold
    rw [← hvol] at hfit
    refine ⟨(), by omega, (), by simp [hpow, hheap], (), by omega, _, ⟨_, ⟨by omega, rfl⟩, hcap, rfl⟩, (), ?_, ?_⟩
    · rw [← hvol]
      omega
    · rw [← hvol, Nat.mod_eq_of_lt (by omega), ← hcount]

/-- A grown volume is not grown again: the plan is a fixed point. -/
theorem PlanAccepted.again {oldBlocks availableBlocks heapOffset sectorsPerCluster fatCapacity : Nat}
    {plan : GrowthPlan}
    (h : PlanAccepted oldBlocks availableBlocks heapOffset sectorsPerCluster fatCapacity plan) :
    PlanAccepted plan.volumeBlocks availableBlocks heapOffset sectorsPerCluster fatCapacity plan := by
  have hfit := grown_fits availableBlocks (Nat.pos_of_isPowerOfTwo h.powerOfTwo) h.oldFits
  have hv := h.volumeBlocks
  have hns := h.noShrink
  have hh := h.heapInside
  rw [← hv] at hfit
  exact ⟨by omega, h.powerOfTwo, by omega, hfit, h.capacityFits, by omega, h.clusterCount, h.enough⟩

def exfatShift (boot : List UInt8) (offset : Nat) (missing invalid : String) : Except GrowError Nat := do
  let shift ← okOr boot[offset]? missing
  okOr (checkedShlOne 64 shift.toNat) invalid

def bytesPerSector (boot : List UInt8) : Except GrowError Nat :=
  exfatShift boot 108 "missing exFAT sector shift" "invalid exFAT sector shift"

def sectorsPerCluster (boot : List UInt8) : Except GrowError Nat :=
  exfatShift boot 109 "missing exFAT cluster shift" "invalid exFAT cluster shift"

def planExfatGrowth (m : Media) (data : PartitionInfo) (availableBlocks : Nat) : Except GrowError ExfatGrowth := do
  let boot ← readBlocks m data.startLba 1
  rejectIf (slice boot 0 3 ≠ some exfatJump ∨ slice boot 3 8 ≠ some exfatName) "NEXTDATA is not exFAT"
  let partitionOffset ← okOr (readLeU64 boot 64) "missing exFAT partition offset"
  rejectIf (partitionOffset ≠ data.startLba) "exFAT partition offset does not match GPT"
  let sectorBytes ← bytesPerSector boot
  rejectIf (sectorBytes ≠ m.blockSize) "exFAT sector size does not match media"
  let perCluster ← sectorsPerCluster boot
  let fatLength ← okOr (readLeU32 boot 84) "missing exFAT FAT length"
  let clusterHeapOffset ← okOr (readLeU32 boot 88) "missing exFAT cluster heap offset"
  rejectIf (fatLength = 0 ∨ clusterHeapOffset ≤ 24 ∨ availableBlocks ≤ clusterHeapOffset)
    "invalid growable exFAT geometry"
  let fatCapacity ← okOr ((checkedMul 64 fatLength m.blockSize).bind fun bytes => checkedSub (bytes / 4) 2)
    "invalid exFAT FAT capacity"
  let oldBlocks ← okOr (readLeU64 boot 72) "missing exFAT volume length"
  let plan ← planGrowth oldBlocks availableBlocks clusterHeapOffset perCluster fatCapacity
  return ⟨oldBlocks, plan.volumeBlocks, plan.clusterCount⟩

/-- What an accepted boot sector says about the volume it starts and how far that can grow. -/
structure VolumeAccepted (boot : List UInt8) (blockSize startLba availableBlocks : Nat) (growth : ExfatGrowth) :
    Prop where
  jump : slice boot 0 3 = some exfatJump
  name : slice boot 3 8 = some exfatName
  partitionOffset : readLeU64 boot 64 = some startLba
  sectorBytes : bytesPerSector boot = .ok blockSize
  oldBlocks : readLeU64 boot 72 = some growth.oldBlocks
  geometry : ∃ perCluster fatLength heap, sectorsPerCluster boot = .ok perCluster ∧
    readLeU32 boot 84 = some fatLength ∧ readLeU32 boot 88 = some heap ∧ 0 < fatLength ∧ 24 < heap ∧
    heap < availableBlocks ∧ fatLength * blockSize < 2 ^ 64 ∧ 2 ≤ fatLength * blockSize / 4 ∧
    PlanAccepted growth.oldBlocks availableBlocks heap perCluster (fatLength * blockSize / 4 - 2)
      ⟨growth.newBlocks, growth.clusterCount⟩

theorem planExfatGrowth_eq_ok {m : Media} {data : PartitionInfo} {availableBlocks : Nat} {growth : ExfatGrowth}
    (hbs : m.blockSize < 2 ^ 64) :
    planExfatGrowth m data availableBlocks = .ok growth ↔
      data.startLba ≤ m.lastBlock ∧
        VolumeAccepted (m.blocks data.startLba 1) m.blockSize data.startLba availableBlocks growth := by
  simp only [planExfatGrowth, bind_eq_ok, okOr_eq_ok, rejectIf_eq_ok, pure_eq_ok, Option.bind_eq_some_iff,
    checkedMul_eq_some, checkedSub_eq_some, readBlocks_eq_ok, planGrowth_eq_ok, Nat.one_mul]
  constructor
  · rintro ⟨boot, ⟨_, hin, rfl⟩, _, hmagic, off, hoff, _, hstart, sec, hsec, _, hsize, per, hper, fatl, hfat, heap, hheap,
      _, hgeo, cap, ⟨_, ⟨hmul, rfl⟩, hcap, rfl⟩, old, hold, plan, hplan, rfl⟩
    simp only [not_or, not_not] at hmagic hstart hsize hgeo
    subst hstart hsize
    exact ⟨by omega, hmagic.1, hmagic.2, hoff, hsec, hold, per, fatl, heap, hper, hfat, hheap, by omega, by omega,
      by omega, hmul, hcap, hplan⟩
  · rintro ⟨hin, hjump, hname, hoff, hsec, hold, per, fatl, heap, hper, hfat, hheap, hpos, hlo, hhi, hmul, hcap, hplan⟩
    exact ⟨_, ⟨hbs, by omega, rfl⟩, (), by simp [hjump, hname], _, hoff, (), by simp, _, hsec, (), by simp, per, hper,
      fatl, hfat, heap, hheap, (), by omega, _, ⟨_, ⟨hmul, rfl⟩, hcap, rfl⟩, _, hold, _, hplan, rfl⟩

end NextBoot.MediaGrow
