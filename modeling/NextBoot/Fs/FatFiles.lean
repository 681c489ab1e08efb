import NextBoot.Fs.Fat32
import NextBoot.Fs.ExFat

namespace NextBoot.Fs

open Words BlockStore Tiling

variable {fuel : Nat} {info : FileInfo} {E : List FileExtent}

theorem Fat32.readsAsPlaced_iff {fs : Fat32} (hfits : fs.FitsDevice) (hsize : info.size < 2 ^ 64)
    (h : fs.fileExtents fuel info = some (.ok E)) :
    ReadsAsPlaced fs.io info.size E (fun offset len => some (fs.readFile info offset len)) ↔
      info.size + (fs.io.blockSize - 1) < 2 ^ 64 ∧
        (info.size = 0 ∨ info.startCluster % 2 ^ 32 < Fat32.endOfChain) := by
  have hpos := fs.blockSize_pos
  have hlt := fs.io.blockSize_lt
  rw [fileExtents] at h
  split at h
  · cases h
  · next hdir =>
      have hfile : info.isDir = false := by simpa using hdir
      constructor
      · rintro ⟨htiles, hreads⟩
        constructor
        · by_contra hwraps
          obtain rfl := ClusterMap.clusterChainExtents_wraps h hsize hlt hwraps
          have hzero : 0 = _ := htiles
          have hblocks := Nat.div_pos (show fs.io.blockSize ≤ info.size + (fs.io.blockSize - 1) by omega) hpos
          omega
        · by_contra hstray
          rw [not_or, Nat.not_lt] at hstray
          have hread := hreads 0 1 (by omega) (by omega)
          rw [readFile_stray hfile (by omega) hstray.2, Option.some.injEq, Except.ok.injEq] at hread
          have hlength := congrArg List.length hread
          rw [length_window, List.length_nil] at hlength
          omega
      · rintro ⟨hround, hstart⟩
        rcases Nat.eq_zero_or_pos info.size with hempty | hnonempty
        · rw [clusterChainExtents, ClusterMap.clusterChainExtents, if_pos hempty] at h
          obtain rfl : [] = E := by simpa using h
          refine ⟨?_, fun offset len _ _ => ?_⟩
          · rw [hempty, Nat.zero_add, Nat.div_eq_of_lt (by omega)]
            rfl
          · rw [readFile, if_neg hdir, if_pos (by omega), hempty, Nat.zero_sub, Nat.min_zero]
            rfl
        · have hwalked := ClusterMap.clusterChainExtents_walked h hnonempty hpos hround
          exact ⟨hwalked.tiles, fun offset len _ _ => by rw [readFile_ok hfits hfile hwalked (by omega)]⟩

theorem ExFat.readsAsPlaced_iff {fs : ExFat} (hfits : fs.FitsDevice info) (hsize : info.size < 2 ^ 64)
    (h : fs.fileExtents fuel info = some (.ok E)) :
    ReadsAsPlaced fs.io info.size E (fun offset len => fs.readFile fuel info offset len) ↔
      info.size + (fs.io.blockSize - 1) < 2 ^ 64 := by
  have hpos := fs.sectorSize_pos
  rw [fileExtents] at h
  split at h
  · cases h
  · next hdir =>
      have hfile : info.isDir = false := by simpa using hdir
      constructor
      · rintro ⟨htiles, -⟩
        by_contra hwraps
        exact extentsOf_wraps h hsize hwraps htiles
      · intro hround
        refine ⟨?_, fun offset len _ _ => readFile_ok hfits hfile h hround offset len⟩
        rcases Nat.eq_zero_or_pos info.size with hempty | hnonempty
        · have hnil : E = [] := by
            simpa [extentsOf, contiguousExtents, clusterChainExtents, ClusterMap.clusterChainExtents, hempty] using h
          rw [hnil, hempty, Nat.zero_add, Nat.div_eq_of_lt (by omega)]
          rfl
        · exact (extentsOf_placed hfits h hnonempty hround).1

/-- Extents against reading, on both flavours of FAT. -/
theorem fat_extents_agree (fat32 : Fat32) (exFat : ExFat) (fuel : Nat) (info : FileInfo) (E : List FileExtent)
    (hsize : info.size < 2 ^ 64) :
    (fat32.FitsDevice → fat32.fileExtents fuel info = some (.ok E) →
      (ReadsAsPlaced fat32.io info.size E (fun offset len => some (fat32.readFile info offset len)) ↔
        info.size + (fat32.io.blockSize - 1) < 2 ^ 64 ∧
          (info.size = 0 ∨ info.startCluster % 2 ^ 32 < Fat32.endOfChain))) ∧
    (exFat.FitsDevice info → exFat.fileExtents fuel info = some (.ok E) →
      (ReadsAsPlaced exFat.io info.size E (fun offset len => exFat.readFile fuel info offset len) ↔
        info.size + (exFat.io.blockSize - 1) < 2 ^ 64)) :=
  ⟨fun hfits h => Fat32.readsAsPlaced_iff hfits hsize h, fun hfits h => ExFat.readsAsPlaced_iff hfits hsize h⟩

/-- Blocks of eight bytes; the allocation table starts at block 1 and chains cluster 2 to 4, 4 to 3 and ends there. -/
def sampleFatDevice : BlockIo where
  blockSize := 8
  totalBlocks := 16
  bytes := fun i =>
    if i = 16 then 4 else if i = 24 then 3
    else if 20 ≤ i ∧ i < 24 then 0xFF else if 16 ≤ i ∧ i < 48 then 0 else UInt8.ofNat i
  blockSize_lt := by decide
  totalBlocks_lt := Words.sixteen_lt_u64

def sampleFat32 : Fat32 where
  io := sampleFatDevice
  sectorsPerCluster := 1
  fatStart := 1
  dataStart := 6
  rootCluster := 2
  totalClusters := 8
  blockSize_pos := by decide
  sectorsPerCluster_pos := Nat.one_pos

def sampleExFat : ExFat where
  io := sampleFatDevice
  clusterSize := 8
  totalClusters := 8
  rootCluster := 2
  fatOffset := 1
  clusterHeapOffset := 6
  sectorSize_pos := by decide

theorem sample_fat_extents_agree :
    ReadsAsPlaced sampleFatDevice 20 [⟨0, 6, 1⟩, ⟨1, 8, 1⟩, ⟨2, 7, 1⟩]
      (fun offset len => some (sampleFat32.readFile ⟨20, false, 2, false⟩ offset len)) ∧
    ReadsAsPlaced sampleFatDevice 20 [⟨0, 6, 3⟩]
      (fun offset len => sampleExFat.readFile 0 ⟨20, false, 2, true⟩ offset len) :=
  ⟨((fat_extents_agree sampleFat32 sampleExFat 4 ⟨20, false, 2, false⟩ _ (by decide)).1
      (by unfold Fat32.FitsDevice; decide) (by decide +kernel)).mpr (by decide),
    ((fat_extents_agree sampleFat32 sampleExFat 0 ⟨20, false, 2, true⟩ _ (by decide)).2
      (by unfold ExFat.FitsDevice; decide) (by decide +kernel)).mpr (by decide)⟩

/-- A volume of more clusters than FAT32 has numbers for. -/
def oversizedFat32 : Fat32 where
  io := {
    blockSize := 512
    totalBlocks := 0x20000000
    bytes := fun _ => 1
    blockSize_lt := Words.sector_lt_u32
    totalBlocks_lt := by decide }
  sectorsPerCluster := 1
  fatStart := 32
  dataStart := 0x800020
  rootCluster := 2
  totalClusters := 0x1F7FFFE0
  blockSize_pos := Words.sector_pos
  sectorsPerCluster_pos := Nat.one_pos

/-- Its one-byte file in cluster 0x0FFFFFF8 has an extent and no bytes. -/
theorem oversizedFat32_disagrees : ¬ ∀ E, oversizedFat32.FitsDevice →
    oversizedFat32.fileExtents 2 ⟨1, false, 0x0FFFFFF8, false⟩ = some (.ok E) →
      ReadsAsPlaced oversizedFat32.io 1 E
        (fun offset len => some (oversizedFat32.readFile ⟨1, false, 0x0FFFFFF8, false⟩ offset len)) := by
  intro h
  have hplaced := h [⟨0, 0x10800016, 1⟩] (by unfold Fat32.FitsDevice; decide) (by decide +kernel)
  have hread := hplaced.reads 0 1 (by decide) (by decide)
  have hempty : oversizedFat32.readFile ⟨1, false, 0x0FFFFFF8, false⟩ 0 1 = .ok [] :=
    Fat32.readFile_stray rfl (by decide) (by decide)
  rw [hempty] at hread
  exact absurd hread (by decide +kernel)

end NextBoot.Fs
