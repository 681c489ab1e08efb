import NextBoot.Tiling
import NextBoot.Vhdx.Device

namespace NextBoot.Vhdx

open Words Bytes Results Virtio.Mapping Virtio.BlockIo Virtio.DeviceReads Virtio.ReadSemantics

/-- A run of sectors with equal bits, in bytes from the start of its block. -/
structure SectorRun where
  present : Bool
  start : Nat
  byteCount : Nat
deriving DecidableEq, Repr

/-- The runs that the outer `while` loop over a bitmap maps, in its order. -/
def sectorRuns (bitmap : List UInt8) (logicalSector firstSector sectorCount byteCount sectorIndex : Nat) : List SectorRun :=
  if sectorIndex < sectorCount then
    let present := bitmapBitPresent bitmap (firstSector + sectorIndex)
    let next := runEnd bitmap firstSector present sectorCount (sectorIndex + 1)
    let runByteEnd := min (next * logicalSector) byteCount
    if sectorIndex * logicalSector ≥ runByteEnd then sectorRuns bitmap logicalSector firstSector sectorCount byteCount next
    else
      ⟨present, sectorIndex * logicalSector, runByteEnd - sectorIndex * logicalSector⟩ ::
        sectorRuns bitmap logicalSector firstSector sectorCount byteCount next
  else []
termination_by sectorCount - sectorIndex
decreasing_by
  all_goals
    have := le_runEnd bitmap firstSector (bitmapBitPresent bitmap (firstSector + sectorIndex)) sectorCount (sectorIndex + 1)
    omega

def mapRun (iso : IsoFile) (parents : List VhdxImage) (virtualStart fileOffset : Nat) (table : ByteMappingTable)
    (run : SectorRun) : Except Failure ByteMappingTable :=
  mapSectorRun iso parents run.present fileOffset run.start (virtualStart + run.start) run.byteCount table

/-- The sector bitmap of the chunk that holds a payload block. -/
def readSectorBitmap (iso : IsoFile) (fileVbio : VirtualBlockIo) (bat : List UInt8) (payloadIndex chunkRatio : Nat) :
    Except Failure (List UInt8) := do
  let bitmapEntry ← readSectorBitmapBatEntry bat payloadIndex chunkRatio
  refuseIf (bitmapEntry.state ≠ .fullyPresent) .unsupported
  let bitmapEnd ← someOr (checkedAdd 64 bitmapEntry.fileOffset vhdxMib) .deviceError
  refuseIf (bitmapEnd > iso.size) .deviceError
  readFileBytes fileVbio bitmapEntry.fileOffset vhdxMib

variable {iso : IsoFile} {parents : List VhdxImage} {bitmap : List UInt8}
  {logicalSector firstSector sectorCount virtualStart fileOffset byteCount sectorIndex : Nat} {m : VhdxMetadata}

/-- The loop maps one run after the other; none of its sums overflows within a block. -/
theorem mapSectorRuns_eq (table : ByteMappingTable) (hcount : sectorCount * logicalSector < 2 ^ 64)
    (hvirtual : virtualStart + byteCount < 2 ^ 64) :
    mapSectorRuns iso parents bitmap logicalSector firstSector sectorCount virtualStart fileOffset byteCount sectorIndex
        table =
      (sectorRuns bitmap logicalSector firstSector sectorCount byteCount sectorIndex).foldlM
        (mapRun iso parents virtualStart fileOffset) table := by
  have hmuls {sectorIndex next : Nat} (hlt : sectorIndex < sectorCount) (hnext : next ≤ sectorCount)
      {f : Nat → Nat → Except Failure ByteMappingTable} :
      (do
        let runByteStart ← someOr (checkedMul 64 sectorIndex logicalSector) .loadError
        let runStop ← someOr (checkedMul 64 next logicalSector) .loadError
        f runByteStart runStop) = f (sectorIndex * logicalSector) (next * logicalSector) := by
    have hstart : sectorIndex * logicalSector ≤ sectorCount * logicalSector := Nat.mul_le_mul_right _ hlt.le
    have hstop : next * logicalSector ≤ sectorCount * logicalSector := Nat.mul_le_mul_right _ hnext
    rw [checkedMul_eq_some.mpr ⟨by omega, rfl⟩, checkedMul_eq_some.mpr ⟨by omega, rfl⟩]
    rfl
  fun_induction sectorRuns bitmap logicalSector firstSector sectorCount byteCount sectorIndex generalizing table with
  | case1 sectorIndex hlt present next runByteEnd hskip ih =>
      have hnext := (runEnd_spec bitmap firstSector present sectorCount (sectorIndex + 1)).1
      rw [mapSectorRuns, if_pos hlt]
      dsimp only
      rw [hmuls hlt (show next ≤ sectorCount by omega), if_pos hskip]
      exact ih table
  | case2 sectorIndex hlt present next runByteEnd hkeep ih =>
      have hnext := (runEnd_spec bitmap firstSector present sectorCount (sectorIndex + 1)).1
      rw [mapSectorRuns, if_pos hlt]
      dsimp only
      rw [hmuls hlt (show next ≤ sectorCount by omega), if_neg hkeep,
        checkedAdd_eq_some.mpr ⟨by omega, rfl⟩, List.foldlM_cons]
      exact congrArg _ (funext fun table => ih table)
  | case3 sectorIndex hge =>
      rw [mapSectorRuns, if_neg hge]
      rfl

theorem sectorRuns_tile (hcover : byteCount ≤ sectorCount * logicalSector) :
    Tiling.Tiles (fun run => virtualStart + run.start) SectorRun.byteCount
      (sectorRuns bitmap logicalSector firstSector sectorCount byteCount sectorIndex)
      (virtualStart + min (sectorIndex * logicalSector) byteCount) (virtualStart + byteCount) := by
  fun_induction sectorRuns bitmap logicalSector firstSector sectorCount byteCount sectorIndex with
  | case1 sectorIndex hlt present next runByteEnd hskip ih =>
      have hle := le_runEnd bitmap firstSector present sectorCount (sectorIndex + 1)
      have hmul : sectorIndex * logicalSector ≤ next * logicalSector := Nat.mul_le_mul_right _ (by omega)
      have hsame : min (next * logicalSector) byteCount = min (sectorIndex * logicalSector) byteCount := by omega
      rwa [hsame] at ih
  | case2 sectorIndex hlt present next runByteEnd hkeep ih =>
      refine ⟨?_, ?_, ?_⟩
      · dsimp only
        omega
      · dsimp only
        omega
      · have hend : virtualStart + min (sectorIndex * logicalSector) byteCount +
            (runByteEnd - sectorIndex * logicalSector) = virtualStart + min (next * logicalSector) byteCount := by omega
        rwa [hend]
  | case3 sectorIndex hge =>
      have hmul : sectorCount * logicalSector ≤ sectorIndex * logicalSector := Nat.mul_le_mul_right _ (by omega)
      change _ = _
      omega

/-- Every byte of a run lies in a sector whose bit is the run's own. -/
theorem sectorRuns_bits (hls : 0 < logicalSector) {run : SectorRun}
    (hrun : run ∈ sectorRuns bitmap logicalSector firstSector sectorCount byteCount sectorIndex) {offset : Nat}
    (hlo : run.start ≤ offset) (hhi : offset < run.start + run.byteCount) :
    bitmapBitPresent bitmap (firstSector + offset / logicalSector) = run.present := by
  fun_induction sectorRuns bitmap logicalSector firstSector sectorCount byteCount sectorIndex with
  | case1 sectorIndex hlt present next runByteEnd hskip ih => exact ih hrun
  | case2 sectorIndex hlt present next runByteEnd hkeep ih =>
      rcases List.mem_cons.mp hrun with rfl | hrun
      · have hlow : sectorIndex ≤ offset / logicalSector := (Nat.le_div_iff_mul_le hls).mpr hlo
        have hhigh : offset / logicalSector < next := (Nat.div_lt_iff_lt_mul hls).mpr (by dsimp only at hlo hhi; omega)
        rcases Nat.eq_or_lt_of_le hlow with heq | hlt
        · rw [← heq]
        · exact (runEnd_spec bitmap firstSector present sectorCount (sectorIndex + 1)).2 _ hlt hhigh
      · exact ih hrun
  | case3 sectorIndex hge => cases hrun

theorem mapVhdxPartialPayloadBlock_eq (iso : IsoFile) (fileVbio : VirtualBlockIo) (bat : List UInt8)
    (parents : List VhdxImage) (ratio k virtualStart fileOffset byteCount : Nat) (table : ByteMappingTable) :
    mapVhdxPartialPayloadBlock iso fileVbio m bat parents ratio k virtualStart fileOffset byteCount table = (do
      let bitmap ← readSectorBitmap iso fileVbio bat k ratio
      let firstSector ← someOr (checkedMul 64 (k % ratio) (m.blockSize / m.logicalSectorSize)) .loadError
      let sectorCount ← someOr (divRoundUp 64 byteCount m.logicalSectorSize) .loadError
      mapSectorRuns iso parents bitmap m.logicalSectorSize firstSector sectorCount virtualStart fileOffset byteCount 0
        table) := by
  simp only [mapVhdxPartialPayloadBlock, readSectorBitmap, bind_assoc]

theorem readSectorBitmap_length {fileVbio : VirtualBlockIo} {bat : List UInt8} {k ratio : Nat}
    (h : readSectorBitmap iso fileVbio bat k ratio = .ok bitmap) : bitmap.length = vhdxMib := by
  obtain ⟨bitmapEntry, -, h⟩ := bind_eq_ok.mp h
  obtain ⟨_, -, h⟩ := bind_eq_ok.mp h
  obtain ⟨_, -, h⟩ := bind_eq_ok.mp h
  obtain ⟨_, -, h⟩ := bind_eq_ok.mp h
  exact readFileBytes_length h

/-- The sectors of a chunk fill the bits of its bitmap block. -/
theorem sector_lt_bitmap {ratio : Nat} (hratio : m.chunkRatio = some ratio) (k : Nat) {s : Nat}
    (hs : s < m.blockSize / m.logicalSectorSize) :
    k % ratio * (m.blockSize / m.logicalSectorSize) + s < 8 * vhdxMib := by
  obtain ⟨hchunk, hpos⟩ := chunkRatio_spec hratio
  have hls := logicalSectorSize_pos m
  have hbits : m.blockSize / m.logicalSectorSize * ratio = 8 * vhdxMib := by
    rw [Nat.div_mul_right_comm (logicalSectorSize_dvd m), hchunk, Nat.mul_div_cancel _ hls]
    rfl
  have hmod : k % ratio + 1 ≤ ratio := Nat.mod_lt k hpos
  calc k % ratio * (m.blockSize / m.logicalSectorSize) + s
      < (k % ratio + 1) * (m.blockSize / m.logicalSectorSize) := by rw [Nat.succ_mul]; omega
    _ ≤ ratio * (m.blockSize / m.logicalSectorSize) := Nat.mul_le_mul_right _ hmod
    _ = 8 * vhdxMib := by rw [Nat.mul_comm, hbits]

theorem readFileBytes_ok {disk : Nat → UInt8} {reader : PhysicalReader} (hfile : iso.whole.OnDevice)
    (hr : Reads disk iso.blockSize reader) {vbio : VirtualBlockIo} (hbuild : buildImageFileBlockIo iso reader = .ok vbio)
    {offset len : Nat} (hlen : 0 < len) (hin : offset + len ≤ iso.size) :
    readFileBytes vbio offset len =
      .ok ((List.range len).map fun i => ((iso.whole.locate (offset + i)).map disk).getD 0) := by
  have hbuilt := built_imageFileBlockIo hfile hbuild
  have hne : List.replicate len (0 : UInt8) ≠ [] := by simpa using Nat.ne_of_gt hlen
  obtain ⟨bytes, hread⟩ : ∃ bytes, vbio.readBytes vbio.mediaId offset (List.replicate len 0) = .ok bytes :=
    ⟨_, (readBytes_iff hbuilt hfile.blockSize_pos hfile.disjoint hfile.fits hr offset _ _ hne).mpr
      ⟨by rw [List.length_replicate]; exact hin.trans hbuilt.grown, rfl⟩⟩
  have hok : readFileBytes vbio offset len = .ok bytes := by
    rw [readFileBytes, hread]
  rw [hok, readFileBytes_eq hfile hr hbuild hlen hin hok]

/-- A partially present block is mapped run by run: the runs tile the part of the block inside the disk in order, a sector
comes from the child or the parents as its bit says, and its bit lies in the bitmap block. -/
theorem partial_block_runs (iso : IsoFile) (fileVbio : VirtualBlockIo) (m : VhdxMetadata) (bat : List UInt8)
    (parents : List VhdxImage) (ratio k : Nat) (entry : VhdxBatEntry) (bitmap : List UInt8) (table : ByteMappingTable)
    (hratio : m.chunkRatio = some ratio) (hk : k * m.blockSize < m.virtualDiskSize)
    (hentry : readPayloadBatEntry bat k ratio = .ok entry) (hstate : entry.state = .partiallyPresent)
    (hbitmap : readSectorBitmap iso fileVbio bat k ratio = .ok bitmap) :
    (∃ runs : List SectorRun,
      mapVhdxBlock iso fileVbio m bat parents ratio table k =
        runs.foldlM (mapRun iso parents (k * m.blockSize) entry.fileOffset) table ∧
      Tiling.Tiles (fun run => k * m.blockSize + run.start) SectorRun.byteCount runs (k * m.blockSize)
        (min ((k + 1) * m.blockSize) m.virtualDiskSize) ∧
      ∀ run ∈ runs, ∀ offset, run.start ≤ offset → offset < run.start + run.byteCount →
        (run.present = true ↔ bitmapBitPresent bitmap
          (k % ratio * (m.blockSize / m.logicalSectorSize) + offset / m.logicalSectorSize) = true)) ∧
    (bitmap.length = vhdxMib ∧ ∀ s < m.blockSize / m.logicalSectorSize,
      k % ratio * (m.blockSize / m.logicalSectorSize) + s < 8 * bitmap.length) ∧
    ∀ table', OnDevice (iso.asImage m bat :: parents) → Opened 0 (iso.asImage m bat) parents →
      mapVhdxBlock iso fileVbio m bat parents ratio table k = .ok table' →
      Extends table table' (k * m.blockSize) (min ((k + 1) * m.blockSize) m.virtualDiskSize) fun v =>
        if bitmapBitPresent bitmap
          (k % ratio * (m.blockSize / m.logicalSectorSize) + (v - k * m.blockSize) / m.logicalSectorSize)
        then iso.whole.locate (entry.fileOffset + (v - k * m.blockSize))
        else locateInParents parents v := by
  have hls := logicalSectorSize_pos m
  have hlt := m.virtualDiskSize_lt
  have hend : min ((k + 1) * m.blockSize) m.virtualDiskSize =
      k * m.blockSize + min m.blockSize (m.virtualDiskSize - k * m.blockSize) := by
    rw [Nat.succ_mul]
    omega
  have hrange := m.blockSize_range.2
  generalize hcount : min m.blockSize (m.virtualDiskSize - k * m.blockSize) = byteCount at hend
  generalize hcover : (byteCount + (m.logicalSectorSize - 1)) / m.logicalSectorSize = sectorCount
  have hround := Nat.lt_div_mul_add (a := byteCount + (m.logicalSectorSize - 1)) hls
  have hround' := Nat.div_mul_le_self (byteCount + (m.logicalSectorSize - 1)) m.logicalSectorSize
  rw [hcover] at hround hround'
  have hsmall : m.logicalSectorSize ≤ 4096 := by
    rcases m.logicalSectorSize_cases with h | h <;> omega
  have hfirst : k % ratio * (m.blockSize / m.logicalSectorSize) < 2 ^ 64 := by
    have hpos : 0 < m.blockSize / m.logicalSectorSize :=
      Nat.div_pos (Nat.le_of_dvd (by have := m.blockSize_range.1; omega) (logicalSectorSize_dvd m)) hls
    have := sector_lt_bitmap hratio k hpos
    unfold vhdxMib at this
    omega
  have hmap : mapVhdxBlock iso fileVbio m bat parents ratio table k =
      mapSectorRuns iso parents bitmap m.logicalSectorSize (k % ratio * (m.blockSize / m.logicalSectorSize)) sectorCount
        (k * m.blockSize) entry.fileOffset byteCount 0 table := by
    have hdiv : divRoundUp 64 byteCount m.logicalSectorSize = some sectorCount :=
      divRoundUp_eq_some.mpr ⟨by omega, by omega, hcover.symm⟩
    have hstart : checkedMul 64 k m.blockSize = some (k * m.blockSize) := checkedMul_eq_some.mpr ⟨by omega, rfl⟩
    have hsector := checkedMul_eq_some.mpr ⟨hfirst, rfl⟩
    simp only [mapVhdxBlock, hentry, hstart, hcount, hstate, mapVhdxPartialPayloadBlock_eq, hbitmap, hsector, hdiv, someOr,
      bind, Except.bind]
  have hlength := readSectorBitmap_length hbitmap
  refine ⟨⟨sectorRuns bitmap m.logicalSectorSize (k % ratio * (m.blockSize / m.logicalSectorSize)) sectorCount byteCount 0,
    ?_, ?_, ?_⟩, ⟨hlength, fun s hs => ?_⟩, fun table' hfiles hopened hok => ?_⟩
  · rw [hmap]
    exact mapSectorRuns_eq table (by omega) (by omega)
  · rw [hend]
    have htile := @sectorRuns_tile bitmap m.logicalSectorSize (k % ratio * (m.blockSize / m.logicalSectorSize)) sectorCount
      (k * m.blockSize) byteCount 0 (by omega)
    rwa [Nat.zero_mul, Nat.zero_min, Nat.add_zero] at htile
  · intro run hrun offset hlo hhi
    rw [sectorRuns_bits hls hrun hlo hhi]
  · rw [hlength]
    exact sector_lt_bitmap hratio k hs
  · rw [hmap] at hok
    have hruns := mapSectorRuns_extends (hfiles _ List.mem_cons_self) hopened
      (fun image hi => hfiles image (List.mem_cons_of_mem _ hi)) hls
      (show k * m.blockSize + byteCount ≤ m.virtualDiskSize by omega) (by omega) hok
    rw [Nat.zero_mul, Nat.zero_min, Nat.add_zero] at hruns
    rw [hend]
    exact hruns

/-- A bitmap with the bit of the first sector alone. -/
def firstSectorDisk (p : Nat) : UInt8 := if p = 2 ^ 20 then 1 else 0

theorem firstSector_bitmap {vbio : VirtualBlockIo}
    (hbuild : buildImageFileBlockIo sampleIso (diskReader firstSectorDisk) = .ok vbio) :
    readSectorBitmap sampleIso vbio (sampleBat 7) 0 16 =
      .ok ((List.range vhdxMib).map fun i => ((sampleIso.whole.locate (2 ^ 20 + i)).map firstSectorDisk).getD 0) := by
  have hentry : readSectorBitmapBatEntry (sampleBat 7) 0 16 = .ok ⟨.fullyPresent, 2 ^ 20⟩ := by decide +kernel
  have hfile : sampleIso.whole.OnDevice := @sampleFile_onDevice 0 (by decide)
  have hread := readFileBytes_ok hfile (diskReader_reads firstSectorDisk _) hbuild (show 0 < vhdxMib by decide)
    (show 2 ^ 20 + vhdxMib ≤ sampleIso.size by decide)
  rw [readSectorBitmap, hentry]
  exact hread

theorem firstSector_runs : ∃ vbio bitmap, buildImageFileBlockIo sampleIso (diskReader firstSectorDisk) = .ok vbio ∧
    readSectorBitmap sampleIso vbio (sampleBat 7) 0 16 = .ok bitmap ∧ bitmap.length = vhdxMib ∧
    ∃ runs : List SectorRun, Tiling.Tiles (fun run => 0 + run.start) SectorRun.byteCount runs 0 1024 ∧
      ∀ run ∈ runs, ∀ offset, run.start ≤ offset → offset < run.start + run.byteCount →
        (run.present = true ↔ bitmapBitPresent bitmap (offset / 512) = true) := by
  have hbuild : ∃ vbio, buildImageFileBlockIo sampleIso (diskReader firstSectorDisk) = .ok vbio := ⟨_, rfl⟩
  obtain ⟨vbio, hbuild⟩ := hbuild
  have hbitmap := firstSector_bitmap hbuild
  obtain ⟨⟨runs, -, htiles, hbits⟩, ⟨hlength, -⟩, -⟩ := partial_block_runs sampleIso vbio (sampleMetadata true) (sampleBat 7)
    [sampleParent 8192 6 false] 16 0 ⟨.partiallyPresent, 2 ^ 21⟩ _ .empty (by decide +kernel) (by decide)
    (by decide +kernel) rfl hbitmap
  refine ⟨vbio, _, hbuild, hbitmap, hlength, runs, htiles, fun run hrun offset hlo hhi => ?_⟩
  have hbit := hbits run hrun offset hlo hhi
  rwa [Nat.zero_mod, Nat.zero_mul, Nat.zero_add] at hbit

end NextBoot.Vhdx
