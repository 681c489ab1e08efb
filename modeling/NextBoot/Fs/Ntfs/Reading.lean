import NextBoot.Fs.Ntfs.Extents

namespace NextBoot.Fs.Ntfs

open Words BlockStore Tiling Bytes Results

variable {fs : Ntfs} {runs : List DataRun} {run : DataRun} {E : List FileExtent} {bytes : List UInt8}
variable {fuel cursor needed size : Nat}

theorem clusterSize_pos (fs : Ntfs) : 0 < fs.clusterSize := Nat.mul_pos fs.bytesPerSector_pos fs.sectorsPerCluster_pos

theorem physicalLoop_ok (h : fs.physicalLoop fuel cursor needed = .ok bytes) (hfuel : needed ≤ fuel) :
    bytes = window fs.io.bytes cursor needed := by
  induction fuel generalizing cursor needed bytes with
  | zero =>
      obtain rfl : needed = 0 := by omega
      rw [physicalLoop, pure_eq_ok] at h
      exact h.symm
  | succ fuel ih =>
      rw [physicalLoop] at h
      split at h
      · next hzero =>
          rw [pure_eq_ok] at h
          rw [hzero]
          exact h.symm
      · simp only [bind_eq_ok, readFullBlocks_eq_ok, someOr_eq_ok, checkedAdd_eq_some, pure_eq_ok] at h
        obtain ⟨block, ⟨-, -, rfl⟩, next, ⟨-, rfl⟩, rest, hrest, rfl⟩ := h
        have hmod := Nat.mod_lt cursor fs.bytesPerSector_pos
        have hsplit : cursor / fs.io.blockSize * fs.io.blockSize + cursor % fs.io.blockSize = cursor := by
          rw [Nat.mul_comm, Nat.div_add_mod]
        rw [length_window] at hrest ⊢
        generalize hcopy : min (fs.io.blockSize - cursor % fs.io.blockSize) needed = toCopy at hrest ⊢
        rw [ih hrest (by omega), (slice_isSome_iff.mp (slice_window fs.io.bytes _ (show _ + toCopy ≤ _ by omega))).2,
          hsplit, window_split _ (by omega)]

theorem readPhysicalBytes_ok {physicalByte len : Nat} (h : fs.readPhysicalBytes physicalByte len = .ok bytes)
    (hlen : 0 < len) : bytes = window fs.io.bytes physicalByte len ∧ physicalByte + len < 2 ^ 64 := by
  rw [readPhysicalBytes, if_neg (by omega)] at h
  simp only [bind_eq_ok, refuseIf_eq_ok, someOr_eq_ok, checkedAdd_eq_some] at h
  obtain ⟨-, -, stop, ⟨hstop, rfl⟩, diskSize, -, -, -, h⟩ := h
  exact ⟨physicalLoop_ok h (Nat.le_refl _), hstop⟩

/-- Below the largest 64-bit offset, the saturating search agrees with the cluster ranges. -/
theorem holds_eq (hcursor : cursor < 2 ^ 64 - 1) : fs.holds cursor run =
    decide (Covers DataRun.virtualClusterStart DataRun.clusterCount run (cursor / fs.clusterSize)) := by
  have hpos := clusterSize_pos fs
  have hcovers : Covers DataRun.virtualClusterStart DataRun.clusterCount run (cursor / fs.clusterSize) ↔
      run.virtualClusterStart * fs.clusterSize ≤ cursor ∧
        cursor < run.virtualClusterStart * fs.clusterSize + run.clusterCount * fs.clusterSize := by
    rw [covers_block_iff hpos, Nat.add_mul]
  rw [Bool.eq_iff_iff, decide_eq_true_iff, hcovers, holds, decide_eq_true_iff, saturatingMul, saturatingMul,
    saturatingAdd]
  generalize run.virtualClusterStart * fs.clusterSize = start
  generalize run.clusterCount * fs.clusterSize = count
  omega

theorem find_holds (hcursor : cursor < 2 ^ 64 - 1) : runs.find? (fs.holds cursor) =
    locate DataRun.virtualClusterStart DataRun.clusterCount runs (cursor / fs.clusterSize) := by
  rw [locate]
  congr 1
  funext run
  exact holds_eq hcursor

/-- A byte of a run, by its distance from the run's first byte, is where the extents put it. -/
theorem fileByte_run {lcn d : Nat} (hd : lcn * fs.clusterSize + d < 2 ^ 64)
    (hplace : translate E (run.virtualClusterStart * fs.sectorsPerCluster + d / fs.io.blockSize) =
      some (wrappingAdd 64 (lcn * fs.sectorsPerCluster) (d / fs.io.blockSize))) :
    fileByte fs.io E (run.virtualClusterStart * fs.clusterSize + d) = fs.io.bytes (lcn * fs.clusterSize + d) := by
  have hbs := fs.bytesPerSector_pos
  have hshape : ∀ n, n * fs.clusterSize + d = fs.io.blockSize * (n * fs.sectorsPerCluster) + d := fun n => by
    rw [clusterSize, Nat.mul_left_comm]
  have hnowrap : lcn * fs.sectorsPerCluster + d / fs.io.blockSize < 2 ^ 64 := by
    have hdiv : (lcn * fs.clusterSize + d) / fs.io.blockSize = lcn * fs.sectorsPerCluster + d / fs.io.blockSize := by
      rw [hshape, Nat.mul_add_div hbs]
    have hle := Nat.div_le_self (lcn * fs.clusterSize + d) fs.io.blockSize
    omega
  rw [wrappingAdd_eq hnowrap] at hplace
  rw [fileByte, hshape, Nat.mul_add_div hbs, hplace, Nat.mul_add_mod]
  dsimp only
  congr 1
  rw [hshape, Nat.add_mul, Nat.mul_comm (d / _), Nat.mul_comm (lcn * _), Nat.add_assoc, Nat.div_add_mod]

/-- Where the runs place the blocks of the file, a piece read from a run has the file's bytes. -/
theorem readRunPiece_ok {blocks stop : Nat} {piece : List UInt8} (hcursor : cursor < stop)
    (hblocks : ∀ q < stop, q / fs.io.blockSize < blocks)
    (hplaced : PlacedByRuns fs.sectorsPerCluster runs E blocks (cursor / fs.io.blockSize))
    (hfind : locate DataRun.virtualClusterStart DataRun.clusterCount runs (cursor / fs.clusterSize) = some run)
    (hstop : stop ≤ run.virtualClusterStart * fs.clusterSize + run.clusterCount * fs.clusterSize)
    (h : fs.readRunPiece run true (cursor - run.virtualClusterStart * fs.clusterSize) (stop - cursor) = .ok piece) :
    piece = window (fileByte fs.io E) cursor (stop - cursor) := by
  have hbs := fs.bytesPerSector_pos
  obtain ⟨r, lcn, hlocate, hlcn, hplaces⟩ := hplaced
  rw [Nat.div_div_eq_div_mul, ← clusterSize, hfind, Option.some.injEq] at hlocate
  subst hlocate
  have hcovers := (covers_block_iff (clusterSize_pos fs)).mp (locate_mem hfind).2
  rw [readRunPiece, hlcn] at h
  simp only [bind_eq_ok, someOr_eq_ok, Option.bind_eq_some_iff, checkedMul_eq_some, checkedAdd_eq_some] at h
  obtain ⟨physicalByte, ⟨start, ⟨-, rfl⟩, -, rfl⟩, h⟩ := h
  obtain ⟨rfl, hnowrap⟩ := readPhysicalBytes_ok h (by omega)
  apply List.map_congr_left
  intro i hi
  rw [List.mem_range] at hi
  obtain ⟨d, hd⟩ : ∃ d, cursor + i = run.virtualClusterStart * fs.clusterSize + d :=
    ⟨cursor + i - run.virtualClusterStart * fs.clusterSize, by omega⟩
  have hshape : (run.virtualClusterStart * fs.clusterSize + d) / fs.io.blockSize =
      run.virtualClusterStart * fs.sectorsPerCluster + d / fs.io.blockSize := by
    rw [clusterSize, Nat.mul_left_comm, Nat.mul_add_div hbs]
  have hinrun : d / fs.io.blockSize < run.clusterCount * fs.sectorsPerCluster := by
    apply Nat.div_lt_of_lt_mul
    rw [Nat.mul_left_comm]
    show d < run.clusterCount * fs.clusterSize
    omega
  have hplace := hplaces (run.virtualClusterStart * fs.sectorsPerCluster + d / fs.io.blockSize) (Nat.le_add_right _ _)
    (by rw [Nat.add_mul]; omega) (by rw [← hshape, ← hd]; exact hblocks _ (by omega))
  rw [Nat.add_sub_cancel_left] at hplace
  have hphysical : lcn * fs.clusterSize + (cursor - run.virtualClusterStart * fs.clusterSize) + i =
      lcn * fs.clusterSize + d := by omega
  rw [hphysical, hd]
  exact (fileByte_run (by omega) hplace).symm

theorem readRunsLoop_ok {blocks stop : Nat} (hstop : stop < 2 ^ 64) (hblocks : ∀ q < stop, q / fs.io.blockSize < blocks)
    (hplaced : ∀ k < blocks, PlacedByRuns fs.sectorsPerCluster runs E blocks k)
    (h : fs.readRunsLoop runs true stop fuel cursor = .ok bytes) (hfuel : stop - cursor ≤ fuel) :
    bytes = window (fileByte fs.io E) cursor (stop - cursor) := by
  induction fuel generalizing cursor bytes with
  | zero =>
      rw [readRunsLoop, pure_eq_ok] at h
      rw [← h, Nat.le_zero.mp hfuel]
      rfl
  | succ fuel ih =>
      rw [readRunsLoop] at h
      split at h
      · next hdone =>
          rw [pure_eq_ok] at h
          rw [← h, Nat.sub_eq_zero_of_le hdone]
          rfl
      · next hmore =>
          rw [find_holds (by omega)] at h
          simp only [bind_eq_ok, someOr_eq_ok, checkedMul_eq_some, checkedAdd_eq_some, pure_eq_ok] at h
          obtain ⟨run, hfind, runStart, ⟨-, rfl⟩, runBytes, ⟨-, rfl⟩, runEnd, ⟨-, rfl⟩, piece, hpiece, rest, hrest,
            rfl⟩ := h
          have hcovers := (covers_block_iff (clusterSize_pos fs)).mp (locate_mem hfind).2
          rw [Nat.add_mul] at hcovers
          generalize hend : min stop (run.virtualClusterStart * fs.clusterSize + run.clusterCount * fs.clusterSize) =
            readEnd at hpiece hrest
          rw [readRunPiece_ok (by omega) (fun q hq => hblocks q (by omega)) (hplaced _ (hblocks _ (by omega))) hfind
            (by omega) hpiece, ih hrest (by omega), ← window_split (fileByte fs.io E)
              (show readEnd - cursor ≤ stop - cursor by omega)]
          congr 2 <;> omega

theorem collectNonresidentRuns_eq {attributes : List NtfsAttribute} (h : ∀ attr ∈ attributes, isResident attr = false) :
    collectNonresidentRuns attributes = .ok (sortRuns (attributes.flatMap NtfsAttribute.runs)) := by
  have hruns : attributes.mapM NtfsAttribute.nonResidentRuns = (.ok (attributes.map NtfsAttribute.runs) : Except FsError _) := by
    induction attributes with
    | nil => rfl
    | cons attr attributes ih =>
        have hattr : attr.nonResidentRuns = .ok attr.runs := by
          have hdata := h attr (by simp)
          unfold isResident at hdata
          split at hdata
          · cases hdata
          · next hrun => rw [NtfsAttribute.nonResidentRuns, NtfsAttribute.runs, hrun]
        rw [List.mapM_cons, hattr, ih fun a ha => h a (List.mem_cons_of_mem _ ha)]
        rfl
  rw [collectNonresidentRuns, hruns, List.flatMap]
  rfl

variable {record : FileRecord} {info : FileInfo}

/-- Both operations on a record work on the same runs: one attribute's are sorted as they stand. -/
theorem readFile_eq_ok (hnonresident : ∀ attr ∈ record.unnamedAttributes attrTypeData, isResident attr = false)
    {offset len : Nat} (h : fs.readFile record info offset len = .ok bytes) :
    bytes = [] ∨ offset < info.size ∧
      fs.readFromRuns record.dataRuns offset (min len (info.size - offset)) true = .ok bytes := by
  rw [readFile] at h
  split at h
  · cases h
  · unfold FileRecord.dataRuns
    generalize record.unnamedAttributes attrTypeData = attributes at h hnonresident ⊢
    unfold readAttributes at h
    split at h
    · cases h
    · next attr =>
        rw [readAttribute] at h
        split at h
        · rw [pure_eq_ok] at h
          exact .inl h.symm
        · next hinside =>
            have hattr := hnonresident attr (by simp)
            unfold isResident at hattr
            split at h
            · next hdata =>
                rw [hdata] at hattr
                cases hattr
            · next list hdata =>
                have hruns : sortRuns ([attr].flatMap NtfsAttribute.runs) = list.runs := by
                  rw [List.flatMap_singleton, NtfsAttribute.runs, hdata, sortRuns_runList]
                rw [hruns]
                exact .inr ⟨by omega, h⟩
    · split at h
      · cases h
      · split at h
        · rw [pure_eq_ok] at h
          exact .inl h.symm
        · next hinside =>
            rw [collectNonresidentRuns_eq hnonresident] at h
            exact .inr ⟨by omega, h⟩

theorem fileExtents_eq_ok (hnonresident : ∀ attr ∈ record.unnamedAttributes attrTypeData, isResident attr = false)
    (h : fs.fileExtents record info = .ok E) : fs.runsToExtents record.dataRuns info.size = .ok E := by
  rw [fileExtents] at h
  split at h
  · cases h
  · unfold FileRecord.dataRuns
    generalize record.unnamedAttributes attrTypeData = attributes at h hnonresident ⊢
    split at h
    · cases h
    · exact absurd (hnonresident _ (List.mem_singleton.mpr rfl)) (by simp [isResident])
    · rw [collectNonresidentRuns_eq hnonresident] at h
      exact h

theorem runsToExtents_eq_ok (hsize : 0 < size) (h : fs.runsToExtents runs size = .ok E) :
    size + (fs.io.blockSize - 1) < 2 ^ 64 ∧
      runsLoop fs.sectorsPerCluster runs ((size + (fs.io.blockSize - 1)) / fs.io.blockSize) [] = .ok (E, 0) := by
  rw [runsToExtents, if_neg (by omega)] at h
  simp only [bind_eq_ok, someOr_eq_ok, divRoundUp_eq_some] at h
  obtain ⟨blocks, ⟨-, hround, rfl⟩, ⟨extents, left⟩, hloop, h⟩ := h
  split at h
  · next hzero =>
      rw [pure_eq_ok] at h
      dsimp only at hzero h
      rw [hloop, hzero, h]
      exact ⟨hround, rfl⟩
  · cases h

/-- Extents that tile the file and reads that return the bytes behind them, exactly when the runs needed for the file
follow one another from cluster 0. -/
theorem ntfs_extents_agree (hnonresident : ∀ attr ∈ record.unnamedAttributes attrTypeData, isResident attr = false)
    (h : fs.fileExtents record info = .ok E) :
    (TilesFile E 0 ((info.size + (fs.io.blockSize - 1)) / fs.io.blockSize) ∧
      ∀ offset len bytes, fs.readFile record info offset len = .ok bytes →
        bytes = window (fileByte fs.io E) offset bytes.length) ↔
      ContiguousFrom fs.sectorsPerCluster record.dataRuns 0
        ((info.size + (fs.io.blockSize - 1)) / fs.io.blockSize) := by
  have hbs := fs.bytesPerSector_pos
  have hextents := fileExtents_eq_ok hnonresident h
  rcases Nat.eq_zero_or_pos info.size with hempty | hsize
  · have hnil : E = [] := by simpa [runsToExtents, hempty, pure, Except.pure, eq_comm] using hextents
    rw [hempty, Nat.zero_add, Nat.div_eq_of_lt (by omega), hnil]
    refine ⟨fun _ => contiguousFrom_zero, fun _ => ⟨rfl, fun offset len bytes hread => ?_⟩⟩
    rcases readFile_eq_ok hnonresident hread with rfl | ⟨hlt, -⟩
    · rfl
    · omega
  · obtain ⟨hround, hloop⟩ := runsToExtents_eq_ok hsize hextents
    have hblocks := Nat.div_pos (show fs.io.blockSize ≤ info.size + (fs.io.blockSize - 1) by omega) hbs
    have hle := Nat.div_le_self (info.size + (fs.io.blockSize - 1)) fs.io.blockSize
    constructor
    · rintro ⟨htiles, -⟩
      exact contiguousFrom_of_tiles fs.sectorsPerCluster_pos hloop hblocks (Nat.zero_mul _).symm (by omega) htiles
    · intro hcontiguous
      obtain ⟨htiles, -, hplaced⟩ := runsLoop_spec fs.sectorsPerCluster_pos hloop hblocks (Nat.zero_mul _).symm
        (by omega) hcontiguous
      rw [Nat.zero_mul, Nat.zero_add] at htiles hplaced
      refine ⟨htiles, fun offset len bytes hread => ?_⟩
      rcases readFile_eq_ok hnonresident hread with rfl | ⟨hlt, hread⟩
      · rfl
      · simp only [readFromRuns, bind_eq_ok, someOr_eq_ok, checkedAdd_eq_some] at hread
        obtain ⟨stop, ⟨hstop, rfl⟩, hread⟩ := hread
        have hbytes := readRunsLoop_ok hstop (fun q hq => block_lt_blocks (by omega) hbs)
          (fun k hk => hplaced k (Nat.zero_le k) hk) hread (by omega)
        rw [hbytes, length_window]

def sampleVolume : Ntfs where
  io := {
    blockSize := 4
    totalBlocks := 16
    bytes := fun i => UInt8.ofNat i
    blockSize_lt := Words.four_lt_u32
    totalBlocks_lt := Words.sixteen_lt_u64 }
  sectorsPerCluster := 2
  totalSectors := 16
  bytesPerSector_pos := by decide
  sectorsPerCluster_pos := Nat.two_pos

def segment (lowestVcn lcn : Nat) : NtfsAttribute where
  attrType := attrTypeData
  nameLen := 0
  lowestVcn := lowestVcn
  data := .nonResident 14 ⟨lowestVcn, [⟨lowestVcn, some lcn, 1⟩], lowestVcn + 1, rfl, Nat.one_pos, rfl⟩

def segmentedFile : FileInfo := ⟨14, false, 30, false⟩

/-- The second segment of the file comes first in its record. -/
theorem sample_segments_agree :
    TilesFile [⟨0, 10, 2⟩, ⟨2, 4, 2⟩] 0 4 ∧
      ∀ offset len bytes, sampleVolume.readFile ⟨[segment 1 2, segment 0 5]⟩ segmentedFile offset len = .ok bytes →
        bytes = window (fileByte sampleVolume.io [⟨0, 10, 2⟩, ⟨2, 4, 2⟩]) offset bytes.length :=
  (@ntfs_extents_agree sampleVolume _ ⟨[segment 1 2, segment 0 5]⟩ segmentedFile (by decide) (by decide +kernel)).mpr (by decide +kernel)

/-- With cluster 1 of the file missing, `file_extents` still answers, and the second cluster it reports is not the
file's. -/
theorem gap_between_segments_accepted : ¬ ∀ E,
    sampleVolume.fileExtents ⟨[segment 0 5, segment 2 2]⟩ segmentedFile = .ok E →
      TilesFile E 0 4 ∧
        ∀ offset len bytes, sampleVolume.readFile ⟨[segment 0 5, segment 2 2]⟩ segmentedFile offset len = .ok bytes →
          bytes = window (fileByte sampleVolume.io E) offset bytes.length := by
  intro h
  obtain ⟨⟨-, -, hstart, -⟩, -⟩ := h [⟨0, 10, 2⟩, ⟨4, 4, 2⟩] (by decide +kernel)
  exact absurd hstart (by decide)

end NextBoot.Fs.Ntfs
