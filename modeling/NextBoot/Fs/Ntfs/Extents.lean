import NextBoot.Fs.Extents
import NextBoot.Fs.Ntfs.Runs

namespace NextBoot.Fs

open Words BlockStore Tiling Bytes Results

/-- An opened NTFS volume. `init` checks that its sectors are the device's blocks and that a cluster has some. -/
structure Ntfs where
  io : BlockIo
  sectorsPerCluster : Nat
  totalSectors : Nat
  bytesPerSector_pos : 0 < io.blockSize
  sectorsPerCluster_pos : 0 < sectorsPerCluster

namespace Ntfs

def clusterSize (fs : Ntfs) : Nat := fs.io.blockSize * fs.sectorsPerCluster

/-- The loop of `runs_to_extents`, with what is left to cover when it ends. -/
def runsLoop (blocksPerCluster : Nat) : List DataRun → Nat → List FileExtent → Except FsError (List FileExtent × Nat)
  | [], remainingBlocks, extents => pure (extents, remainingBlocks)
  | run :: runs, remainingBlocks, extents => do
      let logicalClusterStart ← someOr run.logicalClusterStart .unsupportedFs
      let runBlocks ← someOr (checkedMul 64 run.clusterCount blocksPerCluster) .corrupted
      let blockCount := min runBlocks remainingBlocks
      if blockCount = 0 then pure (extents, remainingBlocks)
      else do
        let virtualStart ← someOr (checkedMul 64 run.virtualClusterStart blocksPerCluster) .corrupted
        let physicalStart ← someOr (checkedMul 64 logicalClusterStart blocksPerCluster) .corrupted
        let extents := pushExtent extents virtualStart physicalStart blockCount
        if remainingBlocks - blockCount = 0 then pure (extents, remainingBlocks - blockCount)
        else runsLoop blocksPerCluster runs (remainingBlocks - blockCount) extents

def runsToExtents (fs : Ntfs) (runs : List DataRun) (fileSize : Nat) : Except FsError (List FileExtent) :=
  if fileSize = 0 then pure []
  else do
    let remainingBlocks ← someOr (divRoundUp 64 fileSize fs.io.blockSize) .corrupted
    let (extents, remainingBlocks) ← runsLoop fs.sectorsPerCluster runs remainingBlocks []
    if remainingBlocks = 0 then pure extents else .error .corrupted

/-- The copying loop of `read_physical_bytes`; each round copies at least one byte. -/
def physicalLoop (fs : Ntfs) : Nat → Nat → Nat → Except FsError (List UInt8)
  | 0, _, _ => pure []
  | fuel + 1, cursor, needed =>
      if needed = 0 then pure []
      else do
        let block ← fs.io.readFullBlocks (cursor / fs.io.blockSize) fs.io.blockSize
        let inBlock := cursor % fs.io.blockSize
        let toCopy := min (block.length - inBlock) needed
        let next ← someOr (checkedAdd 64 cursor toCopy) .readError
        let rest ← fs.physicalLoop fuel next (needed - toCopy)
        pure ((block.drop inBlock).take toCopy ++ rest)

def readPhysicalBytes (fs : Ntfs) (physicalByte len : Nat) : Except FsError (List UInt8) :=
  if len = 0 then pure []
  else do
    refuseIf (fs.io.blockSize = 0) .invalidArgument
    let stop ← someOr (checkedAdd 64 physicalByte len) .readError
    let diskSize ← someOr (checkedMul 64 fs.totalSectors fs.io.blockSize) .readError
    refuseIf (diskSize < stop) .readError
    fs.physicalLoop len physicalByte len

/-- Whether a run holds the byte at `cursor`, in the saturating arithmetic of the search. -/
def holds (fs : Ntfs) (cursor : Nat) (run : DataRun) : Bool :=
  let start := saturatingMul 64 run.virtualClusterStart fs.clusterSize
  let stop := saturatingAdd 64 start (saturatingMul 64 run.clusterCount fs.clusterSize)
  decide (start ≤ cursor ∧ cursor < stop)

def readRunPiece (fs : Ntfs) (run : DataRun) (zeroSparse : Bool) (inRun readLen : Nat) : Except FsError (List UInt8) :=
  match run.logicalClusterStart with
  | some logicalClusterStart => do
      let physicalByte ← someOr
        ((checkedMul 64 logicalClusterStart fs.clusterSize).bind fun start => checkedAdd 64 start inRun) .corrupted
      fs.readPhysicalBytes physicalByte readLen
  | none => if zeroSparse then pure (List.replicate readLen 0) else .error .unsupportedFs

def readRunsLoop (fs : Ntfs) (runs : List DataRun) (zeroSparse : Bool) (stop : Nat) :
    Nat → Nat → Except FsError (List UInt8)
  | 0, _ => pure []
  | fuel + 1, cursor =>
      if stop ≤ cursor then pure []
      else do
        let run ← someOr (runs.find? (fs.holds cursor)) .readError
        let runStart ← someOr (checkedMul 64 run.virtualClusterStart fs.clusterSize) .corrupted
        let runBytes ← someOr (checkedMul 64 run.clusterCount fs.clusterSize) .corrupted
        let runEnd ← someOr (checkedAdd 64 runStart runBytes) .corrupted
        let readEnd := min stop runEnd
        let piece ← fs.readRunPiece run zeroSparse (cursor - runStart) (readEnd - cursor)
        let rest ← fs.readRunsLoop runs zeroSparse stop fuel readEnd
        pure (piece ++ rest)

def readFromRuns (fs : Ntfs) (runs : List DataRun) (offset len : Nat) (zeroSparse : Bool) :
    Except FsError (List UInt8) := do
  let stop ← someOr (checkedAdd 64 offset len) .corrupted
  fs.readRunsLoop runs zeroSparse stop len offset

def readAttribute (fs : Ntfs) (attr : NtfsAttribute) (offset fileSize len : Nat) : Except FsError (List UInt8) :=
  if fileSize ≤ offset ∨ len = 0 then pure []
  else
    match attr.data with
    | .resident value => someOr (slice value offset (min len (fileSize - offset))) .readError
    | .nonResident _ list => fs.readFromRuns list.runs offset (min len (fileSize - offset)) true

def isResident (attr : NtfsAttribute) : Bool :=
  match attr.data with
  | .resident _ => true
  | .nonResident _ _ => false

def readAttributes (fs : Ntfs) (attributes : List NtfsAttribute) (offset fileSize len : Nat) :
    Except FsError (List UInt8) :=
  match attributes with
  | [] => .error .notFile
  | [attr] => fs.readAttribute attr offset fileSize len
  | attributes =>
      if attributes.any isResident then .error .unsupportedFs
      else if fileSize ≤ offset ∨ len = 0 then pure []
      else do
        let runs ← collectNonresidentRuns attributes
        fs.readFromRuns runs offset (min len (fileSize - offset)) true

/-- `read_file` of the record that `stat` has found, into a buffer of `len` bytes. -/
def readFile (fs : Ntfs) (record : FileRecord) (info : FileInfo) (offset len : Nat) : Except FsError (List UInt8) :=
  if info.isDir then .error .notFile
  else fs.readAttributes (record.unnamedAttributes attrTypeData) offset info.size len

def fileExtents (fs : Ntfs) (record : FileRecord) (info : FileInfo) : Except FsError (List FileExtent) :=
  if info.isDir then .error .notFile
  else
    match record.unnamedAttributes attrTypeData with
    | [] => .error .notFile
    | [⟨_, _, _, .resident _⟩] => pure []
    | attributes => do
        let runs ← collectNonresidentRuns attributes
        fs.runsToExtents runs info.size

/-- As far as the runs are needed to cover `blocks` blocks, they follow one another from cluster `vcn` on. -/
def ContiguousFrom (blocksPerCluster : Nat) : List DataRun → Nat → Nat → Prop
  | [], _, _ => True
  | run :: runs, vcn, blocks => blocks = 0 ∨ (run.virtualClusterStart = vcn ∧
      ContiguousFrom blocksPerCluster runs (vcn + run.clusterCount) (blocks - run.clusterCount * blocksPerCluster))

instance decidableContiguousFrom (blocksPerCluster : Nat) : (runs : List DataRun) → (vcn blocks : Nat) →
    Decidable (ContiguousFrom blocksPerCluster runs vcn blocks)
  | [], _, _ => isTrue trivial
  | _ :: runs, _, blocks =>
      have := decidableContiguousFrom blocksPerCluster runs
      inferInstanceAs (Decidable (blocks = 0 ∨ (_ ∧ _)))

variable {fs : Ntfs} {runs : List DataRun} {run : DataRun} {extents E : List FileExtent} {bytes : List UInt8}
variable {blocksPerCluster remaining vcn fuel cursor needed : Nat}

theorem contiguousFrom_zero : ContiguousFrom blocksPerCluster runs vcn 0 := by
  cases runs with
  | nil => trivial
  | cons run runs => exact .inl rfl

/-- A round of the loop that covers the file in the end: the run is not sparse, and either it is the last one needed
or the loop goes on behind it. -/
theorem runsLoop_covered (h : runsLoop blocksPerCluster (run :: runs) remaining extents = .ok (E, 0))
    (hpos : 0 < remaining) :
    ∃ lcn, run.logicalClusterStart = some lcn ∧ 0 < run.clusterCount * blocksPerCluster ∧
      (remaining ≤ run.clusterCount * blocksPerCluster ∧
          E = pushExtent extents (run.virtualClusterStart * blocksPerCluster) (lcn * blocksPerCluster) remaining ∨
        run.clusterCount * blocksPerCluster < remaining ∧
          runsLoop blocksPerCluster runs (remaining - run.clusterCount * blocksPerCluster)
            (pushExtent extents (run.virtualClusterStart * blocksPerCluster) (lcn * blocksPerCluster)
              (run.clusterCount * blocksPerCluster)) = .ok (E, 0)) := by
  simp only [runsLoop, bind_eq_ok, someOr_eq_ok, checkedMul_eq_some] at h
  obtain ⟨lcn, hlcn, runBlocks, ⟨-, rfl⟩, h⟩ := h
  split at h
  · next hzero =>
      rw [pure_eq_ok, Prod.mk.injEq] at h
      omega
  · next hsome =>
      simp only [bind_eq_ok, someOr_eq_ok, checkedMul_eq_some] at h
      obtain ⟨virtualStart, ⟨-, rfl⟩, physicalStart, ⟨-, rfl⟩, h⟩ := h
      refine ⟨lcn, hlcn, by omega, ?_⟩
      split at h
      · next hdone =>
          rw [pure_eq_ok, Prod.mk.injEq] at h
          have hmin : min (run.clusterCount * blocksPerCluster) remaining = remaining := by omega
          rw [hmin] at h
          exact .inl ⟨by omega, h.1.symm⟩
      · next hmore =>
          have hmin : min (run.clusterCount * blocksPerCluster) remaining = run.clusterCount * blocksPerCluster := by
            omega
          rw [hmin] at h
          exact .inr ⟨by omega, h⟩

/-- Where the runs put the blocks of a file: the first run that holds the cluster of a block places all its blocks. -/
def PlacedByRuns (blocksPerCluster : Nat) (runs : List DataRun) (E : List FileExtent) (blocks k : Nat) : Prop :=
  ∃ run lcn, locate DataRun.virtualClusterStart DataRun.clusterCount runs (k / blocksPerCluster) = some run ∧
    run.logicalClusterStart = some lcn ∧
    ∀ k', run.virtualClusterStart * blocksPerCluster ≤ k' →
      k' < (run.virtualClusterStart + run.clusterCount) * blocksPerCluster → k' < blocks →
        translate E k' = some (wrappingAdd 64 (lcn * blocksPerCluster) (k' - run.virtualClusterStart * blocksPerCluster))

theorem covers_block_iff (hbpc : 0 < blocksPerCluster) {k : Nat} :
    Covers DataRun.virtualClusterStart DataRun.clusterCount run (k / blocksPerCluster) ↔
      run.virtualClusterStart * blocksPerCluster ≤ k ∧
        k < (run.virtualClusterStart + run.clusterCount) * blocksPerCluster := by
  rw [Covers, Nat.le_div_iff_mul_le hbpc, Nat.div_lt_iff_lt_mul hbpc]

/-- The head of the runs places its blocks, and the blocks behind it are left to the other runs. -/
theorem placedByRuns_cons {blocks k lcn : Nat} (hbpc : 0 < blocksPerCluster) (hlcn : run.logicalClusterStart = some lcn)
    (hlo : run.virtualClusterStart * blocksPerCluster ≤ k)
    (hhead : ∀ k', run.virtualClusterStart * blocksPerCluster ≤ k' →
      k' < (run.virtualClusterStart + run.clusterCount) * blocksPerCluster → k' < blocks →
        translate E k' = some (wrappingAdd 64 (lcn * blocksPerCluster) (k' - run.virtualClusterStart * blocksPerCluster)))
    (htail : (run.virtualClusterStart + run.clusterCount) * blocksPerCluster ≤ k →
      PlacedByRuns blocksPerCluster runs E blocks k) :
    PlacedByRuns blocksPerCluster (run :: runs) E blocks k := by
  by_cases hk : k < (run.virtualClusterStart + run.clusterCount) * blocksPerCluster
  · refine ⟨run, lcn, ?_, hlcn, hhead⟩
    have hcovers := (covers_block_iff hbpc).mpr ⟨hlo, hk⟩
    exact List.find?_cons_of_pos (by simpa using hcovers)
  · obtain ⟨r, l, hlocate, hl, hplaces⟩ := htail (by omega)
    refine ⟨r, l, ?_, hl, hplaces⟩
    have hcovers : ¬ Covers DataRun.virtualClusterStart DataRun.clusterCount run (k / blocksPerCluster) :=
      fun hc => hk ((covers_block_iff hbpc).mp hc).2
    rw [locate, List.find?_cons_of_neg (by simpa using hcovers)]
    exact hlocate

theorem runsLoop_spec (hbpc : 0 < blocksPerCluster)
    (h : runsLoop blocksPerCluster runs remaining extents = .ok (E, 0)) (hpos : 0 < remaining)
    (htiles : TilesFile extents 0 (vcn * blocksPerCluster)) (hfits : vcn * blocksPerCluster + remaining < 2 ^ 64)
    (hcontiguous : ContiguousFrom blocksPerCluster runs vcn remaining) :
    TilesFile E 0 (vcn * blocksPerCluster + remaining) ∧
      (∀ k < vcn * blocksPerCluster, translate E k = translate extents k) ∧
      ∀ k, vcn * blocksPerCluster ≤ k → k < vcn * blocksPerCluster + remaining →
        PlacedByRuns blocksPerCluster runs E (vcn * blocksPerCluster + remaining) k := by
  induction runs generalizing remaining extents vcn with
  | nil =>
      rw [runsLoop, pure_eq_ok, Prod.mk.injEq] at h
      omega
  | cons run runs ih =>
      obtain ⟨lcn, hlcn, hcount, h⟩ := runsLoop_covered h hpos
      obtain ⟨rfl, hcontiguous⟩ := hcontiguous.resolve_left (by omega)
      have hsum := Nat.add_mul run.virtualClusterStart run.clusterCount blocksPerCluster
      rcases h with ⟨hlast, rfl⟩ | ⟨hmore, h⟩
      · obtain ⟨htiles', hold, hnew⟩ := pushExtent_tiles htiles hpos hfits
        refine ⟨htiles', hold, fun k hlo hhi => placedByRuns_cons hbpc hlcn hlo (fun k' hlo' _ hhi' => ?_)
          fun hpast => absurd hpast (by omega)⟩
        have hplace := hnew (k' - run.virtualClusterStart * blocksPerCluster) (by omega)
        rwa [Nat.add_sub_cancel' hlo'] at hplace
      · obtain ⟨htiles', hold, hnew⟩ := pushExtent_tiles htiles hcount (by omega)
        rw [← hsum] at htiles'
        obtain ⟨hE, hkeep, hplaces⟩ := ih h (by omega) htiles' (by omega) hcontiguous
        have hstop : (run.virtualClusterStart + run.clusterCount) * blocksPerCluster +
            (remaining - run.clusterCount * blocksPerCluster) =
              run.virtualClusterStart * blocksPerCluster + remaining := by omega
        rw [hstop] at hE hplaces
        refine ⟨hE, fun k hk => ?_, fun k hlo hhi => placedByRuns_cons hbpc hlcn hlo (fun k' hlo' hhi' _ => ?_)
          fun hpast => hplaces k hpast hhi⟩
        · rw [hkeep k (by omega), hold k hk]
        · have hplace := hnew (k' - run.virtualClusterStart * blocksPerCluster) (by omega)
          rw [Nat.add_sub_cancel' hlo'] at hplace
          rw [hkeep k' hhi', hplace]

/-- Later runs leave the earlier extents alone and never move the start of the last one. -/
theorem pushExtent_keeps (pre rest : List FileExtent) (e : FileExtent) (virtualStart physicalStart blockCount : Nat) :
    ∃ e' rest', pushExtent (pre ++ e :: rest) virtualStart physicalStart blockCount = pre ++ e' :: rest' ∧
      e'.virtualBlockStart = e.virtualBlockStart := by
  rcases Nat.eq_zero_or_pos blockCount with rfl | hpos
  · exact ⟨e, rest, pushExtent_zero, rfl⟩
  · rcases List.eq_nil_or_concat rest with rfl | ⟨mid, last, rfl⟩
    · rw [pushExtent_snoc (by omega)]
      split
      · exact ⟨_, [], rfl, rfl⟩
      · exact ⟨e, _, by rw [List.append_assoc]; rfl, rfl⟩
    · rw [List.concat_eq_append, ← List.cons_append, ← List.append_assoc, pushExtent_snoc (by omega)]
      split
      · exact ⟨e, _, by rw [List.append_assoc]; rfl, rfl⟩
      · exact ⟨e, _, by rw [List.append_assoc, List.append_assoc]; rfl, rfl⟩

theorem runsLoop_keeps {pre rest : List FileExtent} {e : FileExtent} {left : Nat}
    (h : runsLoop blocksPerCluster runs remaining (pre ++ e :: rest) = .ok (E, left)) :
    ∃ e' rest', E = pre ++ e' :: rest' ∧ e'.virtualBlockStart = e.virtualBlockStart := by
  induction runs generalizing remaining e rest with
  | nil =>
      rw [runsLoop, pure_eq_ok, Prod.mk.injEq] at h
      exact ⟨e, rest, h.1.symm, rfl⟩
  | cons run runs ih =>
      simp only [runsLoop, bind_eq_ok] at h
      obtain ⟨lcn, -, runBlocks, -, h⟩ := h
      split at h
      · rw [pure_eq_ok, Prod.mk.injEq] at h
        exact ⟨e, rest, h.1.symm, rfl⟩
      · rw [bind_eq_ok] at h
        obtain ⟨virtualStart, -, h⟩ := h
        rw [bind_eq_ok] at h
        obtain ⟨physicalStart, -, h⟩ := h
        obtain ⟨e', rest', hpush, hstart⟩ := pushExtent_keeps pre rest e virtualStart physicalStart
          (min runBlocks remaining)
        rw [hpush] at h
        split at h
        · rw [pure_eq_ok, Prod.mk.injEq] at h
          exact ⟨e', rest', h.1.symm, hstart⟩
        · obtain ⟨e'', rest'', hE, hstart'⟩ := ih h
          exact ⟨e'', rest'', hE, hstart'.trans hstart⟩

theorem pushExtent_gap {vb virtualStart physicalStart blockCount : Nat} (h : TilesFile extents 0 vb) (hvb : vb < 2 ^ 64)
    (hgap : virtualStart ≠ vb) (hcount : blockCount ≠ 0) :
    pushExtent extents virtualStart physicalStart blockCount =
      extents ++ [⟨virtualStart, physicalStart, blockCount⟩] := by
  rcases List.eq_nil_or_concat extents with rfl | ⟨init, last, rfl⟩
  · exact pushExtent_nil hcount
  · rw [List.concat_eq_append] at h ⊢
    obtain ⟨-, -, hend⟩ := tiles_snoc.mp h
    rw [pushExtent_snoc hcount, if_neg]
    rintro ⟨hvirtual, -⟩
    rw [FileExtent.virtualBlockEnd, wrappingAdd_eq (by omega)] at hvirtual
    omega

theorem tiles_middle_start {pre rest : List FileExtent} {e : FileExtent} {vb hi : Nat} (hpre : TilesFile pre 0 vb)
    (h : TilesFile (pre ++ e :: rest) 0 hi) : e.virtualBlockStart = vb := by
  obtain ⟨mid, hmid, hstart, -⟩ := tiles_append.mp h
  exact hstart.trans (hmid.stop_unique hpre)

/-- Extents that tile the file come from runs that follow one another. -/
theorem contiguousFrom_of_tiles {hi : Nat} (hbpc : 0 < blocksPerCluster)
    (h : runsLoop blocksPerCluster runs remaining extents = .ok (E, 0)) (hpos : 0 < remaining)
    (htiles : TilesFile extents 0 (vcn * blocksPerCluster)) (hfits : vcn * blocksPerCluster + remaining < 2 ^ 64)
    (hE : TilesFile E 0 hi) : ContiguousFrom blocksPerCluster runs vcn remaining := by
  induction runs generalizing remaining extents vcn with
  | nil => trivial
  | cons run runs ih =>
      obtain ⟨lcn, hlcn, hcount, h⟩ := runsLoop_covered h hpos
      have hsum := Nat.add_mul vcn run.clusterCount blocksPerCluster
      have hvcn : run.virtualClusterStart = vcn := by
        by_contra hne
        have hgap : run.virtualClusterStart * blocksPerCluster ≠ vcn * blocksPerCluster := fun heq =>
          hne (Nat.eq_of_mul_eq_mul_right hbpc heq)
        rcases h with ⟨-, rfl⟩ | ⟨-, h⟩
        · rw [pushExtent_gap htiles (by omega) hgap (by omega)] at hE
          exact hgap (tiles_middle_start htiles hE)
        · rw [pushExtent_gap htiles (by omega) hgap (by omega)] at h
          obtain ⟨e', rest', rfl, hstart⟩ := runsLoop_keeps h
          exact hgap (hstart.symm.trans (tiles_middle_start htiles hE))
      subst hvcn
      refine .inr ⟨rfl, ?_⟩
      rcases h with ⟨hlast, -⟩ | ⟨hmore, h⟩
      · rw [Nat.sub_eq_zero_of_le hlast]
        exact contiguousFrom_zero
      · obtain ⟨htiles', -, -⟩ := pushExtent_tiles htiles hcount (by omega)
        rw [← hsum] at htiles'
        exact ih h (by omega) htiles' (by omega)

end Ntfs

end NextBoot.Fs
