import NextBoot.Fs.ExFat
import NextBoot.Fs.Iso9660

namespace NextBoot.Fs

open Words BlockStore Tiling Bytes Results Faults

/-- A cast to `usize` in a build with words of some width. -/
def asUsize (width value : Nat) : Nat := value % 2 ^ width

/-- `read_file` of the file that `stat` has found, into a buffer of `len` bytes, in a build with words of some width. -/
def ExFat.readFileIn (width : Nat) (fs : ExFat) (fuel : Nat) (info : FileInfo) (offset len : Nat) :
    Option (Except FsError (List UInt8)) :=
  if info.isDir then some (.error .notFile)
  else if info.size ≤ offset then some (pure [])
  else do
    let extents ← fs.extentsOf fuel info
    some (extents >>= fun extents => fs.readFromExtents extents offset (min len (asUsize width (info.size - offset))))

namespace Iso9660

variable (granted : Nat → Bool) (fs : Iso9660)

/-- The copying loop of `read_file`; each round copies at least one byte. -/
def fileLoop (startLba toRead inBlockOffset : Nat) : Nat → Nat → Nat → Outcome FsError (List UInt8)
  | 0, _, _ => pure []
  | fuel + 1, currentBlock, bytesRead =>
      if toRead ≤ bytesRead then pure []
      else do
        let lba ← Outcome.ofOption (checkedAdd 64 startLba currentBlock)
        let blockBuf ← Outcome.ofExcept (fs.io.readFullBlocks lba fs.blockSize)
        let srcOffset := if bytesRead = 0 then inBlockOffset else 0
        let available ← Outcome.ofOption (checkedSub blockBuf.length srcOffset)
        let copySize := min available (toRead - bytesRead)
        let piece ← Outcome.ofOption (slice blockBuf srcOffset copySize)
        let rest ← fileLoop startLba toRead inBlockOffset fuel (currentBlock + 1) (bytesRead + copySize)
        pure (piece ++ rest)

/-- `read_file` of the file that `stat` has found, into a buffer of `len` bytes, in a build with words of some width. -/
def readFileIn (width : Nat) (info : DirectoryEntry) (offset len : Nat) : Outcome FsError (List UInt8) :=
  if info.isDir then .error .notFile
  else if info.size ≤ offset then pure []
  else do
    let toRead := min len (asUsize width (info.size - offset))
    let startBlock ← Outcome.ofOption (checkedDiv offset fs.blockSize)
    allocBuffer granted fs.blockSize
    fs.fileLoop info.startCluster toRead (offset % fs.blockSize) toRead startBlock 0

/-- The blocks of a file lie on the device. -/
def FileOnDevice (info : DirectoryEntry) : Prop :=
  0 < fs.io.blockSize ∧ 0 < fs.blockSize ∧ fs.blockSize % fs.io.blockSize = 0 ∧
    ∀ block, block * fs.blockSize < info.size →
      info.startCluster + block + fs.blockSize / fs.io.blockSize ≤ fs.io.totalBlocks

variable {granted : Nat → Bool} {fs : Iso9660} {info : DirectoryEntry} {offset toRead currentBlock bytesRead fuel : Nat}

/-- The loop copies all that is left to read. -/
theorem fileLoop_length (hdevice : fs.FileOnDevice info) (hstop : offset + toRead ≤ info.size)
    (hfuel : toRead - bytesRead ≤ fuel)
    (hfirst : bytesRead = 0 → currentBlock = offset / fs.blockSize)
    (hlater : bytesRead ≠ 0 → bytesRead < toRead → currentBlock * fs.blockSize = offset + bytesRead) :
    ∃ bytes, fs.fileLoop info.startCluster toRead (offset % fs.blockSize) fuel currentBlock bytesRead = .value bytes ∧
      bytes.length = toRead - bytesRead := by
  obtain ⟨hio, hblock, hmod, hblocks⟩ := hdevice
  induction fuel generalizing currentBlock bytesRead with
  | zero => exact ⟨[], rfl, by rw [List.length_nil]; omega⟩
  | succ fuel ih =>
      rw [fileLoop]
      by_cases hdone : toRead ≤ bytesRead
      · rw [if_pos hdone]
        exact ⟨[], rfl, by rw [List.length_nil]; omega⟩
      · have hdiv := Nat.div_add_mod offset fs.blockSize
        rw [Nat.mul_comm] at hdiv
        have hmodlt := Nat.mod_lt offset hblock
        have hplace : currentBlock * fs.blockSize +
            (if bytesRead = 0 then offset % fs.blockSize else 0) = offset + bytesRead := by
          split
          · rename_i hzero
            rw [hfirst hzero, hzero]
            exact hdiv
          · rename_i hpos
            exact hlater hpos (Nat.lt_of_not_le hdone)
        have hsrc : (if bytesRead = 0 then offset % fs.blockSize else 0) < fs.blockSize := by
          split
          · exact hmodlt
          · exact hblock
        generalize (if bytesRead = 0 then offset % fs.blockSize else 0) = srcOffset at hplace hsrc ⊢
        have hroom := hblocks currentBlock (by omega)
        have htotal := fs.io.totalBlocks_lt
        have hadd : checkedAdd 64 info.startCluster currentBlock = some (info.startCluster + currentBlock) := by
          rw [checkedAdd_eq_some]
          exact ⟨((Nat.le_add_right _ _).trans hroom).trans_lt htotal, rfl⟩
        have hread : fs.io.readFullBlocks (info.startCluster + currentBlock) fs.blockSize =
            .ok (window fs.io.bytes ((info.startCluster + currentBlock) * fs.io.blockSize) fs.blockSize) := by
          rw [readFullBlocks_eq_ok]
          exact ⟨by omega, hroom, rfl⟩
        have hsub : checkedSub fs.blockSize srcOffset = some (fs.blockSize - srcOffset) := by
          rw [checkedSub_eq_some]
          exact ⟨Nat.le_of_lt hsrc, rfl⟩
        rw [if_neg hdone, hadd, Outcome.ofOption_some, Outcome.value_bind, hread, Outcome.ofExcept_ok, Outcome.value_bind]
        dsimp only
        rw [length_window, hsub, Outcome.ofOption_some, Outcome.value_bind, slice_eq_some (by rw [length_window]; omega),
          Outcome.ofOption_some, Outcome.value_bind]
        generalize hcopy : min (fs.blockSize - srcOffset) (toRead - bytesRead) = copySize
        have hnext : currentBlock * fs.blockSize + fs.blockSize = (currentBlock + 1) * fs.blockSize := (Nat.succ_mul _ _).symm
        obtain ⟨rest, hrest, hlen⟩ := @ih (currentBlock + 1) (bytesRead + copySize) (by omega) (by omega) (by omega)
        rw [hrest, Outcome.value_bind]
        refine ⟨_, rfl, ?_⟩
        rw [List.length_append, hlen, List.length_take, List.length_drop, length_window]
        omega

/-- The size in a directory record has 32 bits. -/
theorem size_lt_of_parse {data : List UInt8} (h : parseDirectoryRecord data = .value (some info)) : info.size < 2 ^ 32 := by
  rw [parseDirectoryRecord] at h
  split at h
  · cases h
  · simp only [Outcome.bind_eq_value, Outcome.ofOption_eq_value] at h
    obtain ⟨length, -, h⟩ := h
    split at h
    · cases h
    · simp only [Outcome.bind_eq_value, Outcome.ofOption_eq_value] at h
      obtain ⟨extentLba, -, dataLength, hlength, flags, -, nameLength, -, h⟩ := h
      split at h
      · cases h
      · simp only [Outcome.bind_eq_value, Outcome.ofOption_eq_value] at h
        obtain ⟨raw, -, name, -, h⟩ := h
        split at h
        · cases h
        · cases h
          exact readLe_lt hlength

theorem readFileIn_length {len : Nat} (hdevice : fs.FileOnDevice info) (hgranted : granted fs.blockSize = true)
    (hfile : info.isDir = false) (hsize : info.size < 2 ^ 32) (hoffset : offset < info.size) :
    ∃ bytes, fs.readFileIn granted 32 info offset len = .value bytes ∧ bytes.length = min len (info.size - offset) := by
  have husize : asUsize 32 (info.size - offset) = info.size - offset := Nat.mod_eq_of_lt (by omega)
  have hdiv : checkedDiv offset fs.blockSize = some (offset / fs.blockSize) := if_neg (Nat.ne_of_gt hdevice.2.1)
  obtain ⟨bytes, hloop, hlen⟩ := @fileLoop_length fs info offset (min len (info.size - offset)) (offset / fs.blockSize) 0
    (min len (info.size - offset)) hdevice (by omega) (Nat.le_refl _) (fun _ => rfl) (fun h => absurd rfl h)
  refine ⟨bytes, ?_, hlen⟩
  rw [readFileIn, if_neg (by simp [hfile]), if_neg (Nat.not_le_of_lt hoffset), husize]
  dsimp only
  rw [hdiv, Outcome.ofOption_some, Outcome.value_bind, allocBuffer, if_pos hgranted, Outcome.value_bind, hloop]

end Iso9660

namespace ExFat

variable {fs : ExFat} {info : FileInfo} {E : List FileExtent} {fuel offset len width : Nat}

theorem readFileIn_eq : fs.readFileIn width fuel info offset len =
    fs.readFile fuel info offset (min len (asUsize width (info.size - offset))) := by
  have hle : asUsize width (info.size - offset) ≤ info.size - offset := Nat.mod_le _ _
  rw [readFileIn, readFile, Nat.min_eq_left (Nat.le_trans (Nat.min_le_right _ _) hle)]

/-- Without a block count that the arithmetic keeps, the extents are empty. -/
theorem readFromExtents_of_overflow (hround : 2 ^ 64 ≤ info.size + (fs.io.blockSize - 1)) (hsize : info.size < 2 ^ 64)
    (h : fs.extentsOf fuel info = some (.ok E)) : fs.readFromExtents E offset len = .ok [] := by
  have hpos := fs.sectorSize_pos
  have hlt := fs.io.blockSize_lt
  have hblocks : ClusterMap.blocksOf info.size fs.io.blockSize = 0 := by
    have hwrapped : wrappingSub 64 (wrappingAdd 64 info.size fs.io.blockSize) 1 < fs.io.blockSize := by
      rw [wrappingAdd, wrappingSub]
      omega
    exact Nat.div_eq_of_lt hwrapped
  have hzero : ¬ info.size = 0 := by omega
  rw [extentsOf] at h
  split at h
  · rw [contiguousExtents, if_neg hzero, hblocks] at h
    split at h
    · cases h
    · cases h
      rw [readFromExtents, wrappingMul, Nat.zero_mul, Nat.zero_mod, if_pos (Nat.zero_le _)]
      rfl
  · rw [clusterChainExtents, ClusterMap.clusterChainExtents, if_neg hzero, hblocks] at h
    split at h
    · cases h
    · cases fuel with
      | zero => cases h
      | succ fuel =>
          rw [ClusterMap.chainLoop, if_pos rfl] at h
          cases h
          rfl

/-- A 32-bit build transfers what is left of a file exactly where the cast of it loses nothing that the buffer could
take. -/
theorem readFileIn_length (hfits : fs.FitsDevice info) (hfile : info.isDir = false)
    (h : fs.extentsOf fuel info = some (.ok E)) (hsize : info.size < 2 ^ 64) (hoffset : offset < info.size) :
    (∃ bytes, fs.readFileIn 32 fuel info offset len = some (.ok bytes) ∧ bytes.length = min len (info.size - offset)) ↔
      len = 0 ∨ (info.size + (fs.io.blockSize - 1) < 2 ^ 64 ∧
        (info.size - offset < 2 ^ 32 ∨ len ≤ (info.size - offset) % 2 ^ 32)) := by
  by_cases hround : info.size + (fs.io.blockSize - 1) < 2 ^ 64
  · rw [readFileIn_eq, readFile_ok hfits hfile h hround]
    have hcount : (∃ bytes, some (Except.ok (window (fileByte fs.io E) offset
          (min (min len (asUsize 32 (info.size - offset))) (info.size - offset)))) =
          (some (.ok bytes) : Option (Except FsError (List UInt8))) ∧ bytes.length = min len (info.size - offset)) ↔
        min (min len (asUsize 32 (info.size - offset))) (info.size - offset) = min len (info.size - offset) := by
      constructor
      · rintro ⟨bytes, heq, hlen⟩
        cases heq
        rwa [length_window] at hlen
      · intro hlen
        exact ⟨_, rfl, by rw [length_window, hlen]⟩
    rw [hcount, asUsize]
    omega
  · have hempty : ∃ bytes, fs.readFileIn 32 fuel info offset len = some (.ok bytes) ∧ bytes = [] := by
      rw [readFileIn, if_neg (by simp [hfile]), if_neg (Nat.not_le_of_lt hoffset), h]
      exact ⟨[], congrArg some (readFromExtents_of_overflow (Nat.le_of_not_lt hround) hsize h), rfl⟩
    obtain ⟨_, hread, rfl⟩ := hempty
    rw [hread]
    constructor
    · rintro ⟨bytes, heq, hlen⟩
      cases heq
      rw [List.length_nil] at hlen
      omega
    · rintro (rfl | ⟨hlt, -⟩)
      · exact ⟨[], rfl, by rw [List.length_nil, Nat.zero_min]⟩
      · exact absurd hlt hround

end ExFat

/-- A 32-bit build reads a file of an ISO9660 volume as far as the buffer or the file goes. It does so with a file of an
exFAT volume where the cast of what is left of the file, and the rounding of its size to blocks, lose nothing. -/
theorem large_files (exFat : ExFat) (iso : Iso9660) (granted : Nat → Bool) (fuel offset len : Nat) :
    (∀ info E, exFat.FitsDevice info → info.isDir = false → exFat.extentsOf fuel info = some (.ok E) →
      info.size < 2 ^ 64 → offset < info.size →
      ((∃ bytes, exFat.readFileIn 32 fuel info offset len = some (.ok bytes) ∧
          bytes.length = min len (info.size - offset)) ↔
        len = 0 ∨ (info.size + (exFat.io.blockSize - 1) < 2 ^ 64 ∧
          (info.size - offset < 2 ^ 32 ∨ len ≤ (info.size - offset) % 2 ^ 32)))) ∧
    ∀ data info, Iso9660.parseDirectoryRecord data = .value (some info) → iso.FileOnDevice info →
      granted iso.blockSize = true → info.isDir = false → offset < info.size →
      ∃ bytes, iso.readFileIn granted 32 info offset len = .value bytes ∧ bytes.length = min len (info.size - offset) := by
  constructor
  · intro info E hfits hfile hextents hsize hoffset
    exact ExFat.readFileIn_length hfits hfile hextents hsize hoffset
  · intro data info hparse hdevice hgranted hfile hoffset
    exact Iso9660.readFileIn_length hdevice hgranted hfile (Iso9660.size_lt_of_parse hparse) hoffset

def largeVolume : ExFat where
  io := {
    blockSize := 512
    totalBlocks := 0x1000000
    bytes := fun _ => 0
    blockSize_lt := Words.sector_lt_u32
    totalBlocks_lt := by decide }
  clusterSize := 0x8000
  totalClusters := 0x30000
  rootCluster := 2
  fatOffset := 128
  clusterHeapOffset := 0x1000
  sectorSize_pos := Words.sector_pos

def largeFile (size : Nat) : FileInfo := ⟨size, false, 3, true⟩

def largeExtents (size : Nat) : List FileExtent := [⟨0, 0x1040, (size + 511) / 512⟩]

def smallIso : Iso9660 where
  io := { largeVolume.io with blockSize := 2048, blockSize_lt := Words.isoSector_lt_u32 }
  blockSize := 2048
  rootLba := 18
  rootSize := 2048
  blockSize_lt := Words.isoSector_lt_u16
  rootLba_lt := Words.eighteen_lt_u32
  rootSize_lt := Words.isoSector_lt_u32

def smallRecord : List UInt8 :=
  [34, 0, 19, 0, 0, 0, 0, 0, 0, 19, 5, 0, 0, 0, 0, 0, 0, 5, 0, 0, 0, 0, 0, 0, 0, 0, 0, 0, 1, 0, 0, 1, 1, 0x41]

def smallFile : DirectoryEntry where
  name := ['a']
  size := 5
  isDir := false
  attributes := 0
  startCluster := 19
  contiguous := true

theorem smallFile_onDevice : smallIso.FileOnDevice smallFile := by
  refine ⟨by decide, by decide, by decide, fun block hblock => ?_⟩
  have hzero : block = 0 := by
    simp only [smallIso, smallFile] at hblock
    omega
  subst hzero
  decide

/-- A byte more than four gigabytes are left of one file, and five bytes of the other. -/
theorem large_files_sample :
    (∃ bytes, largeVolume.readFileIn 32 0 (largeFile (2 ^ 32 + 1)) 0 1 = some (.ok bytes) ∧
      bytes.length = min 1 ((largeFile (2 ^ 32 + 1)).size - 0)) ∧
    ∃ bytes, smallIso.readFileIn (fun _ => true) 32 smallFile 0 1 = .value bytes ∧
      bytes.length = min 1 (smallFile.size - 0) := by
  have h := large_files largeVolume smallIso (fun _ => true) 0 0 1
  refine ⟨(h.1 (largeFile (2 ^ 32 + 1)) (largeExtents (2 ^ 32 + 1)) ?_ rfl ?_ ?_ ?_).2 (.inr ⟨?_, .inr ?_⟩),
    h.2 smallRecord smallFile ?_ smallFile_onDevice rfl rfl (by decide)⟩
  · unfold ExFat.FitsDevice
    decide +kernel
  all_goals decide +kernel

/-- Of a file of four gigabytes nothing is read. -/
theorem four_gigabytes_lost : ¬ ∀ (exFat : ExFat) (fuel offset len : Nat) (info : FileInfo) (E : List FileExtent),
    exFat.FitsDevice info → info.isDir = false → exFat.extentsOf fuel info = some (.ok E) → offset < info.size →
      ∃ bytes, exFat.readFileIn 32 fuel info offset len = some (.ok bytes) ∧
        bytes.length = min len (info.size - offset) := by
  intro h
  have hfits : largeVolume.FitsDevice (largeFile (2 ^ 32)) := by
    unfold ExFat.FitsDevice
    decide +kernel
  obtain ⟨bytes, hread, hlen⟩ := h largeVolume 0 0 1 (largeFile (2 ^ 32)) (largeExtents (2 ^ 32)) hfits rfl
    (by decide +kernel) (by decide +kernel)
  have hempty : largeVolume.readFileIn 32 0 (largeFile (2 ^ 32)) 0 1 = some (.ok []) := by decide +kernel
  rw [hempty] at hread
  cases hread
  exact absurd hlen (by decide)

end NextBoot.Fs
