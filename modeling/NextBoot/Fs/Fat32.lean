import NextBoot.Fs.ClusterChain

namespace NextBoot.Fs

open Words BlockStore Tiling Bytes Results

/-- An opened FAT32 volume. Its block size is the device's, as `init` checks, and `init` divides by its cluster size. -/
structure Fat32 where
  io : BlockIo
  sectorsPerCluster : Nat
  fatStart : Nat
  dataStart : Nat
  rootCluster : Nat
  totalClusters : Nat
  blockSize_pos : 0 < io.blockSize
  sectorsPerCluster_pos : 0 < sectorsPerCluster

namespace Fat32

theorem blockSize_pos_of_init {io : BlockIo} {bytesPerSector : Nat} (hzero : ¬ bytesPerSector = 0)
    (hsize : ¬ bytesPerSector ≠ io.blockSize) : 0 < io.blockSize := by omega

/-- `none` where the source panics: a short boot sector, or a division by `sectors_per_cluster = 0`. -/
def init (io : BlockIo) : Option (Except FsError Fat32) :=
  match io.readFullBlocks 0 io.blockSize with
  | .error error => some (.error error)
  | .ok boot => do
      let bytesPerSector ← readLe 2 boot 11
      let sectorsPerCluster ← readLe 1 boot 13
      let reservedSectors ← readLe 2 boot 14
      let numFats ← readLe 1 boot 16
      let totalSectors16 ← readLe 2 boot 19
      let totalSectors32 ← readLe 4 boot 32
      let sectorsPerFat32 ← readLe 4 boot 36
      let rootCluster ← readLe 4 boot 44
      let _ ← slice boot 71 11
      if hzero : bytesPerSector = 0 then some (.error .invalidSignature)
      else if hsize : bytesPerSector ≠ io.blockSize then some (.error .blockSizeMismatch)
      else if hspc : sectorsPerCluster = 0 then none
      else
        let fatStart := reservedSectors
        let dataStart := fatStart + sectorsPerFat32 * numFats
        let totalSectors := if totalSectors32 ≠ 0 then totalSectors32 else totalSectors16
        let dataSectors := wrappingSub 64 totalSectors dataStart
        some (.ok {
          io := io
          sectorsPerCluster := sectorsPerCluster
          fatStart := fatStart
          dataStart := dataStart
          rootCluster := rootCluster
          totalClusters := dataSectors / sectorsPerCluster % 2 ^ 32
          blockSize_pos := blockSize_pos_of_init hzero hsize
          sectorsPerCluster_pos := Nat.pos_of_ne_zero hspc })

def clusterSize (fs : Fat32) : Nat := fs.io.blockSize * fs.sectorsPerCluster

def clusterToLba (fs : Fat32) (cluster : Nat) : Nat :=
  wrappingAdd 64 fs.dataStart (wrappingMul 64 (cluster - 2) fs.sectorsPerCluster)

def getNextCluster (fs : Fat32) (cluster : Nat) : Except FsError Nat := do
  let entry ← readFatEntry fs.io fs.fatStart cluster
  pure (entry % 2 ^ 28)

def endOfChain : Nat := 0x0FFFFFF8

def clusters (fs : Fat32) : ClusterMap where
  blocksPerCluster := fs.sectorsPerCluster
  clusterLimit := wrappingAdd 32 fs.totalClusters 2
  endOfChain := endOfChain
  clusterToLba := fs.clusterToLba
  nextCluster := fs.getNextCluster

def clusterChainExtents (fs : Fat32) (fuel startCluster fileSize : Nat) :
    Option (Except FsError (List FileExtent)) :=
  fs.clusters.clusterChainExtents fs.io.blockSize fuel startCluster fileSize

def readCluster (fs : Fat32) (cluster : Nat) : Except FsError (List UInt8) := do
  refuseIf (¬ fs.clusters.InHeap cluster) .invalidArgument
  fs.io.readFullBlocks (fs.clusterToLba cluster) fs.clusterSize

/-- The reading loop. Each round copies at least one byte, so `needed` rounds are enough. -/
def readLoop (fs : Fat32) : Nat → Nat → Nat → Nat → Except FsError (List UInt8)
  | 0, _, _, _ => pure []
  | fuel + 1, needed, cluster, inClusterOffset =>
      if 0 < needed ∧ 2 ≤ cluster ∧ cluster < endOfChain then do
        let clusterData ← fs.readCluster cluster
        let available := clusterData.length - inClusterOffset
        let copySize := min available needed
        let piece := (clusterData.drop inClusterOffset).take copySize
        if 0 < needed - copySize then do
          let next ← fs.getNextCluster cluster
          let rest ← fs.readLoop fuel (needed - copySize) next 0
          pure (piece ++ rest)
        else pure piece
      else pure []

/-- `read_file` of the file that `stat` has found, into a buffer of `len` bytes: the bytes it puts there. -/
def readFile (fs : Fat32) (info : FileInfo) (offset len : Nat) : Except FsError (List UInt8) :=
  if info.isDir then .error .notFile
  else if info.size ≤ offset then pure []
  else do
    let toRead := min len (info.size - offset)
    let cluster ← fs.clusters.skipClusters (offset / fs.clusterSize) (info.startCluster % 2 ^ 32)
    fs.readLoop toRead toRead cluster (offset % fs.clusterSize)

def fileExtents (fs : Fat32) (fuel : Nat) (info : FileInfo) : Option (Except FsError (List FileExtent)) :=
  if info.isDir then some (.error .notFile)
  else fs.clusterChainExtents fuel (info.startCluster % 2 ^ 32) info.size

/-- The data region lies inside the device. -/
def FitsDevice (fs : Fat32) : Prop := fs.dataStart + fs.totalClusters * fs.sectorsPerCluster ≤ fs.io.totalBlocks

variable {fs : Fat32} {startCluster size cluster n : Nat} {E : List FileExtent}

theorem clusterSize_pos (fs : Fat32) : 0 < fs.clusterSize := Nat.mul_pos fs.blockSize_pos fs.sectorsPerCluster_pos

theorem clusterToLba_fits (hfits : fs.FitsDevice) (h : fs.clusters.InHeap cluster) :
    fs.clusterToLba cluster + fs.sectorsPerCluster ≤ fs.io.totalBlocks := by
  obtain ⟨heq, hle⟩ := ClusterMap.heap_block_eq hfits (h.index_lt rfl)
  rwa [clusterToLba, heq]

theorem readCluster_ok (hfits : fs.FitsDevice) (h : fs.clusters.InHeap cluster) :
    fs.readCluster cluster =
      .ok (window fs.io.bytes (fs.clusterToLba cluster * fs.io.blockSize) fs.clusterSize) := by
  rw [readCluster, refuseIf, if_neg (not_not.mpr h)]
  exact readFullBlocks_blocks fs.blockSize_pos fs.sectorsPerCluster_pos (clusterToLba_fits hfits h)

/-- The bytes of a cluster of the chain are the file's. -/
theorem window_cluster (hfits : fs.FitsDevice)
    (h : fs.clusters.Walked startCluster ((size + (fs.io.blockSize - 1)) / fs.io.blockSize) E)
    (hskip : fs.clusters.skipClusters n startCluster = .ok cluster) (hheap : fs.clusters.InHeap cluster)
    {o len : Nat} (ho : o + len ≤ fs.clusterSize) (hin : n * fs.clusterSize + o + len ≤ size) :
    ((window fs.io.bytes (fs.clusterToLba cluster * fs.io.blockSize) fs.clusterSize).drop o).take len =
      window (fileByte fs.io E) (n * fs.clusterSize + o) len := by
  have hlba := clusterToLba_fits hfits hheap
  have htotal := fs.io.totalBlocks_lt
  rw [(slice_isSome_iff.mp (slice_window fs.io.bytes _ ho)).2]
  apply List.map_congr_left
  intro i hi
  rw [List.mem_range] at hi
  have hbyte := h.fileByte_eq (o := o + i) fs.blockSize_pos hskip 
    (show fs.clusterToLba cluster + fs.sectorsPerCluster ≤ _ by omega)
    (show o + i < fs.clusterSize by omega) (show n * fs.clusterSize + (o + i) < size by omega)
  rw [Nat.add_assoc, Nat.add_assoc]
  exact hbyte.symm

/-- From a cluster of the chain on, the loop returns the bytes of the file. -/
theorem readLoop_ok (hfits : fs.FitsDevice)
    (h : fs.clusters.Walked startCluster ((size + (fs.io.blockSize - 1)) / fs.io.blockSize) E)
    (hstart : startCluster < endOfChain) {fuel needed o : Nat} (ho : o < fs.clusterSize)
    (hin : n * fs.clusterSize + o + needed ≤ size) (hfuel : needed ≤ fuel)
    (hskip : fs.clusters.skipClusters n startCluster = .ok cluster) :
    fs.readLoop fuel needed cluster o = .ok (window (fileByte fs.io E) (n * fs.clusterSize + o) needed) := by
  induction fuel generalizing needed n cluster o with
  | zero =>
      obtain rfl : needed = 0 := by omega
      rfl
  | succ fuel ih =>
      rw [readLoop]
      by_cases hneeded : 0 < needed
      · obtain ⟨c, hskip', hheap, hlater, -⟩ := h.clusterAt
          (ClusterMap.first_block_lt_blocks fs.blockSize_pos (show n * fs.clusterSize < size by omega))
        rw [hskip, Except.ok.injEq] at hskip'
        subst hskip'
        have hend : cluster < endOfChain := by
          rcases Nat.eq_zero_or_pos n with rfl | hn
          · rw [ClusterMap.skipClusters, Except.ok.injEq] at hskip
            omega
          · exact hlater hn
        rw [if_pos ⟨hneeded, hheap.1, hend⟩, readCluster_ok hfits hheap]
        have hpiece := window_cluster hfits h hskip hheap (show o + min (fs.clusterSize - o) needed ≤ fs.clusterSize by omega)
          (by omega)
        dsimp only [bind, Except.bind]
        rw [length_window, hpiece]
        by_cases hmore : 0 < needed - min (fs.clusterSize - o) needed
        · -- the cluster is used up: the file goes on in the next one of the chain
          have hnext : (n + 1) * fs.clusterSize + 0 = n * fs.clusterSize + o + min (fs.clusterSize - o) needed := by
            rw [Nat.succ_mul]
            omega
          obtain ⟨c, hc, -, -, -⟩ := h.clusterAt
            (ClusterMap.first_block_lt_blocks (n := n + 1) fs.blockSize_pos (show (n + 1) * fs.clusterSize < size by omega))
          have hget : fs.getNextCluster cluster = .ok c := by
            rw [ClusterMap.skipClusters_add hskip] at hc
            obtain ⟨next, hn, hnil⟩ := bind_eq_ok.mp hc
            rw [ClusterMap.skipClusters, Except.ok.injEq] at hnil
            rw [← hnil]
            exact hn
          rw [if_pos hmore, hget]
          dsimp only
          rw [ih fs.clusterSize_pos (by omega) (by omega) hc, hnext]
          dsimp only [pure, Except.pure]
          rw [window_split _ (Nat.min_le_right _ _)]
        · rw [if_neg hmore, Nat.min_eq_right (by omega)]
          rfl
      · obtain rfl : needed = 0 := by omega
        rw [if_neg (by omega)]
        rfl

theorem readFile_ok (hfits : fs.FitsDevice) {info : FileInfo} (hfile : info.isDir = false)
    (h : fs.clusters.Walked (info.startCluster % 2 ^ 32)
      ((info.size + (fs.io.blockSize - 1)) / fs.io.blockSize) E)
    (hstart : info.startCluster % 2 ^ 32 < endOfChain) (offset len : Nat) :
    fs.readFile info offset len = .ok (window (fileByte fs.io E) offset (min len (info.size - offset))) := by
  rw [readFile, if_neg (by simp [hfile])]
  split
  · next hpast =>
      rw [Nat.sub_eq_zero_of_le hpast, Nat.min_zero]
      rfl
  · have hpos := fs.clusterSize_pos
    have hsplit : offset / fs.clusterSize * fs.clusterSize + offset % fs.clusterSize = offset := by
      rw [Nat.mul_comm, Nat.div_add_mod]
    obtain ⟨c, hskip, -⟩ := h.clusterAt
      (ClusterMap.first_block_lt_blocks (n := offset / fs.clusterSize) fs.blockSize_pos
        (show offset / fs.clusterSize * fs.clusterSize < info.size by omega))
    have hread := readLoop_ok hfits h hstart (Nat.mod_lt offset hpos)
      (show _ + min len (info.size - offset) ≤ info.size by omega) (Nat.le_refl _) hskip
    rw [hsplit] at hread
    rw [hskip]
    exact hread

/-- A file whose first cluster number is taken for an end mark reads as empty. -/
theorem readFile_stray {info : FileInfo} (hfile : info.isDir = false) (hsize : 0 < info.size)
    (hstart : endOfChain ≤ info.startCluster % 2 ^ 32) : fs.readFile info 0 1 = .ok [] := by
  rw [readFile, if_neg (by simp [hfile]), if_neg (by omega), Nat.zero_div, Nat.min_eq_left (by omega)]
  show fs.readLoop 1 1 _ _ = _
  rw [readLoop, if_neg (by omega)]
  rfl

end Fat32

end NextBoot.Fs
