import NextBoot.Fs.ClusterChain

namespace NextBoot.Fs

open Words BlockStore Tiling Bytes Results

/-- An opened exFAT volume. Its sector size is the device's block size, as `init` checks; `clusterSize` is the sector
size shifted by a byte of the boot sector, and nothing keeps it from becoming zero. -/
structure ExFat where
  io : BlockIo
  clusterSize : Nat
  totalClusters : Nat
  rootCluster : Nat
  fatOffset : Nat
  clusterHeapOffset : Nat
  sectorSize_pos : 0 < io.blockSize

namespace ExFat

/-- `none` where the source panics on a short boot sector. The shifts are taken modulo the width, as in a release
build. -/
def init (io : BlockIo) : Option (Except FsError ExFat) :=
  match io.readFullBlocks 0 io.blockSize with
  | .error error => some (.error error)
  | .ok boot => do
      let name ← slice boot 3 8
      let fatOffset ← readLe 4 boot 80
      let clusterHeapOffset ← readLe 4 boot 88
      let clusterCount ← readLe 4 boot 92
      let rootCluster ← readLe 4 boot 96
      let bytesPerSectorShift ← readLe 1 boot 108
      let sectorsPerClusterShift ← readLe 1 boot 109
      let signature ← readLe 2 boot 510
      if name ≠ [0x45, 0x58, 0x46, 0x41, 0x54, 0x20, 0x20, 0x20] then some (.error .invalidSignature)
      else if signature ≠ 0xAA55 then some (.error .invalidSignature)
      else if hsize : 2 ^ (bytesPerSectorShift % 32) ≠ io.blockSize then some (.error .blockSizeMismatch)
      else
        some (.ok {
          io := io
          clusterSize := wrappingMul 64 io.blockSize (2 ^ (sectorsPerClusterShift % 64))
          totalClusters := clusterCount
          rootCluster := rootCluster
          fatOffset := fatOffset
          clusterHeapOffset := clusterHeapOffset
          sectorSize_pos := by rw [← not_ne_iff.mp hsize]; exact Nat.two_pow_pos _ })

def blocksPerCluster (fs : ExFat) : Nat := fs.clusterSize / fs.io.blockSize

def clusterToSector (fs : ExFat) (cluster : Nat) : Nat :=
  wrappingAdd 64 fs.clusterHeapOffset (wrappingMul 64 (cluster - 2) (fs.clusterSize / fs.io.blockSize))

def getNextCluster (fs : ExFat) (cluster : Nat) : Except FsError Nat := readFatEntry fs.io fs.fatOffset cluster

def endOfChain : Nat := 0xFFFFFFF8

def clusters (fs : ExFat) : ClusterMap where
  blocksPerCluster := fs.blocksPerCluster
  clusterLimit := wrappingAdd 32 fs.totalClusters 2
  endOfChain := endOfChain
  clusterToLba := fs.clusterToSector
  nextCluster := fs.getNextCluster

def contiguousExtents (fs : ExFat) (startCluster fileSize : Nat) : Except FsError (List FileExtent) :=
  if fileSize = 0 then .ok []
  else if ¬ fs.clusters.InHeap startCluster then .error .corrupted
  else .ok [⟨0, fs.clusterToSector startCluster, ClusterMap.blocksOf fileSize fs.io.blockSize⟩]

def clusterChainExtents (fs : ExFat) (fuel startCluster fileSize : Nat) :
    Option (Except FsError (List FileExtent)) :=
  fs.clusters.clusterChainExtents fs.io.blockSize fuel startCluster fileSize

/-- The inner loop of `read_from_extents`. Each round copies at least one byte, so `needed` rounds are enough. -/
def readExtent (fs : ExFat) (extent : FileExtent) : Nat → Nat → Nat → Except FsError (List UInt8)
  | 0, _, _ => pure []
  | fuel + 1, extentOffset, needed =>
      if 0 < needed ∧ extentOffset < wrappingMul 64 extent.blockCount fs.io.blockSize then do
        let inBlockOffset := extentOffset % fs.io.blockSize
        let blockBuf ←
          fs.io.readFullBlocks (wrappingAdd 64 extent.physicalLba (extentOffset / fs.io.blockSize)) fs.io.blockSize
        let copySize := min (blockBuf.length - inBlockOffset) needed
        let rest ← fs.readExtent extent fuel (extentOffset + copySize) (needed - copySize)
        pure ((blockBuf.drop inBlockOffset).take copySize ++ rest)
      else pure []

def readFromExtents (fs : ExFat) : List FileExtent → Nat → Nat → Except FsError (List UInt8)
  | [], _, _ => pure []
  | extent :: extents, skipBytes, needed => do
      let extentBytes := wrappingMul 64 extent.blockCount fs.io.blockSize
      if extentBytes ≤ skipBytes then fs.readFromExtents extents (skipBytes - extentBytes) needed
      else do
        let bytes ← fs.readExtent extent needed skipBytes needed
        if bytes.length = needed then pure bytes
        else do
          let rest ← fs.readFromExtents extents 0 (needed - bytes.length)
          pure (bytes ++ rest)

/-- The extents of the file that `stat` has found, as both `read_file` and `file_extents` compute them. -/
def extentsOf (fs : ExFat) (fuel : Nat) (info : FileInfo) : Option (Except FsError (List FileExtent)) :=
  if info.contiguous then some (fs.contiguousExtents (info.startCluster % 2 ^ 32) info.size)
  else fs.clusterChainExtents fuel (info.startCluster % 2 ^ 32) info.size

def readFile (fs : ExFat) (fuel : Nat) (info : FileInfo) (offset len : Nat) : Option (Except FsError (List UInt8)) :=
  if info.isDir then some (.error .notFile)
  else if info.size ≤ offset then some (pure [])
  else do
    let extents ← fs.extentsOf fuel info
    some (extents >>= fun extents => fs.readFromExtents extents offset (min len (info.size - offset)))

def fileExtents (fs : ExFat) (fuel : Nat) (info : FileInfo) : Option (Except FsError (List FileExtent)) :=
  if info.isDir then some (.error .notFile) else fs.extentsOf fuel info

/-- The cluster heap lies inside the device, and so does a file stored without a chain. -/
def FitsDevice (fs : ExFat) (info : FileInfo) : Prop :=
  fs.clusterHeapOffset + fs.totalClusters * fs.blocksPerCluster ≤ fs.io.totalBlocks ∧
    (info.contiguous = true → fs.clusterHeapOffset + (info.startCluster % 2 ^ 32 - 2) * fs.blocksPerCluster +
      (info.size + (fs.io.blockSize - 1)) / fs.io.blockSize ≤ fs.io.totalBlocks)

variable {fs : ExFat} {E es : List FileExtent} {e : FileExtent} {lo hi fuel offset needed : Nat}

theorem readExtent_ok (hE : Ordered FileExtent.virtualBlockStart FileExtent.blockCount E lo) (he : e ∈ E)
    (hdevice : ∀ k p, translate E k = some p → p < fs.io.totalBlocks)
    (hbytes : e.blockCount * fs.io.blockSize < 2 ^ 64) (hoffset : offset ≤ e.blockCount * fs.io.blockSize)
    (hfuel : needed ≤ fuel) :
    fs.readExtent e fuel offset needed = .ok (window (fileByte fs.io E)
      (e.virtualBlockStart * fs.io.blockSize + offset) (min needed (e.blockCount * fs.io.blockSize - offset))) := by
  induction fuel generalizing offset needed with
  | zero =>
      obtain rfl : needed = 0 := by omega
      rw [Nat.zero_min]
      rfl
  | succ fuel ih =>
      rw [readExtent, wrappingMul_eq hbytes]
      split
      · next hmore =>
          have hpos := fs.sectorSize_pos
          have hk : offset / fs.io.blockSize < e.blockCount := Nat.div_lt_of_lt_mul (by rw [Nat.mul_comm]; exact hmore.2)
          have hplace : translate E (e.virtualBlockStart + offset / fs.io.blockSize) =
              some (wrappingAdd 64 e.physicalLba (offset / fs.io.blockSize)) := by
            rw [translate_of_mem hE he ⟨Nat.le_add_right _ _, by omega⟩, FileExtent.place, Nat.add_sub_cancel_left]
          have hmod := Nat.mod_lt offset hpos
          have hsplit := Nat.div_add_mod offset fs.io.blockSize
          rw [Nat.mul_comm] at hsplit
          have hnext : (offset / fs.io.blockSize + 1) * fs.io.blockSize ≤ e.blockCount * fs.io.blockSize :=
            Nat.mul_le_mul_right _ hk
          rw [Nat.succ_mul] at hnext
          generalize hcopy : min (fs.io.blockSize - offset % fs.io.blockSize) needed = copySize
          have hpiece := @window_block E _ fs.io _ (offset % fs.io.blockSize) copySize hplace (by omega)
          rw [Nat.add_mul, Nat.add_assoc, hsplit] at hpiece
          rw [readFullBlocks_block hpos (hdevice _ _ hplace)]
          dsimp only [bind, Except.bind]
          rw [length_window, hcopy, ih (by omega) (by omega)]
          dsimp only [pure, Except.pure]
          rw [(slice_isSome_iff.mp (slice_window fs.io.bytes _ (show _ + copySize ≤ _ by omega))).2, ← hpiece,
            ← Nat.add_assoc, ← window_add]
          congr 2
          omega
      · next hdone =>
          obtain hzero : min needed (e.blockCount * fs.io.blockSize - offset) = 0 := by omega
          rw [hzero]
          rfl

theorem readFromExtents_ok (hE : Ordered FileExtent.virtualBlockStart FileExtent.blockCount E 0)
    (hdevice : ∀ k p, translate E k = some p → p < fs.io.totalBlocks) (hes : ∀ e ∈ es, e ∈ E)
    (hbytes : ∀ e ∈ es, e.blockCount * fs.io.blockSize < 2 ^ 64) (htiles : TilesFile es lo hi)
    (hin : lo * fs.io.blockSize + offset + needed ≤ hi * fs.io.blockSize) :
    fs.readFromExtents es offset needed =
      .ok (window (fileByte fs.io E) (lo * fs.io.blockSize + offset) needed) := by
  induction es generalizing lo offset needed with
  | nil =>
      obtain rfl : lo = hi := htiles
      obtain rfl : needed = 0 := by omega
      rfl
  | cons e es ih =>
      obtain ⟨rfl, -, htiles⟩ := htiles
      have he := hbytes e (by simp)
      have hes' : ∀ x ∈ es, x ∈ E := fun x hx => hes x (List.mem_cons_of_mem _ hx)
      have hbytes' : ∀ x ∈ es, x.blockCount * fs.io.blockSize < 2 ^ 64 :=
        fun x hx => hbytes x (List.mem_cons_of_mem _ hx)
      rw [readFromExtents, wrappingMul_eq he]
      have hsum : (e.virtualBlockStart + e.blockCount) * fs.io.blockSize =
          e.virtualBlockStart * fs.io.blockSize + e.blockCount * fs.io.blockSize := Nat.add_mul _ _ _
      split
      · next hskip =>
          rw [ih hes' hbytes' htiles (by omega)]
          congr 2
          omega
      · next hskip =>
          rw [readExtent_ok hE (hes e (by simp)) hdevice he (by omega) (Nat.le_refl _)]
          dsimp only [bind, Except.bind]
          rw [length_window]
          split
          · next hall =>
              rw [hall]
              rfl
          · next hpart =>
              have hstart : (e.virtualBlockStart + e.blockCount) * fs.io.blockSize + 0 =
                  e.virtualBlockStart * fs.io.blockSize + offset +
                    min needed (e.blockCount * fs.io.blockSize - offset) := by omega
              rw [ih hes' hbytes' htiles (by omega), hstart]
              dsimp only [pure, Except.pure]
              rw [window_split _ (Nat.min_le_left _ _)]

variable {info : FileInfo}

theorem clusterToSector_eq {cluster : Nat} (hfits : fs.FitsDevice info) (h : fs.clusters.InHeap cluster) :
    fs.clusterToSector cluster = fs.clusterHeapOffset + (cluster - 2) * fs.blocksPerCluster ∧
      fs.clusterHeapOffset + (cluster - 2) * fs.blocksPerCluster + fs.blocksPerCluster ≤ fs.io.totalBlocks :=
  ClusterMap.heap_block_eq hfits.1 (h.index_lt rfl)

theorem contiguousExtents_placed (hfits : fs.FitsDevice info) (hcontiguous : info.contiguous = true)
    (h : fs.contiguousExtents (info.startCluster % 2 ^ 32) info.size = .ok E)
    (hsize : 0 < info.size) (hround : info.size + (fs.io.blockSize - 1) < 2 ^ 64) :
    TilesFile E 0 ((info.size + (fs.io.blockSize - 1)) / fs.io.blockSize) ∧
      ∀ k p, translate E k = some p → p < fs.io.totalBlocks := by
  have hpos := fs.sectorSize_pos
  have htotal := fs.io.totalBlocks_lt
  have hrun := hfits.2 hcontiguous
  rw [contiguousExtents, if_neg (by omega)] at h
  split at h
  · cases h
  · next hheap =>
      rw [ClusterMap.blocksOf_eq hpos hround, (clusterToSector_eq hfits (not_not.mp hheap)).1, Except.ok.injEq] at h
      subst h
      have hblocks := Nat.div_pos (show fs.io.blockSize ≤ info.size + (fs.io.blockSize - 1) by omega) hpos
      generalize (info.size + (fs.io.blockSize - 1)) / fs.io.blockSize = blocks at hrun hblocks ⊢
      generalize fs.clusterHeapOffset + (info.startCluster % 2 ^ 32 - 2) * fs.blocksPerCluster = first at hrun ⊢
      have htiles : TilesFile [⟨0, first, blocks⟩] 0 blocks := ⟨rfl, hblocks, Nat.zero_add _⟩
      refine ⟨htiles, fun k p hk => ?_⟩
      have hlt := translate_lt htiles hk
      rw [translate_of_mem htiles.ordered (List.mem_singleton.mpr rfl) ⟨Nat.zero_le k, by simpa using hlt⟩] at hk
      rw [← Option.some.inj hk, FileExtent.place]
      dsimp only
      rw [Nat.sub_zero, wrappingAdd_eq (by omega)]
      omega

/-- The extents of a non-empty file tile its blocks and lie inside the device. -/
theorem extentsOf_placed (hfits : fs.FitsDevice info) (h : fs.extentsOf fuel info = some (.ok E))
    (hsize : 0 < info.size) (hround : info.size + (fs.io.blockSize - 1) < 2 ^ 64) :
    TilesFile E 0 ((info.size + (fs.io.blockSize - 1)) / fs.io.blockSize) ∧
      ∀ k p, translate E k = some p → p < fs.io.totalBlocks := by
  rw [extentsOf] at h
  split at h
  · next hcontiguous => exact contiguousExtents_placed hfits hcontiguous (Option.some.inj h) hsize hround
  · have hwalked := ClusterMap.clusterChainExtents_walked h hsize fs.sectorSize_pos hround
    refine ⟨hwalked.tiles, fun k p hk => ?_⟩
    obtain ⟨c, -, hheap, -, hplace⟩ := hwalked.places k (translate_lt hwalked.tiles hk)
    obtain ⟨heq, hle⟩ := clusterToSector_eq hfits hheap
    have hmod : k % fs.blocksPerCluster < fs.blocksPerCluster := Nat.mod_lt k hwalked.blocksPerCluster_pos
    have hlba : wrappingAdd 64 (fs.clusterToSector c) (k % fs.blocksPerCluster) = p :=
      Option.some.inj (hplace.symm.trans hk)
    have htotal := fs.io.totalBlocks_lt
    rw [heq, wrappingAdd_eq (by omega)] at hlba
    omega

/-- A size that wraps leaves extents that do not tile the file. -/
theorem extentsOf_wraps (h : fs.extentsOf fuel info = some (.ok E)) (hsize : info.size < 2 ^ 64)
    (hwraps : ¬ info.size + (fs.io.blockSize - 1) < 2 ^ 64) :
    ¬ TilesFile E 0 ((info.size + (fs.io.blockSize - 1)) / fs.io.blockSize) := by
  have hpos := fs.sectorSize_pos
  have hlt := fs.io.blockSize_lt
  have hblocks := Nat.div_pos (show fs.io.blockSize ≤ info.size + (fs.io.blockSize - 1) by omega) hpos
  intro htiles
  rw [extentsOf] at h
  split at h
  · rw [contiguousExtents, if_neg (by omega), Option.some.injEq] at h
    split at h
    · cases h
    · rw [ClusterMap.blocksOf_wraps hsize hlt hwraps, Except.ok.injEq] at h
      subst h
      exact absurd htiles.2.1 (Nat.lt_irrefl 0)
  · obtain rfl := ClusterMap.clusterChainExtents_wraps h hsize hlt hwraps
    have hzero : 0 = _ := htiles
    omega

theorem readFile_ok (hfits : fs.FitsDevice info) (hfile : info.isDir = false)
    (h : fs.extentsOf fuel info = some (.ok E)) (hround : info.size + (fs.io.blockSize - 1) < 2 ^ 64)
    (offset len : Nat) :
    fs.readFile fuel info offset len =
      some (.ok (window (fileByte fs.io E) offset (min len (info.size - offset)))) := by
  rw [readFile, if_neg (by simp [hfile])]
  split
  · next hpast =>
      rw [Nat.sub_eq_zero_of_le hpast, Nat.min_zero]
      rfl
  · next hinside =>
      obtain ⟨htiles, hdevice⟩ := extentsOf_placed hfits h (by omega) hround
      have hround_le := Nat.div_mul_le_self (info.size + (fs.io.blockSize - 1)) fs.io.blockSize
      have hbytes : ∀ e ∈ E, e.blockCount * fs.io.blockSize < 2 ^ 64 := fun e he => by
        have hle := Nat.mul_le_mul_right fs.io.blockSize (Nat.le_trans (Nat.le_add_left _ _) (htiles.stop_le he))
        omega
      have hcover := Nat.lt_mul_div_succ (info.size + (fs.io.blockSize - 1)) fs.sectorSize_pos
      rw [Nat.mul_succ, Nat.mul_comm] at hcover
      have hread := readFromExtents_ok htiles.ordered hdevice (fun e he => he) hbytes htiles
        (show 0 * fs.io.blockSize + offset + min len (info.size - offset) ≤ _ by omega)
      rw [h]
      show some (fs.readFromExtents E offset _) = _
      rw [hread, Nat.zero_mul, Nat.zero_add]

end ExFat

end NextBoot.Fs
