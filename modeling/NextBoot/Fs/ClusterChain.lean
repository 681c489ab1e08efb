import NextBoot.Fs.Extents

namespace NextBoot.Fs

open Words BlockStore Tiling Bytes Results

/-- The 32-bit entry of the allocation table that starts at block `fatStart`. -/
def readFatEntry (io : BlockIo) (fatStart cluster : Nat) : Except FsError Nat := do
  let fatOffset := cluster * 4
  let sector ← io.readFullBlocks (wrappingAdd 64 fatStart (fatOffset / io.blockSize)) io.blockSize
  someOr (readLe 4 sector (fatOffset % io.blockSize)) .corrupted

/-- The part of a FAT volume that the walk along a cluster chain uses. -/
structure ClusterMap where
  blocksPerCluster : Nat
  clusterLimit : Nat
  endOfChain : Nat
  clusterToLba : Nat → Nat
  nextCluster : Nat → Except FsError Nat

namespace ClusterMap

def InHeap (m : ClusterMap) (cluster : Nat) : Prop := 2 ≤ cluster ∧ cluster < m.clusterLimit

instance (m : ClusterMap) (cluster : Nat) : Decidable (m.InHeap cluster) := inferInstanceAs (Decidable (_ ∧ _))

/-- The loop of `cluster_chain_extents`; `none` when it has not come to an end within `fuel` rounds. -/
def chainLoop (m : ClusterMap) : Nat → Nat → Nat → Nat → List FileExtent → Option (Except FsError (List FileExtent))
  | 0, _, _, _, _ => none
  | fuel + 1, cluster, blocksRemaining, virtualBlock, extents =>
      if blocksRemaining = 0 then some (.ok extents)
      else if ¬ m.InHeap cluster then some (.error .corrupted)
      else
        let blockCount := min m.blocksPerCluster blocksRemaining
        let extents := pushExtent extents virtualBlock (m.clusterToLba cluster) blockCount
        let virtualBlock := wrappingAdd 64 virtualBlock blockCount
        let blocksRemaining := blocksRemaining - blockCount
        if blocksRemaining = 0 then m.chainLoop fuel cluster blocksRemaining virtualBlock extents
        else
          match m.nextCluster cluster with
          | .error error => some (.error error)
          | .ok next =>
              if m.endOfChain ≤ next then some (.error .corrupted)
              else m.chainLoop fuel next blocksRemaining virtualBlock extents

/-- The blocks of a file, `(file_size + block_size - 1) / block_size` in 64-bit arithmetic. -/
def blocksOf (fileSize blockSize : Nat) : Nat :=
  wrappingSub 64 (wrappingAdd 64 fileSize blockSize) 1 / blockSize

def clusterChainExtents (m : ClusterMap) (blockSize fuel startCluster fileSize : Nat) :
    Option (Except FsError (List FileExtent)) :=
  if fileSize = 0 then some (.ok [])
  else if ¬ m.InHeap startCluster then some (.error .corrupted)
  else m.chainLoop fuel startCluster (blocksOf fileSize blockSize) 0 []

def skipClusters (m : ClusterMap) : Nat → Nat → Except FsError Nat
  | 0, cluster => .ok cluster
  | n + 1, cluster => do
      let next ← m.nextCluster cluster
      m.skipClusters n next

variable {m : ClusterMap} {fuel cluster blocksRemaining virtualBlock : Nat} {extents E : List FileExtent}

theorem skipClusters_succ_ok {n next : Nat} (h : m.nextCluster cluster = .ok next) :
    m.skipClusters (n + 1) cluster = m.skipClusters n next := by
  rw [skipClusters, h]
  rfl

theorem skipClusters_add {n k c : Nat} (h : m.skipClusters n cluster = .ok c) :
    m.skipClusters (n + k) cluster = m.skipClusters k c := by
  induction n generalizing cluster with
  | zero =>
      rw [skipClusters, Except.ok.injEq] at h
      rw [h, Nat.zero_add]
  | succ n ih =>
      obtain ⟨next, hnext, h⟩ := bind_eq_ok.mp h
      rw [Nat.add_right_comm, skipClusters_succ_ok hnext, ih h]

theorem chainLoop_done (h : m.chainLoop fuel cluster 0 virtualBlock extents = some (.ok E)) : E = extents := by
  cases fuel with
  | zero => cases h
  | succ fuel =>
      rw [chainLoop, if_pos rfl] at h
      simpa using h.symm

/-- One round of the loop: the cluster is in the heap, and unless the file ends with it the next one is followed. -/
theorem chainLoop_round (h : m.chainLoop (fuel + 1) cluster blocksRemaining virtualBlock extents = some (.ok E))
    (hpos : 0 < blocksRemaining) :
    m.InHeap cluster ∧ ∃ next,
      (blocksRemaining ≤ m.blocksPerCluster ∨ m.nextCluster cluster = .ok next ∧ next < m.endOfChain) ∧
      m.chainLoop fuel next (blocksRemaining - min m.blocksPerCluster blocksRemaining)
        (wrappingAdd 64 virtualBlock (min m.blocksPerCluster blocksRemaining))
        (pushExtent extents virtualBlock (m.clusterToLba cluster) (min m.blocksPerCluster blocksRemaining)) =
          some (.ok E) := by
  rw [chainLoop, if_neg (by omega)] at h
  split at h
  · cases h
  · next hheap =>
      rw [not_not] at hheap
      refine ⟨hheap, ?_⟩
      dsimp only at h
      split at h
      · exact ⟨cluster, .inl (by omega), h⟩
      · split at h
        · cases h
        · next next hnext =>
            split at h
            · cases h
            · exact ⟨next, .inr ⟨hnext, by omega⟩, h⟩

theorem blocksPerCluster_pos (h : m.chainLoop fuel cluster blocksRemaining virtualBlock extents = some (.ok E))
    (hpos : 0 < blocksRemaining) : 0 < m.blocksPerCluster := by
  induction fuel generalizing cluster virtualBlock extents with
  | zero => cases h
  | succ fuel ih =>
      obtain ⟨-, next, -, h⟩ := chainLoop_round h hpos
      by_contra hzero
      rw [Nat.eq_zero_of_not_pos hzero, Nat.zero_min, Nat.sub_zero] at h
      exact hzero (ih h)

/-- The extents of a chain that was walked to its end: each block of the file lies in the cluster that the chain
reaches after as many steps as whole clusters come before the block. -/
theorem chainLoop_spec (h : m.chainLoop fuel cluster blocksRemaining virtualBlock extents = some (.ok E))
    (hbpc : 0 < m.blocksPerCluster) (htiles : TilesFile extents 0 virtualBlock)
    (hfits : virtualBlock + blocksRemaining < 2 ^ 64) :
    TilesFile E 0 (virtualBlock + blocksRemaining) ∧ (∀ k < virtualBlock, translate E k = translate extents k) ∧
      ∀ k < blocksRemaining, ∃ c, m.skipClusters (k / m.blocksPerCluster) cluster = .ok c ∧ m.InHeap c ∧
        (m.blocksPerCluster ≤ k → c < m.endOfChain) ∧
        translate E (virtualBlock + k) = some (wrappingAdd 64 (m.clusterToLba c) (k % m.blocksPerCluster)) := by
  induction fuel generalizing cluster blocksRemaining virtualBlock extents with
  | zero => cases h
  | succ fuel ih =>
      rcases Nat.eq_zero_or_pos blocksRemaining with rfl | hpos
      · obtain rfl := chainLoop_done h
        exact ⟨htiles, fun _ _ => rfl, fun k hk => absurd hk (by omega)⟩
      · obtain ⟨hheap, next, hnext, h⟩ := chainLoop_round h hpos
        generalize hbc : min m.blocksPerCluster blocksRemaining = blockCount at h
        rw [wrappingAdd_eq (by omega)] at h
        obtain ⟨htiles', hold, hnew⟩ := pushExtent_tiles htiles
          (show 0 < blockCount by omega) (by omega)
        obtain ⟨hE, hkeep, hplaces⟩ := ih h htiles' (by omega)
        have hsum : virtualBlock + blockCount + (blocksRemaining - blockCount) = virtualBlock + blocksRemaining := by
          omega
        rw [hsum] at hE
        refine ⟨hE, fun k hk => ?_, fun k hk => ?_⟩
        · rw [hkeep k (by omega), hold k hk]
        · by_cases hfirst : k < blockCount
          · have hlt : k < m.blocksPerCluster := by omega
            refine ⟨cluster, ?_, hheap, fun hle => absurd hle (by omega), ?_⟩
            · rw [Nat.div_eq_of_lt hlt, skipClusters]
            · rw [hkeep _ (by omega), hnew k hfirst, Nat.mod_eq_of_lt hlt]
          · -- a later block: its cluster is reached from the next one, and the chain did go on
            have hfull : blockCount = m.blocksPerCluster := by omega
            subst hfull
            obtain ⟨hok, hend⟩ := hnext.resolve_left (by omega)
            obtain ⟨j, rfl⟩ : ∃ j, k = j + m.blocksPerCluster := ⟨k - m.blocksPerCluster, by omega⟩
            obtain ⟨c, hskip, hc, hlater, hplace⟩ := hplaces j (by omega)
            refine ⟨c, ?_, hc, fun _ => ?_, ?_⟩
            · rw [Nat.add_div_right _ hbpc, skipClusters_succ_ok hok, hskip]
            · by_cases hj : m.blocksPerCluster ≤ j
              · exact hlater hj
              · rw [Nat.div_eq_of_lt (by omega), skipClusters, Except.ok.injEq] at hskip
                omega
            · rw [Nat.add_mod_right, ← hplace]
              congr 1
              omega

theorem InHeap.index_lt {totalClusters : Nat} (h : m.InHeap cluster)
    (hlimit : m.clusterLimit = wrappingAdd 32 totalClusters 2) : cluster - 2 < totalClusters := by
  obtain ⟨hlo, hhi⟩ := h
  have hmod := Nat.mod_le (totalClusters + 2) (2 ^ 32)
  rw [hlimit, wrappingAdd] at hhi
  omega

/-- Inside the device, the first block of a cluster is computed without wrapping. -/
theorem heap_block_eq {io : BlockIo} {heapStart totalClusters blocksPerCluster i : Nat}
    (hfits : heapStart + totalClusters * blocksPerCluster ≤ io.totalBlocks) (hi : i < totalClusters) :
    wrappingAdd 64 heapStart (wrappingMul 64 i blocksPerCluster) = heapStart + i * blocksPerCluster ∧
      heapStart + i * blocksPerCluster + blocksPerCluster ≤ io.totalBlocks := by
  have hmul : (i + 1) * blocksPerCluster ≤ totalClusters * blocksPerCluster := Nat.mul_le_mul_right _ hi
  rw [Nat.succ_mul] at hmul
  have htotal := io.totalBlocks_lt
  refine ⟨?_, by omega⟩
  rw [wrappingMul_eq (by omega), wrappingAdd_eq (by omega)]

theorem blocksOf_eq {fileSize blockSize : Nat} (hpos : 0 < blockSize) (h : fileSize + (blockSize - 1) < 2 ^ 64) :
    blocksOf fileSize blockSize = (fileSize + (blockSize - 1)) / blockSize := by
  rw [blocksOf, wrappingSub_one_wrappingAdd (by omega), Nat.mod_eq_of_lt (by omega), Nat.add_sub_assoc hpos]

/-- A size that does not round up to blocks within 64 bits is taken for an empty file. -/
theorem blocksOf_wraps {fileSize blockSize : Nat} (hsize : fileSize < 2 ^ 64) (hblock : blockSize < 2 ^ 32)
    (h : ¬ fileSize + (blockSize - 1) < 2 ^ 64) : blocksOf fileSize blockSize = 0 := by
  rw [blocksOf, wrappingSub_one_wrappingAdd (by omega)]
  apply Nat.div_eq_of_lt
  omega

theorem first_block_lt_blocks {fileSize blockSize blocksPerCluster n : Nat} (hpos : 0 < blockSize)
    (h : n * (blockSize * blocksPerCluster) < fileSize) :
    n * blocksPerCluster < (fileSize + (blockSize - 1)) / blockSize := by
  have hlt := block_lt_blocks h hpos
  rwa [Nat.mul_left_comm, Nat.mul_div_cancel_left _ hpos] at hlt

/-- What the walk over a non-empty file has found out about its chain. -/
structure Walked (m : ClusterMap) (startCluster blocks : Nat) (E : List FileExtent) : Prop where
  blocksPerCluster_pos : 0 < m.blocksPerCluster
  tiles : TilesFile E 0 blocks
  places : ∀ k < blocks, ∃ c, m.skipClusters (k / m.blocksPerCluster) startCluster = .ok c ∧ m.InHeap c ∧
    (m.blocksPerCluster ≤ k → c < m.endOfChain) ∧
    translate E k = some (wrappingAdd 64 (m.clusterToLba c) (k % m.blocksPerCluster))

theorem clusterChainExtents_walked {blockSize startCluster fileSize : Nat}
    (h : m.clusterChainExtents blockSize fuel startCluster fileSize = some (.ok E)) (hsize : 0 < fileSize)
    (hblock : 0 < blockSize) (hfits : fileSize + (blockSize - 1) < 2 ^ 64) :
    m.Walked startCluster ((fileSize + (blockSize - 1)) / blockSize) E := by
  rw [clusterChainExtents, if_neg (by omega)] at h
  split at h
  · cases h
  · rw [blocksOf_eq hblock hfits] at h
    have hpos : 0 < (fileSize + (blockSize - 1)) / blockSize := Nat.div_pos (by omega) hblock
    have hle := Nat.div_le_self (fileSize + (blockSize - 1)) blockSize
    have hbpc := blocksPerCluster_pos h hpos
    obtain ⟨htiles, -, hplaces⟩ := chainLoop_spec h hbpc rfl (by omega)
    simp only [Nat.zero_add] at htiles hplaces
    exact ⟨hbpc, htiles, hplaces⟩

/-- A size that wraps leaves no extents, which do not tile the file. -/
theorem clusterChainExtents_wraps {blockSize startCluster fileSize : Nat}
    (h : m.clusterChainExtents blockSize fuel startCluster fileSize = some (.ok E)) (hsize : fileSize < 2 ^ 64)
    (hblock : blockSize < 2 ^ 32) (hwraps : ¬ fileSize + (blockSize - 1) < 2 ^ 64) : E = [] := by
  rw [clusterChainExtents, if_neg (by omega)] at h
  split at h
  · cases h
  · rw [blocksOf_wraps hsize hblock hwraps] at h
    exact chainLoop_done h

/-- The blocks of one cluster of the file lie side by side in the cluster that the chain reaches. -/
theorem Walked.clusterAt {startCluster blocks n : Nat} (h : m.Walked startCluster blocks E)
    (hn : n * m.blocksPerCluster < blocks) :
    ∃ c, m.skipClusters n startCluster = .ok c ∧ m.InHeap c ∧ (0 < n → c < m.endOfChain) ∧
      ∀ j < m.blocksPerCluster, n * m.blocksPerCluster + j < blocks →
        translate E (n * m.blocksPerCluster + j) = some (wrappingAdd 64 (m.clusterToLba c) j) := by
  have hpos := h.blocksPerCluster_pos
  obtain ⟨c, hskip, hheap, hlater, -⟩ := h.places _ hn
  rw [Nat.mul_div_cancel _ hpos] at hskip
  refine ⟨c, hskip, hheap, fun h0 => hlater (Nat.le_mul_of_pos_left _ h0), fun j hj hblocks => ?_⟩
  obtain ⟨c', hskip', -, -, hplace⟩ := h.places _ hblocks
  have hdiv : (n * m.blocksPerCluster + j) / m.blocksPerCluster = n := by
    rw [Nat.add_comm, Nat.add_mul_div_right _ _ hpos, Nat.div_eq_of_lt hj, Nat.zero_add]
  have hmod : (n * m.blocksPerCluster + j) % m.blocksPerCluster = j := by
    rw [Nat.add_comm, Nat.add_mul_mod_self_right, Nat.mod_eq_of_lt hj]
  rw [hdiv, hskip, Except.ok.injEq] at hskip'
  rw [hplace, hmod, hskip']

theorem Walked.fileByte_eq {io : BlockIo} {startCluster fileSize n c o : Nat} (hbs : 0 < io.blockSize)
    (h : m.Walked startCluster ((fileSize + (io.blockSize - 1)) / io.blockSize) E)
    (hskip : m.skipClusters n startCluster = .ok c) (hlba : m.clusterToLba c + m.blocksPerCluster ≤ 2 ^ 64)
    (ho : o < io.blockSize * m.blocksPerCluster) (hin : n * (io.blockSize * m.blocksPerCluster) + o < fileSize) :
    fileByte io E (n * (io.blockSize * m.blocksPerCluster) + o) =
      io.bytes (m.clusterToLba c * io.blockSize + o) := by
  have hshape : n * (io.blockSize * m.blocksPerCluster) + o = io.blockSize * (n * m.blocksPerCluster) + o := by
    rw [Nat.mul_left_comm]
  have hdiv : (n * (io.blockSize * m.blocksPerCluster) + o) / io.blockSize =
      n * m.blocksPerCluster + o / io.blockSize := by
    rw [hshape, Nat.mul_add_div hbs]
  have hmod : (n * (io.blockSize * m.blocksPerCluster) + o) % io.blockSize = o % io.blockSize := by
    rw [hshape, Nat.mul_add_mod]
  have hj : o / io.blockSize < m.blocksPerCluster := Nat.div_lt_of_lt_mul ho
  have hblock := block_lt_blocks hin hbs
  rw [hdiv] at hblock
  obtain ⟨c', hskip', -, -, hplaces⟩ := h.clusterAt (Nat.lt_of_le_of_lt (Nat.le_add_right _ _) hblock)
  rw [hskip, Except.ok.injEq] at hskip'
  have hplace := hplaces _ hj hblock
  rw [← hskip', wrappingAdd_eq (by omega)] at hplace
  rw [fileByte, hdiv, hmod, hplace]
  dsimp only
  congr 1
  rw [Nat.add_mul, Nat.add_assoc, Nat.mul_comm (o / _), Nat.div_add_mod]

end ClusterMap

end NextBoot.Fs
