import NextBoot.MediaGrow.Exfat

namespace NextBoot.MediaGrow

open Results Words Bytes BlockStore

/-- What the bitmap update reads from the boot region, and the bitmap size it asks for. -/
structure BitmapGeometry where
  perCluster : Nat
  fatOffset : Nat
  clusterHeapOffset : Nat
  oldClusterCount : Nat
  rootCluster : Nat
  clusterBytes : Nat
  requiredBitmapBytes : Nat
  requiredBitmapClusters : Nat
deriving DecidableEq, Repr

def bitmapGeometry (blockSize : Nat) (boot : List UInt8) (newClusterCount : Nat) :
    Except GrowError BitmapGeometry := do
  let sectorBytes ← bytesPerSector boot
  rejectIf (sectorBytes ≠ blockSize) "exFAT sector size does not match media"
  let perCluster ← sectorsPerCluster boot
  let fatOffset ← okOr (readLeU32 boot 80) "missing exFAT FAT offset"
  let fatLength ← okOr (readLeU32 boot 84) "missing exFAT FAT length"
  let clusterHeapOffset ← okOr (readLeU32 boot 88) "missing exFAT cluster heap offset"
  let oldClusterCount ← okOr (readLeU32 boot 92) "missing exFAT cluster count"
  let rootCluster ← okOr (readLeU32 boot 96) "missing exFAT root cluster"
  -- The sum of two 32-bit fields does not overflow the 64-bit addition of the source.
  rejectIf (fatLength = 0 ∨ fatOffset < exfatBootRegionSectors * 2 ∨ fatOffset + fatLength > clusterHeapOffset ∨
    rootCluster < 2 ∨ rootCluster > saturatingAdd 32 oldClusterCount 1) "invalid exFAT bitmap growth geometry"
  let clusterBytes ← okOr (checkedMul 64 perCluster blockSize) "exFAT cluster size overflows"
  let requiredBitmapBytes := (newClusterCount + 7) / 8
  let rounded ← okOr (checkedAdd 64 requiredBitmapBytes (clusterBytes - 1)) "exFAT bitmap size overflows"
  return ⟨perCluster, fatOffset, clusterHeapOffset, oldClusterCount, rootCluster, clusterBytes,
    requiredBitmapBytes, rounded / clusterBytes⟩

/-- What an accepted geometry says about the boot region it was read from. -/
structure GeometryAccepted (blockSize : Nat) (boot : List UInt8) (newClusterCount : Nat) (geo : BitmapGeometry) :
    Prop where
  sectorBytes : bytesPerSector boot = .ok blockSize
  perCluster : sectorsPerCluster boot = .ok geo.perCluster
  fatOffset : readLeU32 boot 80 = some geo.fatOffset
  fatLength : ∃ fatLength, readLeU32 boot 84 = some fatLength ∧ 0 < fatLength ∧
    geo.fatOffset + fatLength ≤ geo.clusterHeapOffset
  heap : readLeU32 boot 88 = some geo.clusterHeapOffset
  count : readLeU32 boot 92 = some geo.oldClusterCount
  root : readLeU32 boot 96 = some geo.rootCluster
  fatBehindBoot : exfatBootRegionSectors * 2 ≤ geo.fatOffset
  rootInside : 2 ≤ geo.rootCluster ∧ geo.rootCluster ≤ saturatingAdd 32 geo.oldClusterCount 1
  clusterBytes : geo.clusterBytes = geo.perCluster * blockSize
  bytesFit : geo.requiredBitmapBytes + (geo.clusterBytes - 1) < 2 ^ 64
  required : geo.requiredBitmapBytes = (newClusterCount + 7) / 8
  clusters : geo.requiredBitmapClusters = (geo.requiredBitmapBytes + (geo.clusterBytes - 1)) / geo.clusterBytes
  clusterFits : geo.clusterBytes < 2 ^ 64

theorem bitmapGeometry_eq_ok {blockSize newClusterCount : Nat} {boot : List UInt8} {geo : BitmapGeometry} :
    bitmapGeometry blockSize boot newClusterCount = .ok geo ↔ GeometryAccepted blockSize boot newClusterCount geo := by
  simp only [bitmapGeometry, bind_eq_ok, okOr_eq_ok, rejectIf_eq_ok, pure_eq_ok, checkedMul_eq_some, checkedAdd_eq_some]
  constructor
  · rintro ⟨sec, hsec, _, hsize, per, hper, fo, hfo, fl, hfl, heap, hheap, cc, hcc, rc, hrc, _, hgeo, _, ⟨hmul, rfl⟩, _,
      ⟨hadd, rfl⟩, rfl⟩
    rw [not_not] at hsize
    subst hsize
    exact ⟨hsec, hper, hfo, ⟨fl, hfl, by omega, by simp only; omega⟩, hheap, hcc, hrc, by simp only; omega,
      by simp only; omega, rfl, hadd, rfl, rfl, hmul⟩
  · rintro ⟨hsec, hper, hfo, ⟨fl, hfl, hpos, hle⟩, hheap, hcc, hrc, hboot, hroot, hcb, hfit, hreq, hcl, hmul⟩
    refine ⟨_, hsec, (), by simp, _, hper, _, hfo, fl, hfl, _, hheap, _, hcc, _, hrc, (), by omega, _,
      ⟨hcb ▸ hmul, rfl⟩, _, ⟨?_, rfl⟩, ?_⟩
    · rw [← hcb, ← hreq]
      exact hfit
    · rw [← hcb, ← hreq, ← hcl]

def exfatFatEntry (m : Media) (data : PartitionInfo) (fatOffset cluster : Nat) : Except GrowError Nat := do
  let entryOffset ← okOr (checkedMul 64 cluster 4) "exFAT FAT entry offset overflows"
  let lba ← okOr ((checkedAdd 64 data.startLba fatOffset).bind (checkedAdd 64 · (entryOffset / m.blockSize)))
    "exFAT FAT sector offset overflows"
  let sector ← readBlocks m lba 1
  okOr (readLeU32 sector (entryOffset % m.blockSize)) "truncated exFAT FAT entry"

theorem exfatFatEntry_congr {m m' : Media} {data : PartitionInfo} {fatOffset cluster : Nat}
    (hbs : m'.blockSize = m.blockSize) (hlast : m'.lastBlock = m.lastBlock)
    (h : m'.blocks (data.startLba + fatOffset + cluster * 4 / m.blockSize) 1 =
      m.blocks (data.startLba + fatOffset + cluster * 4 / m.blockSize) 1) :
    exfatFatEntry m' data fatOffset cluster = exfatFatEntry m data fatOffset cluster := by
  unfold exfatFatEntry
  rw [hbs]
  refine bind_congr_ok fun entryOffset hoff => bind_congr_ok fun lba hlba => ?_
  have hoff' := (checkedMul_eq_some.mp (okOr_eq_ok.mp hoff)).2
  obtain ⟨sum, hsum, hadd⟩ := Option.bind_eq_some_iff.mp (okOr_eq_ok.mp hlba)
  have hsum' := (checkedAdd_eq_some.mp hsum).2
  have hlba' := (checkedAdd_eq_some.mp hadd).2
  rw [readBlocks_congr hbs hlast]
  rw [hlba', hsum', hoff']
  exact h

def outsideClusters (clusterCount cluster : Nat) : Prop := cluster < 2 ∨ cluster > saturatingAdd 32 clusterCount 1

instance (clusterCount cluster : Nat) : Decidable (outsideClusters clusterCount cluster) :=
  inferInstanceAs (Decidable (_ ∨ _))

/-- The loop of `exfat_chain_length`; `remaining` is what is left of the bound on the length. -/
def chainLoop (m : Media) (data : PartitionInfo) (fatOffset clusterCount : Nat) :
    (remaining length current : Nat) → Except GrowError Nat
  | 0, _, _ => .error (.invalid "invalid exFAT allocation bitmap chain")
  | remaining + 1, length, current => do
      let next ← exfatFatEntry m data fatOffset current
      if next = exfatClusterEoc then return length + 1
      else
        rejectIf (outsideClusters clusterCount next ∨ next ≤ current) "invalid exFAT allocation bitmap chain"
        chainLoop m data fatOffset clusterCount remaining (length + 1) next

def exfatChainLength (m : Media) (data : PartitionInfo) (fatOffset firstCluster clusterCount : Nat) :
    Except GrowError Nat := do
  rejectIf (outsideClusters clusterCount firstCluster) "invalid exFAT allocation bitmap cluster"
  chainLoop m data fatOffset clusterCount clusterCount 0 firstCluster

theorem chainLoop_congr {m m' : Media} {data : PartitionInfo} {fatOffset clusterCount : Nat}
    (hfat : ∀ cluster, ¬ outsideClusters clusterCount cluster →
      exfatFatEntry m' data fatOffset cluster = exfatFatEntry m data fatOffset cluster)
    (remaining length current : Nat) (hcur : ¬ outsideClusters clusterCount current) :
    chainLoop m' data fatOffset clusterCount remaining length current =
      chainLoop m data fatOffset clusterCount remaining length current := by
  induction remaining generalizing length current with
  | zero => rfl
  | succ remaining ih =>
      rw [chainLoop, chainLoop, hfat current hcur]
      refine bind_congr_ok fun next _ => ?_
      split
      · rfl
      · refine bind_congr_ok fun _ hok => ih _ _ ?_
        exact fun hout => rejectIf_eq_ok.mp hok (.inl hout)

theorem exfatChainLength_congr {m m' : Media} {data : PartitionInfo} {fatOffset firstCluster clusterCount : Nat}
    (hfat : ∀ cluster, ¬ outsideClusters clusterCount cluster →
      exfatFatEntry m' data fatOffset cluster = exfatFatEntry m data fatOffset cluster) :
    exfatChainLength m' data fatOffset firstCluster clusterCount =
      exfatChainLength m data fatOffset firstCluster clusterCount :=
  bind_congr_ok fun _ hok => chainLoop_congr hfat _ _ _ (rejectIf_eq_ok.mp hok)

/-- The first allocation bitmap entry among the given offsets; a zero type ends the directory. -/
def findBitmapEntry (directory : List UInt8) : List Nat → Except GrowError (Option Nat)
  | [] => return none
  | offset :: rest => do
      let entryType ← okOr directory[offset]? "truncated exFAT directory"
      if entryType = 0 then return none
      else if entryType = exfatAllocationBitmapEntry then return some offset
      else findBitmapEntry directory rest

theorem findBitmapEntry_some {directory : List UInt8} {offsets : List Nat} {offset : Nat}
    (h : findBitmapEntry directory offsets = .ok (some offset)) :
    offset ∈ offsets ∧ directory[offset]? = some exfatAllocationBitmapEntry := by
  induction offsets with
  | nil => simp [findBitmapEntry, pure_eq_ok] at h
  | cons first rest ih =>
      rw [findBitmapEntry, bind_eq_ok] at h
      obtain ⟨entryType, htype, h⟩ := h
      split at h
      · simp [pure_eq_ok] at h
      · split at h
        · next hbit =>
            have hfirst := Option.some.inj (pure_eq_ok.mp h)
            rw [← hfirst, ← hbit]
            exact ⟨by simp, okOr_eq_ok.mp htype⟩
        · exact ⟨List.mem_cons_of_mem _ (ih h).1, (ih h).2⟩

theorem findBitmapEntry_congr {directory directory' : List UInt8} {offsets : List Nat}
    (h : ∀ offset ∈ offsets, directory'[offset]? = directory[offset]?) :
    findBitmapEntry directory' offsets = findBitmapEntry directory offsets := by
  induction offsets with
  | nil => rfl
  | cons first rest ih =>
      rw [findBitmapEntry, findBitmapEntry, h first (by simp)]
      refine bind_congr_ok fun entryType _ => ?_
      rw [ih fun offset hmem => h offset (by simp [hmem])]

def entryOffsets (directory : List UInt8) : List Nat := (List.range ((directory.length + 31) / 32)).map (· * 32)

theorem mem_entryOffsets {directory : List UInt8} {offset : Nat} (h : offset ∈ entryOffsets directory) :
    offset % 32 = 0 ∧ offset < directory.length := by
  obtain ⟨i, hi, rfl⟩ := List.mem_map.mp h
  have := List.mem_range.mp hi
  omega

/-- The checks on the bitmap entry at `offset`, and the directory with the new length in it. -/
def growBitmapEntry (m : Media) (data : PartitionInfo) (geo : BitmapGeometry) (directory : List UInt8)
    (offset : Nat) : Except GrowError (List UInt8) := do
  let bitmapCluster ← okOr (readLeU32 directory (offset + 20)) "truncated exFAT allocation bitmap"
  let bitmapLength ← okOr (readLeU64 directory (offset + 24)) "truncated exFAT allocation bitmap"
  let bitmapClusters ← exfatChainLength m data geo.fatOffset bitmapCluster geo.oldClusterCount
  let rounded ← okOr (checkedAdd 64 bitmapLength (geo.clusterBytes - 1)) "exFAT bitmap length overflows"
  rejectIf (bitmapClusters ≠ rounded / geo.clusterBytes ∨ bitmapClusters ≠ geo.requiredBitmapClusters)
    "exFAT allocation bitmap chain cannot cover expanded volume"
  writeLeU64 directory (offset + 24) geo.requiredBitmapBytes

theorem growBitmapEntry_congr {m m' : Media} {data : PartitionInfo} {geo : BitmapGeometry} {directory : List UInt8}
    {offset : Nat} (hfat : ∀ cluster, ¬ outsideClusters geo.oldClusterCount cluster →
      exfatFatEntry m' data geo.fatOffset cluster = exfatFatEntry m data geo.fatOffset cluster) :
    growBitmapEntry m' data geo directory offset = growBitmapEntry m data geo directory offset := by
  unfold growBitmapEntry
  refine bind_congr_ok fun _ _ => bind_congr_ok fun _ _ => ?_
  rw [exfatChainLength_congr hfat]

theorem growBitmapEntry_eq_ok {m : Media} {data : PartitionInfo} {geo : BitmapGeometry}
    {directory out : List UInt8} {offset : Nat} :
    growBitmapEntry m data geo directory offset = .ok out ↔
      ∃ cluster length clusters, readLeU32 directory (offset + 20) = some cluster ∧
        readLeU64 directory (offset + 24) = some length ∧
        exfatChainLength m data geo.fatOffset cluster geo.oldClusterCount = .ok clusters ∧
        length + (geo.clusterBytes - 1) < 2 ^ 64 ∧ clusters = (length + (geo.clusterBytes - 1)) / geo.clusterBytes ∧
        clusters = geo.requiredBitmapClusters ∧ offset + 24 + 8 ≤ directory.length ∧
        out = splice directory (offset + 24) (toLeBytes 8 geo.requiredBitmapBytes) := by
  simp only [growBitmapEntry, bind_eq_ok, okOr_eq_ok, rejectIf_eq_ok, checkedAdd_eq_some, writeLeU64_eq_ok]
  constructor
  · rintro ⟨cluster, hc, length, hl, clusters, hcl, _, ⟨hadd, rfl⟩, _, hcheck, hfit, rfl⟩
    simp only [not_or, not_not] at hcheck
    exact ⟨cluster, length, clusters, hc, hl, hcl, hadd, hcheck.1, hcheck.2, hfit, rfl⟩
  · rintro ⟨cluster, length, clusters, hc, hl, hcl, hadd, hlen, hreq, hfit, rfl⟩
    refine ⟨cluster, hc, length, hl, clusters, hcl, _, ⟨hadd, rfl⟩, (), ?_, hfit, rfl⟩
    simp only [not_or, not_not]
    exact ⟨hlen, hreq⟩

def clusterLba (data : PartitionInfo) (geo : BitmapGeometry) (cluster : Nat) : Except GrowError Nat :=
  okOr ((checkedAdd 64 data.startLba geo.clusterHeapOffset).bind fun heap =>
    (checkedMul 64 (cluster - 2) geo.perCluster).bind (checkedAdd 64 heap ·)) "exFAT root cluster offset overflows"

theorem clusterLba_eq_ok {data : PartitionInfo} {geo : BitmapGeometry} {cluster lba : Nat} :
    clusterLba data geo cluster = .ok lba ↔
      data.startLba + geo.clusterHeapOffset + (cluster - 2) * geo.perCluster < 2 ^ 64 ∧
        lba = data.startLba + geo.clusterHeapOffset + (cluster - 2) * geo.perCluster := by
  simp only [clusterLba, okOr_eq_ok, Option.bind_eq_some_iff, checkedAdd_eq_some, checkedMul_eq_some]
  constructor
  · rintro ⟨_, ⟨_, rfl⟩, _, ⟨_, rfl⟩, hlt, rfl⟩
    exact ⟨hlt, rfl⟩
  · rintro ⟨hlt, rfl⟩
    exact ⟨_, ⟨by omega, rfl⟩, _, ⟨by omega, rfl⟩, hlt, rfl⟩

/-- The walk over the root directory, up to the directory cluster that is to be written back. -/
def rootLoop (m : Media) (data : PartitionInfo) (geo : BitmapGeometry) :
    (remaining current : Nat) → Except GrowError (Nat × List UInt8)
  | 0, _ =>
      -- The step counter itself overflows when every 32-bit value counts as a cluster.
      if geo.oldClusterCount = 2 ^ 32 - 1 then .error (.invalid "exFAT root chain overflows")
      else .error (.invalid "invalid exFAT root directory chain")
  | remaining + 1, current => do
      let lba ← clusterLba data geo current
      let directory ← readBlocks m lba geo.perCluster
      match ← findBitmapEntry directory (entryOffsets directory) with
      | some offset =>
          let directory ← growBitmapEntry m data geo directory offset
          return (lba, directory)
      | none =>
          let next ← exfatFatEntry m data geo.fatOffset current
          if next = exfatClusterEoc then .error (.invalid "missing exFAT allocation bitmap")
          else
            rejectIf (outsideClusters geo.oldClusterCount next) "invalid exFAT root directory chain"
            rootLoop m data geo remaining next

theorem rootLoop_congr {m m' : Media} {data : PartitionInfo} {geo : BitmapGeometry}
    (hfat : ∀ cluster, ¬ outsideClusters geo.oldClusterCount cluster →
      exfatFatEntry m' data geo.fatOffset cluster = exfatFatEntry m data geo.fatOffset cluster)
    (hdir : ∀ cluster lba, ¬ outsideClusters geo.oldClusterCount cluster → clusterLba data geo cluster = .ok lba →
      readBlocks m' lba geo.perCluster = readBlocks m lba geo.perCluster)
    (remaining current : Nat) (hcur : ¬ outsideClusters geo.oldClusterCount current) :
    rootLoop m' data geo remaining current = rootLoop m data geo remaining current := by
  induction remaining generalizing current with
  | zero => rfl
  | succ remaining ih =>
      rw [rootLoop, rootLoop]
      refine bind_congr_ok fun lba hlba => ?_
      rw [hdir current lba hcur hlba]
      refine bind_congr_ok fun directory _ => bind_congr_ok fun found _ => ?_
      cases found with
      | some offset =>
          simp only [growBitmapEntry_congr hfat]
      | none =>
          simp only [hfat current hcur]
          refine bind_congr_ok fun next _ => ?_
          split
          · rfl
          · exact bind_congr_ok fun _ hok => ih next (rejectIf_eq_ok.mp hok)

/-- The directory cluster a successful walk stops at, and what is written back to it. -/
structure BitmapFound (m : Media) (data : PartitionInfo) (geo : BitmapGeometry) (lba : Nat) (out : List UInt8)
    (cluster : Nat) (directory : List UInt8) (offset : Nat) : Prop where
  inside : ¬ outsideClusters geo.oldClusterCount cluster
  located : clusterLba data geo cluster = .ok lba
  read : readBlocks m lba geo.perCluster = .ok directory
  entry : findBitmapEntry directory (entryOffsets directory) = .ok (some offset)
  grown : growBitmapEntry m data geo directory offset = .ok out

theorem rootLoop_found {m : Media} {data : PartitionInfo} {geo : BitmapGeometry} {remaining current lba : Nat}
    {out : List UInt8} (hcur : ¬ outsideClusters geo.oldClusterCount current)
    (h : rootLoop m data geo remaining current = .ok (lba, out)) :
    ∃ cluster directory offset, BitmapFound m data geo lba out cluster directory offset := by
  induction remaining generalizing current with
  | zero =>
      rw [rootLoop] at h
      split at h <;> cases h
  | succ remaining ih =>
      rw [rootLoop, bind_eq_ok] at h
      obtain ⟨lba', hlba, h⟩ := h
      obtain ⟨directory, hdir, h⟩ := bind_eq_ok.mp h
      obtain ⟨found, hfound, h⟩ := bind_eq_ok.mp h
      cases found with
      | some offset =>
          obtain ⟨out', hout, h⟩ := bind_eq_ok.mp h
          cases pure_eq_ok.mp h
          exact ⟨current, directory, offset, hcur, hlba, hdir, hfound, hout⟩
      | none =>
          obtain ⟨next, _, h⟩ := bind_eq_ok.mp h
          split at h
          · cases h
          · obtain ⟨_, hok, h⟩ := bind_eq_ok.mp h
            exact ih (rejectIf_eq_ok.mp hok) h

/-- Two clusters of the heap are one or lie apart. -/
theorem cluster_apart (perCluster : Nat) {a b : Nat} (ha : 2 ≤ a) (hb : 2 ≤ b) (hne : a ≠ b) :
    (a - 2) * perCluster + perCluster ≤ (b - 2) * perCluster ∨
      (b - 2) * perCluster + perCluster ≤ (a - 2) * perCluster := by
  rcases Nat.lt_or_gt_of_ne hne with hlt | hlt
  · left
    have := Nat.mul_le_mul_right perCluster (show a - 2 + 1 ≤ b - 2 by omega)
    rwa [Nat.add_mul, Nat.one_mul] at this
  · right
    have := Nat.mul_le_mul_right perCluster (show b - 2 + 1 ≤ a - 2 by omega)
    rwa [Nat.add_mul, Nat.one_mul] at this

theorem two_le_of_inside {clusterCount cluster : Nat} (h : ¬ outsideClusters clusterCount cluster) : 2 ≤ cluster := by
  unfold outsideClusters at h
  omega

theorem BitmapFound.out_eq {m : Media} {data : PartitionInfo} {geo : BitmapGeometry} {lba cluster offset : Nat}
    {out directory : List UInt8} (h : BitmapFound m data geo lba out cluster directory offset) :
    offset % 32 = 0 ∧ offset + 32 ≤ directory.length ∧
      out = splice directory (offset + 24) (toLeBytes 8 geo.requiredBitmapBytes) ∧ out.length = directory.length := by
  obtain ⟨_, _, _, _, _, _, _, _, _, hfit, rfl⟩ := growBitmapEntry_eq_ok.mp h.grown
  exact ⟨(mem_entryOffsets (findBitmapEntry_some h.entry).1).1, by omega, rfl, length_splice _ _ _ (by simpa using hfit)⟩

/-- The new length is written in the middle of an entry, so the entry types stay as they are. -/
theorem BitmapFound.entry_again {m : Media} {data : PartitionInfo} {geo : BitmapGeometry} {lba cluster offset : Nat}
    {out directory : List UInt8} (h : BitmapFound m data geo lba out cluster directory offset) :
    findBitmapEntry out (entryOffsets out) = .ok (some offset) := by
  obtain ⟨hmod, hfit, hout, hlen⟩ := h.out_eq
  have hoff : entryOffsets out = entryOffsets directory := by
    unfold entryOffsets
    rw [hlen]
  rw [hoff, ← h.entry]
  apply findBitmapEntry_congr
  intro o ho
  have hmod' := (mem_entryOffsets ho).1
  rw [hout, getElem?_splice _ _ _ (by simp; omega), if_neg]
  simp only [length_toLeBytes]
  omega

theorem BitmapFound.grown_again {m m' : Media} {data : PartitionInfo} {geo : BitmapGeometry}
    {lba cluster offset blockSize newClusterCount : Nat} {out directory boot : List UInt8}
    (h : BitmapFound m data geo lba out cluster directory offset)
    (hgeo : GeometryAccepted blockSize boot newClusterCount geo) (hnew : newClusterCount < 2 ^ 64)
    (hfat : ∀ cluster, ¬ outsideClusters geo.oldClusterCount cluster →
      exfatFatEntry m' data geo.fatOffset cluster = exfatFatEntry m data geo.fatOffset cluster) :
    growBitmapEntry m' data geo out offset = .ok out := by
  rw [growBitmapEntry_congr hfat]
  obtain ⟨first, length, clusters, hfirst, hlength, hchain, _, _, hreq, hfit, hout⟩ := growBitmapEntry_eq_ok.mp h.grown
  have hlen : out.length = directory.length := h.out_eq.2.2.2
  refine growBitmapEntry_eq_ok.mpr ⟨first, geo.requiredBitmapBytes, clusters, ?_, ?_, hchain, hgeo.bytesFit, ?_, hreq,
    by omega, ?_⟩
  · rw [hout, readLeU32, readLe_splice_disjoint (by simpa using hfit) (by omega)]
    exact hfirst
  · rw [hout]
    have hr := hgeo.required
    exact readLe_splice_self hfit (by omega)
  · rw [hreq, hgeo.clusters]
  · rw [hout, splice_splice_same (by simpa using hfit) (by simp)]

/-- Walking the directory again after its bitmap entry was written back finds the same entry and asks for the
same write. -/
theorem rootLoop_again {m m' : Media} {data : PartitionInfo} {geo : BitmapGeometry}
    {lba cluster offset blockSize newClusterCount : Nat} {out directory boot : List UInt8}
    (h : BitmapFound m data geo lba out cluster directory offset)
    (hgeo : GeometryAccepted blockSize boot newClusterCount geo) (hnew : newClusterCount < 2 ^ 64)
    (hm : m' = m.apply [blockWrite m.blockSize lba out])
    (hfat : ∀ cluster, ¬ outsideClusters geo.oldClusterCount cluster →
      exfatFatEntry m' data geo.fatOffset cluster = exfatFatEntry m data geo.fatOffset cluster)
    {remaining current : Nat} (hcur : ¬ outsideClusters geo.oldClusterCount current)
    (hrun : rootLoop m data geo remaining current = .ok (lba, out)) :
    rootLoop m' data geo remaining current = .ok (lba, out) := by
  obtain ⟨hread₁, hread₂, hread₃⟩ := readBlocks_eq_ok.mp h.read
  have hlba := (clusterLba_eq_ok.mp h.located).2
  have hlen : out.length = geo.perCluster * m.blockSize := by
    rw [h.out_eq.2.2.2, hread₃, Media.length_blocks]
  have hread' : readBlocks m' lba geo.perCluster = .ok out := by
    refine readBlocks_eq_ok.mpr ⟨by simpa [hm] using hread₁, by simpa [hm] using hread₂, ?_⟩
    rw [hm, Media.blocks_apply_self hlen]
  induction remaining generalizing current with
  | zero =>
      rw [rootLoop] at hrun
      split at hrun <;> cases hrun
  | succ remaining ih =>
      rw [rootLoop, bind_eq_ok] at hrun ⊢
      obtain ⟨lba', hlba', hrun⟩ := hrun
      refine ⟨lba', hlba', ?_⟩
      obtain ⟨directory', hdir', hrun⟩ := bind_eq_ok.mp hrun
      obtain ⟨found, hfound, hrun⟩ := bind_eq_ok.mp hrun
      cases found with
      | some offset' =>
          obtain ⟨out', hout', hrun⟩ := bind_eq_ok.mp hrun
          cases pure_eq_ok.mp hrun
          have hsame : directory' = directory := Except.ok.inj (hdir'.symm.trans h.read)
          rw [hsame] at hfound
          have hoff : offset' = offset := Option.some.inj (Except.ok.inj (hfound.symm.trans h.entry))
          refine bind_eq_ok.mpr ⟨out, hread', bind_eq_ok.mpr ⟨some offset, h.entry_again, ?_⟩⟩
          exact bind_eq_ok.mpr ⟨out, h.grown_again hgeo hnew hfat, rfl⟩
      | none =>
          -- A cluster without the entry is another cluster than the one written.
          have hne : current ≠ cluster := by
            rintro rfl
            have hl : lba' = lba := Except.ok.inj (hlba'.symm.trans h.located)
            have hsame : directory' = directory := Except.ok.inj ((hl ▸ hdir').symm.trans h.read)
            rw [hsame, h.entry] at hfound
            cases hfound
          have hapart := cluster_apart geo.perCluster (two_le_of_inside hcur) (two_le_of_inside h.inside) hne
          have hdir : readBlocks m' lba' geo.perCluster = .ok directory' := by
            rw [← hdir']
            refine readBlocks_congr (by simp [hm]) (by simp [hm]) ?_
            rw [hm]
            apply Media.blocks_apply_disjoint
            intro w hw
            rw [List.mem_singleton.mp hw]
            have hlba'' := (clusterLba_eq_ok.mp hlba').2
            exact blockWrite_disjoint hlen (by omega)
          obtain ⟨next, hnext, hrun⟩ := bind_eq_ok.mp hrun
          refine bind_eq_ok.mpr ⟨directory', hdir, bind_eq_ok.mpr ⟨none, hfound, ?_⟩⟩
          refine bind_eq_ok.mpr ⟨next, (hfat current hcur).trans hnext, ?_⟩
          split at hrun
          · cases hrun
          · next hend =>
              rw [if_neg hend]
              obtain ⟨_, hok, hrun⟩ := bind_eq_ok.mp hrun
              exact bind_eq_ok.mpr ⟨(), hok, ih (rejectIf_eq_ok.mp hok) hrun⟩

/-- Everything `update_allocation_bitmap_length` checks before its one write, and what it writes. -/
def planBitmapLength (m : Media) (data : PartitionInfo) (boot : List UInt8) (newClusterCount : Nat) :
    Except GrowError (Nat × List UInt8) := do
  let geo ← bitmapGeometry m.blockSize boot newClusterCount
  rootLoop m data geo geo.oldClusterCount geo.rootCluster

/-- Of the partition, the walk to the bitmap entry only reads where it starts. -/
theorem planBitmapLength_start {m : Media} {data data' : PartitionInfo} (h : data'.startLba = data.startLba)
    (boot : List UInt8) (newClusterCount : Nat) :
    planBitmapLength m data' boot newClusterCount = planBitmapLength m data boot newClusterCount := by
  have hfat : ∀ fatOffset cluster, exfatFatEntry m data' fatOffset cluster = exfatFatEntry m data fatOffset cluster := by
    intro fatOffset cluster
    rw [exfatFatEntry, exfatFatEntry, h]
  have hchain : ∀ fatOffset clusterCount remaining length current,
      chainLoop m data' fatOffset clusterCount remaining length current =
        chainLoop m data fatOffset clusterCount remaining length current := by
    intro fatOffset clusterCount remaining
    induction remaining with
    | zero => exact fun _ _ => rfl
    | succ remaining ih =>
        intro length current
        simp only [chainLoop, hfat, ih]
  have hroot : ∀ geo remaining current, rootLoop m data' geo remaining current = rootLoop m data geo remaining current := by
    intro geo remaining
    induction remaining with
    | zero => exact fun _ => rfl
    | succ remaining ih =>
        intro current
        simp only [rootLoop, clusterLba, growBitmapEntry, exfatChainLength, h, hfat, hchain, ih]
  simp only [planBitmapLength, hroot]

theorem planBitmapLength_found {m : Media} {data : PartitionInfo} {boot out : List UInt8} {newClusterCount lba : Nat}
    (h : planBitmapLength m data boot newClusterCount = .ok (lba, out)) :
    ∃ geo cluster directory offset, GeometryAccepted m.blockSize boot newClusterCount geo ∧
      BitmapFound m data geo lba out cluster directory offset := by
  obtain ⟨geo, hgeo, hloop⟩ := bind_eq_ok.mp h
  have hacc := bitmapGeometry_eq_ok.mp hgeo
  have hroot : ¬ outsideClusters geo.oldClusterCount geo.rootCluster := by
    have := hacc.rootInside
    unfold outsideClusters
    omega
  obtain ⟨cluster, directory, offset, hfound⟩ := rootLoop_found hroot hloop
  exact ⟨geo, cluster, directory, offset, hacc, hfound⟩

def updateAllocationBitmapLength (data : PartitionInfo) (boot : List UInt8) (newClusterCount : Nat) :
    GrowM Unit := do
  let dev ← get
  let (lba, directory) ← planBitmapLength dev.media data boot newClusterCount
  writeBlocks lba directory "failed to update exFAT allocation bitmap"

end NextBoot.MediaGrow
