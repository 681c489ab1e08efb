import NextBoot.MediaGrow.Grown

namespace NextBoot.MediaGrow

open Results Words Bytes BlockStore

/-- What a reader of the volume takes from its boot sector. -/
structure VolumeGeometry where
  perCluster : Nat
  fatOffset : Nat
  fatLength : Nat
  heapOffset : Nat
  clusterCount : Nat
  rootCluster : Nat

/-- The boot sector has this geometry, with the FAT between the boot regions and the clusters. -/
structure BootDescribes (boot : List UInt8) (g : VolumeGeometry) : Prop where
  perCluster : sectorsPerCluster boot = .ok g.perCluster
  fatOffset : readLeU32 boot 80 = some g.fatOffset
  fatLength : readLeU32 boot 84 = some g.fatLength
  heapOffset : readLeU32 boot 88 = some g.heapOffset
  clusterCount : readLeU32 boot 92 = some g.clusterCount
  rootCluster : readLeU32 boot 96 = some g.rootCluster
  bootBefore : 24 ≤ g.fatOffset
  fatInside : g.fatOffset + g.fatLength ≤ g.heapOffset

def clusterBytes (m : Media) (data : PartitionInfo) (g : VolumeGeometry) (cluster : Nat) : List UInt8 :=
  m.blocks (data.startLba + g.heapOffset + (cluster - 2) * g.perCluster) g.perCluster

/-- The clusters of an object, from its first one to the end mark in the FAT. -/
inductive FatChain (m : Media) (data : PartitionInfo) (g : VolumeGeometry) : Nat → List Nat → Prop
  | last {cluster : Nat} (inside : ¬ outsideClusters g.clusterCount cluster)
      (stop : exfatFatEntry m data g.fatOffset cluster = .ok exfatClusterEoc) : FatChain m data g cluster [cluster]
  | next {cluster following : Nat} {rest : List Nat} (inside : ¬ outsideClusters g.clusterCount cluster)
      (link : exfatFatEntry m data g.fatOffset cluster = .ok following) (more : following ≠ exfatClusterEoc)
      (chain : FatChain m data g following rest) : FatChain m data g cluster (cluster :: rest)

/-- The first allocation bitmap entry of a directory: the cluster it is in and its offset there. -/
inductive FindsBitmap (m : Media) (data : PartitionInfo) (g : VolumeGeometry) : Nat → Nat → Nat → Prop
  | here {cluster offset : Nat} (inside : ¬ outsideClusters g.clusterCount cluster)
      (entry : findBitmapEntry (clusterBytes m data g cluster) (entryOffsets (clusterBytes m data g cluster)) =
        .ok (some offset)) : FindsBitmap m data g cluster cluster offset
  | next {current following cluster offset : Nat} (inside : ¬ outsideClusters g.clusterCount current)
      (absent : findBitmapEntry (clusterBytes m data g current) (entryOffsets (clusterBytes m data g current)) = .ok none)
      (link : exfatFatEntry m data g.fatOffset current = .ok following) (more : following ≠ exfatClusterEoc)
      (finds : FindsBitmap m data g following cluster offset) : FindsBitmap m data g current cluster offset

/-- The allocation bitmap as a reader of the volume finds it: the recorded length, and the bytes of all its clusters.
Its clusters are not those of the directory that describes it. -/
structure BitmapRead (m : Media) (data : PartitionInfo) (g : VolumeGeometry) (length : Nat) (storage : List UInt8)
    (cluster offset first : Nat) (clusters : List Nat) : Prop where
  boot : BootDescribes (m.blocks data.startLba 1) g
  found : FindsBitmap m data g g.rootCluster cluster offset
  firstCluster : readLeU32 (clusterBytes m data g cluster) (offset + 20) = some first
  recorded : readLeU64 (clusterBytes m data g cluster) (offset + 24) = some length
  chain : FatChain m data g first clusters
  apart : cluster ∉ clusters
  bytes : storage = (clusters.map (clusterBytes m data g)).flatten
  covers : length ≤ storage.length

/-- The state of the `i`-th cluster of the heap in a bitmap. -/
def allocated (bitmap : List UInt8) (i : Nat) : Bool := (bitmap.getD (i / 8) 0).toNat.testBit (i % 8)

theorem outsideClusters_mono {a b cluster : Nat} (hab : a ≤ b) (h : ¬ outsideClusters a cluster) :
    ¬ outsideClusters b cluster := by
  unfold outsideClusters saturatingAdd at *
  omega

variable {m m' : Media} {data data' : PartitionInfo} {g g' : VolumeGeometry}

theorem FatChain.inside {cluster : Nat} {clusters : List Nat} (h : FatChain m data g cluster clusters) :
    ∀ c ∈ clusters, ¬ outsideClusters g.clusterCount c := by
  induction h with
  | last inside _ => simpa using inside
  | next inside _ _ _ ih => simpa using ⟨inside, ih⟩

theorem FatChain.frame {cluster : Nat} {clusters : List Nat} (h : FatChain m data g cluster clusters)
    (hcount : g.clusterCount ≤ g'.clusterCount)
    (hfat : ∀ c, ¬ outsideClusters g.clusterCount c →
      exfatFatEntry m' data' g'.fatOffset c = exfatFatEntry m data g.fatOffset c) :
    FatChain m' data' g' cluster clusters := by
  induction h with
  | last inside stop => exact .last (outsideClusters_mono hcount inside) ((hfat _ inside).trans stop)
  | next inside link more _ ih =>
      exact .next (outsideClusters_mono hcount inside) ((hfat _ inside).trans link) more ih

theorem FindsBitmap.here_spec {current cluster offset : Nat} (h : FindsBitmap m data g current cluster offset) :
    ¬ outsideClusters g.clusterCount cluster ∧
      findBitmapEntry (clusterBytes m data g cluster) (entryOffsets (clusterBytes m data g cluster)) =
        .ok (some offset) := by
  induction h with
  | here inside entry => exact ⟨inside, entry⟩
  | next _ _ _ _ _ ih => exact ih

/-- The search finds the entry again when only its own cluster was rewritten, with the entry still in place. -/
theorem FindsBitmap.frame {current cluster offset : Nat} (h : FindsBitmap m data g current cluster offset)
    (hcount : g.clusterCount ≤ g'.clusterCount)
    (hfat : ∀ c, ¬ outsideClusters g.clusterCount c →
      exfatFatEntry m' data' g'.fatOffset c = exfatFatEntry m data g.fatOffset c)
    (hother : ∀ c, ¬ outsideClusters g.clusterCount c → c ≠ cluster →
      clusterBytes m' data' g' c = clusterBytes m data g c)
    (hentry : findBitmapEntry (clusterBytes m' data' g' cluster) (entryOffsets (clusterBytes m' data' g' cluster)) =
      .ok (some offset)) : FindsBitmap m' data' g' current cluster offset := by
  have hspec := h.here_spec.2
  induction h with
  | here inside _ => exact .here (outsideClusters_mono hcount inside) hentry
  | next inside absent link more _ ih =>
      refine .next (outsideClusters_mono hcount inside) ?_ ((hfat _ inside).trans link) more (ih hother hentry hspec)
      rw [hother _ inside]
      · exact absent
      · rintro rfl
        rw [absent] at hspec
        cases hspec

theorem FindsBitmap.unique {current cluster offset cluster' offset' : Nat} (h : FindsBitmap m data g current cluster offset)
    (h' : FindsBitmap m data g current cluster' offset') : cluster' = cluster ∧ offset' = offset := by
  induction h with
  | here _ entry =>
      cases h' with
      | here _ entry' => exact ⟨rfl, Option.some.inj (Except.ok.inj (entry'.symm.trans entry))⟩
      | next _ absent _ _ _ => cases Except.ok.inj (absent.symm.trans entry)
  | next _ absent link _ _ ih =>
      cases h' with
      | here _ entry => cases Except.ok.inj (absent.symm.trans entry)
      | next _ _ link' _ finds' =>
          cases Except.ok.inj (link'.symm.trans link)
          exact ih finds'

theorem FatChain.unique {cluster : Nat} {clusters clusters' : List Nat} (h : FatChain m data g cluster clusters)
    (h' : FatChain m data g cluster clusters') : clusters' = clusters := by
  induction h generalizing clusters' with
  | last _ stop =>
      cases h' with
      | last _ _ => rfl
      | next _ link more _ => exact absurd (Except.ok.inj (link.symm.trans stop)) more
  | next _ link more _ ih =>
      cases h' with
      | last _ stop => exact absurd (Except.ok.inj (link.symm.trans stop)) more
      | next _ link' _ chain' =>
          cases Except.ok.inj (link'.symm.trans link)
          rw [ih chain']

/-- The geometry of the bitmap update is that of a reader of the volume. -/
structure SameGeometry (geo : BitmapGeometry) (g : VolumeGeometry) : Prop where
  perCluster : geo.perCluster = g.perCluster
  fatOffset : geo.fatOffset = g.fatOffset
  heapOffset : geo.clusterHeapOffset = g.heapOffset
  clusterCount : geo.oldClusterCount = g.clusterCount
  rootCluster : geo.rootCluster = g.rootCluster

theorem chainLoop_fatChain {geo : BitmapGeometry} (hg : SameGeometry geo g) {remaining length current n : Nat}
    (hcur : ¬ outsideClusters geo.oldClusterCount current)
    (h : chainLoop m data geo.fatOffset geo.oldClusterCount remaining length current = .ok n) :
    ∃ clusters, FatChain m data g current clusters ∧ n = length + clusters.length := by
  induction remaining generalizing length current with
  | zero => cases h
  | succ remaining ih =>
      rw [chainLoop, bind_eq_ok] at h
      obtain ⟨next, hnext, h⟩ := h
      have hin : ¬ outsideClusters g.clusterCount current := hg.clusterCount ▸ hcur
      have hlink : exfatFatEntry m data g.fatOffset current = .ok next := hg.fatOffset ▸ hnext
      split at h
      · next hend =>
          exact ⟨[current], .last hin (hend ▸ hlink), (pure_eq_ok.mp h).symm⟩
      · next hmore =>
          obtain ⟨_, hok, h⟩ := bind_eq_ok.mp h
          have hstep := rejectIf_eq_ok.mp hok
          obtain ⟨clusters, hchain, hn⟩ := ih (fun hout => hstep (.inl hout)) h
          exact ⟨current :: clusters, .next hin hlink hmore hchain, by rw [hn, List.length_cons]; omega⟩

theorem readCluster {geo : BitmapGeometry} (hg : SameGeometry geo g) {cluster lba : Nat} {directory : List UInt8}
    (hlba : clusterLba data geo cluster = .ok lba) (hdir : readBlocks m lba geo.perCluster = .ok directory) :
    directory = clusterBytes m data g cluster := by
  rw [(readBlocks_eq_ok.mp hdir).2.2, (clusterLba_eq_ok.mp hlba).2, hg.perCluster, hg.heapOffset]
  rfl

/-- The walk of the bitmap update stops at the entry a reader finds. -/
theorem rootLoop_findsBitmap {geo : BitmapGeometry} (hg : SameGeometry geo g) {remaining current lba : Nat}
    {out : List UInt8} (hcur : ¬ outsideClusters geo.oldClusterCount current)
    (h : rootLoop m data geo remaining current = .ok (lba, out)) :
    ∃ cluster offset, FindsBitmap m data g current cluster offset ∧
      BitmapFound m data geo lba out cluster (clusterBytes m data g cluster) offset := by
  induction remaining generalizing current with
  | zero =>
      rw [rootLoop] at h
      split at h <;> cases h
  | succ remaining ih =>
      rw [rootLoop, bind_eq_ok] at h
      obtain ⟨lba', hlba, h⟩ := h
      obtain ⟨directory, hdir, h⟩ := bind_eq_ok.mp h
      obtain ⟨found, hfound, h⟩ := bind_eq_ok.mp h
      have hin : ¬ outsideClusters g.clusterCount current := hg.clusterCount ▸ hcur
      have hbytes := readCluster hg hlba hdir
      subst hbytes
      cases found with
      | some offset =>
          obtain ⟨out', hout, h⟩ := bind_eq_ok.mp h
          cases pure_eq_ok.mp h
          exact ⟨current, offset, .here hin hfound, hcur, hlba, hdir, hfound, hout⟩
      | none =>
          obtain ⟨next, hnext, h⟩ := bind_eq_ok.mp h
          split at h
          · cases h
          · next hmore =>
              obtain ⟨_, hok, h⟩ := bind_eq_ok.mp h
              obtain ⟨cluster, offset, hfinds, hspec⟩ := ih (rejectIf_eq_ok.mp hok) h
              exact ⟨cluster, offset, .next hin hfound (hg.fatOffset ▸ hnext) hmore hfinds, hspec⟩

theorem BootDescribes.sameGeometry {lba n : Nat} {geo : BitmapGeometry} (hg : BootDescribes (m.blocks lba 1) g)
    (hbs : m.blockSize = 512 ∨ m.blockSize = 4096)
    (hgeo : GeometryAccepted m.blockSize (m.blocks lba exfatBootRegionSectors) n geo) : SameGeometry geo g := by
  obtain ⟨hread, _, hper⟩ := bootRegion_fields hbs lba
  constructor
  · exact Except.ok.inj (hgeo.perCluster.symm.trans (hper.trans hg.perCluster))
  · exact Option.some.inj (hgeo.fatOffset.symm.trans ((hread 80 (by omega)).trans hg.fatOffset))
  · exact Option.some.inj (hgeo.heap.symm.trans ((hread 88 (by omega)).trans hg.heapOffset))
  · exact Option.some.inj (hgeo.count.symm.trans ((hread 92 (by omega)).trans hg.clusterCount))
  · exact Option.some.inj (hgeo.root.symm.trans ((hread 96 (by omega)).trans hg.rootCluster))

/-- A boot sector rewritten by the volume update describes the same volume with more clusters. -/
theorem BootDescribes.grown {m' : Media} {lba : Nat} {growth : ExfatGrowth} (hg : BootDescribes (m.blocks lba 1) g)
    (hbs : m.blockSize = 512 ∨ m.blockSize = 4096) (hbs' : m'.blockSize = m.blockSize)
    (hcount : growth.clusterCount < 2 ^ 32)
    (hboot : m'.blocks lba exfatBootRegionSectors =
      grownBoot m.blockSize (m.blocks lba exfatBootRegionSectors) growth) :
    BootDescribes (m'.blocks lba 1) { g with clusterCount := growth.clusterCount } := by
  obtain ⟨hread, _, hper⟩ := bootRegion_fields hbs lba
  obtain ⟨hread', _, hper'⟩ := bootRegion_fields (hbs'.symm ▸ hbs) lba
  have hlen : (m.blocks lba exfatBootRegionSectors).length = 12 * m.blockSize := by
    rw [Media.length_blocks]
    rfl
  have hfield : ∀ offset, 80 ≤ offset ∧ offset + 4 ≤ 92 ∨ 96 ≤ offset ∧ offset + 4 ≤ 512 →
      readLeU32 (m'.blocks lba 1) offset = readLeU32 (m.blocks lba 1) offset := by
    intro offset hoff
    rw [← hread' offset (by omega), ← hread offset (by omega), hboot, readLeU32, readLe,
      grownBoot_slice (by omega) hlen (by omega)]
    rfl
  refine ⟨?_, (hfield _ (by omega)).trans hg.fatOffset, (hfield _ (by omega)).trans hg.fatLength,
    (hfield _ (by omega)).trans hg.heapOffset, ?_, (hfield _ (by omega)).trans hg.rootCluster, hg.bootBefore, hg.fatInside⟩
  · rw [← hper', hboot]
    exact (exfatShift_congr _ _ (grownBoot_byte (by omega) hlen (by omega) (by omega))).trans (hper.trans hg.perCluster)
  · rw [← hread' 92 (by omega), hboot]
    exact grownBoot_clusterCount (by omega) hlen hcount

theorem allocated_take {bitmap : List UInt8} {count i : Nat} (h : i < count) :
    allocated (bitmap.take ((count + 7) / 8)) i = allocated bitmap i := by
  unfold allocated
  rw [List.getD_eq_getElem?_getD, List.getD_eq_getElem?_getD, List.getElem?_take_of_lt (by omega)]

/-- A volume that keeps its clusters but does not count fewer of them than before. -/
theorem Planned.cluster_count_le {p : MediaPlan} (h : Planned m p) (hv : VolumeLayout m p)
    (hg : BootDescribes (m.blocks p.data.startLba 1) g) : g.clusterCount ≤ p.growth.clusterCount := by
  obtain ⟨per, fatLength, heap, hper, _, hheap, _, _, _, _, _, hplan⟩ := h.volume.geometry
  cases Except.ok.inj (hper.symm.trans hg.perCluster)
  cases Option.some.inj (hheap.symm.trans hg.heapOffset)
  have hlay := hv _ _ _ hg.perCluster hg.heapOffset hg.clusterCount
  have hns := hplan.noShrink
  have hcount := hplan.clusterCount
  simp only at hcount
  rw [hcount, Nat.le_div_iff_mul_le (Nat.pos_of_isPowerOfTwo hplan.powerOfTwo)]
  have hvol := hplan.volumeBlocks
  simp only at hvol
  omega

/-- Where the clusters of a laid out volume are, in the words of a reader. -/
theorem Planned.reader_inside {p : MediaPlan} (h : Planned m p) (hv : VolumeLayout m p)
    (hg : BootDescribes (m.blocks p.data.startLba 1) g) {c : Nat} (hc : ¬ outsideClusters g.clusterCount c) :
    g.fatOffset + c * 4 / m.blockSize < g.heapOffset ∧
      p.data.startLba + g.heapOffset + (c - 2) * g.perCluster + g.perCluster ≤ p.backupEntriesLba :=
  h.cluster_inside hv hg.perCluster hg.fatLength hg.heapOffset hg.clusterCount hg.fatInside hc

/-- A volume with the same FAT and heap is read as before, when its directory still has the bitmap entry. -/
theorem BitmapRead.frame {length length' cluster offset first : Nat} {storage : List UInt8} {clusters : List Nat}
    (hread : BitmapRead m data g length storage cluster offset first clusters)
    (hboot : BootDescribes (m'.blocks data.startLba 1) g') (hcount : g.clusterCount ≤ g'.clusterCount)
    (hroot : g'.rootCluster = g.rootCluster)
    (hfat : ∀ c, ¬ outsideClusters g.clusterCount c →
      exfatFatEntry m' data g'.fatOffset c = exfatFatEntry m data g.fatOffset c)
    (hother : ∀ c, ¬ outsideClusters g.clusterCount c → c ≠ cluster →
      clusterBytes m' data g' c = clusterBytes m data g c)
    (hentry : findBitmapEntry (clusterBytes m' data g' cluster) (entryOffsets (clusterBytes m' data g' cluster)) =
      .ok (some offset))
    (hfirst : readLeU32 (clusterBytes m' data g' cluster) (offset + 20) = some first)
    (hlength : readLeU64 (clusterBytes m' data g' cluster) (offset + 24) = some length')
    (hcovers : length' ≤ storage.length) :
    BitmapRead m' data g' length' storage cluster offset first clusters := by
  refine ⟨hboot, ?_, hfirst, hlength, hread.chain.frame hcount hfat, hread.apart, ?_, hcovers⟩
  · rw [hroot]
    exact hread.found.frame hcount hfat hother hentry
  · rw [hread.bytes]
    congr 1
    apply List.map_congr_left
    intro c hc
    exact (hother c (hread.chain.inside c hc) fun heq => hread.apart (heq ▸ hc)).symm

/-- The volume update leaves the FAT and every cluster but the one with the bitmap entry. -/
theorem Planned.volume_frame {p : MediaPlan} (h : Planned m p) (hl : TableLayout p) (hv : VolumeLayout m p)
    {volume : List (Write UInt8)} {lba count : Nat} {directory : List UInt8}
    (hvol : planExfatWrites m p.data p.growth = .ok volume)
    (hplan : planBitmapLength m p.data (m.blocks p.data.startLba exfatBootRegionSectors) p.growth.clusterCount =
      .ok (lba, directory)) (hlen : directory.length = count * m.blockSize) :
    (m.apply (tableWrites m p ++ volume)).blocks lba count = directory ∧
      ∀ lba' count', p.data.startLba + 24 ≤ lba' → lba' + count' ≤ p.backupEntriesLba →
        lba + count ≤ lba' ∨ lba' + count' ≤ lba →
        (m.apply (tableWrites m p ++ volume)).blocks lba' count' = m.blocks lba' count' := by
  obtain ⟨lba₁, count₁, directory₁, hplan₁, hlen₁, hlo, hhi, rfl⟩ := h.volume_regions hv hvol
  cases Except.ok.inj (hplan.symm.trans hplan₁)
  have hbs := h.blockSize
  have hcount : count₁ = count := Nat.eq_of_mul_eq_mul_right (show 0 < m.blockSize by omega) (hlen₁.symm.trans hlen)
  subst hcount
  have hsectors : exfatBootRegionSectors = 12 := rfl
  have hbackup : exfatBootBackupLba = 12 := rfl
  have hblen := length_grownBoot p.growth (show 512 ≤ m.blockSize by omega)
    (show (m.blocks p.data.startLba exfatBootRegionSectors).length = 12 * m.blockSize by rw [Media.length_blocks, hsectors])
  constructor
  · refine Media.blocks_apply_written _ hlen ?_
    simp only [List.forall_mem_cons, List.not_mem_nil, false_implies, implies_true, and_true]
    exact ⟨blockWrite_disjoint hblen (by omega), blockWrite_disjoint hblen (by omega)⟩
  · intro lba' count' hlo' hhi' hd
    rw [Media.apply_append, Media.blocks_apply_disjoint, h.volume_after_table hl _ _ (by omega) hhi']
    simp only [List.forall_mem_cons, List.not_mem_nil, false_implies, implies_true, and_true, Media.apply_blockSize]
    exact ⟨blockWrite_disjoint hlen hd, blockWrite_disjoint hblen (by omega), blockWrite_disjoint hblen (by omega)⟩

/-- The bitmap entry with its new length, and that the clusters of the bitmap have room for it. -/
theorem BitmapRead.entry_grown {length n lba cluster offset first : Nat} {storage out boot : List UInt8}
    {clusters : List Nat} {geo : BitmapGeometry} (hread : BitmapRead m data g length storage cluster offset first clusters)
    (hg : SameGeometry geo g) (hgeo : GeometryAccepted m.blockSize boot n geo) (hn : n < 2 ^ 32)
    (hfound : BitmapFound m data geo lba out cluster (clusterBytes m data g cluster) offset) :
    readLeU32 out (offset + 20) = some first ∧ readLeU64 out (offset + 24) = some ((n + 7) / 8) ∧
      (n + 7) / 8 ≤ storage.length := by
  obtain ⟨first', length', k, hfirst', hlength', hchain, _, _, hreq, hfit, rfl⟩ := growBitmapEntry_eq_ok.mp hfound.grown
  cases Option.some.inj (hfirst'.symm.trans hread.firstCluster)
  have hrequired := hgeo.required
  refine ⟨?_, ?_, ?_⟩
  · rw [readLeU32, readLe_splice_disjoint (by simpa using hfit) (by omega)]
    exact hread.firstCluster
  · rw [← hrequired]
    exact readLe_splice_self hfit (by omega)
  · obtain ⟨_, hinside, hloop⟩ := bind_eq_ok.mp hchain
    obtain ⟨clusters', hchain', hk⟩ := chainLoop_fatChain hg (rejectIf_eq_ok.mp hinside) hloop
    have hclusters := hread.chain.unique hchain'
    have hstorage : storage.length = clusters.length * (g.perCluster * m.blockSize) := by
      rw [hread.bytes, List.length_flatten, List.map_map]
      simp [Function.comp_def, clusterBytes, List.sum_replicate_nat]
    have hbytes : geo.clusterBytes = g.perCluster * m.blockSize := by rw [hgeo.clusterBytes, hg.perCluster]
    have hpos : 0 < geo.clusterBytes := by
      rcases Nat.eq_zero_or_pos geo.clusterBytes with hzero | hpos
      · have := hfound.out_eq.2.1
        rw [clusterBytes, Media.length_blocks, ← hbytes] at this
        omega
      · exact hpos
    have hround := Nat.lt_div_mul_add hpos (a := geo.requiredBitmapBytes + (geo.clusterBytes - 1))
    have hkc : k = clusters.length := by rw [hk, hclusters, Nat.zero_add]
    rw [← hgeo.clusters, ← hreq, hkc, hbytes, ← hstorage, ← hbytes] at hround
    omega

/-- The bitmap as it is read after the volume update: its clusters are the same, its length is that of the grown
volume. -/
theorem Planned.bitmap_after {p : MediaPlan} (h : Planned m p) (hl : TableLayout p) (hv : VolumeLayout m p)
    {volume : List (Write UInt8)} (hvol : planExfatWrites m p.data p.growth = .ok volume)
    {length cluster offset first : Nat} {storage : List UInt8} {clusters : List Nat}
    (hread : BitmapRead m p.data g length storage cluster offset first clusters) :
    BitmapRead (m.apply (tableWrites m p ++ volume)) p.data { g with clusterCount := p.growth.clusterCount }
      ((p.growth.clusterCount + 7) / 8) storage cluster offset first clusters := by
  have hbs := h.blockSize
  obtain ⟨lba, _, directory, hplan, _, hlo, hhi, _⟩ := h.volume_regions hv hvol
  obtain ⟨geo, hgeo, hloop⟩ := bind_eq_ok.mp hplan
  have hacc := bitmapGeometry_eq_ok.mp hgeo
  have hg := hread.boot.sameGeometry hbs hacc
  have hroot : ¬ outsideClusters geo.oldClusterCount geo.rootCluster := by
    have := hacc.rootInside
    unfold outsideClusters
    omega
  obtain ⟨cluster', offset', hfinds, hfound⟩ := rootLoop_findsBitmap hg hroot hloop
  rw [hg.rootCluster] at hfinds
  obtain ⟨rfl, rfl⟩ := hread.found.unique hfinds
  have hlen : directory.length = g.perCluster * m.blockSize := by
    rw [hfound.out_eq.2.2.2, clusterBytes, Media.length_blocks]
  have hlba := (clusterLba_eq_ok.mp hfound.located).2
  rw [hg.heapOffset, hg.perCluster] at hlba
  obtain ⟨hdir, hframe⟩ := h.volume_frame hl hv hvol hplan hlen
  have hcluster : clusterBytes (m.apply (tableWrites m p ++ volume)) p.data
      { g with clusterCount := p.growth.clusterCount } cluster' = directory := by
    rw [← hdir, hlba]
    rfl
  have hinside := hread.found.here_spec.1
  have hcount := h.newBlocks_bounds.2.2.2
  obtain ⟨hfirst, hlength, hcovers⟩ := hread.entry_grown hg hacc hcount hfound
  refine hread.frame (hread.boot.grown hbs rfl hcount (h.boot_after hv hvol _).1) (h.cluster_count_le hv hread.boot) rfl
    (fun c hc => ?_) (fun c hc hne => ?_) ?_ ?_ ?_ hcovers
  · obtain ⟨hfat, hend⟩ := h.reader_inside hv hread.boot hc
    have hboot := hread.boot.bootBefore
    refine exfatFatEntry_congr rfl rfl ?_
    simp only
    generalize c * 4 / m.blockSize = sector at hfat ⊢
    exact hframe _ _ (by omega) (by omega) (by omega)
  · obtain ⟨hfat, hend⟩ := h.reader_inside hv hread.boot hc
    have hboot := hread.boot.bootBefore
    have hapart := cluster_apart g.perCluster (two_le_of_inside hc) (two_le_of_inside hinside) hne
    generalize c * 4 / m.blockSize = sector at hfat
    simp only [clusterBytes]
    exact hframe _ _ (by omega) hend (by omega)
  · rw [hcluster]
    exact hfound.entry_again
  · rw [hcluster]
    exact hfirst
  · rw [hcluster]
    exact hlength

/-- Growth keeps the state of every old cluster, and a new cluster is free exactly when its bit in the storage of the
bitmap was clear before. -/
theorem growth_keeps_bitmap_storage {p : MediaPlan} {dev : Device} {a b c : Nat} {cluster offset first : Nat}
    {storage : List UInt8} {clusters : List Nat} (hplan : planMediaGrowth m = .ok (some p)) (hl : TableLayout p)
    (hv : VolumeLayout m p) (hrun : runGrowth m = (.ok (.grown a b c), dev))
    (hread : BitmapRead m p.data g ((g.clusterCount + 7) / 8) storage cluster offset first clusters) :
    ∃ count, g.clusterCount ≤ count ∧ (p.needsExfat → count = c) ∧ (¬ p.needsExfat → count = g.clusterCount) ∧
      BitmapRead dev.media p.data { g with clusterCount := count } ((count + 7) / 8) storage cluster offset first clusters ∧
      (∀ i, i < g.clusterCount →
        allocated (storage.take ((count + 7) / 8)) i = allocated (storage.take ((g.clusterCount + 7) / 8)) i) ∧
      ∀ i, g.clusterCount ≤ i → i < count → allocated (storage.take ((count + 7) / 8)) i = allocated storage i := by
  obtain ⟨p', ws, hplan', _, hws, rfl, _, _, hc⟩ := runGrowth_grown hrun
  cases Option.some.inj (Except.ok.inj (hplan.symm.trans hplan'))
  have h := planMediaGrowth_eq_some.mp hplan
  have hle := h.cluster_count_le hv hread.boot
  have hbits : ∀ count, g.clusterCount ≤ count → ∀ i, i < g.clusterCount →
      allocated (storage.take ((count + 7) / 8)) i = allocated (storage.take ((g.clusterCount + 7) / 8)) i := by
    intro count hcount i hi
    rw [allocated_take (hi.trans_le hcount), allocated_take hi]
  rcases growthWrites_eq_ok.mp hws with ⟨hexfat, volume, hvol, rfl⟩ | ⟨hexfat, rfl⟩
  · rw [h.planExfatWrites_table hl hv] at hvol
    exact ⟨p.growth.clusterCount, hle, fun _ => hc.symm, fun hne => absurd hexfat hne, h.bitmap_after hl hv hvol hread,
      hbits _ hle, fun i _ hi => allocated_take hi⟩
  · refine ⟨g.clusterCount, Nat.le_refl _, fun hne => absurd hne hexfat, fun _ => rfl, ?_, fun _ _ => rfl,
      fun i hlo hi => absurd hi (Nat.not_lt.mpr hlo)⟩
    have hframe := h.volume_after_table hl
    have hroom := h.room_for_boot
    have hsame : ∀ c, ¬ outsideClusters g.clusterCount c →
        clusterBytes (m.apply (tableWrites m p)) p.data g c = clusterBytes m p.data g c := by
      intro c hc
      exact hframe _ _ (by omega) (h.reader_inside hv hread.boot hc).2
    have hcluster := hsame cluster hread.found.here_spec.1
    refine hread.frame ?_ (Nat.le_refl _) rfl (fun c hc => ?_) (fun c hc _ => hsame c hc) ?_ ?_ ?_ hread.covers
    · simp only
      rw [hframe _ _ (Nat.le_refl _) (by omega)]
      exact hread.boot
    · obtain ⟨hfat, hend⟩ := h.reader_inside hv hread.boot hc
      refine exfatFatEntry_congr rfl rfl ?_
      simp only
      generalize c * 4 / m.blockSize = sector at hfat ⊢
      exact hframe _ _ (by omega) (by omega)
    · rw [hcluster]
      exact hread.found.here_spec.2
    · rw [hcluster]
      exact hread.firstCluster
    · rw [hcluster]
      exact hread.recorded

/-- The geometry of the volume on the small release media. -/
def releaseGeometry : VolumeGeometry := ⟨1, 24, 1, 25, 16, 3⟩

/-- What is read of the allocation bitmap on the small release media. -/
theorem bitmapRead_release {r : Release} (hdata : data.startLba = 3)
    (hboot : sectorsPerCluster (r.media.blocks 3 1) = .ok 1 ∧ readLeU32 (r.media.blocks 3 1) 80 = some 24 ∧
      readLeU32 (r.media.blocks 3 1) 84 = some 1 ∧ readLeU32 (r.media.blocks 3 1) 88 = some 25 ∧
      readLeU32 (r.media.blocks 3 1) 92 = some 16 ∧ readLeU32 (r.media.blocks 3 1) 96 = some 3)
    (hentry : findBitmapEntry (r.media.blocks 29 1) (entryOffsets (r.media.blocks 29 1)) = .ok (some 0))
    (hfirst : readLeU32 (r.media.blocks 29 1) 20 = some 2) (hlength : readLeU64 (r.media.blocks 29 1) 24 = some 2)
    (hfat : exfatFatEntry r.media data 24 2 = .ok exfatClusterEoc) :
    BitmapRead r.media data releaseGeometry 2 (r.media.blocks 28 1) 3 0 2 [2] := by
  have hbytes : ∀ c, clusterBytes r.media data releaseGeometry c = r.media.blocks (28 + (c - 2)) 1 := by
    intro c
    rw [clusterBytes, hdata]
    simp only [releaseGeometry, Nat.mul_one]
  obtain ⟨hper, hfo, hfl, hheap, hcount, hroot⟩ := hboot
  refine ⟨?_, .here (by decide) ?_, ?_, ?_, .last (by decide) hfat, by decide, ?_, ?_⟩
  · rw [hdata]
    exact ⟨hper, hfo, hfl, hheap, hcount, hroot, by decide, by decide⟩
  · rw [hbytes]
    exact hentry
  · rw [hbytes]
    exact hfirst
  · rw [hbytes]
    exact hlength
  · rw [List.map_singleton, List.flatten_singleton, hbytes]
  · rw [Media.length_blocks]
    exact Nat.le_of_ble_eq_true rfl

/-- The release of `enlargedRelease`, with a bit set in the storage of the bitmap behind its recorded length. -/
def trailingRelease : Release := { enlargedRelease with bitmap := 0x10003 }

theorem enlargedRelease_free_clusters :
    ∃ p dev, planMediaGrowth enlargedRelease.media = .ok (some p) ∧
      runGrowth enlargedRelease.media = (.ok (.grown 41 56 31), dev) ∧
      BitmapRead dev.media p.data { releaseGeometry with clusterCount := 31 } 4 (enlargedRelease.media.blocks 28 1)
        3 0 2 [2] ∧
      ∀ i, 16 ≤ i → i < 31 → allocated ((enlargedRelease.media.blocks 28 1).take 4) i = false := by
  obtain ⟨p, hplan, hgpt, hexfat, hl, hv, _, dev, hrun⟩ := enlargedRelease_plan
  obtain ⟨p', hplan', hstart, hfat⟩ : ∃ p, planMediaGrowth enlargedRelease.media = .ok (some p) ∧ p.data.startLba = 3 ∧
      exfatFatEntry enlargedRelease.media p.data 24 2 = .ok exfatClusterEoc := exists_plan (by decide +kernel)
  cases Option.some.inj (Except.ok.inj (hplan.symm.trans hplan'))
  have hread := bitmapRead_release hstart (by decide +kernel) (by decide +kernel) (by decide +kernel) (by decide +kernel) hfat
  obtain ⟨count, _, hcount, _, hafter, _, hnew⟩ := growth_keeps_bitmap_storage hplan hl hv hrun hread
  cases hcount hexfat
  refine ⟨p, dev, hplan, hrun, hafter, fun i hlo hi => (hnew i hlo hi).trans ?_⟩
  have hclear : ∀ i, i < 31 → 16 ≤ i → allocated (enlargedRelease.media.blocks 28 1) i = false := by decide +kernel
  exact hclear i hi hlo

theorem trailingRelease_allocates_new_cluster :
    ∃ p dev, planMediaGrowth trailingRelease.media = .ok (some p) ∧ TableLayout p ∧ VolumeLayout trailingRelease.media p ∧
      BitmapRead trailingRelease.media p.data releaseGeometry 2 (trailingRelease.media.blocks 28 1) 3 0 2 [2] ∧
      runGrowth trailingRelease.media = (.ok (.grown 41 56 31), dev) ∧
      BitmapRead dev.media p.data { releaseGeometry with clusterCount := 31 } 4 (trailingRelease.media.blocks 28 1)
        3 0 2 [2] ∧
      allocated ((trailingRelease.media.blocks 28 1).take 4) 16 = true := by
  obtain ⟨p, hplan, hexfat, hws, hlo, hhi, hgrowth, hstart, hfat⟩ : ∃ p, planMediaGrowth trailingRelease.media = .ok (some p) ∧
      p.needsExfat ∧ (growthWrites trailingRelease.media p).toOption.isSome = true ∧ 2 ≤ p.gpt.entryLba ∧
      p.gpt.entryLba + p.entryArraySectors ≤ p.data.startLba ∧ p.growth = ⟨41, 56, 31⟩ ∧ p.data.startLba = 3 ∧
      exfatFatEntry trailingRelease.media p.data 24 2 = .ok exfatClusterEoc := exists_plan (by decide +kernel)
  have hread := bitmapRead_release hstart (by decide +kernel) (by decide +kernel) (by decide +kernel) (by decide +kernel) hfat
  have hl : TableLayout p := ⟨hlo, hhi⟩
  have hv : VolumeLayout trailingRelease.media p :=
    volumeLayout_of_fields hread.boot.perCluster hread.boot.heapOffset hread.boot.clusterCount (by rw [hgrowth]; decide)
  cases hw : growthWrites trailingRelease.media p with
  | error e =>
      rw [hw] at hws
      cases hws
  | ok ws =>
      have hrun := runGrowth_of_growthWrites hplan (fun hno => hno.2 hexfat) hw
      have h := planMediaGrowth_eq_some.mp hplan
      rcases growthWrites_eq_ok.mp hw with ⟨_, volume, hvol, rfl⟩ | ⟨hne, _⟩
      · rw [h.planExfatWrites_table hl hv] at hvol
        have hafter := h.bitmap_after hl hv hvol hread
        rw [hgrowth] at hrun hafter
        exact ⟨p, _, hplan, hl, hv, hread, hrun, hafter, by decide +kernel⟩
      · exact absurd hexfat hne

end NextBoot.MediaGrow
