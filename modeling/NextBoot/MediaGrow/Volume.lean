import NextBoot.MediaGrow.Table

namespace NextBoot.MediaGrow

open Results Words Bytes BlockStore

/-- The clusters the boot sector counts lie inside the volume. -/
def VolumeLayout (m : Media) (p : MediaPlan) : Prop :=
  ∀ perCluster heap count, sectorsPerCluster (m.blocks p.data.startLba 1) = .ok perCluster →
    readLeU32 (m.blocks p.data.startLba 1) 88 = some heap → readLeU32 (m.blocks p.data.startLba 1) 92 = some count →
    heap + count * perCluster ≤ p.growth.oldBlocks

theorem volumeLayout_of_fields {m : Media} {p : MediaPlan} {perCluster heap count : Nat}
    (hper : sectorsPerCluster (m.blocks p.data.startLba 1) = .ok perCluster)
    (hheap : readLeU32 (m.blocks p.data.startLba 1) 88 = some heap)
    (hcount : readLeU32 (m.blocks p.data.startLba 1) 92 = some count)
    (h : heap + count * perCluster ≤ p.growth.oldBlocks) : VolumeLayout m p := by
  intro perCluster' heap' count' hper' hheap' hcount'
  rw [hper] at hper'
  rw [hheap] at hheap'
  rw [hcount] at hcount'
  cases hper'
  cases hheap'
  cases hcount'
  exact h

theorem Media.getElem?_blocks (m : Media) {lba count i : Nat} (h : i < count * m.blockSize) :
    (m.blocks lba count)[i]? = some (m.content (lba * m.blockSize + i)) := getElem?_window _ _ h

theorem exfatShift_congr {boot boot' : List UInt8} {offset : Nat} (missing invalid : String)
    (h : boot'[offset]? = boot[offset]?) : exfatShift boot' offset missing invalid = exfatShift boot offset missing invalid := by
  rw [exfatShift, exfatShift, h]

/-- The fields of the boot sector are those of the boot region. -/
theorem bootRegion_fields {m : Media} (hbs : m.blockSize = 512 ∨ m.blockSize = 4096) (lba : Nat) :
    (∀ offset, offset + 4 ≤ 512 →
      readLeU32 (m.blocks lba exfatBootRegionSectors) offset = readLeU32 (m.blocks lba 1) offset) ∧
    bytesPerSector (m.blocks lba exfatBootRegionSectors) = bytesPerSector (m.blocks lba 1) ∧
    sectorsPerCluster (m.blocks lba exfatBootRegionSectors) = sectorsPerCluster (m.blocks lba 1) := by
  have hsectors : exfatBootRegionSectors = 12 := rfl
  have hbyte : ∀ i, i < 512 → (m.blocks lba exfatBootRegionSectors)[i]? = (m.blocks lba 1)[i]? := by
    intro i hi
    rw [m.getElem?_blocks (by rw [hsectors]; omega), m.getElem?_blocks (by omega)]
  refine ⟨fun offset hoff => ?_, exfatShift_congr _ _ (hbyte 108 (by omega)), exfatShift_congr _ _ (hbyte 109 (by omega))⟩
  rw [readLeU32, readLe, m.slice_blocks_prefix (show 1 ≤ exfatBootRegionSectors by omega) (by omega), readLeU32, readLe]

/-- Where the FAT entry and the blocks of a cluster of a laid out volume are. -/
theorem Planned.cluster_inside {m : Media} {p : MediaPlan} {per fatOffset fatLength heap count cluster : Nat}
    (h : Planned m p) (hv : VolumeLayout m p) (hper : sectorsPerCluster (m.blocks p.data.startLba 1) = .ok per)
    (hfat : readLeU32 (m.blocks p.data.startLba 1) 84 = some fatLength)
    (hheap : readLeU32 (m.blocks p.data.startLba 1) 88 = some heap)
    (hcount : readLeU32 (m.blocks p.data.startLba 1) 92 = some count) (hfit : fatOffset + fatLength ≤ heap)
    (hc : ¬ outsideClusters count cluster) :
    fatOffset + cluster * 4 / m.blockSize < heap ∧
      p.data.startLba + heap + (cluster - 2) * per + per ≤ p.backupEntriesLba := by
  obtain ⟨per', fatLength', heap', hper', hfat', hheap', _, _, _, _, _, hplan⟩ := h.volume.geometry
  have hper₁ : per' = per := Except.ok.inj (hper'.symm.trans hper)
  have hheap₁ : heap' = heap := Option.some.inj (hheap'.symm.trans hheap)
  have hfat₁ : fatLength' = fatLength := Option.some.inj (hfat'.symm.trans hfat)
  subst hper₁ hheap₁ hfat₁
  have hlay := hv per' heap' count hper hheap hcount
  have hle : cluster - 2 + 1 ≤ count ∧ 2 ≤ cluster := by
    unfold outsideClusters saturatingAdd at hc
    omega
  constructor
  · -- The capacity check of the plan bounds the cluster count by the FAT.
    have hpos := Nat.pos_of_isPowerOfTwo hplan.powerOfTwo
    have hcap : count ≤ (p.growth.oldBlocks - heap') / per' := (Nat.le_div_iff_mul_le hpos).mpr (by omega)
    have hold := hplan.oldFits
    have hent : cluster * 4 / m.blockSize < fatLength' := by
      rw [Nat.div_lt_iff_lt_mul (by have := h.blockSize; omega)]
      omega
    omega
  · have hmul := Nat.mul_le_mul_right per' hle.1
    rw [Nat.add_mul, Nat.one_mul] at hmul
    have hns := hplan.noShrink
    have hroom := h.room
    obtain ⟨_, hus⟩ := h.lastUsable
    omega

theorem Planned.geometry_inside {m : Media} {p : MediaPlan} {n : Nat} {geo : BitmapGeometry} (h : Planned m p)
    (hv : VolumeLayout m p)
    (hgeo : GeometryAccepted m.blockSize (m.blocks p.data.startLba exfatBootRegionSectors) n geo)
    {cluster : Nat} (hc : ¬ outsideClusters geo.oldClusterCount cluster) :
    24 ≤ geo.fatOffset ∧ geo.fatOffset + cluster * 4 / m.blockSize < geo.clusterHeapOffset ∧
      p.data.startLba + geo.clusterHeapOffset + (cluster - 2) * geo.perCluster + geo.perCluster ≤ p.backupEntriesLba := by
  obtain ⟨hread, _, hper⟩ := bootRegion_fields h.blockSize p.data.startLba
  obtain ⟨fatLength, hfat, _, hfit⟩ := hgeo.fatLength
  exact ⟨hgeo.fatBehindBoot, h.cluster_inside hv (hper.symm.trans hgeo.perCluster)
    ((hread 84 (by omega)).symm.trans hfat) ((hread 88 (by omega)).symm.trans hgeo.heap)
    ((hread 92 (by omega)).symm.trans hgeo.count) hfit hc⟩

/-- Two media that agree inside the volume give the same bitmap walk. -/
theorem Planned.planBitmapLength_congr {m m' : Media} {p : MediaPlan} {n : Nat} (h : Planned m p) (hv : VolumeLayout m p)
    (hbs : m'.blockSize = m.blockSize) (hlast : m'.lastBlock = m.lastBlock)
    (hin : ∀ lba count, p.data.startLba ≤ lba → lba + count ≤ p.backupEntriesLba →
      m'.blocks lba count = m.blocks lba count) :
    planBitmapLength m' p.data (m.blocks p.data.startLba exfatBootRegionSectors) n =
      planBitmapLength m p.data (m.blocks p.data.startLba exfatBootRegionSectors) n := by
  unfold planBitmapLength
  rw [hbs]
  refine bind_congr_ok fun geo hgeo => ?_
  have hacc := bitmapGeometry_eq_ok.mp hgeo
  have hroot : ¬ outsideClusters geo.oldClusterCount geo.rootCluster := by
    have := hacc.rootInside
    unfold outsideClusters
    omega
  have hroom := h.room_for_boot
  refine rootLoop_congr (fun cluster hc => ?_) (fun cluster lba hc hlba => ?_) _ _ hroot
  · obtain ⟨hlo, hfat, hcl⟩ := h.geometry_inside hv hacc hc
    refine exfatFatEntry_congr hbs hlast ?_
    generalize cluster * 4 / m.blockSize = sector at hfat ⊢
    exact hin _ _ (by omega) (by omega)
  · obtain ⟨_, _, hcl⟩ := h.geometry_inside hv hacc hc
    have hlba' := (clusterLba_eq_ok.mp hlba).2
    exact readBlocks_congr hbs hlast (hin _ _ (by omega) (by omega))

theorem Planned.readBoot {m : Media} {p : MediaPlan} (h : Planned m p) :
    readBlocks m p.data.startLba exfatBootRegionSectors = .ok (m.blocks p.data.startLba exfatBootRegionSectors) := by
  have hsectors : exfatBootRegionSectors = 12 := rfl
  have hbs := h.blockSize
  have hroom := h.room_for_boot
  have hbak := h.backupEntries
  have hlast := h.lastLba
  exact readBlocks_eq_ok.mpr ⟨by rw [hsectors]; omega, by omega, rfl⟩

theorem Planned.planExfatWrites_congr {m m' : Media} {p : MediaPlan} (h : Planned m p) (hv : VolumeLayout m p)
    (hbs : m'.blockSize = m.blockSize) (hlast : m'.lastBlock = m.lastBlock)
    (hin : ∀ lba count, p.data.startLba ≤ lba → lba + count ≤ p.backupEntriesLba →
      m'.blocks lba count = m.blocks lba count) (growth : ExfatGrowth) :
    planExfatWrites m' p.data growth = planExfatWrites m p.data growth := by
  have hsectors : exfatBootRegionSectors = 12 := rfl
  have hroom := h.room_for_boot
  have hread : readBlocks m' p.data.startLba exfatBootRegionSectors =
      .ok (m.blocks p.data.startLba exfatBootRegionSectors) :=
    (readBlocks_congr hbs hlast (hin _ _ (Nat.le_refl _) (by omega))).trans h.readBoot
  rw [planExfatWrites_of_read hread, planExfatWrites_of_read h.readBoot, h.planBitmapLength_congr hv hbs hlast hin, hbs]

/-- The partition table writes do not touch the volume. -/
theorem Planned.volume_after {m : Media} {p : MediaPlan} (h : Planned m p) (hl : TableLayout p) (k lba count : Nat)
    (hlo : p.data.startLba ≤ lba) (hhi : lba + count ≤ p.backupEntriesLba) :
    (m.apply ((gptWrites m.blockSize p).take k)).blocks lba count = m.blocks lba count := by
  obtain ⟨hroom, hbak, hpos⟩ := h.order
  have hbehind := hl.behindHeader
  have hbefore := hl.beforeData
  obtain ⟨hmbr, harray, hheader, hlast⟩ := h.disjoint_writes lba count
  apply Media.blocks_apply_disjoint
  intro w hw
  have hw' := List.mem_of_mem_take hw
  simp only [gptWrites, List.mem_cons, List.not_mem_nil, or_false] at hw'
  rcases hw' with rfl | rfl | rfl | rfl | rfl
  · exact hmbr (by omega)
  · exact harray _ (by omega)
  · exact harray _ (by omega)
  · exact hheader (by omega)
  · exact hlast (by omega)

theorem Planned.volume_after_table {m : Media} {p : MediaPlan} (h : Planned m p) (hl : TableLayout p) (lba count : Nat)
    (hlo : p.data.startLba ≤ lba) (hhi : lba + count ≤ p.backupEntriesLba) :
    (m.apply (tableWrites m p)).blocks lba count = m.blocks lba count := by
  unfold tableWrites
  split
  · exact h.volume_after hl 5 lba count hlo hhi
  · rfl

/-- The volume update is the same before and after the partition table writes. -/
theorem Planned.planExfatWrites_table {m : Media} {p : MediaPlan} (h : Planned m p) (hl : TableLayout p)
    (hv : VolumeLayout m p) (growth : ExfatGrowth) :
    planExfatWrites (m.apply (tableWrites m p)) p.data growth = planExfatWrites m p.data growth :=
  h.planExfatWrites_congr hv (Media.apply_blockSize m _) (Media.apply_lastBlock m _) (h.volume_after_table hl) growth

/-- The three regions the volume update writes. -/
theorem Planned.volume_regions {m : Media} {p : MediaPlan} (h : Planned m p) (hv : VolumeLayout m p)
    {growth : ExfatGrowth} {volume : List (Write UInt8)} (hvol : planExfatWrites m p.data growth = .ok volume) :
    ∃ lba count directory,
      planBitmapLength m p.data (m.blocks p.data.startLba exfatBootRegionSectors) growth.clusterCount = .ok (lba, directory) ∧
      directory.length = count * m.blockSize ∧ p.data.startLba + 24 < lba ∧ lba + count ≤ p.backupEntriesLba ∧
      volume = [blockWrite m.blockSize lba directory,
        blockWrite m.blockSize p.data.startLba
          (grownBoot m.blockSize (m.blocks p.data.startLba exfatBootRegionSectors) growth),
        blockWrite m.blockSize (p.data.startLba + exfatBootBackupLba)
          (grownBoot m.blockSize (m.blocks p.data.startLba exfatBootRegionSectors) growth)] := by
  obtain ⟨boot, lba, directory, hread, hplan, rfl⟩ := planExfatWrites_eq_ok.mp hvol
  cases Except.ok.inj (hread.symm.trans h.readBoot)
  obtain ⟨geo, cluster, found, offset, hgeo, hfound⟩ := planBitmapLength_found hplan
  have hlba := (clusterLba_eq_ok.mp hfound.located).2
  have hdir := (readBlocks_eq_ok.mp hfound.read).2.2
  obtain ⟨hfat, hheap, hend⟩ := h.geometry_inside hv hgeo hfound.inside
  refine ⟨lba, geo.perCluster, directory, hplan, ?_, ?_, by omega, rfl⟩
  · rw [hfound.out_eq.2.2.2, hdir, Media.length_blocks]
  · generalize cluster * 4 / m.blockSize = sector at hheap
    omega

/-- The last sector of a boot region repeats the checksum of the sectors before it. -/
def BootChecksumValid (region : List UInt8) (blockSize : Nat) : Prop :=
  slice region (11 * blockSize) blockSize =
    some (checksumSector blockSize (exfatBootChecksum (region.take (11 * blockSize))))

/-- The writes into a boot region when its volume grows. -/
def bootPatch (blockSize : Nat) (boot : List UInt8) (growth : ExfatGrowth) : List (Nat × List UInt8) :=
  let fields := splice (splice boot 72 (toLeBytes 8 growth.newBlocks)) 92 (toLeBytes 4 growth.clusterCount)
  [(72, toLeBytes 8 growth.newBlocks), (92, toLeBytes 4 growth.clusterCount),
    (11 * blockSize, checksumSector blockSize (exfatBootChecksum (fields.take (11 * blockSize))))]

theorem grownBoot_eq_patch (blockSize : Nat) (boot : List UInt8) (growth : ExfatGrowth) :
    grownBoot blockSize boot growth = patch boot (bootPatch blockSize boot growth) := rfl

variable {blockSize : Nat} {boot : List UInt8} {growth : ExfatGrowth}

theorem bootPatch_fits (hbs : 512 ≤ blockSize) (hlen : boot.length = 12 * blockSize) :
    ∀ q ∈ bootPatch blockSize boot growth, q.1 + q.2.length ≤ boot.length := by
  simp only [bootPatch, List.forall_mem_cons, List.not_mem_nil, false_implies, implies_true, and_true,
    length_toLeBytes, length_checksumSector]
  omega

theorem bootPatch_apart (hbs : 512 ≤ blockSize) :
    (bootPatch blockSize boot growth).Pairwise fun q r => q.1 + q.2.length ≤ r.1 ∨ r.1 + r.2.length ≤ q.1 := by
  simp only [bootPatch, List.pairwise_cons, List.forall_mem_cons, List.not_mem_nil, false_implies, implies_true,
    and_true, length_toLeBytes, length_checksumSector, List.Pairwise.nil]
  omega

theorem grownBoot_slice (hbs : 512 ≤ blockSize) (hlen : boot.length = 12 * blockSize) {offset len : Nat}
    (hd : offset + len ≤ 72 ∨ 80 ≤ offset ∧ offset + len ≤ 92 ∨ 96 ≤ offset ∧ offset + len ≤ 11 * blockSize) :
    slice (grownBoot blockSize boot growth) offset len = slice boot offset len := by
  rw [grownBoot_eq_patch]
  apply slice_patch_disjoint (bootPatch_fits hbs hlen)
  simp only [bootPatch, List.forall_mem_cons, List.not_mem_nil, false_implies, implies_true, and_true,
    length_toLeBytes, length_checksumSector]
  omega

theorem grownBoot_byte (hbs : 512 ≤ blockSize) (hlen : boot.length = 12 * blockSize) {i : Nat} (hlo : 96 ≤ i)
    (hhi : i < 11 * blockSize) : (grownBoot blockSize boot growth)[i]? = boot[i]? := by
  rw [grownBoot_eq_patch]
  apply getElem?_patch_disjoint (bootPatch_fits hbs hlen)
  simp only [bootPatch, List.forall_mem_cons, List.not_mem_nil, false_implies, implies_true, and_true,
    length_toLeBytes, length_checksumSector]
  omega

theorem grownBoot_volumeLength (hbs : 512 ≤ blockSize) (hlen : boot.length = 12 * blockSize)
    (hlt : growth.newBlocks < 2 ^ 64) : readLeU64 (grownBoot blockSize boot growth) 72 = some growth.newBlocks :=
  readLe_patch_mem (bootPatch_fits hbs hlen) (bootPatch_apart hbs) (by simp [bootPatch]) (by omega)

theorem grownBoot_clusterCount (hbs : 512 ≤ blockSize) (hlen : boot.length = 12 * blockSize)
    (hlt : growth.clusterCount < 2 ^ 32) : readLeU32 (grownBoot blockSize boot growth) 92 = some growth.clusterCount :=
  readLe_patch_mem (bootPatch_fits hbs hlen) (bootPatch_apart hbs) (by simp [bootPatch]) (by omega)

theorem grownBoot_checksum (hbs : 512 ≤ blockSize) (hlen : boot.length = 12 * blockSize) :
    BootChecksumValid (grownBoot blockSize boot growth) blockSize := by
  have h₁ := length_splice boot 72 (toLeBytes 8 growth.newBlocks) (by simp; omega)
  have h₂ := length_splice (splice boot 72 (toLeBytes 8 growth.newBlocks)) 92 (toLeBytes 4 growth.clusterCount)
    (by simp; omega)
  unfold BootChecksumValid grownBoot
  generalize splice (splice boot 72 (toLeBytes 8 growth.newBlocks)) 92 (toLeBytes 4 growth.clusterCount) = fields at h₂ ⊢
  have hfit : 11 * blockSize + (checksumSector blockSize (exfatBootChecksum (fields.take (11 * blockSize)))).length ≤
      fields.length := by
    rw [length_checksumSector]
    omega
  have hself := slice_splice_self hfit
  have htake : (splice fields (11 * blockSize) (checksumSector blockSize
      (exfatBootChecksum (fields.take (11 * blockSize))))).take (11 * blockSize) = fields.take (11 * blockSize) := by
    rw [splice, List.append_assoc, List.take_append_of_le_length (by rw [List.length_take]; omega), List.take_take,
      Nat.min_self]
  rw [length_checksumSector] at hself
  rw [htake]
  exact hself

end NextBoot.MediaGrow
