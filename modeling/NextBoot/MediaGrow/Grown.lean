import NextBoot.MediaGrow.Replan

namespace NextBoot.MediaGrow

open Results Words Bytes BlockStore

/-- Both copies of the partition table are valid, name each other and hold the old entries with the new end of the data
partition. -/
structure GrownTable (m grown : Media) (p : MediaPlan) : Prop where
  primary : HeaderDescribes (grown.blocks gptHeaderLba 1) m.blockSize gptHeaderLba p.gpt.entryLba p.gpt.entryCount
    p.gpt.entrySize ((grown.blocks p.gpt.entryLba p.entryArraySectors).take p.entryBytes)
  backup : HeaderDescribes (grown.blocks p.lastLba 1) m.blockSize p.lastLba p.backupEntriesLba p.gpt.entryCount
    p.gpt.entrySize ((grown.blocks p.backupEntriesLba p.entryArraySectors).take p.entryBytes)
  primaryAlternate : readLeU64 (grown.blocks gptHeaderLba 1) 32 = some p.lastLba
  backupAlternate : readLeU64 (grown.blocks p.lastLba 1) 32 = some gptHeaderLba
  primaryLastUsable : readLeU64 (grown.blocks gptHeaderLba 1) 48 = some p.newLastUsableLba
  backupLastUsable : readLeU64 (grown.blocks p.lastLba 1) 48 = some p.newLastUsableLba
  sameEntries : grown.blocks p.backupEntriesLba p.entryArraySectors = grown.blocks p.gpt.entryLba p.entryArraySectors
  onlyDataEnd : grown.blocks p.gpt.entryLba p.entryArraySectors =
    replaceEnd (m.blocks p.gpt.entryLba p.entryArraySectors) p.gpt.entrySize p.data.index p.newDataEnd
  dataEnd : p.newDataEnd = p.data.startLba + p.growth.newBlocks - 1
  bounds : p.data.startLba ≤ p.newDataEnd ∧ p.newDataEnd ≤ p.newLastUsableLba ∧
    p.newLastUsableLba < p.backupEntriesLba ∧ p.backupEntriesLba < p.lastLba ∧ p.lastLba = m.lastBlock

/-- Both boot regions are the same and describe the grown volume. -/
structure GrownVolume (grown : Media) (p : MediaPlan) : Prop where
  sameRegions : grown.blocks (p.data.startLba + exfatBootBackupLba) exfatBootRegionSectors =
    grown.blocks p.data.startLba exfatBootRegionSectors
  volumeLength : readLeU64 (grown.blocks p.data.startLba exfatBootRegionSectors) 72 = some p.growth.newBlocks
  clusterCount : readLeU32 (grown.blocks p.data.startLba exfatBootRegionSectors) 92 = some p.growth.clusterCount
  checksum : BootChecksumValid (grown.blocks p.data.startLba exfatBootRegionSectors) grown.blockSize

theorem runGrowth_grown {m : Media} {dev : Device} {a b c : Nat} (h : runGrowth m = (.ok (.grown a b c), dev)) :
    ∃ p ws, planMediaGrowth m = .ok (some p) ∧ ¬ (¬ p.needsGpt ∧ ¬ p.needsExfat) ∧ growthWrites m p = .ok ws ∧
      dev = ⟨m.apply ws, ws⟩ ∧ a = p.growth.oldBlocks ∧ b = p.growth.newBlocks ∧ c = p.growth.clusterCount := by
  rw [runGrowth_eq] at h
  cases hplan : planMediaGrowth m with
  | error e =>
      rw [hplan] at h
      simp at h
  | ok plan =>
      rw [hplan] at h
      cases plan with
      | none => simp at h
      | some p =>
          simp only at h
          split at h
          · simp at h
          · next hneeds =>
              cases hw : growthWrites m p with
              | error e =>
                  rw [hw] at h
                  simp at h
              | ok ws =>
                  rw [hw] at h
                  simp only [Prod.mk.injEq, Except.ok.injEq, GrowOutcome.grown.injEq] at h
                  exact ⟨p, ws, rfl, hneeds, hw, h.2.symm, h.1.1.symm, h.1.2.1.symm, h.1.2.2.symm⟩

theorem runGrowth_of_growthWrites {m : Media} {p : MediaPlan} {ws : List (Write UInt8)}
    (hplan : planMediaGrowth m = .ok (some p)) (hneeds : ¬ (¬ p.needsGpt ∧ ¬ p.needsExfat))
    (h : growthWrites m p = .ok ws) :
    runGrowth m =
      (.ok (.grown p.growth.oldBlocks p.growth.newBlocks p.growth.clusterCount), ⟨m.apply ws, ws⟩) := by
  rw [runGrowth_eq, hplan]
  simp only [if_neg hneeds, h]

theorem runGrowth_alreadyGrown {m : Media} {p : MediaPlan} (hplan : planMediaGrowth m = .ok (some p))
    (hgpt : ¬ p.needsGpt) (hexfat : ¬ p.needsExfat) : runGrowth m = (.ok .alreadyGrown, ⟨m, []⟩) := by
  rw [runGrowth_eq, hplan]
  simp only [hgpt, hexfat, not_false_eq_true, and_self, if_true]

theorem Planned.newBlocks_bounds {m : Media} {p : MediaPlan} (h : Planned m p) :
    0 < p.growth.newBlocks ∧ p.data.startLba + p.growth.newBlocks ≤ p.backupEntriesLba ∧
      p.growth.newBlocks < 2 ^ 64 ∧ p.growth.clusterCount < 2 ^ 32 := by
  obtain ⟨per, fatLength, heap, _, _, _, _, _, hroom, _, _, hplan⟩ := h.volume.geometry
  have hv := hplan.volumeBlocks
  have hns := hplan.noShrink
  have hheap := hplan.heapInside
  have hcount := hplan.clusterCount
  have hfit := grown_fits (p.newLastUsableLba - p.data.startLba + 1) (Nat.pos_of_isPowerOfTwo hplan.powerOfTwo)
    hplan.oldFits
  simp only at hv hcount
  rw [← hv, ← hcount] at hfit
  obtain ⟨_, hus⟩ := h.lastUsable
  have hroom' := h.room
  have hlt := h.dataEnd.1
  omega

theorem Planned.table_bounds {m : Media} {p : MediaPlan} (h : Planned m p) :
    p.data.startLba ≤ p.newDataEnd ∧ p.newDataEnd ≤ p.newLastUsableLba ∧ p.newLastUsableLba < p.backupEntriesLba ∧
      p.backupEntriesLba < p.lastLba ∧ p.lastLba = m.lastBlock := by
  obtain ⟨hpos, hfit, _, _⟩ := h.newBlocks_bounds
  obtain ⟨_, hbak, hsec⟩ := h.order
  obtain ⟨_, _, hend⟩ := h.dataEnd
  obtain ⟨_, hus⟩ := h.lastUsable
  have hlast := h.lastLba
  omega

/-- The blocks of the partition table are those the table update left, whatever the volume update wrote. -/
theorem grownTable_of_blocks {m grown : Media} {p : MediaPlan} (h : Planned m p) (hl : TableLayout p)
    (hin : ∀ lba count, lba + count ≤ p.data.startLba ∨ p.backupEntriesLba ≤ lba →
      grown.blocks lba count = (m.apply (gptWrites m.blockSize p)).blocks lba count) : GrownTable m grown p := by
  have hbehind := hl.behindHeader
  have hbefore := hl.beforeData
  have hone : gptHeaderLba = 1 := rfl
  obtain ⟨_, hbak, _⟩ := h.order
  have hheader : grown.blocks gptHeaderLba 1 = p.newHeader := (hin _ _ (by omega)).trans (h.header_after hl 5)
  have hlast : grown.blocks p.lastLba 1 = p.newBackupHeader := (hin _ _ (by omega)).trans (h.lastBlock_after hl 5)
  have hentries : grown.blocks p.gpt.entryLba p.entryArraySectors = p.newEntries :=
    (hin _ _ (by omega)).trans (h.entries_after hl 5)
  have hbackup : grown.blocks p.backupEntriesLba p.entryArraySectors = p.newEntries :=
    (hin _ _ (by omega)).trans (h.backupEntries_after hl 5)
  obtain ⟨hdescribes, halternate, husable⟩ := h.newBackupHeader_describes
  refine ⟨?_, ?_, ?_, ?_, ?_, ?_, ?_, ?_, h.dataEnd.2.2, h.table_bounds⟩
  · rw [hheader, hentries]
    exact h.newHeader_describes
  · rw [hlast, hbackup]
    exact hdescribes
  · rw [hheader]
    exact h.newHeader_accepted.oldBackupLba
  · rw [hlast]
    exact halternate
  · rw [hheader]
    exact h.newHeader_accepted.lastUsableLba
  · rw [hlast]
    exact husable
  · rw [hbackup, hentries]
  · rw [hentries, ← h.entries]
    rfl

/-- Blocks outside the three regions of the volume update stay as they are. -/
theorem Planned.outside_volume {m : Media} {p : MediaPlan} (h : Planned m p) (hv : VolumeLayout m p)
    {growth : ExfatGrowth} {volume : List (Write UInt8)} (hvol : planExfatWrites m p.data growth = .ok volume)
    (ws : List (Write UInt8)) (lba count : Nat) (hd : lba + count ≤ p.data.startLba ∨ p.backupEntriesLba ≤ lba) :
    (m.apply (ws ++ volume)).blocks lba count = (m.apply ws).blocks lba count := by
  obtain ⟨lba', count', directory, _, hdlen, hlo, hhi, rfl⟩ := h.volume_regions hv hvol
  have hbs := h.blockSize
  have hsectors : exfatBootRegionSectors = 12 := rfl
  have hbackup : exfatBootBackupLba = 12 := rfl
  have hroom := h.room_for_boot
  have hblen := length_grownBoot growth (show 512 ≤ m.blockSize by omega)
    (show (m.blocks p.data.startLba exfatBootRegionSectors).length = 12 * m.blockSize by rw [Media.length_blocks, hsectors])
  rw [Media.apply_append]
  apply Media.blocks_apply_disjoint
  simp only [List.forall_mem_cons, List.not_mem_nil, false_implies, implies_true, and_true, Media.apply_blockSize]
  exact ⟨blockWrite_disjoint hdlen (by omega), blockWrite_disjoint hblen (by omega), blockWrite_disjoint hblen (by omega)⟩

/-- The boot regions after the volume update. -/
theorem Planned.boot_after {m : Media} {p : MediaPlan} (h : Planned m p) (hv : VolumeLayout m p)
    {growth : ExfatGrowth} {volume : List (Write UInt8)} (hvol : planExfatWrites m p.data growth = .ok volume)
    (ws : List (Write UInt8)) :
    (m.apply (ws ++ volume)).blocks p.data.startLba exfatBootRegionSectors =
        grownBoot m.blockSize (m.blocks p.data.startLba exfatBootRegionSectors) growth ∧
      (m.apply (ws ++ volume)).blocks (p.data.startLba + exfatBootBackupLba) exfatBootRegionSectors =
        grownBoot m.blockSize (m.blocks p.data.startLba exfatBootRegionSectors) growth := by
  obtain ⟨lba', count', directory, _, hdlen, hlo, hhi, rfl⟩ := h.volume_regions hv hvol
  have hbs := h.blockSize
  have hsectors : exfatBootRegionSectors = 12 := rfl
  have hbackup : exfatBootBackupLba = 12 := rfl
  have hblen := length_grownBoot growth (show 512 ≤ m.blockSize by omega)
    (show (m.blocks p.data.startLba exfatBootRegionSectors).length = 12 * m.blockSize by rw [Media.length_blocks, hsectors])
  constructor
  · rw [List.append_cons]
    refine Media.blocks_apply_written _ hblen ?_
    simp only [List.forall_mem_cons, List.not_mem_nil, false_implies, implies_true, and_true]
    exact blockWrite_disjoint hblen (by omega)
  · rw [List.append_cons, List.append_cons]
    exact Media.blocks_apply_written _ hblen (by simp)

/-- A boot sector rewritten by the volume update is accepted again, and asks for no further growth. -/
theorem Planned.volume_again {m grown : Media} {p : MediaPlan} (h : Planned m p) (hbs : grown.blockSize = m.blockSize)
    (hboot : grown.blocks p.data.startLba exfatBootRegionSectors =
      grownBoot m.blockSize (m.blocks p.data.startLba exfatBootRegionSectors) p.growth) :
    VolumeAccepted (grown.blocks p.data.startLba 1) m.blockSize p.data.startLba
      (p.newLastUsableLba - p.data.startLba + 1)
      ⟨p.growth.newBlocks, p.growth.newBlocks, p.growth.clusterCount⟩ := by
  have hsize := h.blockSize
  have hsectors : exfatBootRegionSectors = 12 := rfl
  have hlen : (m.blocks p.data.startLba exfatBootRegionSectors).length = 12 * m.blockSize := by
    rw [Media.length_blocks, hsectors]
  have hslice : ∀ offset len, offset + len ≤ 72 ∨ 80 ≤ offset ∧ offset + len ≤ 92 →
      slice (grown.blocks p.data.startLba 1) offset len = slice (m.blocks p.data.startLba 1) offset len := by
    intro offset len hd
    rw [← grown.slice_blocks_prefix (show 1 ≤ exfatBootRegionSectors by omega) (by omega), hboot,
      grownBoot_slice (by omega) hlen (by omega), m.slice_blocks_prefix (show 1 ≤ exfatBootRegionSectors by omega) (by omega)]
  have hbyte : ∀ i, 96 ≤ i → i < 512 → (grown.blocks p.data.startLba 1)[i]? = (m.blocks p.data.startLba 1)[i]? := by
    intro i hlo hhi
    have hg : (grown.blocks p.data.startLba 1)[i]? = (grown.blocks p.data.startLba exfatBootRegionSectors)[i]? := by
      rw [grown.getElem?_blocks (by omega), grown.getElem?_blocks (by rw [hsectors]; omega)]
    have hm : (m.blocks p.data.startLba 1)[i]? = (m.blocks p.data.startLba exfatBootRegionSectors)[i]? := by
      rw [m.getElem?_blocks (by omega), m.getElem?_blocks (by rw [hsectors]; omega)]
    rw [hg, hm, hboot, grownBoot_byte (by omega) hlen hlo (by omega)]
  obtain ⟨per, fatLength, heap, hper, hfat, hheap, hgeo⟩ := h.volume.geometry
  obtain ⟨_, _, hnew, _⟩ := h.newBlocks_bounds
  refine ⟨(hslice _ _ (by omega)).trans h.volume.jump, (hslice _ _ (by omega)).trans h.volume.name, ?_, ?_, ?_, per,
    fatLength, heap, ?_, ?_, ?_, hgeo.1, hgeo.2.1, hgeo.2.2.1, hgeo.2.2.2.1, hgeo.2.2.2.2.1, hgeo.2.2.2.2.2.again⟩
  · rw [readLeU64, readLe, hslice _ _ (by omega)]
    exact h.volume.partitionOffset
  · exact (exfatShift_congr _ _ (hbyte _ (by omega) (by omega))).trans h.volume.sectorBytes
  · rw [readLeU64, readLe, ← grown.slice_blocks_prefix (show 1 ≤ exfatBootRegionSectors by omega) (by omega), hboot]
    exact grownBoot_volumeLength (by omega) hlen hnew
  · exact (exfatShift_congr _ _ (hbyte _ (by omega) (by omega))).trans hper
  · rw [readLeU32, readLe, hslice _ _ (by omega)]
    exact hfat
  · rw [readLeU32, readLe, hslice _ _ (by omega)]
    exact hheap

/-- What a run that grew the partition table leaves behind, and that a second run has nothing left to do. -/
theorem growth_postcondition {m : Media} {p : MediaPlan} {dev : Device} {a b c : Nat}
    (hplan : planMediaGrowth m = .ok (some p)) (hgpt : p.needsGpt) (hl : TableLayout p) (hv : VolumeLayout m p)
    (hrun : runGrowth m = (.ok (.grown a b c), dev)) :
    GrownTable m dev.media p ∧ b = p.growth.newBlocks ∧ c = p.growth.clusterCount ∧
      (p.needsExfat → GrownVolume dev.media p) ∧
      runGrowth dev.media = (.ok .alreadyGrown, ⟨dev.media, []⟩) := by
  obtain ⟨p', ws, hplan', _, hws, rfl, _, hb, hc⟩ := runGrowth_grown hrun
  cases Option.some.inj (Except.ok.inj (hplan.symm.trans hplan'))
  have h := planMediaGrowth_eq_some.mp hplan
  have htable : tableWrites m p = gptWrites m.blockSize p := if_pos hgpt
  rcases growthWrites_eq_ok.mp hws with ⟨hexfat, volume, hvol, rfl⟩ | ⟨hexfat, rfl⟩
  · rw [h.planExfatWrites_table hl hv] at hvol
    rw [htable]
    have hframe := h.outside_volume hv hvol (gptWrites m.blockSize p)
    obtain ⟨hmain, hbackup⟩ := h.boot_after hv hvol (gptWrites m.blockSize p)
    have hbs := h.blockSize
    have hlen : (m.blocks p.data.startLba exfatBootRegionSectors).length = 12 * m.blockSize := by
      rw [Media.length_blocks]
      rfl
    obtain ⟨_, _, hnew, hcount⟩ := h.newBlocks_bounds
    refine ⟨grownTable_of_blocks h hl hframe, hb, hc, fun _ => ⟨?_, ?_, ?_, ?_⟩, ?_⟩
    · rw [hbackup, hmain]
    · rw [hmain]
      exact grownBoot_volumeLength (by omega) hlen hnew
    · rw [hmain]
      exact grownBoot_clusterCount (by omega) hlen hcount
    · rw [hmain]
      exact grownBoot_checksum (by omega) hlen
    · have hagain := h.replan_after hl (planExfatWrites_start hvol)
        (h.volume_again (Media.apply_blockSize m _) hmain) rfl
      exact runGrowth_alreadyGrown hagain (p.settled_needsGpt _) (fun hne => hne rfl)
  · rw [htable]
    refine ⟨grownTable_of_blocks h hl fun _ _ _ => rfl, hb, hc, fun hne => absurd hne hexfat, ?_⟩
    have hboot : (m.apply (gptWrites m.blockSize p ++ [])).blocks p.data.startLba 1 = m.blocks p.data.startLba 1 := by
      rw [List.append_nil]
      exact h.volume_after hl 5 _ _ (Nat.le_refl _) (by have := h.room_for_boot; omega)
    have hagain := h.replan_after hl (by simp) (hboot ▸ h.volume) rfl
    rw [List.append_nil] at hagain
    exact runGrowth_alreadyGrown hagain (p.settled_needsGpt _) hexfat

/-- A run that wants to grow a laid out volume with an acceptable bitmap does grow it. -/
theorem Planned.run_grows {m : Media} {p : MediaPlan} (hplan : planMediaGrowth m = .ok (some p))
    (hneeds : ¬ (¬ p.needsGpt ∧ ¬ p.needsExfat)) (hl : TableLayout p) (hv : VolumeLayout m p)
    (hvol : p.needsExfat → ∃ volume, planExfatWrites m p.data p.growth = .ok volume) :
    ∃ dev, runGrowth m = (.ok (.grown p.growth.oldBlocks p.growth.newBlocks p.growth.clusterCount), dev) := by
  have h := planMediaGrowth_eq_some.mp hplan
  by_cases hexfat : p.needsExfat
  · obtain ⟨volume, hvol⟩ := hvol hexfat
    rw [← h.planExfatWrites_table hl hv] at hvol
    exact ⟨_, runGrowth_of_growthWrites hplan hneeds (growthWrites_eq_ok.mpr (.inl ⟨hexfat, volume, hvol, rfl⟩))⟩
  · exact ⟨_, runGrowth_of_growthWrites hplan hneeds (growthWrites_eq_ok.mpr (.inr ⟨hexfat, rfl⟩))⟩

theorem enlargedRelease_plan :
    ∃ p, planMediaGrowth enlargedRelease.media = .ok (some p) ∧ p.needsGpt ∧ p.needsExfat ∧ TableLayout p ∧
      VolumeLayout enlargedRelease.media p ∧
      crc32 (p.newEntries.take p.entryBytes) ≠ crc32 (p.entries.take p.entryBytes) ∧
      ∃ dev, runGrowth enlargedRelease.media = (.ok (.grown 41 56 31), dev) := by
  obtain ⟨p, hplan, hgpt, hexfat, hvol, hlo, hhi, hgrowth, hper, hheap, hcount, hne⟩ :
      ∃ p, planMediaGrowth enlargedRelease.media = .ok (some p) ∧ p.needsGpt ∧ p.needsExfat ∧
      (planExfatWrites enlargedRelease.media p.data p.growth).toOption.isSome = true ∧ 2 ≤ p.gpt.entryLba ∧
      p.gpt.entryLba + p.entryArraySectors ≤ p.data.startLba ∧ p.growth = ⟨41, 56, 31⟩ ∧
      sectorsPerCluster (enlargedRelease.media.blocks p.data.startLba 1) = .ok 1 ∧
      readLeU32 (enlargedRelease.media.blocks p.data.startLba 1) 88 = some 25 ∧
      readLeU32 (enlargedRelease.media.blocks p.data.startLba 1) 92 = some 16 ∧
      crc32 (p.newEntries.take p.entryBytes) ≠ crc32 (p.entries.take p.entryBytes) := exists_plan (by decide +kernel)
  have hl : TableLayout p := ⟨hlo, hhi⟩
  have hv : VolumeLayout enlargedRelease.media p := volumeLayout_of_fields hper hheap hcount (by rw [hgrowth])
  have hvol' : ∃ volume, planExfatWrites enlargedRelease.media p.data p.growth = .ok volume := by
    cases hw : planExfatWrites enlargedRelease.media p.data p.growth with
    | error e =>
        rw [hw] at hvol
        cases hvol
    | ok volume => exact ⟨volume, rfl⟩
  obtain ⟨dev, hrun⟩ := Planned.run_grows hplan (fun hno => hno.1 hgpt) hl hv fun _ => hvol'
  rw [hgrowth] at hrun
  exact ⟨p, hplan, hgpt, hexfat, hl, hv, hne, dev, hrun⟩

theorem enlargedRelease_postcondition :
    ∃ p dev, planMediaGrowth enlargedRelease.media = .ok (some p) ∧ p.needsGpt ∧ p.needsExfat ∧
      runGrowth enlargedRelease.media = (.ok (.grown 41 56 31), dev) ∧ GrownTable enlargedRelease.media dev.media p ∧
      GrownVolume dev.media p ∧ runGrowth dev.media = (.ok .alreadyGrown, ⟨dev.media, []⟩) := by
  obtain ⟨p, hplan, hgpt, hexfat, hl, hv, _, dev, hrun⟩ := enlargedRelease_plan
  obtain ⟨htable, _, _, hvolume, hagain⟩ := growth_postcondition hplan hgpt hl hv hrun
  exact ⟨p, dev, hplan, hgpt, hexfat, hrun, htable, hvolume hexfat, hagain⟩

/-- A release whose entry array lies where the backup boot region of the data partition belongs. -/
def overlappedRelease : Release :=
  ⟨60, 15, 45, 43, 43, 41, 3, bitmapEntry 2, 3192580797, 2006891030, 1210633714⟩

theorem overlappedRelease_breaks_entries :
    ∃ p dev, planMediaGrowth overlappedRelease.media = .ok (some p) ∧ p.needsGpt ∧
      runGrowth overlappedRelease.media =
        (.ok (.grown p.growth.oldBlocks p.growth.newBlocks p.growth.clusterCount), dev) ∧
      ¬ GrownTable overlappedRelease.media dev.media p := by
  obtain ⟨p, hplan, hgpt, hsec, hlba, hold, hws⟩ :
      ∃ p, planMediaGrowth overlappedRelease.media = .ok (some p) ∧ p.needsGpt ∧ p.entryArraySectors = 1 ∧
      p.gpt.entryLba = 15 ∧
      (replaceEnd (overlappedRelease.media.blocks 15 1) p.gpt.entrySize p.data.index p.newDataEnd)[0]? = some 1 ∧
      ((growthWrites overlappedRelease.media p).toOption.map fun ws =>
        applyWrites overlappedRelease.media.content ws 7680) = some 0xeb := exists_plan (by decide +kernel)
  cases hw : growthWrites overlappedRelease.media p with
  | error e =>
      rw [hw] at hws
      cases hws
  | ok ws =>
      have hrun := runGrowth_of_growthWrites hplan (fun hno => hno.1 hgpt) hw
      refine ⟨p, _, hplan, hgpt, hrun, fun hgrown => ?_⟩
      have hbyte := congrArg (fun bytes => bytes[0]?) hgrown.onlyDataEnd
      rw [hlba, hsec] at hbyte
      simp only [hold] at hbyte
      rw [Media.getElem?_blocks _ (show 0 < 1 * 512 by decide)] at hbyte
      rw [hw] at hws
      have hnew : applyWrites overlappedRelease.media.content ws 7680 = 0xeb := Option.some.inj hws
      have hsame : applyWrites overlappedRelease.media.content ws 7680 = 1 := Option.some.inj hbyte
      rw [hnew] at hsame
      exact absurd hsame (by decide)

end NextBoot.MediaGrow
