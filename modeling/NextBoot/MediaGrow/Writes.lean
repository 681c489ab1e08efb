import NextBoot.MediaGrow.Grow

namespace NextBoot.MediaGrow

open Results Words Bytes BlockStore

def MediaPlan.headerSize (p : MediaPlan) : Nat := (readLeU32 p.header 12).getD 0

def MediaPlan.newMbr (p : MediaPlan) : List UInt8 :=
  splice p.mbr (0x1be + 12) (toLeBytes 4 (min p.lastLba (2 ^ 32 - 1)))

def MediaPlan.newEntries (p : MediaPlan) : List UInt8 :=
  replaceEnd p.entries p.gpt.entrySize p.data.index p.newDataEnd

def MediaPlan.newHeader (p : MediaPlan) : List UInt8 :=
  grownHeader p.header p.headerSize p.lastLba p.newLastUsableLba (crc32 (p.newEntries.take p.entryBytes))

def MediaPlan.newBackupHeader (p : MediaPlan) : List UInt8 :=
  mirroredHeader p.newHeader p.headerSize p.lastLba p.backupEntriesLba

/-- The five writes of a partition table update, in the order of the source. -/
def gptWrites (blockSize : Nat) (p : MediaPlan) : List (Write UInt8) :=
  [blockWrite blockSize 0 p.newMbr, blockWrite blockSize p.gpt.entryLba p.newEntries,
    blockWrite blockSize p.backupEntriesLba p.newEntries, blockWrite blockSize gptHeaderLba p.newHeader,
    blockWrite blockSize p.lastLba p.newBackupHeader]

/-- A boot region with the new volume length, cluster count and checksum. -/
def grownBoot (blockSize : Nat) (boot : List UInt8) (growth : ExfatGrowth) : List UInt8 :=
  let fields := splice (splice boot 72 (toLeBytes 8 growth.newBlocks)) 92 (toLeBytes 4 growth.clusterCount)
  splice fields (11 * blockSize) (checksumSector blockSize (exfatBootChecksum (fields.take (11 * blockSize))))

/-- The three writes of a volume update: the directory cluster of the bitmap and both boot regions. -/
def planExfatWrites (m : Media) (data : PartitionInfo) (growth : ExfatGrowth) :
    Except GrowError (List (Write UInt8)) := do
  let boot ← readBlocks m data.startLba exfatBootRegionSectors
  let (lba, directory) ← planBitmapLength m data boot growth.clusterCount
  let boot := grownBoot m.blockSize boot growth
  return [blockWrite m.blockSize lba directory, blockWrite m.blockSize data.startLba boot,
    blockWrite m.blockSize (data.startLba + exfatBootBackupLba) boot]

theorem Planned.headerSize_spec {m : Media} {p : MediaPlan} (h : Planned m p) :
    readLeU32 p.header 12 = some p.headerSize ∧ gptHeaderSize ≤ p.headerSize ∧ p.headerSize ≤ p.header.length ∧
      p.header.length = m.blockSize ∧ gptHeaderSize ≤ m.blockSize := by
  obtain ⟨headerSize, _, _, hsize, hlo, hhi, _⟩ := h.accepted.crcValid
  have heq : p.headerSize = headerSize := by rw [MediaPlan.headerSize, hsize, Option.getD_some]
  have hlen : p.header.length = m.blockSize := by rw [h.header, Media.length_blocks, Nat.one_mul]
  rw [heq, hlen]
  exact ⟨hsize, hlo, hhi, rfl, hlo.trans hhi⟩

theorem Planned.entries_fit {m : Media} {p : MediaPlan} (h : Planned m p) :
    p.entries.length = p.entryArraySectors * m.blockSize ∧
      p.data.index * p.gpt.entrySize + p.gpt.entrySize ≤ p.entryBytes ∧ p.newEntries.length = p.entries.length := by
  have hlen : p.entries.length = p.entryArraySectors * m.blockSize := by rw [h.entries, Media.length_blocks]
  have hidx := Nat.mul_le_mul_right p.gpt.entrySize (show p.data.index + 1 ≤ p.gpt.entryCount from
    (findReleaseDataPartition_entry h.found).1)
  have hge := h.accepted.entrySize_ge
  have hfit := h.sectors_bounds.2.1
  rw [Nat.add_mul, Nat.one_mul] at hidx
  refine ⟨hlen, hidx, length_splice _ _ _ ?_⟩
  have hle : p.data.index * p.gpt.entrySize + p.gpt.entrySize ≤ p.entries.length := by
    rw [hlen]
    exact hidx.trans hfit
  simp only [length_toLeBytes]
  omega

theorem Planned.newHeader_spec {m : Media} {p : MediaPlan} (h : Planned m p) :
    readLeU32 p.newHeader 12 = some p.headerSize ∧ p.newHeader.length = m.blockSize ∧
      p.newBackupHeader.length = m.blockSize ∧ p.newMbr.length = m.blockSize := by
  obtain ⟨hsize, hlo, hhi, hlen, hbs⟩ := h.headerSize_spec
  have hg := grownFields_patch p.lastLba p.newLastUsableLba (crc32 (p.newEntries.take p.entryBytes))
  have hm := mirroredFields_patch p.lastLba p.backupEntriesLba
  have hl : p.newHeader.length = m.blockSize := (hg.length_seal (hlen ▸ hbs)).trans hlen
  refine ⟨?_, hl, (hm.length_seal (hl ▸ hbs)).trans hl, ?_⟩
  · exact (hg.read_other (hlen ▸ hbs) (by omega) (by simp [grownFields])).trans hsize
  · have hmbr : p.mbr.length = m.blockSize := by rw [h.mbr, Media.length_blocks, Nat.one_mul]
    have := h.blockSize
    rw [MediaPlan.newMbr, length_splice _ _ _ (by simp; omega), hmbr]

theorem eval_lift_bind {α β : Type} {e : Except GrowError α} {a : α} (h : e = .ok a) (f : α → GrowM β) (dev : Device) :
    eval (liftM e >>= f) dev = eval (f a) dev := by
  rw [eval_bind, eval_lift, h]

theorem eval_writeBlocks_bind {β : Type} {dev : Device} {lba : Nat} {bytes : List UInt8} {ws : List (Write UInt8)}
    (reason : String) (f : Unit → GrowM β)
    (h : lba * dev.media.blockSize + bytes.length ≤ (dev.media.lastBlock + 1) * dev.media.blockSize) :
    eval (writeBlocks lba bytes reason >>= f) (dev.pushAll ws) =
      eval (f ()) (dev.pushAll (ws ++ [blockWrite dev.media.blockSize lba bytes])) := by
  rw [eval_bind, eval_writeBlocks reason (by simpa [Device.pushAll] using h), Device.pushAll_push]
  rfl

theorem eval_writeBlocks_last {dev : Device} {lba : Nat} {bytes : List UInt8} {ws : List (Write UInt8)} (reason : String)
    (h : lba * dev.media.blockSize + bytes.length ≤ (dev.media.lastBlock + 1) * dev.media.blockSize) :
    eval (writeBlocks lba bytes reason) (dev.pushAll ws) =
      (.ok (), dev.pushAll (ws ++ [blockWrite dev.media.blockSize lba bytes])) := by
  rw [eval_writeBlocks reason (by simpa [Device.pushAll] using h), Device.pushAll_push]
  rfl

/-- A write of whole blocks that are on the media stays on it. -/
theorem blocks_inside {m : Media} {lba count len : Nat} (h : lba + count ≤ m.lastBlock + 1)
    (hlen : len = count * m.blockSize) : lba * m.blockSize + len ≤ (m.lastBlock + 1) * m.blockSize := by
  rw [hlen, ← Nat.add_mul]
  exact Nat.mul_le_mul_right _ h

/-- The partition table update never fails, and issues its five writes. -/
theorem eval_updateGpt {dev : Device} {p : MediaPlan} (h : Planned dev.media p) :
    eval (updateGpt p) dev = (.ok (), dev.pushAll (gptWrites dev.media.blockSize p)) := by
  obtain ⟨hsize, hlo, hhi, hlen, hbs⟩ := h.headerSize_spec
  obtain ⟨hnsize, hnlen, hblen, hmlen⟩ := h.newHeader_spec
  obtain ⟨helen, hidx, hnelen⟩ := h.entries_fit
  obtain ⟨hpos, hfit, hlt⟩ := h.sectors_bounds
  have hentries : updateGptEntries p.entries p.gpt.entrySize p.data.index p.newDataEnd = .ok p.newEntries :=
    updateGptEntries_eq h.accepted.entrySize_ge (by omega) (by omega)
  have hcov : okOr (slice p.newEntries 0 p.entryBytes) "truncated GPT entries" = .ok (p.newEntries.take p.entryBytes) := by
    rw [slice_eq_some (by omega), List.drop_zero, okOr]
  have hmbr : writeLeU32 p.mbr (0x1be + 12) (min p.lastLba (2 ^ 32 - 1)) = .ok p.newMbr := by
    have := h.blockSize
    have hl : p.mbr.length = dev.media.blockSize := by rw [h.mbr, Media.length_blocks, Nat.one_mul]
    exact writeLeU32_eq_ok.mpr ⟨by omega, rfl⟩
  have hheader : updatePrimaryHeader p.header p.lastLba p.newLastUsableLba (crc32 (p.newEntries.take p.entryBytes)) =
      .ok p.newHeader := updatePrimaryHeader_eq (hlen ▸ hbs) hsize hlo hhi
  have hbackup : updateBackupHeader p.newHeader p.lastLba p.backupEntriesLba = .ok p.newBackupHeader :=
    updateBackupHeader_eq (hnlen ▸ hbs) hnsize hlo (by omega)
  have hlast := h.lastLba
  obtain ⟨hS, hbak⟩ := h.backupEntries
  have hin₀ := blocks_inside (show 0 + 1 ≤ dev.media.lastBlock + 1 by omega) (hmlen.trans (Nat.one_mul _).symm)
  have hin₁ := blocks_inside h.entriesInside (hnelen.trans helen)
  have hin₂ := blocks_inside (show p.backupEntriesLba + p.entryArraySectors ≤ dev.media.lastBlock + 1 by omega)
    (hnelen.trans helen)
  have hin₃ := blocks_inside (show gptHeaderLba + 1 ≤ dev.media.lastBlock + 1 from Nat.succ_le_succ h.headerInside)
    (hnlen.trans (Nat.one_mul _).symm)
  have hin₄ := blocks_inside (show p.lastLba + 1 ≤ dev.media.lastBlock + 1 by omega)
    (hblen.trans (Nat.one_mul _).symm)
  conv_lhs => rw [← Device.pushAll_nil dev]
  rw [updateGpt, eval_lift_bind hentries, eval_lift_bind hcov, eval_lift_bind hmbr, eval_writeBlocks_bind _ _ hin₀,
    eval_writeBlocks_bind _ _ hin₁, eval_writeBlocks_bind _ _ hin₂, eval_lift_bind hheader,
    eval_writeBlocks_bind _ _ hin₃, eval_lift_bind hbackup, eval_writeBlocks_last _ hin₄]
  rfl

theorem planBitmapLength_inside {m : Media} {data : PartitionInfo} {boot out : List UInt8} {newClusterCount lba : Nat}
    (h : planBitmapLength m data boot newClusterCount = .ok (lba, out)) :
    lba * m.blockSize + out.length ≤ (m.lastBlock + 1) * m.blockSize := by
  obtain ⟨geo, cluster, directory, offset, _, hfound⟩ := planBitmapLength_found h
  obtain ⟨_, hin, hdir⟩ := readBlocks_eq_ok.mp hfound.read
  exact blocks_inside hin (by rw [hfound.out_eq.2.2.2, hdir, Media.length_blocks])

theorem length_grownBoot {blockSize : Nat} {boot : List UInt8} (growth : ExfatGrowth) (hbs : 512 ≤ blockSize)
    (hlen : boot.length = 12 * blockSize) : (grownBoot blockSize boot growth).length = 12 * blockSize := by
  have h₁ := length_splice boot 72 (toLeBytes 8 growth.newBlocks) (by simp; omega)
  have h₂ := length_splice (splice boot 72 (toLeBytes 8 growth.newBlocks)) 92 (toLeBytes 4 growth.clusterCount)
    (by simp; omega)
  rw [grownBoot, length_splice _ _ _ (by rw [length_checksumSector]; omega), h₂, h₁, hlen]

theorem planExfatWrites_of_read {m : Media} {data : PartitionInfo} {growth : ExfatGrowth} {boot : List UInt8}
    (h : readBlocks m data.startLba exfatBootRegionSectors = .ok boot) :
    planExfatWrites m data growth =
      (planBitmapLength m data boot growth.clusterCount >>= fun found =>
        pure [blockWrite m.blockSize found.1 found.2,
          blockWrite m.blockSize data.startLba (grownBoot m.blockSize boot growth),
          blockWrite m.blockSize (data.startLba + exfatBootBackupLba) (grownBoot m.blockSize boot growth)]) := by
  rw [planExfatWrites, h]
  rfl

/-- The volume update fails before its first write or issues its three writes. -/
theorem eval_updateExfatBoot {dev : Device} {data : PartitionInfo} {growth : ExfatGrowth}
    (hbs : 512 ≤ dev.media.blockSize) (hlt : 12 * dev.media.blockSize < 2 ^ 64)
    (hin : data.startLba + 24 ≤ dev.media.lastBlock + 1) :
    eval (updateExfatBoot data growth) dev =
      match planExfatWrites dev.media data growth with
      | .ok ws => (.ok (), dev.pushAll ws)
      | .error e => (.error e, dev) := by
  obtain ⟨boot, hboot⟩ : ∃ boot, boot = dev.media.blocks data.startLba exfatBootRegionSectors := ⟨_, rfl⟩
  have hsectors : exfatBootRegionSectors = 12 := rfl
  have hbackup : exfatBootBackupLba = 12 := rfl
  have hread : readBlocks dev.media data.startLba exfatBootRegionSectors = .ok boot :=
    readBlocks_eq_ok.mpr ⟨hlt, by omega, hboot⟩
  have hlen : boot.length = 12 * dev.media.blockSize := by rw [hboot, Media.length_blocks, hsectors]
  rw [planExfatWrites_of_read hread, updateExfatBoot, eval_bind, eval_get]
  simp only
  rw [eval_lift_bind hread, updateAllocationBitmapLength, bind_assoc, eval_bind, eval_get]
  simp only
  rw [bind_assoc]
  cases hplan : planBitmapLength dev.media data boot growth.clusterCount with
  | error e =>
      rw [eval_bind, eval_lift]
      rfl
  | ok found =>
      have hlen₁ := length_splice boot 72 (toLeBytes 8 growth.newBlocks) (by simp; omega)
      have hlen₂ := length_splice (splice boot 72 (toLeBytes 8 growth.newBlocks)) 92
        (toLeBytes 4 growth.clusterCount) (by simp; omega)
      have hlength : writeLeU64 boot 72 growth.newBlocks = .ok (splice boot 72 (toLeBytes 8 growth.newBlocks)) :=
        writeLeU64_eq_ok.mpr ⟨by omega, rfl⟩
      have hcount : writeLeU32 (splice boot 72 (toLeBytes 8 growth.newBlocks)) 92 growth.clusterCount = .ok _ :=
        writeLeU32_eq_ok.mpr ⟨by omega, rfl⟩
      have hsum := updateExfatBootChecksum_eq (hlen₂.trans (hlen₁.trans hlen))
      have hgrown := length_grownBoot growth hbs hlen
      have hin₀ := planBitmapLength_inside hplan
      have hin₁ := blocks_inside (m := dev.media) (show data.startLba + 12 ≤ _ by omega) hgrown
      have hin₂ := blocks_inside (m := dev.media) (show data.startLba + exfatBootBackupLba + 12 ≤ _ by omega) hgrown
      rw [eval_lift_bind rfl, eval_bind, eval_writeBlocks _ hin₀, Device.push_eq]
      simp only
      rw [eval_lift_bind hlength, eval_lift_bind hcount, eval_lift_bind hsum]
      exact (eval_writeBlocks_bind _ _ hin₁).trans (eval_writeBlocks_last _ hin₂)

theorem Planned.room_for_boot {m : Media} {p : MediaPlan} (h : Planned m p) :
    p.data.startLba + 24 ≤ p.backupEntriesLba := by
  obtain ⟨_, _, _, _, _, _, _, hheap, hroom, _⟩ := h.volume.geometry
  have hroom' := h.room
  obtain ⟨_, hus⟩ := h.lastUsable
  omega

theorem eval_growVolume {dev : Device} {p : MediaPlan} (hbs : dev.media.blockSize = 512 ∨ dev.media.blockSize = 4096)
    (hin : p.data.startLba + 24 ≤ dev.media.lastBlock + 1) :
    eval (growVolume p) dev =
      if p.needsExfat then
        match planExfatWrites dev.media p.data p.growth with
        | .ok ws => (.ok (.grown p.growth.oldBlocks p.growth.newBlocks p.growth.clusterCount), dev.pushAll ws)
        | .error e => (.error e, dev)
      else (.ok (.grown p.growth.oldBlocks p.growth.newBlocks p.growth.clusterCount), dev) := by
  rw [growVolume]
  split
  · rw [eval_bind, eval_updateExfatBoot (by omega) (by omega) hin]
    cases planExfatWrites dev.media p.data p.growth <;> rfl
  · rfl

/-- The partition table writes of a plan, none when the table is up to date. -/
def tableWrites (m : Media) (p : MediaPlan) : List (Write UInt8) :=
  if p.needsGpt then gptWrites m.blockSize p else []

/-- The writes of a run that has decided to grow, or the rejection of its bitmap walk. -/
def growthWrites (m : Media) (p : MediaPlan) : Except GrowError (List (Write UInt8)) :=
  if p.needsExfat then do
    let volume ← planExfatWrites (m.apply (tableWrites m p)) p.data p.growth
    return tableWrites m p ++ volume
  else return tableWrites m p

/-- What a run does: nothing is written before the plan is complete; only the walk to the bitmap entry can still
fail, and then the partition table is already written. -/
theorem runGrowth_eq (m : Media) :
    runGrowth m =
      match planMediaGrowth m with
      | .error e => (.error e, ⟨m, []⟩)
      | .ok none => (.ok .notReleaseMedia, ⟨m, []⟩)
      | .ok (some p) =>
          if ¬ p.needsGpt ∧ ¬ p.needsExfat then (.ok .alreadyGrown, ⟨m, []⟩)
          else
            match growthWrites m p with
            | .ok ws => (.ok (.grown p.growth.oldBlocks p.growth.newBlocks p.growth.clusterCount), ⟨m.apply ws, ws⟩)
            | .error e => (.error e, ⟨m.apply (tableWrites m p), tableWrites m p⟩) := by
  rw [runGrowth, tryGrowBootMedia, eval_bind, eval_get]
  simp only
  cases hplan : planMediaGrowth m with
  | error e => rw [eval_bind, eval_lift]
  | ok plan =>
      rw [eval_lift_bind rfl]
      cases plan with
      | none => rfl
      | some p =>
          have h := planMediaGrowth_eq_some.mp hplan
          have hroom := h.room_for_boot
          have hbak := h.backupEntries
          have hlast := h.lastLba
          have htable : eval (if p.needsGpt then updateGpt p >>= fun _ => growVolume p else growVolume p) ⟨m, []⟩ =
              eval (growVolume p) ⟨m.apply (tableWrites m p), tableWrites m p⟩ := by
            unfold tableWrites
            split
            · rw [eval_bind, eval_updateGpt h]
              rfl
            · rfl
          simp only
          split
          · rfl
          · refine htable.trans ?_
            rw [eval_growVolume h.blockSize (by simp only [Media.apply_lastBlock]; omega), growthWrites]
            split
            · cases planExfatWrites (m.apply (tableWrites m p)) p.data p.growth with
              | error e => rfl
              | ok ws =>
                  simp only [bind, Except.bind, pure, Except.pure, Device.pushAll, Media.apply_append]
            · rfl

theorem planExfatWrites_eq_ok {m : Media} {data : PartitionInfo} {growth : ExfatGrowth} {ws : List (Write UInt8)} :
    planExfatWrites m data growth = .ok ws ↔
      ∃ boot lba directory, readBlocks m data.startLba exfatBootRegionSectors = .ok boot ∧
        planBitmapLength m data boot growth.clusterCount = .ok (lba, directory) ∧
        ws = [blockWrite m.blockSize lba directory, blockWrite m.blockSize data.startLba (grownBoot m.blockSize boot growth),
          blockWrite m.blockSize (data.startLba + exfatBootBackupLba) (grownBoot m.blockSize boot growth)] := by
  constructor
  · intro h
    obtain ⟨boot, hread, h⟩ := bind_eq_ok.mp h
    obtain ⟨⟨lba, directory⟩, hplan, h⟩ := bind_eq_ok.mp h
    exact ⟨boot, lba, directory, hread, hplan, (pure_eq_ok.mp h).symm⟩
  · rintro ⟨boot, lba, directory, hread, hplan, rfl⟩
    rw [planExfatWrites_of_read hread]
    exact bind_eq_ok.mpr ⟨(lba, directory), hplan, rfl⟩

theorem planExfatWrites_startLba {m : Media} {data data' : PartitionInfo} (h : data'.startLba = data.startLba)
    (growth : ExfatGrowth) : planExfatWrites m data' growth = planExfatWrites m data growth := by
  simp only [planExfatWrites, planBitmapLength_start h, h]

/-- The volume update stays behind the start of the partition. -/
theorem planExfatWrites_start {m : Media} {data : PartitionInfo} {growth : ExfatGrowth} {ws : List (Write UInt8)}
    (h : planExfatWrites m data growth = .ok ws) : ∀ w ∈ ws, data.startLba * m.blockSize ≤ w.start := by
  obtain ⟨boot, lba, directory, _, hplan, rfl⟩ := planExfatWrites_eq_ok.mp h
  obtain ⟨geo, cluster, _, _, _, hfound⟩ := planBitmapLength_found hplan
  have hlba := (clusterLba_eq_ok.mp hfound.located).2
  simp only [List.forall_mem_cons, List.not_mem_nil, false_implies, implies_true, and_true, blockWrite]
  exact ⟨Nat.mul_le_mul_right _ (by omega), Nat.le_refl _, Nat.mul_le_mul_right _ (by omega)⟩

theorem growthWrites_eq_ok {m : Media} {p : MediaPlan} {ws : List (Write UInt8)} :
    growthWrites m p = .ok ws ↔
      p.needsExfat ∧ (∃ volume, planExfatWrites (m.apply (tableWrites m p)) p.data p.growth = .ok volume ∧
        ws = tableWrites m p ++ volume) ∨ ¬ p.needsExfat ∧ ws = tableWrites m p := by
  unfold growthWrites
  split
  · next hneeds =>
      simp only [hneeds, bind_eq_ok, pure_eq_ok, true_and, not_true_eq_false, false_and, or_false]
      exact exists_congr fun _ => and_congr_right fun _ => eq_comm
  · next hneeds =>
      simp only [hneeds, pure_eq_ok, false_and, not_false_eq_true, true_and, false_or]
      exact eq_comm

/-- The log of a run is the partition table update followed by writes behind the start of the partition. -/
theorem runGrowth_log {m : Media} {p : MediaPlan} (h : planMediaGrowth m = .ok (some p)) :
    ∃ volume, (runGrowth m).2.log = tableWrites m p ++ volume ∧
      ∀ w ∈ volume, p.data.startLba * m.blockSize ≤ w.start := by
  rw [runGrowth_eq, h]
  simp only
  split
  · next hno => exact ⟨[], by simp [tableWrites, hno.1], by simp⟩
  · cases hw : growthWrites m p with
    | error e => exact ⟨[], by simp, by simp⟩
    | ok ws =>
        rcases growthWrites_eq_ok.mp hw with ⟨_, volume, hvol, rfl⟩ | ⟨_, rfl⟩
        · exact ⟨volume, rfl, planExfatWrites_start (m := m.apply (tableWrites m p)) hvol⟩
        · exact ⟨[], by simp, by simp⟩

end NextBoot.MediaGrow
