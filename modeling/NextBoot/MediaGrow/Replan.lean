import NextBoot.MediaGrow.Volume

namespace NextBoot.MediaGrow

open Results Words Bytes BlockStore

/-- A run that starts from rewritten media plans for what it reads there. -/
theorem Planned.replan {m : Media} {p : MediaPlan} (h : Planned m p) {ws : List (Write UInt8)}
    {mbr header entries : List UInt8} {gpt : GptInfo} {data : PartitionInfo} {growth : ExfatGrowth}
    (hmbr : (m.apply ws).blocks 0 1 = mbr) (hprot : protectiveMbr mbr)
    (hheader : (m.apply ws).blocks gptHeaderLba 1 = header) (hacc : HeaderAccepted header m.blockSize gpt)
    (hlba : gpt.entryLba = p.gpt.entryLba) (hcount : gpt.entryCount = p.gpt.entryCount)
    (hsize : gpt.entrySize = p.gpt.entrySize)
    (hentries : (m.apply ws).blocks p.gpt.entryLba p.entryArraySectors = entries)
    (hcrc : readLeU32 header 88 = some (crc32 (entries.take p.entryBytes)))
    (hfound : findReleaseDataPartition entries p.gpt.entryCount p.gpt.entrySize = .ok data)
    (hstart : data.startLba = p.data.startLba)
    (hvol : VolumeAccepted ((m.apply ws).blocks p.data.startLba 1) m.blockSize p.data.startLba
      (p.newLastUsableLba - p.data.startLba + 1) growth)
    (hnew : growth.newBlocks = p.growth.newBlocks) (hend : data.endLba ≤ p.newDataEnd) :
    planMediaGrowth (m.apply ws) =
      .ok (some { p with mbr := mbr, header := header, gpt := gpt, entries := entries, data := data, growth := growth }) := by
  have hbytes : gpt.entryCount * gpt.entrySize = p.entryBytes := by rw [hcount, hsize, MediaPlan.entryBytes]
  have hlen : entries.length = p.entryArraySectors * m.blockSize := by rw [← hentries, Media.length_blocks]; rfl
  have hfit := h.sectors_bounds.2.1
  have hcov : slice entries 0 p.entryBytes = some (entries.take p.entryBytes) := by
    rw [slice_eq_some (by omega), List.drop_zero]
  refine planMediaGrowth_eq_some.mpr ⟨h.present, h.wholeDisk, h.writable, h.blockSize, h.blockCount, h.lastLba,
    hmbr.symm, hprot, h.headerInside, hheader.symm, hacc, ?_, ?_, ?_, ⟨entries.take p.entryBytes, ?_, hcrc⟩, ?_,
    h.backupEntries, h.lastUsable, ?_, ?_, ?_, hend⟩
  · simp only [MediaPlan.entryBytes, hbytes]
    exact h.sectors
  · simp only [hlba]
    exact h.entriesInside
  · simp only [hlba]
    exact hentries.symm
  · simp only [MediaPlan.entryBytes, hbytes]
    exact hcov
  · simp only [hcount, hsize]
    exact hfound
  · simp only [hstart]
    exact h.room
  · simp only [hstart]
    exact hvol
  · simp only [hstart, hnew]
    exact h.dataEnd

theorem Planned.newMbr_protective {m : Media} {p : MediaPlan} (h : Planned m p) : protectiveMbr p.newMbr := by
  have hlen : p.mbr.length = m.blockSize := by rw [h.mbr, Media.length_blocks, Nat.one_mul]
  have hbs := h.blockSize
  obtain ⟨hsig, htype⟩ := h.protective
  have hfit : 0x1be + 12 + (toLeBytes 4 (min p.lastLba (2 ^ 32 - 1))).length ≤ p.mbr.length := by
    rw [length_toLeBytes]
    omega
  constructor
  · rw [MediaPlan.newMbr, slice_splice_disjoint hfit (by simp)]
    exact hsig
  · rw [MediaPlan.newMbr, getElem?_splice _ _ _ hfit, if_neg (by omega)]
    exact htype

/-- The protective MBR after some of the partition table writes. -/
theorem Planned.mbr_after {m : Media} {p : MediaPlan} (h : Planned m p) (hl : TableLayout p) (k : Nat) :
    (m.apply ((gptWrites m.blockSize p).take k)).blocks 0 1 = if k ≤ 0 then p.mbr else p.newMbr := by
  obtain ⟨hroom, hbak, hpos⟩ := h.order
  have hbehind := hl.behindHeader
  have hbefore := hl.beforeData
  obtain ⟨_, harray, hheader, hlast⟩ := h.disjoint_writes 0 1
  rw [h.mbr]
  refine Media.blocks_apply_take [] [_, _, _, _] ?_ (by simp) ?_ k
  · rw [h.newHeader_spec.2.2.2, Nat.one_mul]
  · simp only [List.forall_mem_cons, List.not_mem_nil, false_implies, implies_true, and_true]
    exact ⟨harray _ (by omega), harray _ (by omega), hheader (by omega), hlast (by omega)⟩

/-- Up to the first change of the entries a later run makes the same plan, whatever the MBR says. -/
theorem Planned.replan_before {m : Media} {p : MediaPlan} (h : Planned m p) (hl : TableLayout p) {k : Nat}
    (hk : k ≤ 1 ∨ k ≤ 3 ∧ p.newEntries = p.entries) :
    ∃ mbr, planMediaGrowth (m.apply ((gptWrites m.blockSize p).take k)) = .ok (some { p with mbr := mbr }) ∧
      ({ p with mbr := mbr } : MediaPlan).newMbr = p.newMbr := by
  have hlen : p.mbr.length = m.blockSize := by rw [h.mbr, Media.length_blocks, Nat.one_mul]
  have hbs := h.blockSize
  have hheader : (m.apply ((gptWrites m.blockSize p).take k)).blocks gptHeaderLba 1 = p.header := by
    rw [h.header_after hl, if_pos (by omega)]
  have hentries : (m.apply ((gptWrites m.blockSize p).take k)).blocks p.gpt.entryLba p.entryArraySectors = p.entries := by
    rw [h.entries_after hl]
    split
    · rfl
    · exact (hk.resolve_left (by omega)).2
  have hboot : (m.apply ((gptWrites m.blockSize p).take k)).blocks p.data.startLba 1 = m.blocks p.data.startLba 1 :=
    h.volume_after hl k _ _ (Nat.le_refl _) (by have := h.room_for_boot; omega)
  have hplan : ∀ mbr, (m.apply ((gptWrites m.blockSize p).take k)).blocks 0 1 = mbr → protectiveMbr mbr →
      planMediaGrowth (m.apply ((gptWrites m.blockSize p).take k)) = .ok (some { p with mbr := mbr }) :=
    fun mbr hmbr hprot => h.replan hmbr hprot hheader h.accepted rfl rfl rfl hentries h.covered_eq h.found rfl
      (hboot ▸ h.volume) rfl h.noShrink
  by_cases hzero : k ≤ 0
  · exact ⟨p.mbr, hplan _ (by rw [h.mbr_after hl, if_pos hzero]) h.protective, rfl⟩
  · refine ⟨p.newMbr, hplan _ (by rw [h.mbr_after hl, if_neg hzero]) h.newMbr_protective, ?_⟩
    exact splice_splice_same (by rw [length_toLeBytes]; omega) (by simp)

/-- The plan that a later run makes once the partition table is written. -/
def MediaPlan.settled (p : MediaPlan) (growth : ExfatGrowth) : MediaPlan :=
  { p with
    mbr := p.newMbr
    header := p.newHeader
    gpt := { p.gpt with oldBackupLba := p.lastLba, lastUsableLba := p.newLastUsableLba }
    entries := p.newEntries
    data := { p.data with endLba := p.newDataEnd }
    growth := growth }

theorem MediaPlan.settled_needsGpt (p : MediaPlan) (growth : ExfatGrowth) : ¬ (p.settled growth).needsGpt := by
  simp [MediaPlan.needsGpt, MediaPlan.settled]

/-- Once the partition table is written, a later run finds it up to date. -/
theorem Planned.replan_after {m : Media} {p : MediaPlan} (h : Planned m p) (hl : TableLayout p)
    {volume : List (Write UInt8)} {growth : ExfatGrowth}
    (hvolume : ∀ w ∈ volume, p.data.startLba * m.blockSize ≤ w.start)
    (hboot : VolumeAccepted ((m.apply (gptWrites m.blockSize p ++ volume)).blocks p.data.startLba 1) m.blockSize
      p.data.startLba (p.newLastUsableLba - p.data.startLba + 1) growth)
    (hnew : growth.newBlocks = p.growth.newBlocks) :
    planMediaGrowth (m.apply (gptWrites m.blockSize p ++ volume)) = .ok (some (p.settled growth)) := by
  have hbehind := hl.behindHeader
  have hbefore := hl.beforeData
  have hone : gptHeaderLba = 1 := rfl
  have hframe : ∀ lba count, lba + count ≤ p.data.startLba →
      (m.apply (gptWrites m.blockSize p ++ volume)).blocks lba count =
        (m.apply ((gptWrites m.blockSize p).take 5)).blocks lba count := by
    intro lba count hle
    rw [Media.apply_append]
    apply Media.blocks_apply_disjoint
    intro w hw
    refine .inl ?_
    rw [← Nat.add_mul]
    exact (Nat.mul_le_mul_right _ hle).trans (hvolume w hw)
  have hend : p.newDataEnd < 2 ^ 64 := by
    obtain ⟨hlt, _, heq⟩ := h.dataEnd
    omega
  obtain ⟨helen, _, _⟩ := h.entries_fit
  refine h.replan ((hframe _ _ (by omega)).trans (h.mbr_after hl 5)) h.newMbr_protective
    ((hframe _ _ (by omega)).trans (h.header_after hl 5)) h.newHeader_accepted rfl rfl rfl
    ((hframe _ _ hbefore).trans (h.entries_after hl 5)) h.newHeader_entryCrc ?_ rfl hboot hnew (Nat.le_refl _)
  exact findReleaseDataPartition_replaceEnd h.accepted.entrySize_ge (helen ▸ h.sectors_bounds.2.1) hend h.found

end NextBoot.MediaGrow
