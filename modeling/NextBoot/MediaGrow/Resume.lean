import NextBoot.MediaGrow.Grown
import NextBoot.MediaGrow.Crash

namespace NextBoot.MediaGrow

open Results Words Bytes BlockStore

theorem boot_frame {m : Media} {ws : List (Write UInt8)} {start lba count : Nat} {directory : List UInt8}
    (hlen : directory.length = count * m.blockSize) (hlo : start + 24 < lba) :
    (m.apply (ws ++ [blockWrite m.blockSize lba directory])).blocks start exfatBootRegionSectors =
      (m.apply ws).blocks start exfatBootRegionSectors := by
  have hsectors : exfatBootRegionSectors = 12 := rfl
  rw [Media.apply_append]
  apply Media.blocks_apply_disjoint
  simp only [List.forall_mem_cons, List.not_mem_nil, false_implies, implies_true, and_true, Media.apply_blockSize]
  exact blockWrite_disjoint hlen (by omega)

/-- After the bitmap entry is written back the walk asks for the same write again. -/
theorem Planned.planBitmapLength_again {m : Media} {p : MediaPlan} (h : Planned m p) (hv : VolumeLayout m p)
    {ws : List (Write UInt8)} {n lba : Nat} {directory : List UInt8} (hn : n < 2 ^ 64)
    (hin : ∀ lba count, p.data.startLba ≤ lba → lba + count ≤ p.backupEntriesLba →
      (m.apply ws).blocks lba count = m.blocks lba count)
    (hplan : planBitmapLength m p.data (m.blocks p.data.startLba exfatBootRegionSectors) n = .ok (lba, directory)) :
    planBitmapLength (m.apply (ws ++ [blockWrite m.blockSize lba directory])) p.data
      (m.blocks p.data.startLba exfatBootRegionSectors) n = .ok (lba, directory) := by
  rw [← h.planBitmapLength_congr hv (Media.apply_blockSize m ws) (Media.apply_lastBlock m ws) hin] at hplan
  obtain ⟨geo, hgeo, hloop⟩ := bind_eq_ok.mp hplan
  have hacc := bitmapGeometry_eq_ok.mp hgeo
  have hroot : ¬ outsideClusters geo.oldClusterCount geo.rootCluster := by
    have := hacc.rootInside
    unfold outsideClusters
    omega
  obtain ⟨cluster, found, offset, hfound⟩ := rootLoop_found hroot hloop
  have hlba := (clusterLba_eq_ok.mp hfound.located).2
  have hdir := (readBlocks_eq_ok.mp hfound.read).2.2
  have hlen : directory.length = geo.perCluster * m.blockSize := by
    rw [hfound.out_eq.2.2.2, hdir, Media.length_blocks]
    rfl
  rw [Media.apply_append]
  refine bind_eq_ok.mpr ⟨geo, hgeo, rootLoop_again hfound hacc hn rfl (fun c hc => ?_) hroot hloop⟩
  refine exfatFatEntry_congr rfl rfl (Media.blocks_apply_disjoint ?_)
  simp only [List.forall_mem_cons, List.not_mem_nil, false_implies, implies_true, and_true]
  obtain ⟨_, hfat, _⟩ := h.geometry_inside hv hacc hc
  have hfat' : geo.fatOffset + c * 4 / (m.apply ws).blockSize < geo.clusterHeapOffset := hfat
  generalize c * 4 / (m.apply ws).blockSize = sector at hfat'
  exact blockWrite_disjoint hlen (by omega)

/-- The volume update can be started again until its first boot region is written. -/
theorem Planned.planExfatWrites_again {m : Media} {p : MediaPlan} (h : Planned m p) (hv : VolumeLayout m p)
    {ws volume : List (Write UInt8)} {j : Nat} (hj : j ≤ 1)
    (hin : ∀ lba count, p.data.startLba ≤ lba → lba + count ≤ p.backupEntriesLba →
      (m.apply ws).blocks lba count = m.blocks lba count)
    (hvol : planExfatWrites m p.data p.growth = .ok volume) :
    planExfatWrites (m.apply (ws ++ volume.take j)) p.data p.growth = .ok volume := by
  have hsectors : exfatBootRegionSectors = 12 := rfl
  have hroom := h.room_for_boot
  by_cases hzero : j = 0
  · subst hzero
    rw [List.take_zero, List.append_nil, ← hvol]
    exact h.planExfatWrites_congr hv (Media.apply_blockSize m ws) (Media.apply_lastBlock m ws) hin p.growth
  · have hone : j = 1 := by omega
    subst hone
    obtain ⟨lba, count, directory, hplan, hlen, hlo, hhi, rfl⟩ := h.volume_regions hv hvol
    have hcount := h.newBlocks_bounds.2.2.2
    have hagain := h.planBitmapLength_again hv (by omega) hin hplan
    refine planExfatWrites_eq_ok.mpr ⟨_, lba, directory, ?_, hagain, rfl⟩
    have hboot := (boot_frame hlen hlo).trans (hin p.data.startLba exfatBootRegionSectors (Nat.le_refl _) (by omega))
    obtain ⟨hlt, hle, _⟩ := readBlocks_eq_ok.mp h.readBoot
    exact readBlocks_eq_ok.mpr ⟨hlt, hle, hboot.symm⟩

/-- The boot sector stays as it is until the first boot region is written. -/
theorem Planned.bootSector_before {m : Media} {p : MediaPlan} (h : Planned m p) (hv : VolumeLayout m p)
    {growth : ExfatGrowth} {volume : List (Write UInt8)} {j : Nat}
    (hvol : planExfatWrites m p.data growth = .ok volume) (hj : j ≤ 1) (ws : List (Write UInt8)) :
    (m.apply (ws ++ volume.take j)).blocks p.data.startLba 1 = (m.apply ws).blocks p.data.startLba 1 := by
  obtain ⟨lba, count, directory, _, hlen, hlo, _, rfl⟩ := h.volume_regions hv hvol
  rw [Media.apply_append]
  apply Media.blocks_apply_disjoint
  intro w hw
  have hfirst : w ∈ [blockWrite m.blockSize lba directory] := List.take_subset_take_left _ hj hw
  rw [List.mem_singleton.mp hfirst]
  exact blockWrite_disjoint hlen (by omega)

/-- Writes into the volume that keep its boot sector leave the plan as it was. -/
theorem Planned.replan_volume {m : Media} {p : MediaPlan} (h : Planned m p) (hl : TableLayout p)
    {volume : List (Write UInt8)} (hvolume : ∀ w ∈ volume, p.data.startLba * m.blockSize ≤ w.start)
    (hboot : (m.apply volume).blocks p.data.startLba 1 = m.blocks p.data.startLba 1) :
    planMediaGrowth (m.apply volume) = .ok (some p) := by
  have hbehind := hl.behindHeader
  have hbefore := hl.beforeData
  have hone : gptHeaderLba = 1 := rfl
  have hframe : ∀ lba count, lba + count ≤ p.data.startLba → (m.apply volume).blocks lba count = m.blocks lba count := by
    intro lba count hle
    apply Media.blocks_apply_disjoint
    intro w hw
    refine .inl ?_
    rw [← Nat.add_mul]
    exact (Nat.mul_le_mul_right _ hle).trans (hvolume w hw)
  exact h.replan ((hframe _ _ (by omega)).trans h.mbr.symm) h.protective ((hframe _ _ (by omega)).trans h.header.symm)
    h.accepted rfl rfl rfl ((hframe _ _ hbefore).trans h.entries.symm) h.covered_eq h.found rfl (hboot ▸ h.volume) rfl
    h.noShrink

theorem Media.apply_take_replay (m : Media) (ws : List (Write UInt8)) (k : Nat) :
    (m.apply (ws.take k)).apply ws = m.apply ws := by
  simp only [Media.apply, applyWrites_take_replay]

/-- The points at which a cut off run can be taken up again: before the entries change, and between the partition
table update and the first boot region. -/
def ResumePoint (p : MediaPlan) (k : Nat) : Prop :=
  if p.needsGpt then k ≤ 1 ∨ k ≤ 3 ∧ p.data.endLba = p.newDataEnd ∨ 5 ≤ k ∧ k ≤ 6 else k ≤ 1

/-- Before the entries change, a later run issues the same writes as the run that was cut off. -/
theorem Planned.resume_table {m : Media} {p : MediaPlan} (h : Planned m p) (hl : TableLayout p) {k : Nat}
    {ws : List (Write UInt8)} (hgpt : p.needsGpt) (hk : k ≤ 1 ∨ k ≤ 3 ∧ p.data.endLba = p.newDataEnd)
    (hws : growthWrites m p = .ok ws) :
    ∃ outcome, runGrowth (m.apply (ws.take k)) = (.ok outcome, ⟨m.apply ws, ws⟩) := by
  have htable : tableWrites m p = gptWrites m.blockSize p := if_pos hgpt
  obtain ⟨volume, hwrites⟩ : ∃ volume, ws = gptWrites m.blockSize p ++ volume := by
    rcases growthWrites_eq_ok.mp hws with ⟨_, volume, _, rfl⟩ | ⟨_, rfl⟩
    · exact ⟨volume, by rw [htable]⟩
    · exact ⟨[], by rw [htable, List.append_nil]⟩
  have htake : ws.take k = (gptWrites m.blockSize p).take k := by
    rw [hwrites, List.take_append_of_le_length]
    exact (show k ≤ 5 by omega)
  have hk' : k ≤ 1 ∨ k ≤ 3 ∧ p.newEntries = p.entries := hk.imp_right fun hsame =>
    ⟨hsame.1, newEntries_eq_self h hsame.2⟩
  obtain ⟨mbr, hplan, hmbr⟩ := h.replan_before hl hk'
  have hsame : gptWrites m.blockSize { p with mbr := mbr } = gptWrites m.blockSize p := by
    simp only [gptWrites, hmbr]
    rfl
  have hws' : growthWrites (m.apply ((gptWrites m.blockSize p).take k)) { p with mbr := mbr } = .ok ws := by
    have htable' : tableWrites (m.apply ((gptWrites m.blockSize p).take k)) { p with mbr := mbr } =
        gptWrites m.blockSize p := (if_pos hgpt).trans hsame
    unfold growthWrites at hws ⊢
    rw [htable', Media.apply_take_replay]
    rw [htable] at hws
    exact hws
  have hrun := runGrowth_of_growthWrites hplan (fun hno => hno.1 hgpt) hws'
  rw [htake, hrun, ← htake, Media.apply_take_replay]
  exact ⟨_, rfl⟩

/-- Behind the partition table update, a later run issues the volume writes again. -/
theorem Planned.resume_volume {m : Media} {p q : MediaPlan} (h : Planned m p) (hv : VolumeLayout m p)
    {ws volume : List (Write UInt8)} {j : Nat} (hj : j ≤ 1)
    (hin : ∀ lba count, p.data.startLba ≤ lba → lba + count ≤ p.backupEntriesLba →
      (m.apply ws).blocks lba count = m.blocks lba count)
    (hvol : planExfatWrites m p.data p.growth = .ok volume) (hplan : planMediaGrowth (m.apply (ws ++ volume.take j)) = .ok (some q))
    (hgpt : ¬ q.needsGpt) (hexfat : q.needsExfat) (hstart : q.data.startLba = p.data.startLba) (hgrowth : q.growth = p.growth) :
    ∃ outcome, runGrowth (m.apply (ws ++ volume.take j)) = (.ok outcome, ⟨m.apply (ws ++ volume), volume⟩) := by
  have hagain := h.planExfatWrites_again hv hj hin hvol
  have htable : tableWrites (m.apply (ws ++ volume.take j)) q = [] := if_neg hgpt
  have hws : growthWrites (m.apply (ws ++ volume.take j)) q = .ok volume := by
    refine growthWrites_eq_ok.mpr (.inl ⟨hexfat, volume, ?_, by rw [htable, List.nil_append]⟩)
    rw [htable, Media.apply_nil, planExfatWrites_startLba hstart, hgrowth]
    exact hagain
  have hrun := runGrowth_of_growthWrites hplan (fun hno => hno.2 hexfat) hws
  rw [hrun, Media.apply_append, Media.apply_take_replay, ← Media.apply_append]
  exact ⟨_, rfl⟩

theorem runGrowth_log_length {m : Media} {p : MediaPlan} {dev : Device} {a b c : Nat}
    (hplan : planMediaGrowth m = .ok (some p)) (hgpt : p.needsGpt) (hexfat : p.needsExfat)
    (hrun : runGrowth m = (.ok (.grown a b c), dev)) : dev.log.length = 8 := by
  obtain ⟨p', ws, hplan', _, hws, rfl, _, _, _⟩ := runGrowth_grown hrun
  cases Option.some.inj (Except.ok.inj (hplan.symm.trans hplan'))
  rcases growthWrites_eq_ok.mp hws with ⟨_, volume, hvol, rfl⟩ | ⟨hno, _⟩
  · obtain ⟨boot, lba, directory, _, _, rfl⟩ := planExfatWrites_eq_ok.mp hvol
    rw [tableWrites, if_pos hgpt]
    rfl
  · exact absurd hexfat hno

/-- A later run from a point at which it can be taken up completes, and leaves the media the uninterrupted run leaves. -/
theorem growth_resumes {m : Media} {p : MediaPlan} {dev : Device} {a b c k : Nat}
    (hplan : planMediaGrowth m = .ok (some p)) (hl : TableLayout p) (hv : VolumeLayout m p)
    (hrun : runGrowth m = (.ok (.grown a b c), dev)) (hk : ResumePoint p k) (hlt : k < dev.log.length) :
    ∃ outcome, (runGrowth (m.apply (dev.log.take k))).1 = .ok outcome ∧
      (runGrowth (m.apply (dev.log.take k))).2.media = dev.media := by
  obtain ⟨p', ws, hplan', _, hws, rfl, _, _, _⟩ := runGrowth_grown hrun
  cases Option.some.inj (Except.ok.inj (hplan.symm.trans hplan'))
  have h := planMediaGrowth_eq_some.mp hplan
  have hbefore := hl.beforeData
  have hroom := h.room_for_boot
  unfold ResumePoint at hk
  by_cases hgpt : p.needsGpt
  · rw [if_pos hgpt] at hk
    have htable : tableWrites m p = gptWrites m.blockSize p := if_pos hgpt
    have hlen : (gptWrites m.blockSize p).length = 5 := rfl
    rcases or_assoc.mpr hk with hearly | hlate
    · obtain ⟨outcome, hagain⟩ := h.resume_table hl hgpt hearly hws
      exact ⟨outcome, by rw [hagain], by rw [hagain]⟩
    · rcases growthWrites_eq_ok.mp hws with ⟨hexfat, volume, hvol, rfl⟩ | ⟨_, rfl⟩
      · rw [h.planExfatWrites_table hl hv] at hvol
        simp only [htable, List.take_append, hlen, List.take_of_length_le (show (gptWrites m.blockSize p).length ≤ k by omega)]
        have hin : ∀ lba count, p.data.startLba ≤ lba → lba + count ≤ p.backupEntriesLba →
            (m.apply (gptWrites m.blockSize p)).blocks lba count = m.blocks lba count := h.volume_after hl 5
        have hboot := (h.bootSector_before hv hvol (show k - 5 ≤ 1 by omega) (gptWrites m.blockSize p)).trans
          (hin p.data.startLba 1 (Nat.le_refl _) (by omega))
        have hagain := h.replan_after hl (fun w hw => planExfatWrites_start hvol w (List.mem_of_mem_take hw))
          (hboot ▸ h.volume) rfl
        obtain ⟨outcome, hdone⟩ := h.resume_volume hv (show k - 5 ≤ 1 by omega) hin hvol hagain (p.settled_needsGpt _)
          hexfat rfl rfl
        exact ⟨outcome, by rw [hdone], by rw [hdone]⟩
      · simp only [htable, hlen] at hlt
        omega
  · rw [if_neg hgpt] at hk
    have htable : tableWrites m p = [] := if_neg hgpt
    rcases growthWrites_eq_ok.mp hws with ⟨hexfat, volume, hvol, rfl⟩ | ⟨_, rfl⟩
    · rw [htable, Media.apply_nil] at hvol
      simp only [htable, List.nil_append]
      have hin : ∀ lba count, p.data.startLba ≤ lba → lba + count ≤ p.backupEntriesLba →
          (m.apply []).blocks lba count = m.blocks lba count := fun _ _ _ _ => rfl
      have hboot : (m.apply (volume.take k)).blocks p.data.startLba 1 = m.blocks p.data.startLba 1 :=
        h.bootSector_before hv hvol hk []
      have hagain := h.replan_volume hl (fun w hw => planExfatWrites_start hvol w (List.mem_of_mem_take hw)) hboot
      obtain ⟨outcome, hdone⟩ := h.resume_volume hv hk hin hvol hagain hgpt hexfat rfl rfl
      rw [List.nil_append, List.nil_append] at hdone
      exact ⟨outcome, by rw [hdone], by rw [hdone]⟩
    · simp only [htable, List.length_nil] at hlt
      omega

theorem enlargedRelease_resumes :
    ∃ dev outcome, runGrowth enlargedRelease.media = (.ok (.grown 41 56 31), dev) ∧ 6 < dev.log.length ∧
      (runGrowth (enlargedRelease.media.apply (dev.log.take 6))).1 = .ok outcome ∧
      (runGrowth (enlargedRelease.media.apply (dev.log.take 6))).2.media = dev.media := by
  obtain ⟨p, hplan, hgpt, hexfat, hl, hv, _, dev, hrun⟩ := enlargedRelease_plan
  have hlen := runGrowth_log_length hplan hgpt hexfat hrun
  have hk : ResumePoint p 6 := by simp [ResumePoint, hgpt]
  obtain ⟨outcome, hok, hsame⟩ := growth_resumes hplan hl hv hrun hk (by omega)
  exact ⟨dev, outcome, hrun, by omega, hok, hsame⟩

/-- While the header still has the checksum of other entries, a run rejects the media. -/
theorem planMediaGrowth_mismatch {m : Media} {p : MediaPlan} (h : Planned m p) (hl : TableLayout p) {k : Nat}
    (hlo : 2 ≤ k) (hhi : k ≤ 3)
    (hne : crc32 (p.newEntries.take p.entryBytes) ≠ crc32 (p.entries.take p.entryBytes)) :
    planMediaGrowth (m.apply ((gptWrites m.blockSize p).take k)) = .error (.invalid "GPT entry CRC mismatch") := by
  obtain ⟨hpos, hfit, hlt⟩ := h.sectors_bounds
  obtain ⟨helen, _, hnelen⟩ := h.entries_fit
  have hcount : okOr (checkedAdd 64 m.lastBlock 1) "invalid media block count" = .ok (m.lastBlock + 1) :=
    okOr_eq_ok.mpr (checkedAdd_eq_some.mpr ⟨h.blockCount, rfl⟩)
  have hlast : okOr (checkedSub (m.lastBlock + 1) 1) "empty media" = .ok m.lastBlock :=
    okOr_eq_ok.mpr (checkedSub_eq_some.mpr ⟨by omega, rfl⟩)
  have hbs := h.blockSize
  have hmbr : readBlocks (m.apply ((gptWrites m.blockSize p).take k)) 0 1 = .ok p.newMbr :=
    readBlocks_eq_ok.mpr ⟨by simp only [Media.apply_blockSize]; omega, by omega, by rw [h.mbr_after hl, if_neg (by omega)]⟩
  have hheader : readBlocks (m.apply ((gptWrites m.blockSize p).take k)) gptHeaderLba 1 = .ok p.header :=
    readBlocks_eq_ok.mpr ⟨by simp only [Media.apply_blockSize]; omega, Nat.succ_le_succ h.headerInside,
      by rw [h.header_after hl, if_pos hhi]⟩
  have hentries : readBlocks (m.apply ((gptWrites m.blockSize p).take k)) p.gpt.entryLba p.entryArraySectors =
      .ok p.newEntries :=
    readBlocks_eq_ok.mpr ⟨hlt, h.entriesInside, by rw [h.entries_after hl, if_neg (by omega)]⟩
  have hsize : okOr (checkedMul 64 p.gpt.entryCount p.gpt.entrySize) "GPT entry array is too large" = .ok p.entryBytes :=
    okOr_eq_ok.mpr (checkedMul_eq_some.mpr ⟨lt_of_le_of_lt h.accepted.entryBytes_le (by decide), rfl⟩)
  have hcov : okOr (slice p.newEntries 0 (p.gpt.entryCount * p.gpt.entrySize)) "truncated GPT entries" =
      .ok (p.newEntries.take p.entryBytes) := by
    have hs : slice p.newEntries 0 p.entryBytes = some (p.newEntries.take p.entryBytes) := by
      rw [slice_eq_some (by omega), List.drop_zero]
    exact okOr_eq_ok.mpr hs
  have hcrc : okOr (readLeU32 p.header 88) "missing GPT entry CRC" = .ok (crc32 (p.entries.take p.entryBytes)) :=
    okOr_eq_ok.mpr h.covered_eq
  unfold planMediaGrowth
  rw [if_neg (by simp [Media.apply, h.present, h.wholeDisk, h.writable]),
    if_neg (by simp only [Media.apply_blockSize]; omega)]
  simp only [Media.apply_lastBlock, Media.apply_blockSize, hcount, hlast, hmbr, hheader,
    parseGptHeader_eq_ok.mpr h.accepted, hsize, ← h.sectors, hentries, hcrc, hcov, bind, Except.bind,
    h.newMbr_protective, not_true_eq_false, if_false, if_neg (show ¬ p.entryArraySectors = 0 by omega), rejectIf,
    if_pos hne]
theorem enlargedRelease_stuck :
    ∃ dev, runGrowth enlargedRelease.media = (.ok (.grown 41 56 31), dev) ∧ 2 < dev.log.length ∧
      (runGrowth (enlargedRelease.media.apply (dev.log.take 2))).1 = .error (.invalid "GPT entry CRC mismatch") := by
  obtain ⟨p, hplan, hgpt, hexfat, hl, _, hne, dev, hrun⟩ := enlargedRelease_plan
  have hlen := runGrowth_log_length hplan hgpt hexfat hrun
  obtain ⟨volume, hlog, _⟩ := runGrowth_log hplan
  have htake : dev.log.take 2 = (gptWrites enlargedRelease.media.blockSize p).take 2 := by
    rw [hrun] at hlog
    rw [hlog, tableWrites, if_pos hgpt]
    rfl
  have hstuck := planMediaGrowth_mismatch (planMediaGrowth_eq_some.mp hplan) hl (Nat.le_refl 2) (by omega) hne
  refine ⟨dev, hrun, by omega, ?_⟩
  rw [htake, runGrowth_eq, hstuck]

end NextBoot.MediaGrow
