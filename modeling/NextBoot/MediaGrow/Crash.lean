import NextBoot.MediaGrow.Table

namespace NextBoot.MediaGrow

open Results Words Bytes BlockStore

/-- The backup the primary header names: a valid copy that mirrors the primary table, with its own array at
`entriesLba`, both behind the primary array. -/
structure BackupMirrors (m : Media) (p : MediaPlan) (entriesLba : Nat) : Prop where
  describes : HeaderDescribes (m.blocks p.gpt.oldBackupLba 1) m.blockSize p.gpt.oldBackupLba entriesLba p.gpt.entryCount
    p.gpt.entrySize ((m.blocks entriesLba p.entryArraySectors).take p.entryBytes)
  alternate : readLeU64 (m.blocks p.gpt.oldBackupLba 1) 32 = some gptHeaderLba
  mirrored : (m.blocks entriesLba p.entryArraySectors).take p.entryBytes = p.entries.take p.entryBytes
  headerBehind : p.gpt.entryLba + p.entryArraySectors ≤ p.gpt.oldBackupLba
  arrayBehind : p.gpt.entryLba + p.entryArraySectors ≤ entriesLba

theorem backupMirrors_iff {m : Media} {p : MediaPlan} {entriesLba : Nat} :
    BackupMirrors m p entriesLba ↔
      HeaderDescribes (m.blocks p.gpt.oldBackupLba 1) m.blockSize p.gpt.oldBackupLba entriesLba p.gpt.entryCount
        p.gpt.entrySize ((m.blocks entriesLba p.entryArraySectors).take p.entryBytes) ∧
      readLeU64 (m.blocks p.gpt.oldBackupLba 1) 32 = some gptHeaderLba ∧
      (m.blocks entriesLba p.entryArraySectors).take p.entryBytes = p.entries.take p.entryBytes ∧
      p.gpt.entryLba + p.entryArraySectors ≤ p.gpt.oldBackupLba ∧ p.gpt.entryLba + p.entryArraySectors ≤ entriesLba :=
  ⟨fun ⟨h₁, h₂, h₃, h₄, h₅⟩ => ⟨h₁, h₂, h₃, h₄, h₅⟩, fun ⟨h₁, h₂, h₃, h₄, h₅⟩ => ⟨h₁, h₂, h₃, h₄, h₅⟩⟩

instance (m : Media) (p : MediaPlan) (entriesLba : Nat) : Decidable (BackupMirrors m p entriesLba) :=
  decidable_of_iff _ backupMirrors_iff.symm

/-- The array of the new backup does not reach into the old backup. -/
structure BackupApart (p : MediaPlan) (entriesLba : Nat) : Prop where
  header : p.gpt.oldBackupLba < p.backupEntriesLba ∨ p.lastLba ≤ p.gpt.oldBackupLba
  array : entriesLba + p.entryArraySectors ≤ p.backupEntriesLba ∨ p.lastLba ≤ entriesLba

theorem newEntries_eq_self {m : Media} {p : MediaPlan} (h : Planned m p) (hend : p.data.endLba = p.newDataEnd) :
    p.newEntries = p.entries := by
  obtain ⟨_, entry, hentry, _, hread⟩ := findReleaseDataPartition_entry h.found
  obtain ⟨_, hs⟩ := gptEntry_eq_ok.mp hentry
  obtain ⟨field, hfield, hvalue⟩ := Option.map_eq_some_iff.mp hread
  have hlen : field.length = 8 := slice_length hfield
  have hbytes : toLeBytes 8 p.newDataEnd = field := by
    rw [← hend, ← hvalue, ← hlen, toLeBytes_fromLeBytes]
  rw [MediaPlan.newEntries, replaceEnd, hbytes]
  exact splice_slice (slice_slice hs hfield)


/-- Writes behind the start of the data partition leave the primary copy alone. -/
theorem primary_copy_frame {m : Media} {p : MediaPlan} (h : Planned m p) (hl : TableLayout p)
    {header array : List UInt8} {ws volume : List (Write UInt8)}
    (hvol : ∀ w ∈ volume, p.data.startLba * m.blockSize ≤ w.start)
    (hheader : (m.apply ws).blocks gptHeaderLba 1 = header)
    (harray : (m.apply ws).blocks p.gpt.entryLba p.entryArraySectors = array)
    (hd : HeaderDescribes header m.blockSize gptHeaderLba p.gpt.entryLba p.gpt.entryCount p.gpt.entrySize
      (array.take p.entryBytes)) : TableCopyAt (m.apply (ws ++ volume)) gptHeaderLba := by
  have hbehind := hl.behindHeader
  have hbefore := hl.beforeData
  have hone : gptHeaderLba = 1 := rfl
  have hframe : ∀ lba count, lba + count ≤ p.data.startLba →
      (m.apply (ws ++ volume)).blocks lba count = (m.apply ws).blocks lba count := by
    intro lba count hle
    rw [Media.apply_append]
    apply Media.blocks_apply_disjoint
    intro w hw
    refine .inl ?_
    rw [← Nat.add_mul]
    exact (Nat.mul_le_mul_right _ hle).trans (hvol w hw)
  exact tableCopyAt_of_blocks ((hframe _ _ (by omega)).trans hheader) ((hframe _ _ hbefore).trans harray)
    h.sectors_bounds.2.1 hd

theorem survives_entry_writes {m : Media} {p : MediaPlan} {entriesLba k : Nat} (h : Planned m p)
    (hb : BackupMirrors m p entriesLba) (ha : BackupApart p entriesLba) (hl : TableLayout p) (hk : k ≤ 3) :
    TableCopyAt (m.apply ((gptWrites m.blockSize p).take k)) p.gpt.oldBackupLba := by
  have hbehind := hl.behindHeader
  obtain ⟨_, hbak, hpos⟩ := h.order
  have hframe : ∀ lba count, p.gpt.entryLba + p.entryArraySectors ≤ lba →
      lba + count ≤ p.backupEntriesLba ∨ p.lastLba ≤ lba →
      (m.apply ((gptWrites m.blockSize p).take k)).blocks lba count = m.blocks lba count := by
    intro lba count hlo hd
    obtain ⟨hmbr, harray, _, _⟩ := h.disjoint_writes lba count
    apply Media.blocks_apply_disjoint
    intro w hw
    have hthree : (gptWrites m.blockSize p).take 3 = [_, _, _] := rfl
    have hw' : w ∈ (gptWrites m.blockSize p).take 3 := (List.take_subset_take_left _ hk) hw
    rw [hthree] at hw'
    rcases hw' with _ | ⟨_, _ | ⟨_, _ | ⟨_, hw'⟩⟩⟩
    · exact hmbr (by omega)
    · exact harray _ (by omega)
    · exact harray _ (by omega)
    · cases hw'
  have hheader := ha.header
  have harray := ha.array
  exact tableCopyAt_of_blocks (hframe _ _ hb.headerBehind (by omega)) (hframe _ _ hb.arrayBehind (by omega))
    h.sectors_bounds.2.1 hb.describes

/-- Whenever a growing run is cut off, a complete valid partition table is on the media: at its place in front, or at
the place of the old or the new backup. The entry array must be one the run does not change, or the new backup array
must stay clear of the old backup. -/
theorem table_copy_survives {m : Media} {p : MediaPlan} {entriesLba : Nat} (hplan : planMediaGrowth m = .ok (some p))
    (hl : TableLayout p) (hb : BackupMirrors m p entriesLba)
    (hd : p.data.endLba = p.newDataEnd ∨ BackupApart p entriesLba) (k : Nat) :
    let cut := m.apply ((runGrowth m).2.log.take k)
    TableCopyAt cut gptHeaderLba ∨ TableCopyAt cut p.gpt.oldBackupLba ∨ TableCopyAt cut p.lastLba := by
  have h := planMediaGrowth_eq_some.mp hplan
  obtain ⟨volume, hlog, hvol⟩ := runGrowth_log hplan
  simp only [hlog]
  by_cases hgpt : p.needsGpt
  · have htable : tableWrites m p = gptWrites m.blockSize p := if_pos hgpt
    have hlen : (gptWrites m.blockSize p).length = 5 := rfl
    have hvol' : ∀ w ∈ volume.take (k - 5), p.data.startLba * m.blockSize ≤ w.start :=
      fun w hw => hvol w (List.mem_of_mem_take hw)
    rw [htable, List.take_append, hlen]
    by_cases hmid : 2 ≤ k ∧ k ≤ 3
    · rw [Nat.sub_eq_zero_of_le (by omega), List.take_zero, List.append_nil]
      rcases hd with hsame | hapart
      · left
        rw [← List.append_nil (List.take k _)]
        refine primary_copy_frame h hl (by simp) (h.header_after hl k) (h.entries_after hl k) ?_
        rw [if_pos hmid.2, if_neg (by omega), newEntries_eq_self h hsame]
        exact h.header_describes
      · exact .inr (.inl (survives_entry_writes h hb hapart hl hmid.2))
    · left
      refine primary_copy_frame h hl hvol' (h.header_after hl k) (h.entries_after hl k) ?_
      by_cases hk : k ≤ 1
      · rw [if_pos (by omega), if_pos hk]
        exact h.header_describes
      · rw [if_neg (by omega), if_neg hk]
        exact h.newHeader_describes
  · have htable : tableWrites m p = [] := if_neg hgpt
    left
    rw [htable, List.nil_append, ← List.nil_append (volume.take k)]
    exact primary_copy_frame h hl (fun w hw => hvol w (List.mem_of_mem_take hw)) h.header.symm h.entries.symm
      h.header_describes

theorem enlargedRelease_survives :
    ∃ p, planMediaGrowth enlargedRelease.media = .ok (some p) ∧ p.data.endLba ≠ p.newDataEnd ∧ ∀ k,
      let cut := enlargedRelease.media.apply ((runGrowth enlargedRelease.media).2.log.take k)
      TableCopyAt cut gptHeaderLba ∨ TableCopyAt cut p.gpt.oldBackupLba ∨ TableCopyAt cut p.lastLba := by
  obtain ⟨p, hplan, hb, hlo, hhi, hheader, harray, hend⟩ : ∃ p, planMediaGrowth enlargedRelease.media = .ok (some p) ∧
      BackupMirrors enlargedRelease.media p 44 ∧ 2 ≤ p.gpt.entryLba ∧
      p.gpt.entryLba + p.entryArraySectors ≤ p.data.startLba ∧ p.gpt.oldBackupLba < p.backupEntriesLba ∧
      44 + p.entryArraySectors ≤ p.backupEntriesLba ∧ p.data.endLba ≠ p.newDataEnd := exists_plan (by decide +kernel)
  exact ⟨p, hplan, hend, fun k => table_copy_survives hplan ⟨hlo, hhi⟩ hb (.inr ⟨.inl hheader, .inl harray⟩) k⟩

/-- When the backup stays where it is and the entries change, both copies are broken after three writes. -/
theorem no_copy_after_entries {m : Media} {p : MediaPlan} (h : Planned m p) (hl : TableLayout p)
    (hb : BackupMirrors m p p.backupEntriesLba) (hlast : p.gpt.oldBackupLba = p.lastLba)
    (hne : crc32 (p.newEntries.take p.entryBytes) ≠ crc32 (p.entries.take p.entryBytes)) :
    ¬ TableCopyAt (m.apply ((gptWrites m.blockSize p).take 3)) gptHeaderLba ∧
      ¬ TableCopyAt (m.apply ((gptWrites m.blockSize p).take 3)) p.lastLba := by
  have hd := hb.describes
  rw [hlast, hb.mirrored] at hd
  exact ⟨not_tableCopyAt (h.header_after hl 3) (h.entries_after hl 3) h.sectors_bounds.2.1 h.header_describes hne,
    not_tableCopyAt (h.lastBlock_after hl 3) (h.backupEntries_after hl 3) h.sectors_bounds.2.1 hd hne⟩

theorem spareRelease_loses_table :
    ∃ p, planMediaGrowth spareRelease.media = .ok (some p) ∧ (p.needsGpt ∨ p.needsExfat) ∧
      TableCopyAt spareRelease.media gptHeaderLba ∧ BackupMirrors spareRelease.media p 59 ∧
      let cut := spareRelease.media.apply ((runGrowth spareRelease.media).2.log.take 3)
      ¬ (TableCopyAt cut gptHeaderLba ∨ TableCopyAt cut p.gpt.oldBackupLba ∨ TableCopyAt cut p.lastLba) := by
  obtain ⟨p, hplan, hgpt, hcopy, hb, hlo, hhi, hback, hlast, hne⟩ :
      ∃ p, planMediaGrowth spareRelease.media = .ok (some p) ∧ p.needsGpt ∧
      TableCopyAt spareRelease.media gptHeaderLba ∧ BackupMirrors spareRelease.media p 59 ∧ 2 ≤ p.gpt.entryLba ∧
      p.gpt.entryLba + p.entryArraySectors ≤ p.data.startLba ∧ p.backupEntriesLba = 59 ∧ p.gpt.oldBackupLba = p.lastLba ∧
      crc32 (p.newEntries.take p.entryBytes) ≠ crc32 (p.entries.take p.entryBytes) := exists_plan (by decide +kernel)
  have h := planMediaGrowth_eq_some.mp hplan
  obtain ⟨volume, hlog, _⟩ := runGrowth_log hplan
  have hcut : (runGrowth spareRelease.media).2.log.take 3 = (gptWrites spareRelease.media.blockSize p).take 3 := by
    rw [hlog, tableWrites, if_pos hgpt]
    rfl
  have hlost := no_copy_after_entries h ⟨hlo, hhi⟩ (hback.symm ▸ hb) hlast hne
  refine ⟨p, hplan, .inl hgpt, hcopy, hb, ?_⟩
  rw [hcut, hlast]
  exact fun hany => hany.elim hlost.1 fun hback => hback.elim hlost.2 hlost.2

end NextBoot.MediaGrow
