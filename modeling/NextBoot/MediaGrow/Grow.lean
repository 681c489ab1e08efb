import NextBoot.MediaGrow.Bitmap

namespace NextBoot.MediaGrow

open Results Words Bytes BlockStore

inductive GrowOutcome
  | notReleaseMedia
  | alreadyGrown
  | grown (oldBlocks newBlocks clusterCount : Nat)
deriving DecidableEq, Repr

/-- What the read-only half of a run has found out about release media. -/
structure MediaPlan where
  lastLba : Nat
  mbr : List UInt8
  header : List UInt8
  gpt : GptInfo
  entryArraySectors : Nat
  entries : List UInt8
  data : PartitionInfo
  backupEntriesLba : Nat
  newLastUsableLba : Nat
  growth : ExfatGrowth
  newDataEnd : Nat

def MediaPlan.entryBytes (p : MediaPlan) : Nat := p.gpt.entryCount * p.gpt.entrySize

def MediaPlan.needsGpt (p : MediaPlan) : Prop :=
  p.gpt.oldBackupLba ≠ p.lastLba ∨ p.gpt.lastUsableLba ≠ p.newLastUsableLba ∨ p.data.endLba ≠ p.newDataEnd

def MediaPlan.needsExfat (p : MediaPlan) : Prop := p.growth.oldBlocks ≠ p.growth.newBlocks

instance (p : MediaPlan) : Decidable p.needsGpt := inferInstanceAs (Decidable (_ ∨ _))

instance (p : MediaPlan) : Decidable p.needsExfat := inferInstanceAs (Decidable (_ ≠ _))

def protectiveMbr (mbr : List UInt8) : Prop := slice mbr 510 2 = some [0x55, 0xaa] ∧ mbr[0x1be + 4]? = some 0xee

instance (mbr : List UInt8) : Decidable (protectiveMbr mbr) := inferInstanceAs (Decidable (_ ∧ _))

/-- The part of the plan behind the data partition entry; `none` is media that is not a release. -/
def planDataGrowth (m : Media) (lastLba : Nat) (mbr header : List UInt8) (gpt : GptInfo)
    (entryArraySectors : Nat) (entries : List UInt8) (data : PartitionInfo) :
    Except GrowError (Option MediaPlan) := do
  let backupEntriesLba ← okOr (checkedSub lastLba entryArraySectors) "media is too small for backup GPT"
  let newLastUsableLba ← okOr (checkedSub backupEntriesLba 1) "media is too small for usable GPT range"
  if newLastUsableLba ≤ data.startLba then return none
  else
    let availableBlocks := newLastUsableLba - data.startLba + 1
    let growth ← planExfatGrowth m data availableBlocks
    let newDataEnd ← okOr ((checkedAdd 64 data.startLba growth.newBlocks).bind (checkedSub · 1))
      "expanded partition overflows"
    rejectIf (newDataEnd < data.endLba) "existing NEXTDATA is larger than growable exFAT capacity"
    return some ⟨lastLba, mbr, header, gpt, entryArraySectors, entries, data, backupEntriesLba, newLastUsableLba,
      growth, newDataEnd⟩

/-- Everything a run reads and checks before its first write. -/
def planMediaGrowth (m : Media) : Except GrowError (Option MediaPlan) := do
  if m.mediaPresent = false ∨ m.logicalPartition ∨ m.readOnly then return none
  else if m.blockSize ≠ 512 ∧ m.blockSize ≠ 4096 then return none
  else
    let totalBlocks ← okOr (checkedAdd 64 m.lastBlock 1) "invalid media block count"
    let lastLba ← okOr (checkedSub totalBlocks 1) "empty media"
    let mbr ← readBlocks m 0 1
    if ¬ protectiveMbr mbr then return none
    else
      let header ← readBlocks m gptHeaderLba 1
      let gpt ← parseGptHeader header m.blockSize
      let arrayBytes ← okOr (checkedMul 64 gpt.entryCount gpt.entrySize) "GPT entry array is too large"
      let entryArraySectors := divRoundUp arrayBytes m.blockSize
      if entryArraySectors = 0 then return none
      else
        let entries ← readBlocks m gpt.entryLba entryArraySectors
        let entryCrc ← okOr (readLeU32 header 88) "missing GPT entry CRC"
        let covered ← okOr (slice entries 0 (gpt.entryCount * gpt.entrySize)) "truncated GPT entries"
        rejectIf (crc32 covered ≠ entryCrc) "GPT entry CRC mismatch"
        let data ← findReleaseDataPartition entries gpt.entryCount gpt.entrySize
        planDataGrowth m lastLba mbr header gpt entryArraySectors entries data

/-- What a plan says about the media it was made for. -/
structure Planned (m : Media) (p : MediaPlan) : Prop where
  present : m.mediaPresent = true
  wholeDisk : m.logicalPartition = false
  writable : m.readOnly = false
  blockSize : m.blockSize = 512 ∨ m.blockSize = 4096
  blockCount : m.lastBlock + 1 < 2 ^ 64
  lastLba : p.lastLba = m.lastBlock
  mbr : p.mbr = m.blocks 0 1
  protective : protectiveMbr p.mbr
  headerInside : 1 ≤ m.lastBlock
  header : p.header = m.blocks gptHeaderLba 1
  accepted : HeaderAccepted p.header m.blockSize p.gpt
  sectors : p.entryArraySectors = divRoundUp p.entryBytes m.blockSize
  entriesInside : p.gpt.entryLba + p.entryArraySectors ≤ m.lastBlock + 1
  entries : p.entries = m.blocks p.gpt.entryLba p.entryArraySectors
  entryCrc : ∃ covered, slice p.entries 0 p.entryBytes = some covered ∧
    readLeU32 p.header 88 = some (crc32 covered)
  found : findReleaseDataPartition p.entries p.gpt.entryCount p.gpt.entrySize = .ok p.data
  backupEntries : p.entryArraySectors ≤ p.lastLba ∧ p.backupEntriesLba = p.lastLba - p.entryArraySectors
  lastUsable : 1 ≤ p.backupEntriesLba ∧ p.newLastUsableLba = p.backupEntriesLba - 1
  room : p.data.startLba < p.newLastUsableLba
  volume : VolumeAccepted (m.blocks p.data.startLba 1) m.blockSize p.data.startLba
    (p.newLastUsableLba - p.data.startLba + 1) p.growth
  dataEnd : p.data.startLba + p.growth.newBlocks < 2 ^ 64 ∧ 1 ≤ p.data.startLba + p.growth.newBlocks ∧
    p.newDataEnd = p.data.startLba + p.growth.newBlocks - 1
  noShrink : p.data.endLba ≤ p.newDataEnd

theorem planDataGrowth_eq_some {m : Media} {lastLba entryArraySectors : Nat} {mbr header entries : List UInt8}
    {gpt : GptInfo} {data : PartitionInfo} {p : MediaPlan} (hbs : m.blockSize < 2 ^ 64) (hlast : lastLba = m.lastBlock) :
    planDataGrowth m lastLba mbr header gpt entryArraySectors entries data = .ok (some p) ↔
      (entryArraySectors ≤ lastLba ∧ p.backupEntriesLba = lastLba - entryArraySectors) ∧
      (1 ≤ p.backupEntriesLba ∧ p.newLastUsableLba = p.backupEntriesLba - 1) ∧ data.startLba < p.newLastUsableLba ∧
      VolumeAccepted (m.blocks data.startLba 1) m.blockSize data.startLba
        (p.newLastUsableLba - data.startLba + 1) p.growth ∧
      (data.startLba + p.growth.newBlocks < 2 ^ 64 ∧ 1 ≤ data.startLba + p.growth.newBlocks ∧
        p.newDataEnd = data.startLba + p.growth.newBlocks - 1) ∧ data.endLba ≤ p.newDataEnd ∧
      p = ⟨lastLba, mbr, header, gpt, entryArraySectors, entries, data, p.backupEntriesLba, p.newLastUsableLba,
        p.growth, p.newDataEnd⟩ := by
  simp only [planDataGrowth, bind_eq_ok, okOr_eq_ok, checkedSub_eq_some]
  constructor
  · rintro ⟨_, ⟨hle, rfl⟩, _, ⟨hone, rfl⟩, h⟩
    split at h
    · cases pure_eq_ok.mp h
    · next hroom =>
        simp only [bind_eq_ok, okOr_eq_ok, rejectIf_eq_ok, pure_eq_ok, Option.bind_eq_some_iff, checkedAdd_eq_some,
          checkedSub_eq_some, planExfatGrowth_eq_ok hbs, Option.some.injEq] at h
        obtain ⟨growth, ⟨_, hvol⟩, _, ⟨_, ⟨hlt, rfl⟩, hpos, rfl⟩, _, hshrink, rfl⟩ := h
        exact ⟨⟨hle, rfl⟩, ⟨hone, rfl⟩, Nat.not_le.mp hroom, hvol, ⟨hlt, hpos, rfl⟩, Nat.not_lt.mp hshrink, rfl⟩
  · rintro ⟨⟨hle, hbak⟩, ⟨hone, hus⟩, hroom, hvol, ⟨hlt, hpos, hend⟩, hshrink, hp⟩
    refine ⟨_, ⟨hle, hbak⟩, _, ⟨hone, hus⟩, ?_⟩
    rw [if_neg (Nat.not_le.mpr hroom)]
    simp only [bind_eq_ok, okOr_eq_ok, rejectIf_eq_ok, pure_eq_ok, Option.bind_eq_some_iff, checkedAdd_eq_some,
      checkedSub_eq_some, planExfatGrowth_eq_ok hbs, Option.some.injEq]
    exact ⟨_, ⟨by omega, hvol⟩, _, ⟨_, ⟨hlt, rfl⟩, hpos, hend⟩, (), Nat.not_lt.mpr hshrink, hp.symm⟩

theorem divRoundUp_eq {value divisor : Nat} (hd : 0 < divisor) (h : value + divisor < 2 ^ 64) :
    divRoundUp value divisor = (value + (divisor - 1)) / divisor := by
  rw [divRoundUp, if_neg (by omega), saturatingAdd, Nat.min_eq_left (by omega)]

theorem Planned.entryBytes_bounds {m : Media} {p : MediaPlan} (h : Planned m p) :
    128 ≤ p.entryBytes ∧ p.entryBytes ≤ gptEntryMaxBytes := by
  have := Nat.mul_le_mul h.accepted.entryCount_pos h.accepted.entrySize_ge
  exact ⟨(by omega : 128 ≤ 1 * 128).trans this, h.accepted.entryBytes_le⟩

theorem Planned.sectors_bounds {m : Media} {p : MediaPlan} (h : Planned m p) :
    0 < p.entryArraySectors ∧ p.entryBytes ≤ p.entryArraySectors * m.blockSize ∧
      p.entryArraySectors * m.blockSize < 2 ^ 64 := by
  obtain ⟨hlo, hhi⟩ := h.entryBytes_bounds
  have hhi' : p.entryBytes ≤ 1024 * 1024 := hhi
  have hsec := h.sectors
  rw [divRoundUp_eq (by have := h.blockSize; omega) (by have := h.blockSize; omega)] at hsec
  rcases h.blockSize with hs | hs <;> rw [hs] at hsec ⊢ <;> omega

theorem planMediaGrowth_eq_some {m : Media} {p : MediaPlan} :
    planMediaGrowth m = .ok (some p) ↔ Planned m p := by
  unfold planMediaGrowth
  split
  · next hbad =>
      constructor
      · intro h
        cases pure_eq_ok.mp h
      · intro h
        simp [h.present, h.wholeDisk, h.writable] at hbad
  · next hgood =>
      simp only [not_or, Bool.not_eq_false, Bool.not_eq_true] at hgood
      split
      · next hsize =>
          constructor
          · intro h
            cases pure_eq_ok.mp h
          · intro h
            have := h.blockSize
            omega
      · next hsize =>
          have hbs : m.blockSize < 2 ^ 64 := by omega
          simp only [bind_eq_ok, okOr_eq_ok, checkedAdd_eq_some, checkedSub_eq_some, readBlocks_eq_ok]
          constructor
          · rintro ⟨_, ⟨hcount, rfl⟩, _, ⟨_, hlast⟩, _, ⟨_, _, rfl⟩, h⟩
            have hlast' := hlast.trans (Nat.add_sub_cancel _ _)
            split at h
            · cases pure_eq_ok.mp h
            · next hmbr =>
                simp only [bind_eq_ok, okOr_eq_ok, readBlocks_eq_ok, parseGptHeader_eq_ok, checkedMul_eq_some] at h
                obtain ⟨_, ⟨_, hone, rfl⟩, gpt, hacc, _, ⟨hmul, rfl⟩, h⟩ := h
                split at h
                · cases pure_eq_ok.mp h
                · simp only [bind_eq_ok, okOr_eq_ok, readBlocks_eq_ok, rejectIf_eq_ok,
                    planDataGrowth_eq_some hbs hlast'] at h
                  obtain ⟨_, ⟨_, hin, rfl⟩, crc, hcrc, covered, hcov, _, hsum, data, hdata, hbak, hus, hroom, hvol,
                    hend, hshrink, hp⟩ := h
                  obtain ⟨_, _, _, _, _, _, _, _, _, _, _⟩ := p
                  simp only [MediaPlan.mk.injEq, and_true] at hp
                  obtain ⟨rfl, rfl, rfl, rfl, rfl, rfl, rfl⟩ := hp
                  simp only [not_not] at *
                  exact ⟨hgood.1, hgood.2.1, hgood.2.2, by omega, hcount, hlast', rfl, hmbr, Nat.le_of_lt_succ hone, rfl, hacc, rfl,
                    hin, rfl, ⟨covered, hcov, hsum ▸ hcrc⟩, hdata, hbak, hus, hroom, hvol, hend, hshrink⟩
          · intro h
            obtain ⟨hpos, _, hfit⟩ := h.sectors_bounds
            obtain ⟨covered, hcov, hcrc⟩ := h.entryCrc
            refine ⟨_, ⟨h.blockCount, rfl⟩, _, ⟨by omega, rfl⟩, _, ⟨by omega, by omega, rfl⟩, ?_⟩
            rw [← h.mbr, if_neg (not_not.mpr h.protective)]
            simp only [bind_eq_ok, okOr_eq_ok, readBlocks_eq_ok, parseGptHeader_eq_ok, checkedMul_eq_some]
            refine ⟨p.header, ⟨by omega, Nat.succ_le_succ h.headerInside, h.header⟩, p.gpt, h.accepted, _, ⟨?_, rfl⟩, ?_⟩
            · exact lt_of_le_of_lt h.accepted.entryBytes_le (by decide)
            · have hsectors : divRoundUp (p.gpt.entryCount * p.gpt.entrySize) m.blockSize = p.entryArraySectors :=
                h.sectors.symm
              rw [hsectors, if_neg (by omega)]
              simp only [bind_eq_ok, okOr_eq_ok, readBlocks_eq_ok, rejectIf_eq_ok,
                planDataGrowth_eq_some hbs (Nat.add_sub_cancel m.lastBlock 1)]
              have hlast : m.lastBlock + 1 - 1 = p.lastLba := (Nat.add_sub_cancel _ _).trans h.lastLba.symm
              rw [hlast]
              exact ⟨p.entries, ⟨hfit, h.entriesInside, h.entries⟩, _, hcrc, covered, hcov, (), not_not.mpr rfl, p.data,
                h.found, h.backupEntries, h.lastUsable, h.room, h.volume, h.dataEnd, h.noShrink, rfl⟩

/-- The writes of the partition table: protective MBR, both entry arrays, both headers. -/
def updateGpt (p : MediaPlan) : GrowM Unit := do
  let entries ← updateGptEntries p.entries p.gpt.entrySize p.data.index p.newDataEnd
  let covered ← okOr (slice entries 0 p.entryBytes) "truncated GPT entries"
  let mbr ← writeLeU32 p.mbr (0x1be + 12) (min p.lastLba (2 ^ 32 - 1))
  writeBlocks 0 mbr "failed to update protective MBR"
  writeBlocks p.gpt.entryLba entries "failed to update primary GPT entries"
  writeBlocks p.backupEntriesLba entries "failed to write backup GPT entries"
  let header ← updatePrimaryHeader p.header p.lastLba p.newLastUsableLba (crc32 covered)
  writeBlocks gptHeaderLba header "failed to write primary GPT header"
  let backupHeader ← updateBackupHeader header p.lastLba p.backupEntriesLba
  writeBlocks p.lastLba backupHeader "failed to write backup GPT header"

def updateExfatBoot (data : PartitionInfo) (growth : ExfatGrowth) : GrowM Unit := do
  let dev ← get
  let boot ← readBlocks dev.media data.startLba exfatBootRegionSectors
  updateAllocationBitmapLength data boot growth.clusterCount
  let boot ← writeLeU64 boot 72 growth.newBlocks
  let boot ← writeLeU32 boot 92 growth.clusterCount
  let boot ← updateExfatBootChecksum boot dev.media.blockSize
  writeBlocks data.startLba boot "failed to write exFAT boot sector"
  writeBlocks (data.startLba + exfatBootBackupLba) boot "failed to write exFAT backup boot region"

/-- The last part of a run; the flush behind it does not fail. -/
def growVolume (p : MediaPlan) : GrowM GrowOutcome := do
  if p.needsExfat then updateExfatBoot p.data p.growth
  return .grown p.growth.oldBlocks p.growth.newBlocks p.growth.clusterCount

/-- One run of `try_grow_boot_media` on the opened parent device. -/
def tryGrowBootMedia : GrowM GrowOutcome := do
  let dev ← get
  match ← planMediaGrowth dev.media with
  | none => return .notReleaseMedia
  | some p =>
      if ¬ p.needsGpt ∧ ¬ p.needsExfat then return .alreadyGrown
      else
        if p.needsGpt then updateGpt p
        growVolume p

/-- A run from the given media: its result, the media it leaves and the writes it issued. -/
def runGrowth (m : Media) : Except GrowError GrowOutcome × Device := eval tryGrowBootMedia ⟨m, []⟩

end NextBoot.MediaGrow
