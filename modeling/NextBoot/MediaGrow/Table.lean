import NextBoot.MediaGrow.Writes

namespace NextBoot.MediaGrow

open Results Words Bytes BlockStore

/-- A header that carries its own checksum and that of the entry array it points to. -/
structure HeaderDescribes (header : List UInt8) (blockSize lba entryLba entryCount entrySize : Nat)
    (array : List UInt8) : Prop where
  signature : slice header 0 8 = some gptSignature
  crcValid : HeaderCrcValid header blockSize
  currentLba : readLeU64 header 24 = some lba
  entryLba : readLeU64 header 72 = some entryLba
  entryCount : readLeU32 header 80 = some entryCount
  entrySize : readLeU32 header 84 = some entrySize
  entryCrc : readLeU32 header 88 = some (crc32 array)

theorem headerDescribes_iff {header array : List UInt8} {blockSize lba entryLba entryCount entrySize : Nat} :
    HeaderDescribes header blockSize lba entryLba entryCount entrySize array ↔
      slice header 0 8 = some gptSignature ∧ HeaderCrcValid header blockSize ∧ readLeU64 header 24 = some lba ∧
        readLeU64 header 72 = some entryLba ∧ readLeU32 header 80 = some entryCount ∧
        readLeU32 header 84 = some entrySize ∧ readLeU32 header 88 = some (crc32 array) :=
  ⟨fun ⟨h₁, h₂, h₃, h₄, h₅, h₆, h₇⟩ => ⟨h₁, h₂, h₃, h₄, h₅, h₆, h₇⟩,
    fun ⟨h₁, h₂, h₃, h₄, h₅, h₆, h₇⟩ => ⟨h₁, h₂, h₃, h₄, h₅, h₆, h₇⟩⟩

instance (header array : List UInt8) (blockSize lba entryLba entryCount entrySize : Nat) :
    Decidable (HeaderDescribes header blockSize lba entryLba entryCount entrySize array) :=
  decidable_of_iff _ headerDescribes_iff.symm

/-- A complete valid copy of the partition table with its header at `lba`. -/
def TableCopyAt (m : Media) (lba : Nat) : Prop :=
  ∃ entryLba entryCount entrySize, HeaderDescribes (m.blocks lba 1) m.blockSize lba entryLba entryCount entrySize
    (window m.content (entryLba * m.blockSize) (entryCount * entrySize))

def tableCopyCheck (m : Media) (lba : Nat) : Bool :=
  match readLeU64 (m.blocks lba 1) 72, readLeU32 (m.blocks lba 1) 80, readLeU32 (m.blocks lba 1) 84 with
  | some entryLba, some entryCount, some entrySize =>
      decide (HeaderDescribes (m.blocks lba 1) m.blockSize lba entryLba entryCount entrySize
        (window m.content (entryLba * m.blockSize) (entryCount * entrySize)))
  | _, _, _ => false

theorem tableCopyCheck_iff {m : Media} {lba : Nat} : tableCopyCheck m lba = true ↔ TableCopyAt m lba := by
  unfold tableCopyCheck
  constructor
  · intro h
    split at h
    · exact ⟨_, _, _, of_decide_eq_true h⟩
    · cases h
  · rintro ⟨entryLba, entryCount, entrySize, h⟩
    rw [h.entryLba, h.entryCount, h.entrySize]
    exact decide_eq_true h

instance (m : Media) (lba : Nat) : Decidable (TableCopyAt m lba) := decidable_of_iff _ tableCopyCheck_iff

theorem Media.take_blocks (m : Media) {lba count len : Nat} (h : len ≤ count * m.blockSize) :
    (m.blocks lba count).take len = window m.content (lba * m.blockSize) len := by
  have hs : slice (m.blocks lba count) 0 len = some _ := m.slice_blocks (by omega)
  rw [slice_eq_some (by rw [Media.length_blocks]; omega), List.drop_zero, Nat.add_zero] at hs
  exact Option.some.inj hs

theorem tableCopyAt_of_blocks {m : Media} {lba entryLba entryCount entrySize sectors : Nat} {header array : List UInt8}
    (hheader : m.blocks lba 1 = header) (harray : m.blocks entryLba sectors = array)
    (hfit : entryCount * entrySize ≤ sectors * m.blockSize)
    (h : HeaderDescribes header m.blockSize lba entryLba entryCount entrySize (array.take (entryCount * entrySize))) :
    TableCopyAt m lba := by
  refine ⟨entryLba, entryCount, entrySize, ?_⟩
  rw [hheader, ← m.take_blocks hfit, harray]
  exact h

/-- A header whose recorded array checksum is that of another array does not make a copy. -/
theorem not_tableCopyAt {m : Media} {lba entryLba entryCount entrySize sectors : Nat} {header array array' : List UInt8}
    (hheader : m.blocks lba 1 = header) (harray : m.blocks entryLba sectors = array')
    (hfit : entryCount * entrySize ≤ sectors * m.blockSize)
    (h : HeaderDescribes header m.blockSize lba entryLba entryCount entrySize array)
    (hne : crc32 (array'.take (entryCount * entrySize)) ≠ crc32 array) : ¬ TableCopyAt m lba := by
  rintro ⟨entryLba', entryCount', entrySize', h'⟩
  rw [hheader] at h'
  have hlba : entryLba' = entryLba := Option.some.inj (h'.entryLba.symm.trans h.entryLba)
  have hcount : entryCount' = entryCount := Option.some.inj (h'.entryCount.symm.trans h.entryCount)
  have hsize : entrySize' = entrySize := Option.some.inj (h'.entrySize.symm.trans h.entrySize)
  have hcrc := Option.some.inj (h'.entryCrc.symm.trans h.entryCrc)
  rw [hlba, hcount, hsize, ← m.take_blocks hfit, harray] at hcrc
  exact hne hcrc

theorem Planned.covered_eq {m : Media} {p : MediaPlan} (h : Planned m p) :
    readLeU32 p.header 88 = some (crc32 (p.entries.take p.entryBytes)) := by
  obtain ⟨covered, hcov, hcrc⟩ := h.entryCrc
  have hlen := h.entries_fit.1
  have hfit := h.sectors_bounds.2.1
  rw [slice_eq_some (by omega), List.drop_zero] at hcov
  rw [Option.some.inj hcov]
  exact hcrc

theorem Planned.header_describes {m : Media} {p : MediaPlan} (h : Planned m p) :
    HeaderDescribes p.header m.blockSize gptHeaderLba p.gpt.entryLba p.gpt.entryCount p.gpt.entrySize
      (p.entries.take p.entryBytes) :=
  ⟨h.accepted.signature, h.accepted.crcValid, h.accepted.currentLba, h.accepted.entryLba, h.accepted.entryCount,
    h.accepted.entrySize, h.covered_eq⟩

theorem Planned.lbas_lt {m : Media} {p : MediaPlan} (h : Planned m p) :
    p.lastLba < 2 ^ 64 ∧ p.newLastUsableLba < 2 ^ 64 ∧ p.backupEntriesLba < 2 ^ 64 := by
  have := h.blockCount
  have := h.lastLba
  have := h.backupEntries
  have := h.lastUsable
  omega

theorem Planned.newHeader_accepted {m : Media} {p : MediaPlan} (h : Planned m p) :
    HeaderAccepted p.newHeader m.blockSize
      { p.gpt with oldBackupLba := p.lastLba, lastUsableLba := p.newLastUsableLba } := by
  obtain ⟨hsize, hlo, hhi, hlen, hbs⟩ := h.headerSize_spec
  obtain ⟨hlast, hus, _⟩ := h.lbas_lt
  exact grownHeader_accepted hlen hbs h.accepted hsize hlo (hlen ▸ hhi) hlast hus

theorem Planned.newHeader_entryCrc {m : Media} {p : MediaPlan} (h : Planned m p) :
    readLeU32 p.newHeader 88 = some (crc32 (p.newEntries.take p.entryBytes)) := by
  obtain ⟨_, _, _, hlen, hbs⟩ := h.headerSize_spec
  exact grownHeader_entryCrc (hlen ▸ hbs)

theorem Planned.newHeader_describes {m : Media} {p : MediaPlan} (h : Planned m p) :
    HeaderDescribes p.newHeader m.blockSize gptHeaderLba p.gpt.entryLba p.gpt.entryCount p.gpt.entrySize
      (p.newEntries.take p.entryBytes) := by
  have hacc := h.newHeader_accepted
  exact ⟨hacc.signature, hacc.crcValid, hacc.currentLba, hacc.entryLba, hacc.entryCount, hacc.entrySize,
    h.newHeader_entryCrc⟩

/-- The new backup header describes the array in front of it, and names the primary header. -/
theorem Planned.newBackupHeader_describes {m : Media} {p : MediaPlan} (h : Planned m p) :
    HeaderDescribes p.newBackupHeader m.blockSize p.lastLba p.backupEntriesLba p.gpt.entryCount p.gpt.entrySize
      (p.newEntries.take p.entryBytes) ∧ readLeU64 p.newBackupHeader 32 = some gptHeaderLba ∧
      readLeU64 p.newBackupHeader 48 = some p.newLastUsableLba := by
  obtain ⟨_, hlo, hhi, hlen, hbs⟩ := h.headerSize_spec
  obtain ⟨hsize, hnlen, _, _⟩ := h.newHeader_spec
  obtain ⟨hlast, _, hbak⟩ := h.lbas_lt
  have hd := h.newHeader_describes
  have hp := mirroredFields_patch p.lastLba p.backupEntriesLba
  have hbs' : gptHeaderSize ≤ p.newHeader.length := hnlen ▸ hbs
  have hcrc : HeaderCrcValid p.newBackupHeader p.newHeader.length := hp.crcValid hbs' hsize hlo (by omega)
  rw [hnlen] at hcrc
  have hother : ∀ width offset, (offset + width ≤ 16 ∨ 20 ≤ offset) →
      (∀ q ∈ mirroredFields p.lastLba p.backupEntriesLba, offset + width ≤ q.1 ∨ q.1 + q.2.length ≤ offset) →
      readLe width p.newBackupHeader offset = readLe width p.newHeader offset :=
    fun width offset => hp.read_other hbs'
  refine ⟨⟨?_, hcrc, ?_, ?_, ?_, ?_, ?_⟩, ?_, ?_⟩
  · exact (hp.slice_other hbs' (by omega) (by simp [mirroredFields])).trans hd.signature
  · exact hp.read_field hbs' (by simp [mirroredFields]) (by omega)
  · exact hp.read_field hbs' (by simp [mirroredFields]) (by omega)
  · exact (hother 4 80 (by omega) (by simp [mirroredFields])).trans hd.entryCount
  · exact (hother 4 84 (by omega) (by simp [mirroredFields])).trans hd.entrySize
  · exact (hother 4 88 (by omega) (by simp [mirroredFields])).trans hd.entryCrc
  · exact hp.read_field hbs' (by simp [mirroredFields]) (by decide)
  · exact (hother 8 48 (by omega) (by simp [mirroredFields])).trans h.newHeader_accepted.lastUsableLba

/-- The primary entry array lies between the header and the data partition. -/
structure TableLayout (p : MediaPlan) : Prop where
  behindHeader : 2 ≤ p.gpt.entryLba
  beforeData : p.gpt.entryLba + p.entryArraySectors ≤ p.data.startLba

theorem Planned.order {m : Media} {p : MediaPlan} (h : Planned m p) :
    p.data.startLba + 24 ≤ p.backupEntriesLba ∧ p.backupEntriesLba + p.entryArraySectors = p.lastLba ∧
      0 < p.entryArraySectors := by
  have hroom := h.room_for_boot
  have hbak := h.backupEntries
  exact ⟨hroom, by omega, h.sectors_bounds.1⟩

/-- Blocks outside the five regions of a partition table update stay as they are. -/
theorem Planned.disjoint_writes {m : Media} {p : MediaPlan} (h : Planned m p) (lba count : Nat) :
    (1 ≤ lba → (blockWrite m.blockSize 0 p.newMbr).disjointFrom (lba * m.blockSize) (count * m.blockSize)) ∧
    (∀ at', at' + p.entryArraySectors ≤ lba ∨ lba + count ≤ at' →
      (blockWrite m.blockSize at' p.newEntries).disjointFrom (lba * m.blockSize) (count * m.blockSize)) ∧
    (2 ≤ lba ∨ lba + count ≤ 1 →
      (blockWrite m.blockSize gptHeaderLba p.newHeader).disjointFrom (lba * m.blockSize) (count * m.blockSize)) ∧
    (p.lastLba + 1 ≤ lba ∨ lba + count ≤ p.lastLba →
      (blockWrite m.blockSize p.lastLba p.newBackupHeader).disjointFrom (lba * m.blockSize) (count * m.blockSize)) := by
  obtain ⟨helen, _, hnelen⟩ := h.entries_fit
  obtain ⟨_, hnlen, hblen, hmlen⟩ := h.newHeader_spec
  have hone : gptHeaderLba = 1 := rfl
  refine ⟨fun hd => ?_, fun at' hd => ?_, fun hd => ?_, fun hd => ?_⟩
  · exact blockWrite_disjoint (hmlen.trans (Nat.one_mul _).symm) (by omega)
  · exact blockWrite_disjoint (hnelen.trans helen) hd
  · exact blockWrite_disjoint (hnlen.trans (Nat.one_mul _).symm) (by omega)
  · exact blockWrite_disjoint (hblen.trans (Nat.one_mul _).symm) hd

/-- The primary header after some of the partition table writes. -/
theorem Planned.header_after {m : Media} {p : MediaPlan} (h : Planned m p) (hl : TableLayout p) (k : Nat) :
    (m.apply ((gptWrites m.blockSize p).take k)).blocks gptHeaderLba 1 = if k ≤ 3 then p.header else p.newHeader := by
  obtain ⟨hroom, hbak, hpos⟩ := h.order
  have hbehind := hl.behindHeader
  have hbefore := hl.beforeData
  obtain ⟨hmbr, harray, _, hlast⟩ := h.disjoint_writes gptHeaderLba 1
  have hone : gptHeaderLba = 1 := rfl
  rw [h.header]
  refine Media.blocks_apply_take [_, _, _] [_] ?_ ?_ ?_ k
  · rw [h.newHeader_spec.2.1, Nat.one_mul]
  · simp only [List.forall_mem_cons, List.not_mem_nil, false_implies, implies_true, and_true]
    exact ⟨hmbr (by omega), harray _ (by omega), harray _ (by omega)⟩
  · simp only [List.forall_mem_cons, List.not_mem_nil, false_implies, implies_true, and_true]
    exact hlast (by omega)

/-- The primary entry array after some of the partition table writes. -/
theorem Planned.entries_after {m : Media} {p : MediaPlan} (h : Planned m p) (hl : TableLayout p) (k : Nat) :
    (m.apply ((gptWrites m.blockSize p).take k)).blocks p.gpt.entryLba p.entryArraySectors =
      if k ≤ 1 then p.entries else p.newEntries := by
  obtain ⟨hroom, hbak, hpos⟩ := h.order
  have hbehind := hl.behindHeader
  have hbefore := hl.beforeData
  obtain ⟨hmbr, harray, hheader, hlast⟩ := h.disjoint_writes p.gpt.entryLba p.entryArraySectors
  rw [h.entries]
  refine Media.blocks_apply_take [_] [_, _, _] ?_ ?_ ?_ k
  · rw [h.entries_fit.2.2, h.entries_fit.1]
  · simp only [List.forall_mem_cons, List.not_mem_nil, false_implies, implies_true, and_true]
    exact hmbr (by omega)
  · simp only [List.forall_mem_cons, List.not_mem_nil, false_implies, implies_true, and_true]
    exact ⟨harray _ (by omega), hheader (by omega), hlast (by omega)⟩

/-- The new backup array after some of the partition table writes. -/
theorem Planned.backupEntries_after {m : Media} {p : MediaPlan} (h : Planned m p) (hl : TableLayout p) (k : Nat) :
    (m.apply ((gptWrites m.blockSize p).take k)).blocks p.backupEntriesLba p.entryArraySectors =
      if k ≤ 2 then m.blocks p.backupEntriesLba p.entryArraySectors else p.newEntries := by
  obtain ⟨hroom, hbak, hpos⟩ := h.order
  have hbehind := hl.behindHeader
  have hbefore := hl.beforeData
  obtain ⟨hmbr, harray, hheader, hlast⟩ := h.disjoint_writes p.backupEntriesLba p.entryArraySectors
  refine Media.blocks_apply_take [_, _] [_, _] ?_ ?_ ?_ k
  · rw [h.entries_fit.2.2, h.entries_fit.1]
  · simp only [List.forall_mem_cons, List.not_mem_nil, false_implies, implies_true, and_true]
    exact ⟨hmbr (by omega), harray _ (by omega)⟩
  · simp only [List.forall_mem_cons, List.not_mem_nil, false_implies, implies_true, and_true]
    exact ⟨hheader (by omega), hlast (by omega)⟩

/-- The last block after some of the partition table writes. -/
theorem Planned.lastBlock_after {m : Media} {p : MediaPlan} (h : Planned m p) (hl : TableLayout p) (k : Nat) :
    (m.apply ((gptWrites m.blockSize p).take k)).blocks p.lastLba 1 =
      if k ≤ 4 then m.blocks p.lastLba 1 else p.newBackupHeader := by
  obtain ⟨hroom, hbak, hpos⟩ := h.order
  have hbehind := hl.behindHeader
  have hbefore := hl.beforeData
  obtain ⟨hmbr, harray, hheader, _⟩ := h.disjoint_writes p.lastLba 1
  refine Media.blocks_apply_take [_, _, _, _] [] ?_ ?_ ?_ k
  · rw [h.newHeader_spec.2.2.1, Nat.one_mul]
  · simp only [List.forall_mem_cons, List.not_mem_nil, false_implies, implies_true, and_true]
    exact ⟨hmbr (by omega), harray _ (by omega), harray _ (by omega), hheader (by omega)⟩
  · simp

/-- Little-endian fields at byte offsets, as one number. -/
def fieldSum : List (Nat × Nat) → Nat
  | [] => 0
  | f :: fs => f.2 * 256 ^ f.1 + fieldSum fs

def utf16Name : List UInt8 → Nat
  | [] => 0
  | c :: cs => c.toNat + 65536 * utf16Name cs

/-- A small release medium of 512-byte sectors: an entry array of one sector, the data partition from sector 3 on with
its FAT in sector 27, the bitmap in cluster 2 (sector 28) and the root directory in cluster 3 (sector 29). -/
structure Release where
  lastBlock : Nat
  entryLba : Nat
  backupLba : Nat
  lastUsableLba : Nat
  dataEnd : Nat
  volumeBlocks : Nat
  bitmap : Nat
  root : Nat
  entryCrc : Nat
  headerCrc : Nat
  backupCrc : Nat

def Release.entries (r : Release) : Nat :=
  fieldSum [(0, 1), (32, 2), (40, 2), (56, utf16Name nexbootEfi), (128, 1), (160, 3), (168, r.dataEnd),
    (184, utf16Name nexbootData)]

def Release.header (r : Release) (crc current alternate entryLba : Nat) : Nat :=
  fieldSum [(0, 0x5452415020494645), (8, 0x10000), (12, 92), (16, crc), (24, current), (32, alternate), (40, 3),
    (48, r.lastUsableLba), (72, entryLba), (80, 2), (84, 128), (88, r.entryCrc)]

def Release.boot (r : Release) : Nat :=
  fieldSum [(0, 0x20202054414658459076eb), (64, 3), (72, r.volumeBlocks), (80, 24), (84, 1), (88, 25),
    (92, r.volumeBlocks - 25), (96, 3), (108, 9)]

def Release.sector (r : Release) (lba : Nat) : Nat :=
  if lba = 0 then fieldSum [(450, 0xee), (510, 0xaa55)]
  else if lba = 1 then r.header r.headerCrc 1 r.backupLba r.entryLba
  else if lba = r.entryLba then r.entries
  else if lba = 3 then r.boot
  else if lba = 27 then fieldSum [(8, 0xffffffffffffffff)]
  else if lba = 28 then r.bitmap
  else if lba = 29 then r.root
  else if lba + 1 = r.backupLba then r.entries
  else if lba = r.backupLba then r.header r.backupCrc r.backupLba 1 (r.backupLba - 1)
  else 0

def Release.media (r : Release) : Media :=
  ⟨true, false, false, 512, r.lastBlock, fun x => UInt8.ofNat (r.sector (x / 512) / 256 ^ (x % 512))⟩

/-- A bitmap entry for the bitmap in cluster 2, with the given length. -/
def bitmapEntry (length : Nat) : Nat := fieldSum [(0, 0x81), (20, 2), (24, length)]

/-- An image of 46 sectors copied to media of 61 sectors. -/
def enlargedRelease : Release :=
  ⟨60, 2, 45, 43, 43, 41, 3, bitmapEntry 2, 3192580797, 3251616955, 1210633714⟩

/-- Media of 61 sectors whose table reaches to the end while the data partition does not. -/
def spareRelease : Release :=
  ⟨60, 2, 60, 58, 43, 41, 3, bitmapEntry 2, 3192580797, 4110898830, 751006082⟩

theorem exists_plan {m : Media} {P : MediaPlan → Prop} [DecidablePred P]
    (h : (match planMediaGrowth m with
      | .ok (some p) => decide (P p)
      | _ => false) = true) : ∃ p, planMediaGrowth m = .ok (some p) ∧ P p := by
  split at h
  · next p hp => exact ⟨p, hp, of_decide_eq_true h⟩
  · cases h

end NextBoot.MediaGrow
