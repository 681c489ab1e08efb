import NextBoot.Fs.Directory

namespace NextBoot.Fs

open Words Bytes Strings Results Faults Outcome BlockStore

/-- An opened ISO9660 volume. Its logical block size comes from the volume descriptor as it stands there. -/
structure Iso9660 where
  io : BlockIo
  blockSize : Nat
  rootLba : Nat
  rootSize : Nat
  blockSize_lt : blockSize < 2 ^ 16
  rootLba_lt : rootLba < 2 ^ 32
  rootSize_lt : rootSize < 2 ^ 32

namespace Iso9660

variable (granted : Nat → Bool)

def standardId : List UInt8 := [0x43, 0x44, 0x30, 0x30, 0x31]

def primaryDescriptor : UInt8 := 1

def setTerminator : UInt8 := 255

/-- The volume that a primary volume descriptor describes. -/
def ofDescriptor (io : BlockIo) (vd : List UInt8) : Outcome FsError Iso9660 :=
  match hsize : readLe 2 vd 128, hlba : readLe 4 vd 158, hroot : readLe 4 vd 166 with
  | some blockSize, some rootLba, some rootSize =>
      pure ⟨io, blockSize, rootLba, rootSize, readLe_lt hsize, readLe_lt hlba, readLe_lt hroot⟩
  | _, _, _ => fault

/-- The scan of the volume descriptors, of which `count` are left. -/
def scanDescriptors (io : BlockIo) : Nat → Nat → Outcome FsError Iso9660
  | 0, _ => error .invalidSignature
  | count + 1, lba => do
      let vd ← ofExcept (io.readFullBlocks lba 2048)
      let id ← ofOption (slice vd 1 5)
      if id ≠ standardId then scanDescriptors io count (lba + 1)
      else do
        let typeCode : UInt8 ← ofOption vd[0]?
        if typeCode = primaryDescriptor then ofDescriptor io vd
        else if typeCode = setTerminator then error .invalidSignature
        else scanDescriptors io count (lba + 1)

def openChecked (io : BlockIo) : Outcome FsError Iso9660 := do
  allocBuffer granted 2048
  if io.blockSize ≠ 2048 then error .blockSizeMismatch else scanDescriptors io 84 16

/-- The name of a record, up to its version number. -/
def parseFilename (raw : List UInt8) : Text :=
  let shown := (raw.takeWhile fun b => b ≠ 0 ∧ b ≠ 0x3B).filter fun b => 0x20 ≤ b ∧ b < 0x7F
  (trimEndWhile (· = '.') (shown.map fun b => Char.ofNat b.toNat)).map toAsciiLowercase

def rockRidgeName : List UInt8 := [0x4E, 0x4D]

def selfName : Text := ['.']

def parentName : Text := ['.', '.']

/-- The alternate name in the system use entries from a position on, behind the parts of it that have been read. -/
def parseRockRidgeName (systemUse : List UInt8) : Nat → Nat → Option Text → Outcome FsError (Option Text)
  | 0, _, found => pure found
  | fuel + 1, offset, found =>
      if systemUse.length < offset + 4 then pure found
      else do
        let signature ← ofOption (slice systemUse offset 2)
        let length : UInt8 ← ofOption systemUse[offset + 2]?
        if length.toNat < 4 ∨ systemUse.length < offset + length.toNat then pure found
        else if signature = rockRidgeName ∧ 5 ≤ length.toNat then do
          let flags : UInt8 ← ofOption systemUse[offset + 4]?
          if flags &&& 0x02 ≠ 0 then pure (some selfName)
          else if flags &&& 0x04 ≠ 0 then pure (some parentName)
          else if flags &&& 0x08 ≠ 0 then pure (some ['/'])
          else do
            let name ← ofOption (slice systemUse (offset + 5) (length.toNat - 5))
            let out := found.getD [] ++ fromUtf8Lossy name
            if flags &&& 0x01 = 0 then pure (some out)
            else parseRockRidgeName systemUse fuel (offset + length.toNat) (some out)
        else parseRockRidgeName systemUse fuel (offset + length.toNat) found

/-- The name a record goes by: the alternate one, where its system use area has one. -/
def recordName (data : List UInt8) (length nameLength : Nat) (raw : List UInt8) : Outcome FsError Text :=
  let systemUseStart := 33 + nameLength + if nameLength % 2 = 0 then 1 else 0
  if systemUseStart < length then do
    let systemUse ← ofOption (slice data systemUseStart (length - systemUseStart))
    let rockRidge ← parseRockRidgeName systemUse systemUse.length 0 none
    pure (rockRidge.getD (parseFilename raw))
  else pure (parseFilename raw)

/-- A directory record; short and hidden ones are left out. -/
def parseDirectoryRecord (data : List UInt8) : Outcome FsError (Option DirectoryEntry) :=
  if data.length < 33 then pure none
  else do
    let length : UInt8 ← ofOption data[0]?
    if length.toNat < 33 ∨ data.length < length.toNat then pure none
    else do
      let extentLba ← ofOption (readLe 4 data 2)
      let dataLength ← ofOption (readLe 4 data 10)
      let flags : UInt8 ← ofOption data[25]?
      let nameLength : UInt8 ← ofOption data[32]?
      if nameLength = 0 ∨ data.length < 33 + nameLength.toNat then pure none
      else do
        let raw ← ofOption (slice data 33 nameLength.toNat)
        let name ← recordName data length.toNat nameLength.toNat raw
        if flags &&& 0x01 ≠ 0 then pure none
        else
          pure (some {
            name := name
            size := dataLength
            isDir := flags &&& 0x02 ≠ 0
            attributes := if flags &&& 0x02 ≠ 0 then 0x10 else 0
            startCluster := extentLba
            contiguous := true })

/-- The records of one block from a position on, without those named as the directory itself or its parent. -/
def readRecords (dirData : List UInt8) : Nat → Nat → Outcome FsError (List DirectoryEntry)
  | 0, _ => pure []
  | fuel + 1, offset =>
      if dirData.length ≤ offset then pure []
      else do
        let length : UInt8 ← ofOption dirData[offset]?
        if length = 0 then pure []
        else if dirData.length < offset + length.toNat then pure []
        else do
          let record ← ofOption (slice dirData offset length.toNat)
          let info ← parseDirectoryRecord record
          let rest ← readRecords dirData fuel (offset + length.toNat)
          pure ((info.filter fun info => info.name ≠ selfName ∧ info.name ≠ parentName).toList ++ rest)

def readBlocks (fs : Iso9660) : Nat → Nat → Outcome FsError (List DirectoryEntry)
  | 0, _ => pure []
  | count + 1, lba => do
      let dirData ← ofExcept (fs.io.readFullBlocks lba fs.blockSize)
      let entries ← readRecords dirData dirData.length 0
      let next ← ofOption (checkedAdd 32 lba 1)
      let rest ← readBlocks fs count next
      pure (entries ++ rest)

def checkedDiv (a b : Nat) : Option Nat := if b = 0 then none else some (a / b)

def readDirectory (fs : Iso9660) (lba size : Nat) : Outcome FsError (List DirectoryEntry) := do
  let sum ← ofOption (checkedAdd 64 size fs.blockSize)
  let last ← ofOption (checkedSub sum 1)
  let blocks ← ofOption (checkedDiv last fs.blockSize)
  allocBuffer granted fs.blockSize
  fs.readBlocks (max blocks 1) lba

/-- Opening a device as ISO9660 and listing its root. -/
def listRoot (io : BlockIo) : Outcome FsError (List DirectoryEntry) := do
  let fs ← openChecked granted io
  fs.readDirectory granted fs.rootLba fs.rootSize

variable {granted : Nat → Bool} {fs : Iso9660} {io : BlockIo} {data vd : List UInt8} {fuel offset count lba size : Nat}

theorem noFault_ofDescriptor (h : vd.length = 2048) : (ofDescriptor io vd).NoFault := by
  obtain ⟨_, h₁⟩ := @readLe_isSome 2 vd 128 (by omega)
  obtain ⟨_, h₂⟩ := @readLe_isSome 4 vd 158 (by omega)
  obtain ⟨_, h₃⟩ := @readLe_isSome 4 vd 166 (by omega)
  rw [ofDescriptor]
  split
  · exact noFault_pure
  · next hnone => exact (hnone _ _ _ h₁ h₂ h₃).elim

theorem noFault_scanDescriptors : (scanDescriptors io count lba).NoFault := by
  induction count generalizing lba with
  | zero => exact noFault_error _
  | succ count ih =>
      refine noFault_ofExcept_bind.mpr fun vd hread => ?_
      have hlength : vd.length = 2048 := by
        obtain ⟨-, -, rfl⟩ := readFullBlocks_eq_ok.mp hread
        exact length_window _ _ _
      refine noFault_ofOption_bind.mpr ⟨_, slice_eq_some (by omega), noFault_ite.mpr ⟨fun _ => ih, fun _ => ?_⟩⟩
      refine noFault_ofOption_bind.mpr ⟨_, List.getElem?_eq_getElem (by omega), ?_⟩
      exact noFault_ite.mpr ⟨fun _ => noFault_ofDescriptor hlength, fun _ =>
        noFault_ite.mpr ⟨fun _ => noFault_error _, fun _ => ih⟩⟩

theorem noFault_openChecked : (openChecked granted io).NoFault :=
  noFault_bind.mpr ⟨noFault_allocBuffer, fun _ _ => noFault_ite.mpr ⟨fun _ => noFault_error _, fun _ =>
    noFault_scanDescriptors⟩⟩

theorem returns_parseRockRidgeName {found : Option Text} : (parseRockRidgeName data fuel offset found).Returns := by
  induction fuel generalizing offset found with
  | zero => exact returns_pure
  | succ fuel ih =>
      rw [parseRockRidgeName]
      refine returns_ite (fun _ => returns_pure) fun hinside => ?_
      refine returns_ofOption_bind (slice_eq_some (by omega)) ?_
      refine returns_ofOption_bind (List.getElem?_eq_getElem (by omega)) ?_
      refine returns_ite (fun _ => returns_pure) fun hfits => returns_ite (fun hname => ?_) fun _ => ih
      refine returns_ofOption_bind (List.getElem?_eq_getElem (by omega)) ?_
      refine returns_ite (fun _ => returns_pure) fun _ => returns_ite (fun _ => returns_pure) fun _ => ?_
      refine returns_ite (fun _ => returns_pure) fun _ => ?_
      refine returns_ofOption_bind (slice_eq_some (by omega)) ?_
      exact returns_ite (fun _ => returns_pure) fun _ => ih

theorem returns_recordName {length nameLength : Nat} {raw : List UInt8} (h : length ≤ data.length) :
    (recordName data length nameLength raw).Returns := by
  rw [recordName]
  refine returns_ite (fun hinside => ?_) fun _ => returns_pure
  refine returns_ofOption_bind (slice_eq_some (by omega)) ?_
  exact returns_parseRockRidgeName.bind fun _ _ => returns_pure

theorem returns_parseDirectoryRecord : (parseDirectoryRecord data).Returns := by
  rw [parseDirectoryRecord]
  refine returns_ite (fun _ => returns_pure) fun hlong => ?_
  obtain ⟨_, hlba⟩ := @readLe_isSome 4 data 2 (by omega)
  obtain ⟨_, hlength⟩ := @readLe_isSome 4 data 10 (by omega)
  refine returns_ofOption_bind (List.getElem?_eq_getElem (by omega)) ?_
  refine returns_ite (fun _ => returns_pure) fun hfits => ?_
  refine returns_ofOption_bind hlba (returns_ofOption_bind hlength ?_)
  refine returns_ofOption_bind (List.getElem?_eq_getElem (by omega)) ?_
  refine returns_ofOption_bind (List.getElem?_eq_getElem (by omega)) ?_
  refine returns_ite (fun _ => returns_pure) fun hname => ?_
  refine returns_ofOption_bind (slice_eq_some (by omega)) ?_
  refine (returns_recordName (by omega)).bind fun name _ => ?_
  exact returns_ite (fun _ => returns_pure) fun _ => returns_pure

theorem returns_readRecords : (readRecords data fuel offset).Returns := by
  induction fuel generalizing offset with
  | zero => exact returns_pure
  | succ fuel ih =>
      rw [readRecords]
      refine returns_ite (fun _ => returns_pure) fun hinside => ?_
      refine returns_ofOption_bind (List.getElem?_eq_getElem (by omega)) ?_
      refine returns_ite (fun _ => returns_pure) fun _ => returns_ite (fun _ => returns_pure) fun hfits => ?_
      refine returns_ofOption_bind (slice_eq_some (by omega)) ?_
      exact returns_parseDirectoryRecord.bind fun info _ => ih.bind fun _ _ => returns_pure

/-- Reading blocks faults where it gets past the last block that has a 32-bit number. -/
theorem noFault_readBlocks (hlba : lba < 2 ^ 32) : (fs.readBlocks count lba).NoFault ↔
    lba + count < 2 ^ 32 ∨
      ∃ k < count, lba + k < 2 ^ 32 ∧ ∀ data, fs.io.readFullBlocks (lba + k) fs.blockSize ≠ .ok data := by
  induction count generalizing lba with
  | zero => exact ⟨fun _ => .inl hlba, fun _ => noFault_pure⟩
  | succ count ih =>
      by_cases hread : ∃ data, fs.io.readFullBlocks lba fs.blockSize = .ok data
      · obtain ⟨data, hread⟩ := hread
        obtain ⟨entries, hentries⟩ := @returns_readRecords data data.length 0
        rw [readBlocks, hread, ofExcept_ok, value_bind, hentries, value_bind, noFault_ofOption_bind]
        constructor
        · rintro ⟨next, hnext, h⟩
          obtain ⟨hfits, rfl⟩ := checkedAdd_eq_some.mp hnext
          rcases (ih hfits).mp (noFault_bind.mp h).1 with hlow | ⟨k, hk, hnumber, hstop⟩
          · exact .inl (by omega)
          · refine .inr ⟨k + 1, by omega, by omega, fun data => ?_⟩
            rw [← Nat.add_assoc, Nat.add_right_comm]
            exact hstop data
        · intro h
          have hfits : lba + 1 < 2 ^ 32 := by
            rcases h with hlow | ⟨k, hk, hnumber, hstop⟩
            · omega
            · rcases Nat.eq_zero_or_pos k with rfl | hpos
              · exact absurd hread (hstop data)
              · omega
          refine ⟨_, checkedAdd_eq_some.mpr ⟨hfits, rfl⟩, noFault_bind.mpr ⟨(ih hfits).mpr ?_, fun _ _ => noFault_pure⟩⟩
          rcases h with hlow | ⟨k, hk, hnumber, hstop⟩
          · exact .inl (by omega)
          · rcases Nat.eq_zero_or_pos k with rfl | hpos
            · exact absurd hread (hstop data)
            · refine .inr ⟨k - 1, by omega, by omega, fun data => ?_⟩
              rw [show lba + 1 + (k - 1) = lba + k by omega]
              exact hstop data
      · have hstop : ∀ data, fs.io.readFullBlocks lba fs.blockSize ≠ .ok data := fun data h => hread ⟨data, h⟩
        refine ⟨fun _ => .inr ⟨0, by omega, hlba, hstop⟩, fun _ => noFault_ofExcept_bind.mpr fun data h => ?_⟩
        exact absurd h (hstop data)

/-- The blocks of a directory, at least one. -/
def directoryBlocks (blockSize size : Nat) : Nat := max ((size + blockSize - 1) / blockSize) 1

/-- A directory that can be read, or whose reading is refused: its logical blocks are not empty, and they end before
the block numbers do unless a read fails before that. -/
def SoundDirectory (granted : Nat → Bool) (fs : Iso9660) (lba size : Nat) : Prop :=
  fs.blockSize ≠ 0 ∧ (granted fs.blockSize = false ∨ fs.blockSize % fs.io.blockSize ≠ 0 ∨
    lba + directoryBlocks fs.blockSize size < 2 ^ 32 ∨
      fs.io.totalBlocks < 2 ^ 32 - 1 + fs.blockSize / fs.io.blockSize)

theorem noFault_readDirectory (hio : 0 < fs.io.blockSize) (hlba : lba < 2 ^ 32) (hsize : size < 2 ^ 32) :
    (fs.readDirectory granted lba size).NoFault ↔ SoundDirectory granted fs lba size := by
  have hlogical := fs.blockSize_lt
  rw [readDirectory, SoundDirectory, show checkedAdd 64 size fs.blockSize = some _ from
    checkedAdd_eq_some.mpr ⟨by omega, rfl⟩, ofOption_some, value_bind]
  by_cases hzero : fs.blockSize = 0
  · refine ⟨fun h => ?_, fun h => absurd hzero h.1⟩
    obtain ⟨_, -, h⟩ := noFault_ofOption_bind.mp h
    obtain ⟨_, hdiv, -⟩ := noFault_ofOption_bind.mp h
    rw [checkedDiv, if_pos hzero] at hdiv
    cases hdiv
  · rw [show checkedSub (size + fs.blockSize) 1 = some _ from checkedSub_eq_some.mpr ⟨by omega, rfl⟩, ofOption_some,
      value_bind, checkedDiv, if_neg hzero, ofOption_some, value_bind, ← directoryBlocks]
    have hblocks : 0 < directoryBlocks fs.blockSize size := Nat.lt_of_lt_of_le Nat.one_pos (Nat.le_max_right _ _)
    generalize directoryBlocks fs.blockSize size = count at hblocks
    cases hgranted : granted fs.blockSize with
    | false =>
        rw [allocBuffer, hgranted]
        exact ⟨fun _ => ⟨hzero, .inl rfl⟩, fun _ => noFault_error _⟩
    | true =>
        have hread : ∀ k, (∀ data, fs.io.readFullBlocks (lba + k) fs.blockSize ≠ .ok data) ↔
            fs.blockSize % fs.io.blockSize ≠ 0 ∨ fs.io.totalBlocks < lba + k + fs.blockSize / fs.io.blockSize := by
          intro k
          simp only [ne_eq, readFullBlocks_eq_ok, not_and]
          constructor
          · intro h
            by_contra hgood
            exact h _ (by omega) (by omega) rfl
          · rintro h data hargs hfits rfl
            omega
        rw [allocBuffer, hgranted, if_pos rfl, value_bind, noFault_readBlocks hlba]
        simp only [hread]
        constructor
        · rintro (hlow | ⟨k, hk, hnumber, hodd | hfull⟩)
          · exact ⟨hzero, .inr (.inr (.inl hlow))⟩
          · exact ⟨hzero, .inr (.inl hodd)⟩
          · exact ⟨hzero, .inr (.inr (.inr (by omega)))⟩
        · rintro ⟨-, hrefused | hodd | hlow | hfull⟩
          · cases hrefused
          · exact .inr ⟨0, hblocks, hlba, .inl hodd⟩
          · exact .inl hlow
          · by_cases hlow : lba + count < 2 ^ 32
            · exact .inl hlow
            · exact .inr ⟨2 ^ 32 - 1 - lba, by omega, by omega, .inr (by omega)⟩

theorem scanDescriptors_io (h : scanDescriptors io count lba = value fs) : fs.io = io := by
  induction count generalizing lba with
  | zero => cases h
  | succ count ih =>
      obtain ⟨vd, -, h₁⟩ := bind_eq_value.mp h
      obtain ⟨id, -, h₂⟩ := bind_eq_value.mp h₁
      by_cases hid : id ≠ standardId
      · rw [if_pos hid] at h₂
        exact ih h₂
      · rw [if_neg hid] at h₂
        obtain ⟨typeCode, -, h₃⟩ := bind_eq_value.mp h₂
        by_cases hprimary : typeCode = primaryDescriptor
        · rw [if_pos hprimary, ofDescriptor] at h₃
          split at h₃
          · rw [pure_eq, value.injEq] at h₃
            rw [← h₃]
          · cases h₃
        · rw [if_neg hprimary] at h₃
          by_cases hend : typeCode = setTerminator
          · rw [if_pos hend] at h₃
            cases h₃
          · rw [if_neg hend] at h₃
            exact ih h₃

theorem openChecked_io (h : openChecked granted io = value fs) : fs.io = io ∧ io.blockSize = 2048 := by
  obtain ⟨_, -, h⟩ := bind_eq_value.mp h
  by_cases hblock : io.blockSize ≠ 2048
  · rw [if_pos hblock] at h
    cases h
  · rw [if_neg hblock] at h
    exact ⟨scanDescriptors_io h, not_not.mp hblock⟩

theorem noFault_listRoot : (listRoot granted io).NoFault ↔
    ∀ fs, openChecked granted io = value fs → SoundDirectory granted fs fs.rootLba fs.rootSize := by
  rw [listRoot, noFault_bind, and_iff_right noFault_openChecked]
  refine forall₂_congr fun fs hopen => ?_
  obtain ⟨hio, hblock⟩ := openChecked_io hopen
  exact noFault_readDirectory (by rw [hio, hblock]; decide) fs.rootLba_lt fs.rootSize_lt

end Iso9660

end NextBoot.Fs
