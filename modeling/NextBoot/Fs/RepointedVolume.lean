import NextBoot.Fs.RecordPatch

namespace NextBoot.Fs.Iso9660

open Words Bytes Strings Results Faults Outcome BlockStore Paths Scan

/-- The place of the record of a file on a device. -/
def FileRecord (io : BlockIo) (place : Nat) : Prop :=
  ∃ (lba offset : Nat) (info : DirectoryEntry), lba < io.totalBlocks ∧ place = lba * io.blockSize + offset ∧
    Reaches (window io.bytes (lba * io.blockSize) io.blockSize) offset ∧
    offset + (io.bytes place).toNat ≤ io.blockSize ∧
    listedEntry (window io.bytes place (io.bytes place).toNat) = some info ∧ info.isDir = false

/-- A device that is another one with records of files given other extents, and that may be longer. -/
structure Repointed (io io' : BlockIo) (extents : Nat → Option RecordExtent) : Prop where
  blockSize_eq : io'.blockSize = io.blockSize
  totalBlocks_le : io.totalBlocks ≤ io'.totalBlocks
  fileRecord : ∀ place extent, extents place = some extent → FileRecord io place
  block : ∀ lba < io.totalBlocks, BlockPatched io.blockSize lba extents
    (window io.bytes (lba * io.blockSize) io.blockSize) (window io'.bytes (lba * io.blockSize) io.blockSize)

/-- The overlay that gives the record at a place another extent. -/
def extentWrite (place : Nat) (extent : RecordExtent) : Write UInt8 :=
  ⟨place + 2, iso9660FileExtentPatch extent.firstSector extent.size⟩

/-- The extent that a record is given last. -/
def lastExtent (patches : List (Nat × RecordExtent)) : Nat → Option RecordExtent :=
  patches.foldl (fun extents patch => Function.update extents patch.1 (some patch.2)) fun _ => none

/-- The same volume on another device. -/
def servedFrom (fs : Iso9660) (io : BlockIo) : Iso9660 := { fs with io := io }

section devices

variable {io io' : BlockIo} {granted : Nat → Bool} {fs : Iso9660} {place lba count : Nat} {name : Text}
  {found : Option RecordLocation} {location : RecordLocation} {data : List UInt8} {extent : RecordExtent}
  {extents : Nat → Option RecordExtent} {patches : List (Nat × RecordExtent)}

theorem block_inside {blockSize totalBlocks x : Nat} (hlba : lba < totalBlocks) (hx : x < lba * blockSize + blockSize) :
    x < totalBlocks * blockSize := by
  have hblocks := Nat.mul_le_mul_right blockSize (show lba + 1 ≤ totalBlocks from hlba)
  rw [Nat.succ_mul] at hblocks
  omega

theorem blocks_apart {blockSize home : Nat} (h : lba ≠ home) :
    home * blockSize + blockSize ≤ lba * blockSize ∨ lba * blockSize + blockSize ≤ home * blockSize := by
  rw [← Nat.succ_mul, ← Nat.succ_mul]
  rcases Nat.lt_or_gt_of_ne h with h | h
  · exact .inr (Nat.mul_le_mul_right _ h)
  · exact .inl (Nat.mul_le_mul_right _ h)

theorem readFullBlocks_one (hpos : 0 < io.blockSize) : io.readFullBlocks lba io.blockSize = .ok data ↔
    lba < io.totalBlocks ∧ window io.bytes (lba * io.blockSize) io.blockSize = data := by
  rw [readFullBlocks_eq_ok, Nat.mod_self, Nat.div_self hpos]
  refine ⟨fun h => ⟨h.2.1, h.2.2⟩, fun h => ⟨by omega, h.1, h.2⟩⟩

theorem record_of_block {bytes : Nat → UInt8} {start blockSize offset length : Nat} (h : offset + length ≤ blockSize) :
    ((window bytes start blockSize).drop offset).take length = window bytes (start + offset) length := by
  have hslice := slice_window bytes start h
  rwa [slice_eq_some (by rwa [length_window]), Option.some.injEq] at hslice

theorem FileRecord.writeFits (h : FileRecord io place) : ∃ lba offset, lba < io.totalBlocks ∧
    place = lba * io.blockSize + offset ∧ offset + 18 ≤ io.blockSize := by
  obtain ⟨lba, offset, info, hlba, hplace, -, hfits, hentry, -⟩ := h
  have hlong := length_of_listedEntry hentry
  rw [length_window] at hlong
  exact ⟨lba, offset, hlba, hplace, by omega⟩

/-- Giving the record of a file another extent changes the block it is in, and no other. -/
theorem blockPatched_write {bytes : Nat → UInt8} (hrecord : FileRecord io place)
    (h : BlockPatched io.blockSize lba extents (window io.bytes (lba * io.blockSize) io.blockSize)
      (window bytes (lba * io.blockSize) io.blockSize)) :
    BlockPatched io.blockSize lba (Function.update extents place (some extent))
      (window io.bytes (lba * io.blockSize) io.blockSize)
      (window (write bytes (extentWrite place extent)) (lba * io.blockSize) io.blockSize) := by
  obtain ⟨home, offset, info, -, hplace, hreaches, hfits, hentry, -⟩ := hrecord
  have hlong := length_of_listedEntry hentry
  rw [length_window] at hlong
  by_cases hhere : lba = home
  · subst hhere hplace
    rw [extentWrite, Nat.add_assoc, window_write_splice _ _ (by rw [length_extentPatch]; omega)]
    rw [← record_of_block hfits] at hentry
    exact h.splice hreaches (getElem?_window _ _ (by omega)) (by rwa [length_window]) hentry
  · have hapart := @blocks_apart lba io.blockSize home hhere
    have hdisjoint : (extentWrite place extent).disjointFrom (lba * io.blockSize) io.blockSize := by
      rw [Write.disjointFrom, Write.stop, extentWrite, length_extentPatch]
      dsimp only
      omega
    rw [window_write_disjoint hdisjoint]
    refine h.elsewhere fun q hq => ?_
    rw [length_window] at hq
    omega

theorem blockPatched_writes (hrecords : ∀ patch ∈ patches, FileRecord io patch.1) :
    BlockPatched io.blockSize lba (lastExtent patches) (window io.bytes (lba * io.blockSize) io.blockSize)
      (window (applyWrites io.bytes (patches.map fun patch => extentWrite patch.1 patch.2)) (lba * io.blockSize)
        io.blockSize) := by
  induction patches using List.reverseRec with
  | nil => exact blockPatched_refl
  | append_singleton patches patch ih =>
      have hfront := ih fun patch hmem => hrecords patch (List.mem_append_left _ hmem)
      rw [lastExtent, List.foldl_append, List.map_append, applyWrites_append]
      exact blockPatched_write (hrecords patch (by simp)) hfront

theorem mem_of_lastExtent (h : lastExtent patches place = some extent) : (place, extent) ∈ patches := by
  induction patches using List.reverseRec with
  | nil => cases h
  | append_singleton patches patch ih =>
      rw [lastExtent, List.foldl_append] at h
      by_cases hplace : place = patch.1
      · subst hplace
        rw [List.foldl_cons, List.foldl_nil, Function.update_self, Option.some.injEq] at h
        rw [← h]
        simp
      · rw [List.foldl_cons, List.foldl_nil, Function.update_of_ne hplace] at h
        exact List.mem_append_left _ (ih h)

/-- A longer device that is written all extents, one after the other. -/
theorem repointed_writes (hblockSize : io'.blockSize = io.blockSize) (hblocks : io.totalBlocks ≤ io'.totalBlocks)
    (hrecords : ∀ patch ∈ patches, FileRecord io patch.1)
    (hbytes : ∀ x < io.totalBlocks * io.blockSize,
      io'.bytes x = applyWrites io.bytes (patches.map fun patch => extentWrite patch.1 patch.2) x) :
    Repointed io io' (lastExtent patches) where
  blockSize_eq := hblockSize
  totalBlocks_le := hblocks
  fileRecord place extent h := hrecords _ (mem_of_lastExtent h)
  block lba hlba := by
    have hsame : window io'.bytes (lba * io.blockSize) io.blockSize = window (applyWrites io.bytes
        (patches.map fun patch => extentWrite patch.1 patch.2)) (lba * io.blockSize) io.blockSize :=
      window_congr fun x _ hx => hbytes x (block_inside hlba hx)
    rw [hsame]
    exact blockPatched_writes hrecords

/-- What the search finds in a block is the record of an entry there. -/
theorem recordAt_findInRecords {fuel offset blockSize : Nat} (hoffset : Reaches data offset)
    (h : findInRecords blockSize lba data name fuel offset = value (some location)) :
    ∃ (place : Nat) (length : UInt8) (info : DirectoryEntry), Reaches data place ∧ data[place]? = some length ∧
      place + length.toNat ≤ data.length ∧ listedEntry ((data.drop place).take length.toNat) = some info ∧
      location.recordOffset = lba * blockSize + place ∧ location.isDir = info.isDir := by
  induction fuel generalizing offset with
  | zero => cases h
  | succ fuel ih =>
      rw [findInRecords] at h
      by_cases hend : data.length ≤ offset
      · rw [if_pos hend] at h
        cases h
      rw [if_neg hend] at h
      obtain ⟨length, hlength, h⟩ := bind_eq_value.mp h
      have hhead := ofOption_eq_value.mp hlength
      by_cases hzero : length = 0
      · rw [if_pos hzero] at h
        cases h
      by_cases hlong : data.length < offset + length.toNat
      · rw [if_neg hzero, if_pos hlong] at h
        cases h
      rw [if_neg hzero, if_neg hlong, slice_eq_some (by omega), ofOption_some, value_bind, parseDirectoryRecord_eq,
        value_bind] at h
      cases hfound : ((recordEntry ((data.drop offset).take length.toNat)).filter fun info =>
          info.name ≠ selfName ∧ info.name ≠ parentName).filter fun info => eqIgnoreAsciiCase info.name name with
      | none =>
          rw [hfound] at h
          exact ih (hoffset.tail ⟨length, hhead, hzero, by omega, rfl⟩) h
      | some info =>
          rw [hfound] at h
          obtain ⟨start, hstart, h⟩ := bind_eq_value.mp h
          cases h
          obtain ⟨whole, hwhole, hsum⟩ := Option.bind_eq_some_iff.mp (someOr_eq_ok.mp (ofExcept_eq_value.mp hstart))
          obtain ⟨-, rfl⟩ := checkedMul_eq_some.mp hwhole
          obtain ⟨-, rfl⟩ := checkedAdd_eq_some.mp hsum
          exact ⟨offset, length, info, hoffset, hhead, by omega, (Option.filter_eq_some_iff.mp hfound).1, rfl, rfl⟩

theorem fileRecord_findInBlocks (hsame : fs.blockSize = fs.io.blockSize) (hpos : 0 < fs.io.blockSize)
    (h : findInBlocks fs name count lba = value (some location)) (hfile : location.isDir = false) :
    FileRecord fs.io location.recordOffset := by
  induction count generalizing lba with
  | zero => cases h
  | succ count ih =>
      obtain ⟨dirData, hread, h⟩ := bind_eq_value.mp h
      obtain ⟨first, hfirst, h⟩ := bind_eq_value.mp h
      have hblock := ofExcept_eq_value.mp hread
      rw [hsame, readFullBlocks_one hpos] at hblock
      obtain ⟨hinside, rfl⟩ := hblock
      cases first with
      | none =>
          obtain ⟨next, -, h⟩ := bind_eq_value.mp h
          exact ih h
      | some first =>
          cases h
          obtain ⟨offset, length, info, hreaches, hlength, hfits, hentry, hplace, hisDir⟩ :=
            recordAt_findInRecords .refl hfirst
          obtain ⟨hlt, -⟩ := List.getElem?_eq_some_iff.mp hlength
          rw [length_window] at hlt hfits
          rw [getElem?_window _ _ hlt, Option.some.injEq] at hlength
          subst hlength
          rw [record_of_block hfits] at hentry
          rw [hplace, hsame]
          exact ⟨lba, offset, info, hinside, rfl, hreaches, hfits, hentry, hisDir.symm.trans hfile⟩

theorem fileRecord_findDirectoryRecord {granted : Nat → Bool} {size : Nat} (hsame : fs.blockSize = fs.io.blockSize)
    (hpos : 0 < fs.io.blockSize) (h : findDirectoryRecord granted fs lba size name = value (some location))
    (hfile : location.isDir = false) : FileRecord fs.io location.recordOffset := by
  obtain ⟨_, -, h⟩ := bind_eq_value.mp h
  obtain ⟨_, -, h⟩ := bind_eq_value.mp h
  obtain ⟨_, -, h⟩ := bind_eq_value.mp h
  obtain ⟨_, -, h⟩ := bind_eq_value.mp h
  exact fileRecord_findInBlocks hsame hpos h hfile

/-- The record that the search for a file ends at is the record of a file. -/
theorem fileRecord_locateFrom {parts : List Text} {extent : Nat × Nat} (hsame : fs.blockSize = fs.io.blockSize)
    (hpos : 0 < fs.io.blockSize) (h : locateFrom granted fs parts extent = value location)
    (hfile : location.isDir = false) : FileRecord fs.io location.recordOffset := by
  induction parts generalizing extent with
  | nil => cases h
  | cons part parts ih =>
      obtain ⟨found, hfound, h⟩ := bind_eq_value.mp h
      cases found with
      | none => cases h
      | some record =>
          dsimp only at h
          split at h
          · cases h
            exact fileRecord_findDirectoryRecord hsame hpos hfound hfile
          · split at h
            · cases h
            · exact ih h

variable (hpatch : Repointed fs.io io extents) (hsame : fs.blockSize = fs.io.blockSize) (hpos : 0 < fs.io.blockSize)

include hpatch hsame

/-- A record whose extent is written anew is the record of a file. -/
theorem isDir_of_repointed {info : DirectoryEntry} (hlocates : Locates fs info location)
    (hextent : extents location.recordOffset = some extent) : info.isDir = false := by
  obtain ⟨home, offset, entry, -, -, -, -, hentry, hfile⟩ := hpatch.fileRecord _ extent hextent
  have hlisted := (hlocates.record hsame).2
  rw [recordOnDisk, hentry] at hlisted
  cases hlisted
  exact hfile

theorem repoint_of_isDir {info : DirectoryEntry} (hlocates : Locates fs info location) (hdir : location.isDir = true) :
    location.repoint extents = location := by
  rw [RecordLocation.repoint]
  cases hextent : extents location.recordOffset with
  | none => rfl
  | some extent =>
      have hfile := isDir_of_repointed hpatch hsame hlocates hextent
      rw [hlocates.isDir, hfile] at hdir
      cases hdir

include hpos

theorem readFullBlocks_patched (hread : fs.io.readFullBlocks lba fs.blockSize = .ok data) :
    data = window fs.io.bytes (lba * fs.io.blockSize) fs.io.blockSize ∧ lba < fs.io.totalBlocks ∧
      (fs.servedFrom io).io.readFullBlocks lba (fs.servedFrom io).blockSize =
        .ok (window io.bytes (lba * fs.io.blockSize) fs.io.blockSize) := by
  rw [hsame, readFullBlocks_one hpos] at hread
  obtain ⟨hinside, rfl⟩ := hread
  have hblockSize : (fs.servedFrom io).blockSize = io.blockSize := hsame.trans hpatch.blockSize_eq.symm
  refine ⟨rfl, hinside, ?_⟩
  rw [hblockSize, ← hpatch.blockSize_eq]
  exact (readFullBlocks_one (hpatch.blockSize_eq ▸ hpos)).mpr ⟨hinside.trans_le hpatch.totalBlocks_le, rfl⟩

theorem findInBlocks_patched (hlba : lba < 2 ^ 32) (h : findInBlocks fs name count lba = value found) :
    findInBlocks (fs.servedFrom io) name count lba = value (found.map (RecordLocation.repoint extents)) := by
  induction count generalizing lba with
  | zero =>
      cases h
      rfl
  | succ count ih =>
      obtain ⟨dirData, hread, h⟩ := bind_eq_value.mp h
      obtain ⟨first, hfirst, h⟩ := bind_eq_value.mp h
      obtain ⟨rfl, hinside, hnew⟩ := readFullBlocks_patched hpatch hsame hpos (ofExcept_eq_value.mp hread)
      have hblock : BlockPatched fs.blockSize lba extents (window fs.io.bytes (lba * fs.io.blockSize) fs.io.blockSize)
          (window io.bytes (lba * fs.io.blockSize) fs.io.blockSize) := by
        rw [hsame]
        exact hpatch.block lba hinside
      rw [length_window] at hfirst
      have hfind : findInRecords (fs.servedFrom io).blockSize lba (window io.bytes (lba * fs.io.blockSize) fs.io.blockSize) name
          fs.io.blockSize 0 = value (first.map (RecordLocation.repoint extents)) := by
        have hblocks := @findInRecords_patched _ _ 0 fs.io.blockSize lba name extents fs hblock hlba
          (by rw [length_window, hsame]) .refl
        rwa [hfirst, value_bind] at hblocks
      rw [findInBlocks, hnew, ofExcept_ok, value_bind, length_window, hfind, value_bind]
      cases first with
      | some first =>
          cases h
          rfl
      | none =>
          obtain ⟨next, hnext, h⟩ := bind_eq_value.mp h
          obtain ⟨hfits, rfl⟩ := checkedAdd_eq_some.mp (ofOption_eq_value.mp hnext)
          rw [Option.map_none]
          dsimp only
          rw [hnext, value_bind]
          exact ih hfits h

theorem findDirectoryRecord_patched {length : Nat} (hlba : lba < 2 ^ 32)
    (h : findDirectoryRecord granted fs lba length name = value found) :
    findDirectoryRecord granted (fs.servedFrom io) lba length name = value (found.map (RecordLocation.repoint extents)) := by
  obtain ⟨sum, hsum, h⟩ := bind_eq_value.mp h
  obtain ⟨last, hlast, h⟩ := bind_eq_value.mp h
  obtain ⟨blocks, hblocks, h⟩ := bind_eq_value.mp h
  obtain ⟨_, halloc, h⟩ := bind_eq_value.mp h
  have hfound := findInBlocks_patched hpatch hsame hpos hlba h
  exact bind_eq_value.mpr ⟨sum, hsum, bind_eq_value.mpr ⟨last, hlast, bind_eq_value.mpr ⟨blocks, hblocks,
    bind_eq_value.mpr ⟨_, halloc, hfound⟩⟩⟩⟩

/-- The search for a path ends at the same record, with its extent as it is now. -/
theorem locateFrom_patched {parts : List Text} {start : Nat × Nat} (hlba : start.1 < 2 ^ 32)
    (h : locateFrom granted fs parts start = value location) :
    locateFrom granted (fs.servedFrom io) parts start = value (location.repoint extents) := by
  induction parts generalizing start with
  | nil => cases h
  | cons part parts ih =>
      obtain ⟨found, hfound, h⟩ := bind_eq_value.mp h
      have hfound' := findDirectoryRecord_patched hpatch hsame hpos hlba hfound
      rw [locateFrom, hfound', value_bind]
      cases found with
      | none => cases h
      | some record =>
          obtain ⟨info, hlocates, -⟩ := findDirectoryRecord_locates hlba hfound
          rw [Option.map_some]
          dsimp only at h ⊢
          by_cases hlast : parts = []
          · rw [if_pos hlast] at h ⊢
            cases h
            rfl
          · rw [if_neg hlast] at h ⊢
            by_cases hdir : record.isDir = true
            · rw [repoint_of_isDir hpatch hsame hlocates hdir, if_neg (not_not.mpr hdir)]
              rw [if_neg (not_not.mpr hdir)] at h
              exact ih record.extentLba_lt h
            · rw [if_pos hdir] at h
              cases h

theorem extentRecords_patched (h : (extentRecords fs count lba).Returns) : (extentRecords (fs.servedFrom io) count lba).Returns := by
  induction count generalizing lba with
  | zero => exact returns_pure
  | succ count ih =>
      obtain ⟨records, h⟩ := h
      obtain ⟨dirData, hread, h⟩ := bind_eq_value.mp h
      obtain ⟨next, hnext, h⟩ := bind_eq_value.mp h
      obtain ⟨rest, hrest, -⟩ := bind_eq_value.mp h
      obtain ⟨-, -, hnew⟩ := readFullBlocks_patched hpatch hsame hpos (ofExcept_eq_value.mp hread)
      obtain ⟨rest', hrest'⟩ := ih ⟨rest, hrest⟩
      rw [extentRecords, hnew, ofExcept_ok, value_bind, hnext, value_bind, hrest', value_bind]
      exact returns_pure

theorem directoryRecords_patched {length : Nat} (h : (directoryRecords granted fs lba length).Returns) :
    (directoryRecords granted (fs.servedFrom io) lba length).Returns := by
  obtain ⟨records, h⟩ := h
  obtain ⟨sum, hsum, h⟩ := bind_eq_value.mp h
  obtain ⟨last, hlast, h⟩ := bind_eq_value.mp h
  obtain ⟨blocks, hblocks, h⟩ := bind_eq_value.mp h
  obtain ⟨_, halloc, h⟩ := bind_eq_value.mp h
  obtain ⟨records', hrecords'⟩ := extentRecords_patched hpatch hsame hpos ⟨records, h⟩
  exact ⟨records', bind_eq_value.mpr ⟨sum, hsum, bind_eq_value.mpr ⟨last, hlast, bind_eq_value.mpr ⟨blocks, hblocks,
    bind_eq_value.mpr ⟨_, halloc, hrecords'⟩⟩⟩⟩⟩

/-- A name that is found in a directory is found there on the patched volume, at the same record. -/
theorem lookup_patched {dir dir' info : DirectoryEntry} (hdir : dir.startCluster < 2 ^ 32) (hextent : dir'.extent = dir.extent)
    (hisDir : dir'.isDir = dir.isDir) (h : lookup (listings granted fs) name dir = value info)
    (hfound : findDirectoryRecord granted fs dir.startCluster dir.size name = value (some location)) :
    ∃ info', lookup (listings granted (fs.servedFrom io)) name dir' = value info' ∧
      Locates (fs.servedFrom io) info' (location.repoint extents) := by
  obtain ⟨hopen, records, hrecords, -⟩ := lookup_listings.mp h
  rw [recordsAt_extent hdir] at hrecords
  obtain ⟨records', hrecords'⟩ := directoryRecords_patched hpatch hsame hpos ⟨records, hrecords⟩
  have hfound' := findDirectoryRecord_patched hpatch hsame hpos hdir hfound
  obtain ⟨found, hsearch, hrel⟩ := @findDirectoryRecord_eq granted (fs.servedFrom io) _ _ name records' hdir hrecords'
  cases hsearch.symm.trans hfound'
  cases hentry : findEntry name (records'.filterMap listedEntry) with
  | none =>
      rw [hentry] at hrel
      cases hrel
  | some info' =>
      rw [hentry] at hrel
      refine ⟨info', lookup_listings.mpr ⟨hisDir.trans hopen, records', ?_, hentry⟩, Option.rel_some_some.mp hrel⟩
      rw [hextent, recordsAt_extent hdir, hrecords']

/-- A path that is resolved component by component is resolved on the patched volume, at the same record. -/
theorem walk_patched {parts : List Text} {dir dir' info : DirectoryEntry} (hparts : parts ≠ [])
    (hdir : dir.startCluster < 2 ^ 32) (hextent : dir'.extent = dir.extent) (hisDir : dir'.isDir = dir.isDir)
    (h : walk (listings granted fs) parts dir = value info)
    (hlocate : locateFrom granted fs parts dir.extent = value location) :
    ∃ info', walk (listings granted (fs.servedFrom io)) parts dir' = value info' ∧
      Locates (fs.servedFrom io) info' (location.repoint extents) := by
  induction parts generalizing dir dir' with
  | nil => exact absurd rfl hparts
  | cons part parts ih =>
      obtain ⟨next, hlookup, hrest⟩ := bind_eq_value.mp h
      obtain ⟨found, hfound, hbelow⟩ := bind_eq_value.mp hlocate
      cases found with
      | none => cases hbelow
      | some record =>
          obtain ⟨next', hlookup', hlocates'⟩ := lookup_patched hpatch hsame hpos hdir hextent hisDir hlookup hfound
          dsimp only at hbelow
          by_cases hlast : parts = []
          · rw [if_pos hlast] at hbelow
            subst hlast
            cases hbelow
            refine ⟨next', ?_, hlocates'⟩
            rw [walk_singleton]
            exact hlookup'
          · rw [if_neg hlast] at hbelow
            by_cases hopen : record.isDir = true
            · rw [if_neg (not_not.mpr hopen)] at hbelow
              obtain ⟨records, hrecords⟩ := (lookup_listings.mp hlookup).2
              rw [recordsAt_extent hdir] at hrecords
              obtain ⟨found, hsearch, hrel⟩ := @findDirectoryRecord_eq granted fs _ _ part records hdir hrecords.1
              cases hsearch.symm.trans hfound
              rw [hrecords.2] at hrel
              have hlocates := Option.rel_some_some.mp hrel
              rw [repoint_of_isDir hpatch hsame hlocates hopen] at hlocates'
              have hnext : next.startCluster < 2 ^ 32 := hlocates.extentLba ▸ record.extentLba_lt
              rw [hlocates.extent_eq] at hbelow
              obtain ⟨info', hwalk, hinfo⟩ := ih hlast hnext (hlocates'.extent_eq.symm.trans hlocates.extent_eq)
                (hlocates'.isDir.symm.trans hlocates.isDir) hrest hbelow
              exact ⟨info', bind_eq_value.mpr ⟨next', hlookup', hwalk⟩, hinfo⟩
            · rw [if_pos hopen] at hbelow
              cases hbelow

/-- A path that `stat` resolves is resolved on the patched volume, to the same record with its extent as it is now. -/
theorem stat_patched {path : Text} {info : DirectoryEntry} (hparts : pathParts path ≠ [])
    (hdots : ∀ part ∈ pathParts path, part ≠ dot ∧ part ≠ dotDot) (h : stat (listings granted fs) path = value info)
    (hlocation : directoryRecordLocation granted fs path = value location) :
    Locates fs info location ∧ ∃ info', stat (listings granted (fs.servedFrom io)) path = value info' ∧
      Locates (fs.servedFrom io) info' (location.repoint extents) := by
  have hcomponents := pathParts_eq_components hdots
  have hne : components path ≠ [] := hcomponents ▸ hparts
  rw [stat_eq_walk hne, ← hcomponents] at h
  rw [directoryRecordLocation, if_neg hparts] at hlocation
  obtain ⟨-, found, hfound, hlocates⟩ := @locateFrom_of_walk granted fs info fs.rootEntry _ hparts fs.rootLba_lt h
  cases hfound.symm.trans hlocation
  obtain ⟨info', hwalk, hlocates'⟩ := @walk_patched _ granted fs _ _ hpatch hsame hpos (pathParts path) fs.rootEntry
    (fs.servedFrom io).rootEntry info hparts fs.rootLba_lt rfl rfl h hlocation
  refine ⟨hlocates, info', ?_, hlocates'⟩
  rw [stat_eq_walk hne, ← hcomponents]
  exact hwalk

omit hpatch hsame hpos

/-- A search that ends at a record has had its buffer. -/
theorem granted_of_locateFrom {parts : List Text} {start : Nat × Nat}
    (h : locateFrom granted fs parts start = value location) : granted fs.blockSize = true := by
  cases parts with
  | nil => cases h
  | cons part parts =>
      obtain ⟨found, hfound, -⟩ := bind_eq_value.mp h
      obtain ⟨_, -, hfound⟩ := bind_eq_value.mp hfound
      obtain ⟨_, -, hfound⟩ := bind_eq_value.mp hfound
      obtain ⟨_, -, hfound⟩ := bind_eq_value.mp hfound
      obtain ⟨_, halloc, -⟩ := bind_eq_value.mp hfound
      rw [allocBuffer] at halloc
      by_contra hrefused
      rw [if_neg hrefused] at halloc
      cases halloc

/-- A device that is the same in its first 100 blocks opens as the same volume. -/
theorem scanDescriptors_over (hblock : io.blockSize = 2048) (hblock' : io'.blockSize = 2048)
    (hblocks : io.totalBlocks ≤ io'.totalBlocks)
    (hbytes : ∀ x < 100 * 2048, x < io.totalBlocks * 2048 → io'.bytes x = io.bytes x)
    (hcount : lba + count ≤ 100) (h : scanDescriptors io count lba = value fs) :
    scanDescriptors io' count lba = value (fs.servedFrom io') := by
  induction count generalizing lba with
  | zero => cases h
  | succ count ih =>
      obtain ⟨vd, hread, h⟩ := bind_eq_value.mp h
      have hvd := ofExcept_eq_value.mp hread
      rw [← hblock, readFullBlocks_one (by omega)] at hvd
      obtain ⟨hinside, rfl⟩ := hvd
      have hread' : io'.readFullBlocks lba 2048 = .ok (window io.bytes (lba * io.blockSize) io.blockSize) := by
        rw [← hblock', readFullBlocks_one (by omega), hblock', hblock]
        exact ⟨hinside.trans_le hblocks, window_congr fun x _ hx => hbytes x (by omega) (block_inside hinside hx)⟩
      obtain ⟨id, hid, h⟩ := bind_eq_value.mp h
      rw [scanDescriptors, hread', ofExcept_ok, value_bind, hid, value_bind]
      by_cases hother : id ≠ standardId
      · rw [if_pos hother] at h ⊢
        exact ih (by omega) h
      rw [if_neg hother] at h ⊢
      obtain ⟨typeCode, htype, h⟩ := bind_eq_value.mp h
      rw [htype, value_bind]
      by_cases hprimary : typeCode = primaryDescriptor
      · rw [if_pos hprimary] at h ⊢
        rw [ofDescriptor] at h ⊢
        split at h
        · cases h
          rfl
        · cases h
      rw [if_neg hprimary] at h ⊢
      by_cases hlast : typeCode = setTerminator
      · rw [if_pos hlast] at h
        cases h
      · rw [if_neg hlast] at h ⊢
        exact ih (by omega) h

theorem openChecked_over (hblock' : io'.blockSize = 2048) (hblocks : io.totalBlocks ≤ io'.totalBlocks)
    (hbytes : ∀ x < 100 * 2048, x < io.totalBlocks * 2048 → io'.bytes x = io.bytes x) (h : openChecked granted io = value fs) :
    openChecked granted io' = value (fs.servedFrom io') := by
  have hblock := (openChecked_io h).2
  obtain ⟨_, halloc, h⟩ := bind_eq_value.mp h
  rw [if_neg (not_not.mpr hblock)] at h
  rw [openChecked, halloc, value_bind, if_neg (not_not.mpr hblock')]
  exact scanDescriptors_over hblock hblock' hblocks hbytes (Nat.le_refl _) h

end devices

end NextBoot.Fs.Iso9660
