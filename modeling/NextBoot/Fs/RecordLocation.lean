import NextBoot.Fs.IsoScan

namespace NextBoot.Fs.Iso9660

open Words Bytes Strings Results Faults Outcome BlockStore Paths Scan

/-- Where a directory record lies on its volume, and what it says of its file. -/
structure RecordLocation where
  recordOffset : Nat
  extentLba : Nat
  dataLength : Nat
  isDir : Bool
  extentLba_lt : extentLba < 2 ^ 32
deriving Repr

def RecordLocation.extent (location : RecordLocation) : Nat × Nat := (location.extentLba, location.dataLength)

/-- The search of one block for the first record with a name, from a position on. -/
def findInRecords (blockSize currentLba : Nat) (dirData : List UInt8) (name : Text) :
    Nat → Nat → Outcome FsError (Option RecordLocation)
  | 0, _ => pure none
  | fuel + 1, offset =>
      if dirData.length ≤ offset then pure none
      else do
        let length : UInt8 ← ofOption dirData[offset]?
        if length = 0 then pure none
        else if dirData.length < offset + length.toNat then pure none
        else do
          let record ← ofOption (slice dirData offset length.toNat)
          let info ← parseDirectoryRecord record
          match (info.filter fun info => info.name ≠ selfName ∧ info.name ≠ parentName).filter
            fun info => eqIgnoreAsciiCase info.name name with
          | some info => do
              let recordOffset ← ofExcept (someOr
                ((checkedMul 64 currentLba blockSize).bind fun start => checkedAdd 64 start offset) .corrupted)
              pure (some ⟨recordOffset, info.startCluster % 2 ^ 32, info.size % 2 ^ 32, info.isDir,
                Nat.mod_lt _ (by decide)⟩)
          | none => findInRecords blockSize currentLba dirData name fuel (offset + length.toNat)

def findInBlocks (fs : Iso9660) (name : Text) : Nat → Nat → Outcome FsError (Option RecordLocation)
  | 0, _ => pure none
  | count + 1, lba => do
      let dirData ← ofExcept (fs.io.readFullBlocks lba fs.blockSize)
      match ← findInRecords fs.blockSize lba dirData name dirData.length 0 with
      | some location => pure (some location)
      | none => do
          let next ← ofOption (checkedAdd 32 lba 1)
          findInBlocks fs name count next

variable (granted : Nat → Bool) (fs : Iso9660)

def findDirectoryRecord (lba size : Nat) (name : Text) : Outcome FsError (Option RecordLocation) := do
  let sum ← ofOption (checkedAdd 64 size fs.blockSize)
  let last ← ofOption (checkedSub sum 1)
  let blocks ← ofOption (checkedDiv last fs.blockSize)
  allocBuffer granted fs.blockSize
  findInBlocks fs name (max blocks 1) lba

/-- The search from a directory for a record below it, a part of the path after the other. -/
def locateFrom : List Text → Nat × Nat → Outcome FsError RecordLocation
  | [], _ => error .invalidPath
  | part :: parts, extent => do
      match ← findDirectoryRecord granted fs extent.1 extent.2 part with
      | none => error (if parts = [] then .fileNotFound else .directoryNotFound)
      | some record =>
          if parts = [] then pure record
          else if ¬ record.isDir then error .notDirectory
          else locateFrom parts record.extent

def directoryRecordLocation (path : Text) : Outcome FsError RecordLocation :=
  if pathParts path = [] then error .invalidPath
  else locateFrom granted fs (pathParts path) (fs.rootLba, fs.rootSize)

/-- The record at a position of the device, as long as its first byte says. -/
def recordOnDisk (offset : Nat) : List UInt8 := window fs.io.bytes offset (fs.io.bytes offset).toNat

/-- A location of the record that a listing shows as an entry. The position is one on the device where the blocks of the
volume are those of the device. -/
structure Locates (info : DirectoryEntry) (location : RecordLocation) : Prop where
  extentLba : location.extentLba = info.startCluster
  dataLength : location.dataLength = info.size
  isDir : location.isDir = info.isDir
  record : fs.blockSize = fs.io.blockSize →
    location.recordOffset + (recordOnDisk fs location.recordOffset).length ≤ fs.io.totalBlocks * fs.io.blockSize ∧
      listedEntry (recordOnDisk fs location.recordOffset) = some info

/-- All directories that a path leads through can be read to their ends. -/
def ReadableWay : List Text → Nat × Nat → Prop
  | [], _ => True
  | part :: parts, extent => (recordsAt granted fs extent).Returns ∧
      ∀ location, findDirectoryRecord granted fs extent.1 extent.2 part = value (some location) →
        ReadableWay parts location.extent

variable {granted : Nat → Bool} {fs : Iso9660} {lba size count fuel offset : Nat} {data record : List UInt8}
  {name : Text} {info dir : DirectoryEntry} {location : RecordLocation} {parts : List Text}

theorem Locates.extent_eq (h : Locates fs info location) : location.extent = info.extent := by
  rw [RecordLocation.extent, h.extentLba, h.dataLength]
  rfl

theorem findEntry_cons {records : List (List UInt8)} :
    findEntry name ((record :: records).filterMap listedEntry) =
      ((listedEntry record).filter fun info => eqIgnoreAsciiCase info.name name).or
        (findEntry name (records.filterMap listedEntry)) := by
  rw [List.filterMap_cons]
  cases listedEntry record with
  | none => rfl
  | some info =>
      rw [findEntry, List.find?_cons]
      by_cases hname : eqIgnoreAsciiCase info.name name = true
      · simp [Option.filter, hname]
      · simp [Option.filter, hname, findEntry]

theorem findEntry_append {records more : List (List UInt8)} :
    findEntry name ((records ++ more).filterMap listedEntry) =
      (findEntry name (records.filterMap listedEntry)).or (findEntry name (more.filterMap listedEntry)) := by
  rw [List.filterMap_append, findEntry, List.find?_append, findEntry, findEntry]

theorem extent_lt_of_listedEntry (h : listedEntry record = some info) :
    info.startCluster < 2 ^ 32 ∧ info.size < 2 ^ 32 := by
  obtain ⟨hentry, -⟩ := Option.filter_eq_some_iff.mp h
  obtain ⟨hlba, hsize, -⟩ := fields_of_recordEntry hentry
  exact ⟨readLe_lt hlba, readLe_lt hsize⟩

/-- The place of a record in a block is its place on the device. -/
theorem locates_of_block (hread : fs.io.readFullBlocks lba fs.blockSize = .ok data) {length : UInt8}
    (hhead : data[offset]? = some length) (hfits : offset + length.toNat ≤ data.length)
    (hentry : listedEntry ((data.drop offset).take length.toNat) = some info) :
    Locates fs info ⟨lba * fs.blockSize + offset, info.startCluster % 2 ^ 32, info.size % 2 ^ 32, info.isDir,
      Nat.mod_lt _ (by decide)⟩ := by
  obtain ⟨hcluster, hdataLength⟩ := extent_lt_of_listedEntry hentry
  refine ⟨Nat.mod_eq_of_lt hcluster, Nat.mod_eq_of_lt hdataLength, rfl, fun hsame => ?_⟩
  dsimp only
  obtain ⟨hsize, hinside, rfl⟩ := readFullBlocks_eq_ok.mp hread
  rw [length_window] at hfits
  have hoffset : offset < fs.blockSize := by
    obtain ⟨hlt, -⟩ := List.getElem?_eq_some_iff.mp hhead
    rwa [length_window] at hlt
  rw [getElem?_window _ _ hoffset, Option.some.injEq, ← hsame] at hhead
  have hrecord : recordOnDisk fs (lba * fs.blockSize + offset) =
      window fs.io.bytes (lba * fs.blockSize + offset) length.toNat := by
    rw [recordOnDisk, hhead]
  have hslice := slice_window fs.io.bytes (lba * fs.io.blockSize) hfits
  rw [slice_eq_some (by rwa [length_window]), Option.some.injEq, ← hsame] at hslice
  rw [← hsame, hslice] at hentry
  rw [hrecord, length_window]
  refine ⟨?_, hentry⟩
  rw [← hsame, Nat.div_self (by omega)] at hinside
  calc lba * fs.blockSize + offset + length.toNat
      ≤ lba * fs.blockSize + fs.blockSize := by omega
    _ = (lba + 1) * fs.blockSize := (Nat.succ_mul lba fs.blockSize).symm
    _ ≤ fs.io.totalBlocks * fs.io.blockSize := by
        rw [← hsame]
        exact Nat.mul_le_mul_right _ hinside

theorem recordOffset_eq (hlba : lba < 2 ^ 32) (hoffset : offset < fs.blockSize) :
    someOr ((checkedMul 64 lba fs.blockSize).bind fun start => checkedAdd 64 start offset) FsError.corrupted =
      .ok (lba * fs.blockSize + offset) := by
  have hsize := fs.blockSize_lt
  have hstart : lba * fs.blockSize ≤ (2 ^ 32 - 1) * (2 ^ 16 - 1) := Nat.mul_le_mul (by omega) (by omega)
  rw [checkedMul_eq_some.mpr ⟨by omega, rfl⟩, Option.bind_some, checkedAdd_eq_some.mpr ⟨by omega, rfl⟩]
  rfl

/-- The search of a block is the search of its listing. -/
theorem findInRecords_eq (hlba : lba < 2 ^ 32) (hread : fs.io.readFullBlocks lba fs.blockSize = .ok data) :
    ∃ found, findInRecords fs.blockSize lba data name fuel offset = value found ∧
      Option.Rel (Locates fs) (findEntry name ((blockRecords data fuel offset).filterMap listedEntry)) found := by
  induction fuel generalizing offset with
  | zero => exact ⟨none, rfl, .none⟩
  | succ fuel ih =>
      rw [findInRecords, blockRecords]
      by_cases hend : data.length ≤ offset
      · rw [if_pos hend, List.getElem?_eq_none hend]
        exact ⟨none, rfl, .none⟩
      · have hhead := List.getElem?_eq_getElem (show offset < data.length by omega)
        rw [if_neg hend, hhead, ofOption_some, value_bind]
        generalize data[offset] = length at hhead
        dsimp only
        by_cases hstop : length = 0 ∨ data.length < offset + length.toNat
        · rw [if_pos hstop]
          refine ⟨none, ?_, .none⟩
          split
          · rfl
          · next hzero => rw [if_pos (hstop.resolve_left hzero)]; rfl
        · obtain ⟨hzero, hlong⟩ := not_or.mp hstop
          rw [if_neg hstop, if_neg hzero, if_neg hlong, slice_eq_some (by omega), ofOption_some, value_bind,
            parseDirectoryRecord_eq, value_bind, findEntry_cons, listedEntry]
          cases hinfo : ((recordEntry ((data.drop offset).take length.toNat)).filter fun info =>
              info.name ≠ selfName ∧ info.name ≠ parentName).filter fun info => eqIgnoreAsciiCase info.name name with
          | none => exact ih
          | some info =>
              obtain ⟨hentry, -⟩ := Option.filter_eq_some_iff.mp hinfo
              have hdata : data.length = fs.blockSize := by
                obtain ⟨-, -, rfl⟩ := readFullBlocks_eq_ok.mp hread
                exact length_window _ _ _
              dsimp only
              rw [recordOffset_eq hlba (by omega), ofExcept_ok, value_bind]
              exact ⟨_, rfl, .some (locates_of_block hread hhead (by omega) hentry)⟩

theorem findInBlocks_eq {records : List (List UInt8)} (hlba : lba < 2 ^ 32)
    (h : extentRecords fs count lba = value records) :
    ∃ found, findInBlocks fs name count lba = value found ∧
      Option.Rel (Locates fs) (findEntry name (records.filterMap listedEntry)) found := by
  induction count generalizing lba records with
  | zero =>
      cases h
      exact ⟨none, rfl, .none⟩
  | succ count ih =>
      obtain ⟨dirData, hread, h⟩ := bind_eq_value.mp h
      obtain ⟨next, hnext, h⟩ := bind_eq_value.mp h
      obtain ⟨rest, hrest, h⟩ := bind_eq_value.mp h
      cases h
      obtain ⟨hfits, rfl⟩ := checkedAdd_eq_some.mp (ofOption_eq_value.mp hnext)
      obtain ⟨found, hfound, hrel⟩ :=
        @findInRecords_eq fs lba dirData.length 0 dirData name hlba (ofExcept_eq_value.mp hread)
      rw [findInBlocks, hread, value_bind, hfound, value_bind, findEntry_append]
      generalize findEntry name ((blockRecords dirData dirData.length 0).filterMap listedEntry) = entry at hrel ⊢
      cases hrel with
      | some hlocates => exact ⟨_, rfl, .some hlocates⟩
      | none =>
          dsimp only
          rw [hnext, value_bind]
          exact ih hfits hrest

theorem findInBlocks_locates (hlba : lba < 2 ^ 32) (h : findInBlocks fs name count lba = value (some location)) :
    ∃ info, Locates fs info location ∧ eqIgnoreAsciiCase info.name name = true := by
  induction count generalizing lba with
  | zero => cases h
  | succ count ih =>
      obtain ⟨dirData, hread, h⟩ := bind_eq_value.mp h
      obtain ⟨found, hfound, hrel⟩ :=
        @findInRecords_eq fs lba dirData.length 0 dirData name hlba (ofExcept_eq_value.mp hread)
      rw [hfound, value_bind] at h
      generalize hfind : findEntry name ((blockRecords dirData dirData.length 0).filterMap listedEntry) = entry at hrel
      cases hrel with
      | some hlocates =>
          cases h
          exact ⟨_, hlocates, (findEntry_eq_some hfind).2.1⟩
      | none =>
          obtain ⟨next, hnext, h⟩ := bind_eq_value.mp h
          obtain ⟨hfits, rfl⟩ := checkedAdd_eq_some.mp (ofOption_eq_value.mp hnext)
          exact ih hfits h

/-- A directory that can be read is searched to the entry that its listing finds. -/
theorem findDirectoryRecord_eq {records : List (List UInt8)} (hlba : lba < 2 ^ 32)
    (h : directoryRecords granted fs lba size = value records) :
    ∃ found, findDirectoryRecord granted fs lba size name = value found ∧
      Option.Rel (Locates fs) (findEntry name (records.filterMap listedEntry)) found := by
  obtain ⟨sum, hsum, h⟩ := bind_eq_value.mp h
  obtain ⟨last, hlast, h⟩ := bind_eq_value.mp h
  obtain ⟨blocks, hblocks, h⟩ := bind_eq_value.mp h
  obtain ⟨_, halloc, h⟩ := bind_eq_value.mp h
  rw [findDirectoryRecord, hsum, value_bind, hlast, value_bind, hblocks, value_bind, halloc, value_bind]
  exact findInBlocks_eq hlba h

theorem findDirectoryRecord_locates (hlba : lba < 2 ^ 32)
    (h : findDirectoryRecord granted fs lba size name = value (some location)) :
    ∃ info, Locates fs info location ∧ eqIgnoreAsciiCase info.name name = true := by
  obtain ⟨_, -, h⟩ := bind_eq_value.mp h
  obtain ⟨_, -, h⟩ := bind_eq_value.mp h
  obtain ⟨_, -, h⟩ := bind_eq_value.mp h
  obtain ⟨_, -, h⟩ := bind_eq_value.mp h
  exact findInBlocks_locates hlba h

theorem lookup_listings {entry : DirectoryEntry} :
    lookup (listings granted fs) name dir = value entry ↔ dir.isDir = true ∧
      ∃ records, recordsAt granted fs dir.extent = value records ∧
        findEntry name (records.filterMap listedEntry) = some entry := by
  rw [lookup_eq_value]
  simp only [listEntry_eq_value]
  have hlisting : (listings granted fs).list dir.extent = listAt granted fs dir.extent := rfl
  constructor
  · rintro ⟨entries, ⟨hisDir, hlist⟩, hfind⟩
    rw [hlisting, listAt, readDirectory_eq] at hlist
    obtain ⟨records, hrecords, hentries⟩ := bind_eq_value.mp hlist
    cases hentries
    exact ⟨hisDir, records, hrecords, hfind⟩
  · rintro ⟨hisDir, records, hrecords, hfind⟩
    refine ⟨_, ⟨hisDir, ?_⟩, hfind⟩
    rw [hlisting, listAt, readDirectory_eq]
    exact bind_eq_value.mpr ⟨records, hrecords, rfl⟩

theorem recordsAt_extent (hdir : dir.startCluster < 2 ^ 32) :
    recordsAt granted fs dir.extent = directoryRecords granted fs dir.startCluster dir.size := by
  rw [recordsAt, DirectoryEntry.extent, Nat.mod_eq_of_lt hdir]

/-- A path that `stat` resolves leads to a record, through directories that can be read. -/
theorem locateFrom_of_walk (hparts : parts ≠ []) (hdir : dir.startCluster < 2 ^ 32)
    (h : walk (listings granted fs) parts dir = value info) :
    ReadableWay granted fs parts dir.extent ∧
      ∃ location, locateFrom granted fs parts dir.extent = value location ∧ Locates fs info location := by
  induction parts generalizing dir with
  | nil => exact absurd rfl hparts
  | cons part parts ih =>
      obtain ⟨next, hlookup, hrest⟩ := bind_eq_value.mp h
      obtain ⟨-, records, hrecords, hfind⟩ := lookup_listings.mp hlookup
      rw [recordsAt_extent hdir] at hrecords
      obtain ⟨found, hfound, hrel⟩ := @findDirectoryRecord_eq granted fs _ _ part records hdir hrecords
      rw [hfind] at hrel
      cases found with
      | none => cases hrel
      | some record =>
          have hlocates := Option.rel_some_some.mp hrel
          have hnext : next.startCluster < 2 ^ 32 := hlocates.extentLba ▸ record.extentLba_lt
          have hway : ∀ hbelow : ReadableWay granted fs parts next.extent,
              ReadableWay granted fs (part :: parts) dir.extent := by
            intro hbelow
            rw [ReadableWay, recordsAt_extent hdir]
            refine ⟨⟨records, hrecords⟩, fun location hlocation => ?_⟩
            cases hfound.symm.trans hlocation
            rwa [hlocates.extent_eq]
          have hsearch : findDirectoryRecord granted fs dir.extent.1 dir.extent.2 part = value (some record) := hfound
          rw [locateFrom, hsearch, value_bind]
          dsimp only
          by_cases hlast : parts = []
          · rw [if_pos hlast]
            subst hlast
            cases hrest
            exact ⟨hway trivial, record, rfl, hlocates⟩
          · rw [if_neg hlast]
            obtain ⟨hbelow, location, hlocation, hlocates'⟩ := ih hlast hnext hrest
            obtain ⟨first, rest, rfl⟩ := List.exists_cons_of_ne_nil hlast
            obtain ⟨_, hlookup', -⟩ := bind_eq_value.mp hrest
            rw [hlocates.isDir, if_neg (not_not.mpr (lookup_listings.mp hlookup').1), hlocates.extent_eq]
            exact ⟨hway hbelow, location, hlocation, hlocates'⟩

/-- The record at the end of a path is shown by the listing of its directory, and `stat` reports what is shown unless a
directory on the way cannot be read to its end. -/
theorem walk_of_locateFrom (hdir : dir.startCluster < 2 ^ 32) (hisDir : dir.isDir = true)
    (h : locateFrom granted fs parts dir.extent = value location) :
    ∃ info, Locates fs info location ∧ (∃ name ∈ parts.getLast?, eqIgnoreAsciiCase info.name name = true) ∧
      (ReadableWay granted fs parts dir.extent → walk (listings granted fs) parts dir = value info) := by
  induction parts generalizing dir with
  | nil => cases h
  | cons part parts ih =>
      obtain ⟨found, hfound, hstep⟩ := bind_eq_value.mp h
      cases found with
      | none => cases hstep
      | some record =>
          dsimp only at hstep
          -- the record that the search finds, seen in the listing where there is one
          have hentry : ∃ next, Locates fs next record ∧ eqIgnoreAsciiCase next.name part = true ∧
              ((recordsAt granted fs dir.extent).Returns → lookup (listings granted fs) part dir = value next) := by
            by_cases hreads : (recordsAt granted fs dir.extent).Returns
            · obtain ⟨records, hrecords⟩ := hreads
              have hrecords' := hrecords
              rw [recordsAt_extent hdir] at hrecords'
              obtain ⟨found, hfound', hrel⟩ := @findDirectoryRecord_eq granted fs _ _ part records hdir hrecords'
              cases hfound'.symm.trans hfound
              cases hfind : findEntry part (records.filterMap listedEntry) with
              | none =>
                  rw [hfind] at hrel
                  cases hrel
              | some next =>
                  rw [hfind] at hrel
                  exact ⟨next, Option.rel_some_some.mp hrel, (findEntry_eq_some hfind).2.1,
                    fun _ => lookup_listings.mpr ⟨hisDir, records, hrecords, hfind⟩⟩
            · obtain ⟨next, hnext, hname⟩ := findDirectoryRecord_locates hdir hfound
              exact ⟨next, hnext, hname, fun hreads' => absurd hreads' hreads⟩
          obtain ⟨next, hlocates, hname, hlookup⟩ := hentry
          by_cases hlast : parts = []
          · rw [if_pos hlast] at hstep
            subst hlast
            cases hstep
            refine ⟨next, hlocates, ⟨part, rfl, hname⟩, fun hway => ?_⟩
            rw [walk_singleton]
            exact hlookup hway.1
          · rw [if_neg hlast] at hstep
            by_cases hnext : record.isDir = true
            · rw [if_neg (not_not.mpr hnext), hlocates.extent_eq] at hstep
              obtain ⟨info, hinfo, ⟨last, hmem, hlike⟩, hwalk⟩ :=
                ih (hlocates.extentLba ▸ record.extentLba_lt) (hlocates.isDir ▸ hnext) hstep
              refine ⟨info, hinfo, ⟨last, List.mem_getLast?_cons hmem, hlike⟩,
                fun hway => bind_eq_value.mpr ⟨next, hlookup hway.1, hwalk ?_⟩⟩
              rw [← hlocates.extent_eq]
              exact hway.2 record hfound
            · rw [if_pos hnext] at hstep
              cases hstep

theorem pathParts_eq_components {path : Text} (h : ∀ part ∈ pathParts path, part ≠ dot ∧ part ≠ dotDot) :
    pathParts path = components path := by
  rw [← filter_pathParts, List.filter_eq_self.mpr]
  intro part hmem
  obtain ⟨hsplit, hne⟩ := List.mem_filter.mp hmem
  exact decide_eq_true ⟨of_decide_eq_true hne, notMem_of_mem_split hsplit, h part hmem⟩

def efiPath : Text := ['/', 'e', 'f', 'i']

theorem markedVolume_efi : walk (listings (fun _ => true) markedVolume) [['e', 'f', 'i']] markedVolume.rootEntry >>=
    (fun info => value (info.extent, info.isDir)) = value ((19, 2048), true) := by
  decide +kernel

/-- A volume whose root directory goes on behind the end of the device. -/
def cutDevice : BlockIo where
  blockSize := 2048
  totalBlocks := 20
  bytes x := if x = 16 * 2048 + 167 then 24 else (sampleDevice markedRoot.flatten []).bytes x
  blockSize_lt := Words.isoSector_lt_u32
  totalBlocks_lt := Words.twenty_lt_u64

def cutVolume : Iso9660 where
  io := cutDevice
  blockSize := 2048
  rootLba := 18
  rootSize := 6144
  blockSize_lt := Words.isoSector_lt_u16
  rootLba_lt := Words.eighteen_lt_u32
  rootSize_lt := by decide

theorem openChecked_cutVolume : openChecked (fun _ => true) cutDevice = value cutVolume := by
  have hfields : (openChecked (fun _ => true) cutDevice >>= fun fs =>
      value (fs.blockSize, fs.rootLba, fs.rootSize)) = value (2048, 18, 6144) := by decide +kernel
  obtain ⟨⟨io, blockSize, rootLba, rootSize, _, _, _⟩, hopen, hfields⟩ := bind_eq_value.mp hfields
  obtain ⟨rfl, -⟩ := openChecked_io hopen
  cases hfields
  exact hopen

end NextBoot.Fs.Iso9660
