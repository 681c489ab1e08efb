import NextBoot.Fs.Iso9660
import NextBoot.Fs.Scan

namespace NextBoot.Fs.Iso9660

open Words Bytes Strings Results Faults Outcome BlockStore Paths Scan

variable (granted : Nat → Bool) (fs : Iso9660)

def rootEntry : DirectoryEntry where
  name := rootPath
  size := fs.rootSize
  isDir := true
  attributes := 0x10
  startCluster := fs.rootLba
  contiguous := false

/-- The records of one block from a position on. -/
def blockRecords (dirData : List UInt8) : Nat → Nat → List (List UInt8)
  | 0, _ => []
  | fuel + 1, offset =>
      match dirData[offset]? with
      | none => []
      | some length =>
          if length = 0 ∨ dirData.length < offset + length.toNat then []
          else (dirData.drop offset).take length.toNat :: blockRecords dirData fuel (offset + length.toNat)

def extentRecords : Nat → Nat → Outcome FsError (List (List UInt8))
  | 0, _ => pure []
  | count + 1, lba => do
      let dirData ← ofExcept (fs.io.readFullBlocks lba fs.blockSize)
      let next ← ofOption (checkedAdd 32 lba 1)
      let rest ← extentRecords count next
      pure (blockRecords dirData dirData.length 0 ++ rest)

/-- The records of a directory, where it can be read. -/
def directoryRecords (lba size : Nat) : Outcome FsError (List (List UInt8)) := do
  let sum ← ofOption (checkedAdd 64 size fs.blockSize)
  let last ← ofOption (checkedSub sum 1)
  let blocks ← ofOption (checkedDiv last fs.blockSize)
  allocBuffer granted fs.blockSize
  extentRecords fs (max blocks 1) lba

/-- `read_dir` of the directory at an extent. -/
def listAt (extent : Nat × Nat) : Outcome FsError (List DirectoryEntry) :=
  fs.readDirectory granted (extent.1 % 2 ^ 32) extent.2

def recordsAt (extent : Nat × Nat) : Outcome FsError (List (List UInt8)) :=
  directoryRecords granted fs (extent.1 % 2 ^ 32) extent.2

/-- What a record stands for; a short or hidden one for nothing. -/
def recordEntry (record : List UInt8) : Option DirectoryEntry :=
  match parseDirectoryRecord record with
  | value info => info
  | _ => none

/-- What a record contributes to the listing of its directory. -/
def listedEntry (record : List UInt8) : Option DirectoryEntry :=
  (recordEntry record).filter fun info => info.name ≠ selfName ∧ info.name ≠ parentName

/-- The record of the directory itself or of its parent: its identifier is the byte 0 or the byte 1. -/
def IsSpecial (record : List UInt8) : Prop := record[32]? = some 1 ∧ (record[33]? = some 0 ∨ record[33]? = some 1)

instance (record : List UInt8) : Decidable (IsSpecial record) := inferInstanceAs (Decidable (_ ∧ (_ ∨ _)))

/-- A record of the directory itself or of its parent that says so with an alternate name, or that is hidden. -/
def Marked (record : List UInt8) : Prop :=
  (∃ flags, record[25]? = some flags ∧ flags &&& 0x01 ≠ 0) ∨
    ∃ name, (name = selfName ∨ name = parentName) ∧
      parseRockRidgeName (record.drop 34) (record.drop 34).length 0 none = value (some name)

def children (records : List (List UInt8)) : List DirectoryEntry :=
  (records.filter fun record => ¬ IsSpecial record).filterMap recordEntry

/-- The subdirectories that the records of a directory are about, its own record and that of its parent apart. -/
def recordDirectories (extent : Nat × Nat) : Outcome FsError (List (Nat × Nat)) := do
  let records ← recordsAt granted fs extent
  pure ((subdirectories (children records)).map DirectoryEntry.extent)

variable {granted : Nat → Bool} {fs : Iso9660} {lba size count fuel offset : Nat} {data record : List UInt8}

theorem parseDirectoryRecord_eq : parseDirectoryRecord record = value (recordEntry record) := by
  obtain ⟨info, h⟩ := @returns_parseDirectoryRecord record
  rw [recordEntry, h]

theorem readRecords_eq : readRecords data fuel offset = value ((blockRecords data fuel offset).filterMap listedEntry) := by
  induction fuel generalizing offset with
  | zero => rfl
  | succ fuel ih =>
      rw [readRecords, blockRecords]
      by_cases hend : data.length ≤ offset
      · rw [if_pos hend, List.getElem?_eq_none hend]
        rfl
      · have hhead := List.getElem?_eq_getElem (show offset < data.length by omega)
        rw [if_neg hend, hhead, ofOption_some, value_bind]
        generalize data[offset] = length
        dsimp only
        by_cases hzero : length = 0
        · rw [if_pos hzero, if_pos (.inl hzero)]
          rfl
        · rw [if_neg hzero]
          by_cases hlong : data.length < offset + length.toNat
          · rw [if_pos hlong, if_pos (.inr hlong)]
            rfl
          · rw [if_neg hlong, if_neg (not_or.mpr ⟨hzero, hlong⟩), slice_eq_some (by omega), ofOption_some, value_bind,
              parseDirectoryRecord_eq, value_bind, ih, value_bind, List.filterMap_cons]
            show value _ = value _
            congr 1
            show (listedEntry _).toList ++ _ = _
            cases listedEntry (List.take length.toNat (List.drop offset data)) <;> rfl

theorem readBlocks_eq : fs.readBlocks count lba =
    extentRecords fs count lba >>= fun records => value (records.filterMap listedEntry) := by
  induction count generalizing lba with
  | zero => rfl
  | succ count ih =>
      rw [readBlocks, extentRecords, bind_assoc]
      refine congrArg _ (funext fun dirData => ?_)
      rw [readRecords_eq, value_bind, bind_assoc]
      refine congrArg _ (funext fun next => ?_)
      rw [ih, bind_assoc, bind_assoc]
      refine congrArg _ (funext fun rest => ?_)
      show value _ = value _
      rw [List.filterMap_append]

/-- The listing of a directory takes each of its records for itself. -/
theorem readDirectory_eq : fs.readDirectory granted lba size =
    directoryRecords granted fs lba size >>= fun records => value (records.filterMap listedEntry) := by
  simp only [readDirectory, directoryRecords, bind_assoc, readBlocks_eq]

theorem length_of_mem_blockRecords (h : record ∈ blockRecords data fuel offset) :
    ∃ length, record[0]? = some length ∧ record.length = length.toNat := by
  induction fuel generalizing offset with
  | zero => exact absurd h List.not_mem_nil
  | succ fuel ih =>
      rw [blockRecords] at h
      cases hlength : data[offset]? with
      | none =>
          rw [hlength] at h
          exact absurd h List.not_mem_nil
      | some length =>
          rw [hlength] at h
          dsimp only at h
          by_cases hend : length = 0 ∨ data.length < offset + length.toNat
          · rw [if_pos hend] at h
            exact absurd h List.not_mem_nil
          · rw [if_neg hend] at h
            rcases List.mem_cons.mp h with rfl | h
            · have hpos : 0 < length.toNat := Nat.pos_of_ne_zero fun hzero =>
                hend (.inl (UInt8.toNat_inj.mp (hzero.trans UInt8.toNat_zero.symm)))
              refine ⟨length, ?_, ?_⟩
              · rw [List.getElem?_take_of_lt hpos, List.getElem?_drop, Nat.add_zero, hlength]
              · rw [List.length_take, List.length_drop]
                omega
            · exact ih h

theorem length_of_mem_extentRecords {records : List (List UInt8)} (h : extentRecords fs count lba = value records)
    (hmem : record ∈ records) : ∃ length, record[0]? = some length ∧ record.length = length.toNat := by
  induction count generalizing lba records with
  | zero =>
      cases h
      exact absurd hmem List.not_mem_nil
  | succ count ih =>
      obtain ⟨dirData, -, h₁⟩ := bind_eq_value.mp h
      obtain ⟨next, -, h₂⟩ := bind_eq_value.mp h₁
      obtain ⟨rest, hrest, h₃⟩ := bind_eq_value.mp h₂
      cases h₃
      rcases List.mem_append.mp hmem with hmem | hmem
      · exact length_of_mem_blockRecords hmem
      · exact ih hrest hmem

theorem length_of_mem_directoryRecords {records : List (List UInt8)}
    (h : directoryRecords granted fs lba size = value records) (hmem : record ∈ records) :
    ∃ length, record[0]? = some length ∧ record.length = length.toNat := by
  obtain ⟨_, -, h₁⟩ := bind_eq_value.mp h
  obtain ⟨_, -, h₂⟩ := bind_eq_value.mp h₁
  obtain ⟨_, -, h₃⟩ := bind_eq_value.mp h₂
  obtain ⟨_, -, h₄⟩ := bind_eq_value.mp h₃
  exact length_of_mem_extentRecords h₄ hmem

/-- The name of a record whose identifier is one byte. -/
theorem recordName_of_single {id : UInt8} {rockRidge : Option Text}
    (h : parseRockRidgeName (record.drop 34) (record.drop 34).length 0 none = value rockRidge) :
    recordName record record.length 1 [id] = value (rockRidge.getD (parseFilename [id])) := by
  rw [recordName, if_neg (show ¬ 1 % 2 = 0 by decide)]
  by_cases hlong : 33 + 1 + 0 < record.length
  · rw [if_pos hlong, slice_eq_some (by omega), ofOption_some, value_bind]
    rw [show 33 + 1 + 0 = 34 from rfl, List.take_of_length_le (by rw [List.length_drop]), h]
    rfl
  · have hempty : record.drop 34 = [] := List.drop_eq_nil_of_le (by omega)
    rw [hempty] at h
    cases h
    rw [if_neg hlong]
    rfl

theorem parseFilename_special {id : UInt8} (h : id = 0 ∨ id = 1) : parseFilename [id] = [] := by
  rcases h with rfl | rfl
  · decide
  · decide

/-- What the record of a directory itself, or that of its parent, stands for. -/
theorem recordEntry_special {rockRidge : Option Text} {flags : UInt8} (hspecial : IsSpecial record)
    (hlength : ∃ length, record[0]? = some length ∧ record.length = length.toNat) (hflags : record[25]? = some flags)
    (h : parseRockRidgeName (record.drop 34) (record.drop 34).length 0 none = value rockRidge) :
    (flags &&& 0x01 ≠ 0 → recordEntry record = none) ∧
      (¬ flags &&& 0x01 ≠ 0 → ∃ info, recordEntry record = some info ∧ info.name = rockRidge.getD []) := by
  obtain ⟨hsize, hid⟩ := hspecial
  obtain ⟨length, hhead, hlength⟩ := hlength
  have hid : ∃ id : UInt8, record[33]? = some id ∧ (id = 0 ∨ id = 1) := by
    rcases hid with hid | hid
    · exact ⟨0, hid, .inl rfl⟩
    · exact ⟨1, hid, .inr rfl⟩
  obtain ⟨id, hid, hbyte⟩ := hid
  obtain ⟨hlong, hget⟩ := List.getElem?_eq_some_iff.mp hid
  obtain ⟨lba, hlba⟩ := @readLe_isSome 4 record 2 (by omega)
  obtain ⟨size, hsize'⟩ := @readLe_isSome 4 record 10 (by omega)
  have hone : (1 : UInt8).toNat = 1 := rfl
  have hraw : slice record 33 1 = some [id] := by
    rw [slice_eq_some (show 33 + 1 ≤ record.length by omega), List.drop_eq_getElem_cons hlong, hget]
    rfl
  have hname := @recordName_of_single record id rockRidge h
  rw [parseFilename_special hbyte] at hname
  rw [recordEntry, parseDirectoryRecord, if_neg (by omega), hhead, ofOption_some, value_bind, if_neg (by omega), hlba,
    ofOption_some, value_bind, hsize', ofOption_some, value_bind, hflags, ofOption_some, value_bind, hsize, ofOption_some,
    value_bind, hone, if_neg (not_or.mpr ⟨by decide, by omega⟩), hraw, ofOption_some, value_bind, ← hlength, hname,
    value_bind]
  constructor
  · intro hhidden
    rw [if_pos hhidden]
    rfl
  · intro hshown
    rw [if_neg hshown]
    exact ⟨_, rfl, rfl⟩

/-- Only a mark keeps the record of a directory itself, or that of its parent, out of its listing: their identifiers
decode to the empty name, not to the names that are left out. -/
theorem listedEntry_special (hspecial : IsSpecial record)
    (hlength : ∃ length, record[0]? = some length ∧ record.length = length.toNat) :
    listedEntry record = none ↔ Marked record := by
  obtain ⟨rockRidge, hrock⟩ := @returns_parseRockRidgeName (record.drop 34) (record.drop 34).length 0 none
  have hlong : 33 < record.length := by
    rcases hspecial.2 with h | h
    · exact (List.getElem?_eq_some_iff.mp h).1
    · exact (List.getElem?_eq_some_iff.mp h).1
  have hflags := List.getElem?_eq_getElem (show 25 < record.length by omega)
  obtain ⟨hhidden, hshown⟩ := recordEntry_special hspecial hlength hflags hrock
  rw [Marked, hflags, hrock, listedEntry]
  by_cases hflag : record[25] &&& 0x01 ≠ 0
  · rw [hhidden hflag]
    exact iff_of_true rfl (.inl ⟨_, rfl, hflag⟩)
  · obtain ⟨info, hinfo, hname⟩ := hshown hflag
    rw [hinfo, Option.filter_eq_none_iff]
    constructor
    · intro h
      have hmark : info.name = selfName ∨ info.name = parentName := by
        by_contra hnot
        exact h info rfl (decide_eq_true (not_or.mp hnot))
      cases rockRidge with
      | none =>
          rw [hname] at hmark
          exact absurd hmark (by decide)
      | some name =>
          rw [Option.getD_some] at hname
          exact .inr ⟨name, hname ▸ hmark, rfl⟩
    · rintro (⟨flags, hflags', hset⟩ | ⟨name, hmark, hrock'⟩) info' hinfo' hkept
      · cases hflags'
        exact hflag hset
      · cases hrock'
        cases hinfo'
        rw [Option.getD_some] at hname
        rw [← hname] at hmark
        exact (not_or.mpr (of_decide_eq_true hkept)) hmark

theorem fields_of_recordEntry {info : DirectoryEntry} (h : recordEntry record = some info) :
    readLe 4 record 2 = some info.startCluster ∧ readLe 4 record 10 = some info.size ∧
      (info.attributes = 0 ∨ info.attributes = 0x10) := by
  have hparse := (@parseDirectoryRecord_eq record).trans (congrArg value h)
  rw [parseDirectoryRecord] at hparse
  by_cases hshort : record.length < 33
  · rw [if_pos hshort] at hparse
    cases hparse
  rw [if_neg hshort] at hparse
  obtain ⟨length, -, hparse⟩ := bind_eq_value.mp hparse
  by_cases hlength : length.toNat < 33 ∨ record.length < length.toNat
  · rw [if_pos hlength] at hparse
    cases hparse
  rw [if_neg hlength] at hparse
  obtain ⟨_, hlba, hparse⟩ := bind_eq_value.mp hparse
  obtain ⟨_, hsize, hparse⟩ := bind_eq_value.mp hparse
  obtain ⟨flags, -, hparse⟩ := bind_eq_value.mp hparse
  obtain ⟨nameLength, -, hparse⟩ := bind_eq_value.mp hparse
  by_cases hname : nameLength = 0 ∨ record.length < 33 + nameLength.toNat
  · rw [if_pos hname] at hparse
    cases hparse
  rw [if_neg hname] at hparse
  obtain ⟨_, -, hparse⟩ := bind_eq_value.mp hparse
  obtain ⟨_, -, hparse⟩ := bind_eq_value.mp hparse
  by_cases hhidden : flags &&& 0x01 ≠ 0
  · rw [if_pos hhidden] at hparse
    cases hparse
  rw [if_neg hhidden] at hparse
  cases hparse
  refine ⟨ofOption_eq_value.mp hlba, ofOption_eq_value.mp hsize, ?_⟩
  dsimp only
  split
  · exact .inr rfl
  · exact .inl rfl

theorem list_visible (extent : Nat × Nat) (entries : List DirectoryEntry)
    (h : listAt granted fs extent = value entries) (entry : DirectoryEntry)
    (hmem : entry ∈ entries) : ¬ (entry.isHidden ∨ entry.isSystem) := by
  rw [listAt, readDirectory_eq] at h
  obtain ⟨records, -, h⟩ := bind_eq_value.mp h
  cases h
  obtain ⟨record, -, hentry⟩ := List.mem_filterMap.mp hmem
  obtain ⟨hentry, -⟩ := Option.filter_eq_some_iff.mp hentry
  rw [DirectoryEntry.isHidden, DirectoryEntry.isSystem]
  rcases (fields_of_recordEntry hentry).2.2 with h | h
  · rw [h]
    decide
  · rw [h]
    decide

variable (granted fs) in
/-- The volume as its paths are resolved. -/
def listings : Listings where
  root := fs.rootEntry
  list := listAt granted fs
  root_isDir := rfl
  list_visible := list_visible

/-- The listing of a directory whose own record and whose parent's do not come up in it. -/
def ordinaryListing (records : List (List UInt8)) : List DirectoryEntry :=
  (records.filter fun record => ¬ IsSpecial record).filterMap listedEntry

/-- A directory that a recursive scan gets through: its own record and that of its parent are marked, and the path of each
subdirectory leads to it. -/
structure Passable (records : List (List UInt8)) : Prop where
  marked : ∀ record ∈ records, IsSpecial record → Marked record
  navigable : Navigable (children records)

section Directory

variable {records : List (List UInt8)}

def isOrdinaryName (info : DirectoryEntry) : Bool := info.name ≠ selfName ∧ info.name ≠ parentName

theorem isOrdinaryName_of_isComponent {info : DirectoryEntry} (h : IsComponent info.name) : isOrdinaryName info = true :=
  decide_eq_true h.2.2

theorem ordinaryListing_eq : ordinaryListing records = (children records).filter isOrdinaryName :=
  List.filter_filterMap.symm

theorem subdirectories_ordinaryListing :
    subdirectories (ordinaryListing records) = (subdirectories (children records)).filter isOrdinaryName := by
  rw [ordinaryListing_eq, subdirectories, List.filter_comm, subdirectories]

theorem findEntry_ordinaryListing {name : Text} (h : IsComponent name) :
    findEntry name (ordinaryListing records) = findEntry name (children records) := by
  rw [ordinaryListing_eq, findEntry, List.find?_filter, findEntry]
  congr 1
  funext info
  by_cases hname : eqIgnoreAsciiCase info.name name = true
  · rw [hname, isOrdinaryName_of_isComponent (isComponent_congr hname h)]
    rfl
  · rw [Bool.not_eq_true] at hname
    rw [hname]
    simp

/-- The listing is the ordinary one when neither special record comes up in it. -/
theorem filterMap_eq_ordinaryListing :
    records.filterMap listedEntry = ordinaryListing records ↔
      ∀ record ∈ records, IsSpecial record → listedEntry record = none := by
  induction records with
  | nil => exact ⟨fun _ _ hmem => absurd hmem List.not_mem_nil, fun _ => rfl⟩
  | cons record records ih =>
      rw [List.forall_mem_cons, ordinaryListing, List.filter_cons]
      by_cases hspecial : IsSpecial record
      · rw [if_neg (by simpa using hspecial), ← ordinaryListing]
        cases hlisted : listedEntry record with
        | none =>
            rw [List.filterMap_cons_none hlisted, ih]
            exact ⟨fun h => ⟨fun _ => rfl, h⟩, fun h => h.2⟩
        | some info =>
            refine ⟨fun h => ?_, fun h => nomatch h.1 hspecial⟩
            have hle : (ordinaryListing records).length ≤ (records.filterMap listedEntry).length :=
              (List.filter_sublist.filterMap listedEntry).length_le
            rw [← h, List.filterMap_cons_some hlisted, List.length_cons] at hle
            omega
      · rw [if_pos (decide_eq_true hspecial)]
        cases hlisted : listedEntry record with
        | none =>
            rw [List.filterMap_cons_none hlisted, List.filterMap_cons_none hlisted, ← ordinaryListing, ih]
            exact ⟨fun h => ⟨fun _ => rfl, h⟩, fun h => h.2⟩
        | some info =>
            rw [List.filterMap_cons_some hlisted, List.filterMap_cons_some hlisted, ← ordinaryListing, List.cons.injEq, ih]
            exact ⟨fun h => ⟨fun habsurd => absurd habsurd hspecial, h.2⟩, fun h => ⟨rfl, h.2⟩⟩

theorem navigable_children_iff : Navigable (children records) ↔ Navigable (ordinaryListing records) ∧
    subdirectories (ordinaryListing records) = subdirectories (children records) := by
  have hfind : ∀ info, IsComponent info.name → (findEntry info.name (ordinaryListing records) = some info ↔
      findEntry info.name (children records) = some info) := fun info hname => by rw [findEntry_ordinaryListing hname]
  constructor
  · intro h
    have hall : subdirectories (ordinaryListing records) = subdirectories (children records) := by
      rw [subdirectories_ordinaryListing, List.filter_eq_self]
      exact fun info hinfo => isOrdinaryName_of_isComponent (h info hinfo).1
    refine ⟨fun info hinfo => ?_, hall⟩
    rw [hall] at hinfo
    exact ⟨(h info hinfo).1, (hfind info (h info hinfo).1).mpr (h info hinfo).2⟩
  · rintro ⟨h, hall⟩ info hinfo
    rw [← hall] at hinfo
    exact ⟨(h info hinfo).1, (hfind info (h info hinfo).1).mp (h info hinfo).2⟩

end Directory

variable {extensions : List Text} {dirs : List (Nat × Nat)}

theorem listAt_iff {extent : Nat × Nat} {records : List (List UInt8)} (h : recordsAt granted fs extent = value records) :
    listAt granted fs extent = value (ordinaryListing records) ↔
      ∀ record ∈ records, IsSpecial record → Marked record := by
  rw [listAt, readDirectory_eq, ← recordsAt, h, value_bind, value.injEq, filterMap_eq_ordinaryListing]
  refine forall₂_congr fun record hmem => imp_congr_right fun hspecial => ?_
  exact listedEntry_special hspecial (length_of_mem_directoryRecords h hmem)

theorem recordDirectories_eq {extent : Nat × Nat} {records : List (List UInt8)}
    (h : recordsAt granted fs extent = value records) :
    recordDirectories granted fs extent = value ((subdirectories (children records)).map DirectoryEntry.extent) := by
  rw [recordDirectories, h]
  rfl

theorem listed_eq {extent : Nat × Nat} {records : List (List UInt8)}
    (h : listAt granted fs extent = value (ordinaryListing records)) :
    listed (listings granted fs) extent =
      value ((subdirectories (ordinaryListing records)).map DirectoryEntry.extent) := by
  show (listAt granted fs extent >>= fun entries => pure ((subdirectories entries).map DirectoryEntry.extent)) = _
  rw [h]
  rfl

/-- The directories of a tree have records. -/
theorem exists_recordsAt (h : Spans (recordDirectories granted fs) [fs.rootEntry.extent] dirs) {extent : Nat × Nat}
    (hmem : extent ∈ dirs) : ∃ records, recordsAt granted fs extent = value records := by
  obtain ⟨_, hbelow⟩ := h.exists_children hmem
  obtain ⟨records, hrecords, -⟩ := bind_eq_value.mp hbelow
  exact ⟨records, hrecords⟩

theorem scan_of_passable (htree : Spans (recordDirectories granted fs) [fs.rootEntry.extent] dirs)
    (h : ∀ extent ∈ dirs, ∀ records, recordsAt granted fs extent = value records → Passable records) :
    ∃ depth found, scanFilesRecursive (listings granted fs) extensions depth rootPath = value found ∧ found.2 = dirs := by
  have hlisting : ∀ extent ∈ dirs, ∀ records, recordsAt granted fs extent = value records →
      listAt granted fs extent = value (ordinaryListing records) :=
    fun extent hmem records hrecords => (listAt_iff hrecords).mpr (h extent hmem records hrecords).marked
  have hspan : Spans (listed (listings granted fs)) [fs.rootEntry.extent] dirs := by
    refine htree.congr fun extent hmem => ?_
    obtain ⟨records, hrecords⟩ := exists_recordsAt htree hmem
    rw [listed_eq (hlisting extent hmem records hrecords), recordDirectories_eq hrecords,
      (navigable_children_iff.mp (h extent hmem records hrecords).navigable).2]
  refine @scan_of_spans (listings granted fs) extensions dirs hspan fun extent hmem entries hentries => ?_
  obtain ⟨records, hrecords⟩ := exists_recordsAt htree hmem
  cases (hlisting extent hmem records hrecords).symm.trans hentries
  exact (navigable_children_iff.mp (h extent hmem records hrecords).navigable).1

/-- Listing the directories of a finite tree brings up neither a directory itself nor its parent, and the scan from the
root directory ends having visited each of them once, exactly where each of them can be got through. -/
theorem scan_visits_iff (htree : Spans (recordDirectories granted fs) [fs.rootEntry.extent] dirs) (hdistinct : dirs.Nodup) :
    ((∀ extent ∈ dirs, ∀ records, recordsAt granted fs extent = value records →
        listAt granted fs extent = value (ordinaryListing records)) ∧
      ∃ depth found, scanFilesRecursive (listings granted fs) extensions depth rootPath = value found ∧
        found.2.Perm dirs) ↔
      ∀ extent ∈ dirs, ∀ records, recordsAt granted fs extent = value records → Passable records := by
  constructor
  · rintro ⟨hlisting, depth, found, hscan, hperm⟩ extent hextent records hrecords
    obtain ⟨hspan, hnavigable⟩ := spans_of_scan hscan leads_root (hperm.nodup_iff.mpr hdistinct)
    obtain ⟨-, hsame⟩ := htree.length_le hspan (List.Sublist.refl _) (by
      intro extent hmem below below' hbelow hbelow'
      obtain ⟨records, hrecords⟩ := exists_recordsAt htree hmem
      cases (recordDirectories_eq hrecords).symm.trans hbelow
      cases (listed_eq (hlisting extent hmem records hrecords)).symm.trans hbelow'
      rw [subdirectories_ordinaryListing]
      exact List.filter_sublist.map _)
    have heq := (hsame hperm.length_eq).2 extent hextent
    have hlist := hlisting extent hextent records hrecords
    rw [listed_eq hlist, recordDirectories_eq hrecords, value.injEq] at heq
    refine ⟨(listAt_iff hrecords).mp hlist, navigable_children_iff.mpr ⟨?_, ?_⟩⟩
    · exact hnavigable extent (hperm.mem_iff.mpr hextent) _ hlist
    · have hlength := congrArg List.length heq
      rw [List.length_map, List.length_map] at hlength
      rw [subdirectories_ordinaryListing] at hlength ⊢
      exact List.filter_sublist.eq_of_length hlength
  · intro hpass
    refine ⟨fun extent hmem records hrecords => (listAt_iff hrecords).mpr (hpass extent hmem records hrecords).marked, ?_⟩
    obtain ⟨depth, found, hscan, hfound⟩ := @scan_of_passable granted fs extensions dirs htree hpass
    exact ⟨depth, found, hscan, hfound ▸ List.Perm.refl _⟩

/-- A record of a directory of one block, with its identifier and its system use area. -/
def sampleRecord (lba : UInt8) (identifier systemUse : List UInt8) : List UInt8 :=
  [33 + UInt8.ofNat (identifier.length + systemUse.length), 0, lba, 0, 0, 0, 0, 0, 0, lba, 0, 8, 0, 0, 0, 0, 8, 0,
    0, 0, 0, 0, 0, 0, 0, 0x02, 0, 0, 1, 0, 0, 1, UInt8.ofNat identifier.length] ++ identifier ++ systemUse

/-- A device with a volume descriptor at block 16 and two directories behind it, the root directory first. -/
def sampleDevice (root inner : List UInt8) : BlockIo where
  blockSize := 2048
  totalBlocks := 20
  bytes x :=
    if x / 2048 = 16 then
      if x % 2048 = 0 then 1
      else if x % 2048 ≤ 5 then standardId.getD (x % 2048 - 1) 0
      else if x % 2048 = 129 ∨ x % 2048 = 167 then 8
      else if x % 2048 = 158 then 18
      else 0
    else if x / 2048 = 18 then root.getD (x % 2048) 0
    else if x / 2048 = 19 then inner.getD (x % 2048) 0
    else 0
  blockSize_lt := Words.isoSector_lt_u32
  totalBlocks_lt := Words.twenty_lt_u64

def sampleVolume (root inner : List UInt8) : Iso9660 where
  io := sampleDevice root inner
  blockSize := 2048
  rootLba := 18
  rootSize := 2048
  blockSize_lt := Words.isoSector_lt_u16
  rootLba_lt := Words.eighteen_lt_u32
  rootSize_lt := Words.isoSector_lt_u32

/-- The system use area of a record that an alternate name marks with these flags. -/
def markedUse (flags : UInt8) : List UInt8 := [0x4E, 0x4D, 5, 1, flags, 0]

def markedRoot : List (List UInt8) :=
  [sampleRecord 18 [0] (markedUse 2), sampleRecord 18 [1] (markedUse 4), sampleRecord 19 [0x45, 0x46, 0x49] []]

def markedInner : List (List UInt8) := [sampleRecord 19 [0] (markedUse 2), sampleRecord 18 [1] (markedUse 4)]

def markedVolume : Iso9660 := sampleVolume markedRoot.flatten markedInner.flatten

theorem markedVolume_records : recordsAt (fun _ => true) markedVolume (18, 2048) = value markedRoot ∧
    recordsAt (fun _ => true) markedVolume (19, 2048) = value markedInner := by
  decide +kernel

theorem markedVolume_scans : ∃ depth found,
    scanFilesRecursive (listings (fun _ => true) markedVolume) [] depth rootPath = value found ∧
      found.2.Perm [(18, 2048), (19, 2048)] := by
  obtain ⟨hroot, hinner⟩ := markedVolume_records
  have hinside : Spans (recordDirectories (fun _ => true) markedVolume) [(19, 2048)] [(19, 2048)] :=
    .cons ((recordDirectories_eq hinner).trans (by decide +kernel)) .nil .nil
  have htree : Spans (recordDirectories (fun _ => true) markedVolume) [markedVolume.rootEntry.extent]
      [(18, 2048), (19, 2048)] :=
    .cons ((recordDirectories_eq hroot).trans (by decide +kernel)) hinside .nil
  refine ((scan_visits_iff htree (by decide)).mpr fun extent hextent records hrecords => ?_).2
  rcases List.mem_pair.mp hextent with rfl | rfl
  · cases hroot.symm.trans hrecords
    exact ⟨(listAt_iff hroot).mp (by decide +kernel), by decide +kernel⟩
  · cases hinner.symm.trans hrecords
    exact ⟨(listAt_iff hinner).mp (by decide +kernel), by decide +kernel⟩

def plainRoot : List (List UInt8) := [sampleRecord 18 [0] [], sampleRecord 18 [1] []]

def plainVolume : Iso9660 := sampleVolume plainRoot.flatten []

theorem openChecked_plainVolume : openChecked (fun _ => true) (sampleDevice plainRoot.flatten []) = value plainVolume := by
  have hfields : (openChecked (fun _ => true) (sampleDevice plainRoot.flatten []) >>= fun fs =>
      value (fs.blockSize, fs.rootLba, fs.rootSize)) = value (2048, 18, 2048) := by decide +kernel
  obtain ⟨⟨io, blockSize, rootLba, rootSize, _, _, _⟩, hopen, hfields⟩ := bind_eq_value.mp hfields
  obtain ⟨rfl, -⟩ := openChecked_io hopen
  cases hfields
  exact hopen

/-- An image whose root directory has no more than the two records it must have: both come up in its listing, under the
empty name, and the scan never ends. -/
theorem plainVolume_never_ends :
    openChecked (fun _ => true) (sampleDevice plainRoot.flatten []) = value plainVolume ∧
      recordsAt (fun _ => true) plainVolume (18, 2048) = value plainRoot ∧ (∀ record ∈ plainRoot, IsSpecial record) ∧
      Spans (recordDirectories (fun _ => true) plainVolume) [plainVolume.rootEntry.extent] [(18, 2048)] ∧
      (∃ entries, listAt (fun _ => true) plainVolume (18, 2048) = value entries ∧
        entries.map (fun info => (info.name, info.extent)) = [([], (18, 2048)), ([], (18, 2048))]) ∧
      ∀ extensions depth,
        ¬ (scanFilesRecursive (listings (fun _ => true) plainVolume) extensions depth rootPath).Returns := by
  have hrecords : recordsAt (fun _ => true) plainVolume (18, 2048) = value plainRoot := by decide +kernel
  have hlisting : listAt (fun _ => true) plainVolume (18, 2048) = value (plainRoot.filterMap listedEntry) := by
    rw [listAt, readDirectory_eq, ← recordsAt, hrecords, value_bind]
  have hself : ∃ info ∈ subdirectories (plainRoot.filterMap listedEntry), info.name = [] := by decide +kernel
  refine ⟨openChecked_plainVolume, hrecords, by decide +kernel,
    .cons ((recordDirectories_eq hrecords).trans (by decide +kernel)) .nil .nil, ⟨_, hlisting, by decide +kernel⟩, ?_⟩
  intro extensions depth
  -- the path of the self record is the path of the root directory again
  induction depth with
  | zero => exact fun h => nomatch h
  | succ depth ih =>
      rintro ⟨found, hfound⟩
      obtain ⟨dir, entries, hstat, hlist, hreturns, -⟩ := scan_succ_eq_value hfound
      cases hstat.symm.trans (stat_root (.inl rfl))
      cases (listEntry_eq_value.mp hlist).2.symm.trans hlisting
      obtain ⟨info, hinfo, hname⟩ := hself
      have hagain := hreturns info hinfo
      rw [hname] at hagain
      exact ih hagain

end NextBoot.Fs.Iso9660
