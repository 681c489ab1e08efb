import Mathlib.Data.Char
import Mathlib.Data.List.Lex
import NextBoot.Dedup
import NextBoot.Fs.Directory
import NextBoot.Fs.Ntfs.Extents
import NextBoot.Fs.Ntfs.UpdateSequence

namespace NextBoot.Fs.Ntfs

open Words Bytes Strings Results BlockStore

def fileRecordMagic : List UInt8 := [0x46, 0x49, 0x4C, 0x45]

def indexRecordMagic : List UInt8 := [0x49, 0x4E, 0x44, 0x58]

def attrTypeAttributeList : Nat := 0x20

def attrTypeIndexRoot : Nat := 0x90

def attrTypeIndexAllocation : Nat := 0xA0

def attrTypeEnd : Nat := 0xFFFFFFFF

def fileFlagInUse : Nat := 1

def fileFlagDirectory : Nat := 2

def indexEntryLast : Nat := 2

def fileNameNamespaceDos : UInt8 := 2

def readU32 (data : List UInt8) (offset : Nat) : Except FsError Nat := someOr (readLe 4 data offset) .corrupted

def readU48 (data : List UInt8) (offset : Nat) : Except FsError Nat := someOr (readLe 6 data offset) .corrupted

def readU64 (data : List UInt8) (offset : Nat) : Except FsError Nat := someOr (readLe 8 data offset) .corrupted

section entries

/-- `utf16le_to_string`: the name ends at its first zero, and a unit that is no character by itself is refused. -/
def unitsToString : List Nat → Except FsError Text
  | [] => pure []
  | unit :: units =>
      if unit = 0 then pure []
      else do
        let ch ← someOr (charFromU32 unit) .corrupted
        let rest ← unitsToString units
        pure (ch :: rest)

def utf16leToString (data : List UInt8) : Except FsError Text := do
  refuseIf (data.length % 2 ≠ 0) .corrupted
  unitsToString ((chunksExact 2 data).map fromLeBytes)

def fileAttributes (rawFlags : Nat) : Nat :=
  (if rawFlags.land 0x01 ≠ 0 then 0x01 else 0) + (if rawFlags.land 0x02 ≠ 0 then 0x02 else 0) +
    (if rawFlags.land 0x04 ≠ 0 then 0x04 else 0) + (if rawFlags.land 0x20 ≠ 0 then 0x20 else 0) +
    if rawFlags.land 0x10000000 ≠ 0 then 0x10 else 0

def parseFileNameEntry (recordNumber : Nat) (data : List UInt8) : Except FsError (Option DirectoryEntry) :=
  if data.length < 66 then pure none
  else do
    let namespaceByte : UInt8 ← someOr data[65]? .corrupted
    if namespaceByte = fileNameNamespaceDos then pure none
    else do
      let allocatedSize ← readU64 data 40
      let realSize ← readU64 data 48
      let rawFlags ← readU32 data 56
      let nameLen : UInt8 ← someOr data[64]? .corrupted
      refuseIf (data.length < 66 + nameLen.toNat * 2) .corrupted
      let name ← utf16leToString ((data.drop 66).take (nameLen.toNat * 2))
      if name = [] ∨ name = ['.'] ∨ name = ['.', '.'] then pure none
      else
        let isDir : Bool := rawFlags.land 0x10000000 ≠ 0
        pure (some {
          name := name
          size := if isDir then allocatedSize else realSize
          isDir := isDir
          attributes := fileAttributes rawFlags
          startCluster := recordNumber
          contiguous := false })

/-- The entries of one index node from a position on; each takes at least one byte. -/
def parseIndexEntries (data : List UInt8) : Nat → Nat → Except FsError (List DirectoryEntry)
  | 0, _ => pure []
  | fuel + 1, offset =>
      if data.length < offset + 16 then pure []
      else do
        let entryLen ← readU16 data (offset + 8)
        let streamLen ← readU16 data (offset + 10)
        let flags ← readU16 data (offset + 12)
        refuseIf (entryLen = 0 ∨ data.length < offset + entryLen) .corrupted
        if flags.land indexEntryLast ≠ 0 then pure []
        else do
          refuseIf (offset + entryLen < offset + 16 + streamLen) .corrupted
          let recordNumber ← readU48 data offset
          let info ← parseFileNameEntry recordNumber ((data.drop (offset + 16)).take streamLen)
          let rest ← parseIndexEntries data fuel (offset + entryLen)
          pure (info.toList ++ rest)

/-- The entries of the node whose header stands at a position of a block. -/
def parseNode (block : List UInt8) (indexHeader : Nat) : Except FsError (List DirectoryEntry) := do
  let entriesOffset ← readU32 block indexHeader
  let totalSize ← readU32 block (indexHeader + 4)
  let start := indexHeader + entriesOffset
  let stop := min (indexHeader + totalSize) block.length
  refuseIf (stop < start) .corrupted
  parseIndexEntries ((block.drop start).take (stop - start)) (stop - start) 0

end entries

/-- A file record as it is read, with its number and its flags. -/
structure ReadRecord extends FileRecord where
  recordNumber : Nat
  flags : Nat

structure AttributeListEntry where
  attrType : Nat
  recordNumber : Nat

/-- An opened volume with the sizes of its records and the runs of its file table. -/
structure Volume extends Ntfs where
  fileRecordSize : Nat
  indexRecordSize : Nat
  mftRuns : List DataRun

section records

def parseAttributes (data : List UInt8) : Nat → Nat → Except FsError (List NtfsAttribute)
  | 0, _ => pure []
  | fuel + 1, offset =>
      if data.length < offset + 8 then pure []
      else do
        let attrType ← readU32 data offset
        if attrType = attrTypeEnd then pure []
        else do
          let attrLen ← readU32 data (offset + 4)
          refuseIf (attrLen = 0 ∨ data.length < offset + attrLen) .corrupted
          let attr ← parseAttribute attrType ((data.drop offset).take attrLen)
          let rest ← parseAttributes data fuel (offset + attrLen)
          pure (attr :: rest)

def parseAttributeListEntries (data : List UInt8) : Nat → Nat → Except FsError (List AttributeListEntry)
  | 0, _ => pure []
  | fuel + 1, offset =>
      if data.length < offset + 26 then pure []
      else do
        let attrType ← readU32 data offset
        let entryLen ← readU16 data (offset + 4)
        if attrType = 0 ∨ entryLen = 0 then pure []
        else do
          refuseIf (entryLen < 26 ∨ data.length < offset + entryLen) .corrupted
          let recordNumber ← readU48 data (offset + 16)
          let rest ← parseAttributeListEntries data fuel (offset + entryLen)
          pure (⟨attrType, recordNumber⟩ :: rest)

def NtfsAttribute.dataSize (attr : NtfsAttribute) : Nat :=
  match attr.data with
  | .resident value => value.length
  | .nonResident realSize _ => realSize

def FileRecord.attribute (record : FileRecord) (attrType : Nat) : Option NtfsAttribute :=
  record.attributes.find? fun attr => attr.attrType = attrType

def FileRecord.attributesOf (record : FileRecord) (attrType : Nat) : List NtfsAttribute :=
  record.attributes.filter fun attr => attr.attrType = attrType

def ReadRecord.isDirectory (record : ReadRecord) : Bool := record.flags.land fileFlagDirectory ≠ 0

/-- The order in which `expand_attribute_list` leaves the attributes. -/
def attributeLe (a b : NtfsAttribute) : Bool :=
  a.attrType < b.attrType ∨ (a.attrType = b.attrType ∧
    (a.nameLen < b.nameLen ∨ (a.nameLen = b.nameLen ∧ a.lowestVcn ≤ b.lowestVcn)))

namespace Volume

variable (vol : Volume)

def parseFileRecord (recordNumber : Nat) (data : List UInt8) : Except FsError ReadRecord := do
  refuseIf (data.length < 0x30 ∨ data.take 4 ≠ fileRecordMagic) .corrupted
  let data ← applyUpdateSequence data vol.io.blockSize
  let attrsOffset ← readU16 data 0x14
  let flags ← readU16 data 0x16
  refuseIf (flags.land fileFlagInUse = 0) .fileNotFound
  refuseIf (data.length ≤ attrsOffset) .corrupted
  let attributes ← parseAttributes data data.length attrsOffset
  pure { attributes := attributes, recordNumber := recordNumber, flags := flags }

def readFileRecordBase (recordNumber : Nat) : Except FsError ReadRecord := do
  let offset ← someOr (checkedMul 64 recordNumber vol.fileRecordSize) .corrupted
  let data ← vol.readFromRuns vol.mftRuns offset vol.fileRecordSize false
  vol.parseFileRecord recordNumber data

def attributeListEntries (record : ReadRecord) : Except FsError (List AttributeListEntry) :=
  (record.attributesOf attrTypeAttributeList).foldlM (fun entries attr =>
    if attr.dataSize = 0 then pure entries
    else do
      let data ← vol.readAttribute attr 0 attr.dataSize attr.dataSize
      let more ← parseAttributeListEntries data data.length 0
      pure (entries ++ more)) []

/-- The records, other than the base one, that hold attributes of the list. -/
def extensionRecords (record : ReadRecord) (entries : List AttributeListEntry) : List Nat :=
  entries.foldl (fun numbers entry =>
    if entry.recordNumber = record.recordNumber ∨ entry.attrType = attrTypeAttributeList ∨
      entry.recordNumber ∈ numbers then numbers else numbers ++ [entry.recordNumber]) []

def expandAttributeList (record : ReadRecord) : Except FsError ReadRecord := do
  let entries ← vol.attributeListEntries record
  if entries.isEmpty then pure record
  else do
    let attributes ← (extensionRecords record entries).foldlM (fun attributes recordNumber => do
      let extension ← vol.readFileRecordBase recordNumber
      pure (attributes ++ extension.attributes.filter fun attr => attr.attrType ≠ attrTypeAttributeList ∧
        entries.any fun entry => entry.recordNumber = recordNumber ∧ entry.attrType = attr.attrType)) record.attributes
    pure { record with attributes := attributes.insertionSort fun a b => attributeLe a b }

def readFileRecord (recordNumber : Nat) : Except FsError ReadRecord := do
  let record ← vol.readFileRecordBase recordNumber
  vol.expandAttributeList record

def parseIndexRoot (attr : NtfsAttribute) : Except FsError (List DirectoryEntry) :=
  match attr.data with
  | .nonResident _ _ => .error .unsupportedFs
  | .resident value => do
      refuseIf (value.length < 32) .corrupted
      parseNode value 16

/-- The bytes up to the end of the last run whose end can be counted. -/
def allocationSize (runs : List DataRun) : Nat :=
  (runs.filterMap fun run =>
    (checkedAdd 64 run.virtualClusterStart run.clusterCount).bind fun cluster =>
      checkedMul 64 cluster vol.clusterSize).foldl max 0

/-- A block of the index; one that is cut short or has no magic is passed over. -/
def isIndexRecord (chunk : List UInt8) : Bool :=
  vol.indexRecordSize ≤ chunk.length ∧ chunk.take 4 = indexRecordMagic

def parseIndexRecord (chunk : List UInt8) : Except FsError (List DirectoryEntry) := do
  let chunk ← applyUpdateSequence chunk vol.io.blockSize
  refuseIf (chunk.length < 40) .corrupted
  parseNode chunk 24

def parseIndexAllocations (attributes : List NtfsAttribute) : Except FsError (List DirectoryEntry) := do
  let runs ← collectNonresidentRuns attributes
  if vol.allocationSize runs = 0 then pure []
  else do
    let data ← vol.readFromRuns runs 0 (vol.allocationSize runs) true
    refuseIf (vol.indexRecordSize = 0) .corrupted
    (chunks vol.indexRecordSize data).foldlM (fun entries chunk =>
      if vol.isIndexRecord chunk then do
        let more ← vol.parseIndexRecord chunk
        pure (entries ++ more)
      else pure entries) []

end Volume

end records

/-- `sort_by` the names, as their bytes compare. -/
def sortByName (entries : List DirectoryEntry) : List DirectoryEntry :=
  entries.insertionSort fun a b => a.name ≤ b.name

/-- `dedup_by` the names: of neighbours that differ only in case, the first stays. -/
def dedupByName (entries : List DirectoryEntry) : List DirectoryEntry :=
  Dedup.dedup (fun a b => eqIgnoreAsciiCase a.name b.name) entries

/-- What a directory is listed as, from all the entries its index has. -/
def listEntries (entries : List DirectoryEntry) : List DirectoryEntry := dedupByName (sortByName entries)

def Volume.readDirectory (vol : Volume) (recordNumber : Nat) : Except FsError (List DirectoryEntry) := do
  let record ← vol.readFileRecord recordNumber
  refuseIf (¬ record.isDirectory) .notDirectory
  let rootEntries ← match record.attribute attrTypeIndexRoot with
    | none => pure []
    | some attr => Volume.parseIndexRoot attr
  let indexAllocations := record.attributesOf attrTypeIndexAllocation
  let allocated ← if indexAllocations.isEmpty then pure [] else vol.parseIndexAllocations indexAllocations
  pure (listEntries (rootEntries ++ allocated))

end NextBoot.Fs.Ntfs
