import NextBoot.Fs.Paths
import NextBoot.Fs.Udf.Storage

namespace NextBoot.Fs.Udf

open Words BlockStore Bytes Results Strings Paths

structure ExtentAd where
  length : Nat
  start : Nat
deriving DecidableEq, Repr

structure LogicalBlockAddress where
  blockNum : Nat
  partRef : Nat
deriving DecidableEq, Repr

structure LongAd where
  length : Nat
  block : LogicalBlockAddress
deriving DecidableEq, Repr

structure UdfDirEntry where
  name : Text
  icb : LongAd
  isDir : Bool
  hidden : Bool
deriving DecidableEq, Repr

/-- A volume with the file entry of its root directory. -/
structure Mounted extends Volume where
  rootIcb : LongAd

def tagIdentAvdp : Nat := 0x0002

def tagIdentPd : Nat := 0x0005

def tagIdentLvd : Nat := 0x0006

def tagIdentTd : Nat := 0x0008

def tagIdentFsd : Nat := 0x0100

def tagIdentFid : Nat := 0x0101

def tagIdentFe : Nat := 0x0105

def tagIdentEfe : Nat := 0x010a

def fileTypeDirectory : Nat := 4

def avdpCandidates : List Nat := [256, 512]

def fidHeaderSize : Nat := 38

def lvdPartitionMapsOffset : Nat := 440

def readLongAd (data : List UInt8) (offset : Nat) : Except FsError LongAd := do
  let length ← readU32 data offset
  let blockNum ← readU32 data (offset + 4)
  let partRef ← readU16 data (offset + 8)
  pure ⟨length, blockNum, partRef⟩

/-- A 32-bit number with its bound. -/
def readBounded (data : List UInt8) (offset : Nat) : Except FsError { n : Nat // n < 2 ^ 32 } :=
  someOr ((readLe 4 data offset).attachWith (· < 2 ^ 32) fun _ h => readLe_lt h) .corrupted

/-- `read_logical_block`, with the bound on the length of a block. -/
def readLogicalBlock (io : BlockIo) (lba : Nat) : Except FsError { block : List UInt8 // block.length < 2 ^ 32 } :=
  if lba < io.totalBlocks then
    .ok ⟨window io.bytes (lba * io.blockSize) io.blockSize, (length_window ..).trans_lt io.blockSize_lt⟩
  else .error .readError

section Directories

def decodeOstaName : List UInt8 → Except FsError Text
  | [] => .error .corrupted
  | compression :: data =>
      if compression = 8 then .ok (data.map fun byte => Char.ofNat byte.toNat)
      else if compression = 16 then
        if data.length % 2 ≠ 0 then .error .corrupted
        else .ok ((chunksExact 2 data).map fun unit => (charFromU32 (fromLeBytes unit.reverse)).getD replacementChar)
      else .error .unsupportedFs

/-- The entry of a file identifier, unless it is deleted or stands for the parent directory. -/
def fidEntry (characteristics : UInt8) (name : List UInt8) (icb : LongAd) : Except FsError (List UdfDirEntry) :=
  if characteristics &&& 0x0c ≠ 0 then pure []
  else do
    let name ← decodeOstaName name
    pure [⟨name, icb, characteristics &&& 0x02 ≠ 0, characteristics &&& 0x01 ≠ 0⟩]

/-- The loop over the file identifiers of a directory. Each round goes on by more than one byte. -/
def fidLoop (data : List UInt8) : Nat → Nat → List UdfDirEntry → Except FsError (List UdfDirEntry)
  | 0, _, entries => pure entries
  | fuel + 1, offset, entries =>
      if data.length ≤ offset ∨ data.length < offset + fidHeaderSize then pure entries
      else do
        let ident ← readU16 data offset
        refuseIf (ident ≠ tagIdentFid) .corrupted
        let characteristics ← someOr data[offset + 18]? .corrupted
        let nameLen ← someOr data[offset + 19]? .corrupted
        let icb ← readLongAd data (offset + 20)
        let impUseLen ← readU16 data (offset + 36)
        let nameOffset ← someOr ((checkedAdd 64 offset fidHeaderSize).bind (checkedAdd 64 · impUseLen)) .corrupted
        let nameEnd ← someOr (checkedAdd 64 nameOffset nameLen.toNat) .corrupted
        let name ← someOr (slice data nameOffset nameLen.toNat) .corrupted
        let entry ← fidEntry characteristics name icb
        let next ← someOr (checkedAdd 64 nameEnd 3) .corrupted
        fidLoop data fuel (next / 4 * 4) (entries ++ entry)

/-- The entries of a directory whose contents are `data`. -/
def parseDirEntries (data : List UInt8) : Except FsError (List UdfDirEntry) := fidLoop data data.length 0 []

namespace Volume

/-- `read_dir_entries`: `granted` tells whether the allocation of a buffer of that length succeeds. What the extents do
not hold of the directory stays zero. -/
def readDirEntries (granted : Nat → Bool) (fs : Volume) (node : Node) : Except FsError (List UdfDirEntry) := do
  refuseIf (granted node.fileSize = false) .outOfMemory
  let copied ← fs.readNodeData node 0 node.fileSize
  parseDirEntries (copied ++ List.replicate (node.fileSize - copied.length) 0)

end Volume

end Directories

section Nodes

def extAttrLengthOffset (tagIdent : Nat) : Nat := if tagIdent = tagIdentFe then 168 else 208

def allocDescsLengthOffset (tagIdent : Nat) : Nat := if tagIdent = tagIdentFe then 172 else 212

def allocDescsOffset (tagIdent : Nat) : Nat := if tagIdent = tagIdentFe then 176 else 216

/-- What `read_icb` makes of the block of a file entry. -/
def parseIcb (lba partRef : Nat) (entry : { block : List UInt8 // block.length < 2 ^ 32 }) : Except FsError Node := do
  let tagIdent ← readU16 entry.val 0
  refuseIf (tagIdent ≠ tagIdentFe ∧ tagIdent ≠ tagIdentEfe) .corrupted
  let extAttrLen ← readU32 entry.val (extAttrLengthOffset tagIdent)
  let allocDescLen ← readU32 entry.val (allocDescsLengthOffset tagIdent)
  if h : allocDescsOffset tagIdent + extAttrLen + allocDescLen ≤ entry.val.length then do
    let fileType ← someOr entry.val[27]? .corrupted
    let flags ← readU16 entry.val 34
    let fileSize ← readU64 entry.val 56
    pure {
      entryLba := lba
      tagIdent := tagIdent
      partRef := partRef
      fileType := fileType.toNat
      flags := flags
      fileSize := fileSize
      allocDescOffset := allocDescsOffset tagIdent + extAttrLen
      allocDescLen := allocDescLen
      entry := entry.val
      entry_lt := entry.property
      descriptors_le := h }
  else .error .corrupted

namespace Volume

def readIcb (fs : Volume) (icb : LongAd) : Except FsError Node := do
  let lba ← fs.mapPartitionBlock icb.block.partRef icb.block.blockNum
  let entry ← readLogicalBlock fs.io lba.val
  parseIcb lba.val icb.block.partRef entry

/-- The walk of `find_node` from a node along the parts of a path. -/
def findParts (granted : Nat → Bool) (fs : Volume) : List Text → Node → Except FsError Node
  | [], node => pure node
  | part :: parts, node => do
      refuseIf (node.fileType ≠ fileTypeDirectory) .notDirectory
      let entries ← fs.readDirEntries granted node
      let entry ← someOr (entries.find? fun entry => eqIgnoreAsciiCase entry.name part) .fileNotFound
      let child ← fs.readIcb entry.icb
      findParts granted fs parts child

end Volume

def Mounted.findNode (granted : Nat → Bool) (fs : Mounted) (path : Text) : Except FsError Node := do
  let root ← fs.readIcb fs.rootIcb
  fs.findParts granted (pathParts path) root

end Nodes

section Mounting

/-- What `mount` has read of the descriptors so far. A partition map holds the number of its partition. -/
structure MountState where
  partitions : List Partition
  partitionMaps : List Nat
  rootIcb : LongAd

def readAnchorFrom (io : BlockIo) : List Nat → Except FsError ExtentAd
  | [] => .error .invalidSignature
  | lba :: candidates =>
      if io.totalBlocks ≤ lba then readAnchorFrom io candidates
      else do
        let block ← readLogicalBlock io lba
        let ident ← readU16 block.val 0
        let location ← readU32 block.val 12
        if ident = tagIdentAvdp ∧ location = lba then do
          let length ← readU32 block.val 16
          let start ← readU32 block.val 20
          pure ⟨length, start⟩
        else readAnchorFrom io candidates

def readAnchor (io : BlockIo) : Except FsError ExtentAd := readAnchorFrom io avdpCandidates

def readPartitionDescriptor (block : List UInt8) (descriptorLba : Nat) (state : MountState) :
    Except FsError MountState := do
  let number ← readU16 block 22
  let start ← readBounded block 188
  let length ← readBounded block 192
  pure { state with partitions := state.partitions ++ [⟨number, start.val, length.val, descriptorLba, start.property,
    length.property⟩] }

/-- The numbers of the partitions of `count` partition maps. -/
def readPartitionMaps (block : List UInt8) (mapsEnd : Nat) : Nat → Nat → Except FsError (List Nat)
  | 0, _ => pure []
  | count + 1, offset => do
      refuseIf (mapsEnd < offset + 6) .corrupted
      let mapType ← someOr block[offset]? .corrupted
      let mapLen ← someOr block[offset + 1]? .corrupted
      refuseIf (mapType ≠ 1 ∨ mapLen.toNat < 6 ∨ mapsEnd < offset + mapLen.toNat) .unsupportedFs
      let number ← readU16 block (offset + 4)
      let rest ← readPartitionMaps block mapsEnd count (offset + mapLen.toNat)
      pure (number :: rest)

def readLogicalVolumeDescriptor (blockSize : Nat) (block : List UInt8) (state : MountState) :
    Except FsError MountState := do
  let logicalBlockSize ← readU32 block 212
  refuseIf (logicalBlockSize = 0 ∨ logicalBlockSize ≠ blockSize) .blockSizeMismatch
  let rootIcb ← readLongAd block 248
  let mapTableLen ← readU32 block 264
  let mapCount ← readU32 block 268
  refuseIf (block.length < lvdPartitionMapsOffset + mapTableLen) .corrupted
  let maps ← readPartitionMaps block (lvdPartitionMapsOffset + mapTableLen) mapCount lvdPartitionMapsOffset
  pure { state with partitionMaps := maps, rootIcb := rootIcb }

/-- The loop of `read_volume_descriptor_sequence` over `count` blocks. -/
def readDescriptors (io : BlockIo) : Nat → Nat → MountState → Except FsError MountState
  | 0, _, state => pure state
  | count + 1, lba, state => do
      let block ← readLogicalBlock io lba
      let ident ← readU16 block.val 0
      if ident = tagIdentPd then do
        let state ← readPartitionDescriptor block.val lba state
        readDescriptors io count (lba + 1) state
      else if ident = tagIdentLvd then do
        let state ← readLogicalVolumeDescriptor io.blockSize block.val state
        readDescriptors io count (lba + 1) state
      else if ident = tagIdentTd then pure state
      else if tagIdentTd < ident then .error .invalidSignature
      else readDescriptors io count (lba + 1) state

/-- `resolve_partition_maps`: the numbers give way to the indices of the partitions. -/
def resolvePartitionMaps (state : MountState) : Except FsError (List Nat) :=
  state.partitionMaps.mapM fun number =>
    someOr (state.partitions.findIdx? fun partition => partition.number = number) .corrupted

def readVolumeDescriptorSequence (io : BlockIo) (anchor : ExtentAd) : Except FsError (List Partition × List Nat × LongAd) := do
  let descriptorCount := max ((anchor.length + io.blockSize - 1) / io.blockSize) 1
  let state ← readDescriptors io descriptorCount anchor.start ⟨[], [], ⟨0, 0, 0⟩⟩
  let maps ← resolvePartitionMaps state
  pure (state.partitions, maps, state.rootIcb)

/-- `init`, with the mount that it makes. -/
def openUdf (io : BlockIo) : Except FsError Mounted :=
  if h : io.blockSize = 0 then .error .invalidArgument
  else do
    let anchor ← readAnchor io
    let (partitions, maps, filesetIcb) ← readVolumeDescriptorSequence io anchor
    refuseIf (maps = [] ∨ partitions = []) .invalidSignature
    let volume : Volume := ⟨io, partitions, maps, Nat.one_le_iff_ne_zero.mpr h⟩
    let filesetLba ← volume.mapPartitionBlock filesetIcb.block.partRef filesetIcb.block.blockNum
    let fileset ← readLogicalBlock io filesetLba.val
    let ident ← readU16 fileset.val 0
    refuseIf (ident ≠ tagIdentFsd) .invalidSignature
    let rootIcb ← readLongAd fileset.val 400
    pure ⟨volume, rootIcb⟩

end Mounting

end NextBoot.Fs.Udf
