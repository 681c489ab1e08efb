import NextBoot.Fs.Extents

namespace NextBoot.Fs.Udf

open Words BlockStore Bytes Results

structure Partition where
  number : Nat
  start : Nat
  length : Nat
  descriptorLba : Nat
  start_lt : start < 2 ^ 32
  length_lt : length < 2 ^ 32

/-- A mounted UDF volume. Mounting checks that a logical block is a block of the device and resolves each partition map
to the index of a partition. -/
structure Volume where
  io : BlockIo
  partitions : List Partition
  partitionMaps : List Nat
  blockSize_pos : 0 < io.blockSize

/-- A file entry, as `read_icb` has read and checked it. -/
structure Node where
  entryLba : Nat
  tagIdent : Nat
  partRef : Nat
  fileType : Nat
  flags : Nat
  fileSize : Nat
  allocDescOffset : Nat
  allocDescLen : Nat
  entry : List UInt8
  entry_lt : entry.length < 2 ^ 32
  descriptors_le : allocDescOffset + allocDescLen ≤ entry.length

/-- An allocation descriptor, mapped to the device: 30 bits of length and a block of a partition. -/
structure NodeExtent where
  length : Nat
  physicalLba : Nat
  extentType : Nat
  length_pos : 0 < length
  length_lt : length < 2 ^ 30
  physicalLba_lt : physicalLba < 2 ^ 33
deriving DecidableEq

def icbAdMask : Nat := 7

def icbAdShort : Nat := 0

def icbAdLong : Nat := 1

def icbAdInIcb : Nat := 3

def fileTypeRegular : Nat := 5

def readU16 (data : List UInt8) (offset : Nat) : Except FsError Nat := someOr (readLe 2 data offset) .corrupted

def readU32 (data : List UInt8) (offset : Nat) : Except FsError Nat := someOr (readLe 4 data offset) .corrupted

def readU64 (data : List UInt8) (offset : Nat) : Except FsError Nat := someOr (readLe 8 data offset) .corrupted

namespace Volume

/-- The block behind a block of a partition, with the bound that the sum of two 32-bit numbers has. -/
def mapPartitionBlock (fs : Volume) (partRef blockNum : Nat) : Except FsError { lba : Nat // lba < 2 ^ 33 } := do
  let index ← someOr fs.partitionMaps[partRef]? .corrupted
  let partition ← someOr fs.partitions[index]? .corrupted
  if h : partition.length ≤ blockNum then .error .readError
  else pure ⟨partition.start + blockNum, by have := partition.start_lt; have := partition.length_lt; omega⟩

/-- One allocation descriptor; `partRefOf` tells where its partition reference comes from. -/
def pushDescriptor (fs : Volume) (partRefOf : List UInt8 → Except FsError Nat) (extents : List NodeExtent)
    (chunk : List UInt8) : Except FsError (List NodeExtent) := do
  let rawLength ← readU32 chunk 0
  if h : rawLength % 2 ^ 30 = 0 then pure extents
  else do
    let blockNum ← readU32 chunk 4
    let partRef ← partRefOf chunk
    let lba ← fs.mapPartitionBlock partRef blockNum
    pure (extents ++ [{
      length := rawLength % 2 ^ 30
      physicalLba := lba.val
      extentType := rawLength / 2 ^ 30 * 2 ^ 30
      length_pos := Nat.pos_of_ne_zero h
      length_lt := Nat.mod_lt _ (Nat.two_pow_pos _)
      physicalLba_lt := lba.property }])

def descriptors (node : Node) : List UInt8 := (node.entry.drop node.allocDescOffset).take node.allocDescLen

def shortExtents (fs : Volume) (node : Node) : Except FsError (List NodeExtent) :=
  (chunksExact 8 (descriptors node)).foldlM (fs.pushDescriptor fun _ => pure node.partRef) []

def longExtents (fs : Volume) (node : Node) : Except FsError (List NodeExtent) :=
  (chunksExact 16 (descriptors node)).foldlM (fs.pushDescriptor fun chunk => readU16 chunk 8) []

def nodeDataExtents (fs : Volume) (node : Node) : Except FsError (List NodeExtent) :=
  if node.flags.land icbAdMask = icbAdShort then fs.shortExtents node
  else if node.flags.land icbAdMask = icbAdLong then fs.longExtents node
  else if node.flags.land icbAdMask = icbAdInIcb then pure []
  else .error .unsupportedFs

/-- The block count of `node_extents`, in saturating arithmetic. -/
def divRoundUp (value divisor : Nat) : Nat :=
  if divisor = 0 then 0 else saturatingAdd 64 value (divisor - 1) / divisor

/-- The extents from the virtual block `virtualBlockStart` on. -/
def extentsFrom (blockSize : Nat) : List NodeExtent → Nat → List FileExtent
  | [], _ => []
  | extent :: extents, virtualBlockStart =>
      let blockCount := divRoundUp extent.length blockSize
      let next := saturatingAdd 64 virtualBlockStart blockCount
      if extent.extentType ≠ 0 then extentsFrom blockSize extents next
      else ⟨virtualBlockStart, extent.physicalLba, blockCount⟩ :: extentsFrom blockSize extents next

def nodeExtents (fs : Volume) (node : Node) : Except FsError (List FileExtent) := do
  let extents ← fs.nodeDataExtents node
  pure (extentsFrom fs.io.blockSize extents 0)

end Volume

section Walk

variable {β : Type} (readBlock : Nat → Except FsError (List β)) (blockSize offset readable : Nat)

/-- The copying loop inside one extent, over cells of any kind. Each round copies at least one cell. -/
def copyBlocks (lbaOffset inBlockOffset : Nat) : Nat → Nat → Nat → Nat → Except FsError (List β)
  | 0, _, _, _ => pure []
  | fuel + 1, copied, currentLba, extentRemaining =>
      if copied < readable ∧ 0 < extentRemaining then do
        let block ← readBlock currentLba
        let sourceOffset := if lbaOffset = 0 ∧ copied = 0 then inBlockOffset else 0
        let available := min (block.length - sourceOffset) extentRemaining
        let toCopy := min available (readable - copied)
        let rest ← copyBlocks lbaOffset inBlockOffset fuel (copied + toCopy) (saturatingAdd 64 currentLba 1)
          (extentRemaining - toCopy)
        pure ((block.drop sourceOffset).take toCopy ++ rest)
      else pure []

def copyExtent (extent : NodeExtent) (withinExtent copied : Nat) : Except FsError (List β) :=
  copyBlocks readBlock readable (withinExtent / blockSize) (withinExtent % blockSize) readable copied
    (saturatingAdd 64 extent.physicalLba (withinExtent / blockSize)) (extent.length - withinExtent)

/-- The walk of `read_node_data` over the extents. -/
def walkExtents : List NodeExtent → Nat → Nat → Except FsError (List β)
  | [], _, _ => pure []
  | extent :: extents, copied, fileCursor =>
      let extentEnd := saturatingAdd 64 fileCursor extent.length
      if extent.extentType ≠ 0 then walkExtents extents copied extentEnd
      else if extentEnd ≤ offset then walkExtents extents copied extentEnd
      else do
        let cells ← copyExtent readBlock blockSize readable extent (offset - fileCursor) copied
        if readable ≤ copied + cells.length then pure cells
        else do
          let rest ← walkExtents extents (copied + cells.length) extentEnd
          pure (cells ++ rest)

end Walk

namespace Volume

def readNodeData (fs : Volume) (node : Node) (offset len : Nat) : Except FsError (List UInt8) :=
  if node.fileSize ≤ offset ∨ len = 0 then pure []
  else
    let readable := min len (node.fileSize - offset)
    if node.flags.land icbAdMask = icbAdInIcb then someOr (slice node.entry (node.allocDescOffset + offset) readable) .corrupted
    else do
      let extents ← fs.nodeDataExtents node
      walkExtents fs.io.readBlock fs.io.blockSize offset readable extents 0 0

/-- `read_file` of the node that `find_node` has found, into a buffer of `len` bytes. -/
def readFile (fs : Volume) (node : Node) (offset len : Nat) : Except FsError (List UInt8) :=
  if node.fileType ≠ fileTypeRegular then .error .notFile else fs.readNodeData node offset len

end Volume

end NextBoot.Fs.Udf
