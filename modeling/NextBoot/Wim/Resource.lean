import NextBoot.BlockStore
import NextBoot.Wim.Format

namespace NextBoot.Wim

open Words Bytes Results BlockStore

/-- A decompressor: it fills a buffer that it is given, and says how much of it it has filled. -/
structure Decoder (ε : Type) where
  run : List UInt8 → List UInt8 → Except ε (List UInt8 × Nat)
  length_run : ∀ {input out : List UInt8} {result : List UInt8 × Nat}, run input out = .ok result →
    result.1.length = out.length

/-- What reading a resource works with: the decompressors, the allocator, which grants some sizes, and the reads of the
file, which the caller hands in. -/
structure Reader where
  decompressXpress : Decoder XpressDecodeError
  decompressLzx : Decoder LzxDecodeError
  granted : Nat → Bool
  readAt : Nat → Nat → Except WimReadError (List UInt8)

/-- Entries of a chunk table are this wide where the resource is not longer. -/
def maxU32ResourceSize : Nat := 0xffffffff

structure WimChunkSpan where
  index : Nat
  uncompressedOffset : Nat
  uncompressedSize : Nat
  compressedOffset : Nat
  compressedSize : Nat
deriving DecidableEq, Repr

def WimChunkSpan.isStored (chunk : WimChunkSpan) : Bool := chunk.compressedSize = chunk.uncompressedSize

def validateResourceBounds (wimLen : Nat) (resource : WimResourceHeader) : Except WimReadError Unit := do
  let stop ← someOr (checkedAdd 64 resource.offset resource.compressedSize) .resourceOutOfBounds
  refuseIf (wimLen < stop) .resourceOutOfBounds

def offsetEntryLen (resource : WimResourceHeader) : Nat := if maxU32ResourceSize < resource.uncompressedSize then 8 else 4

variable (reader : Reader) (metadata : WimMetadata) (resource : WimResourceHeader)

/-- The entry of a chunk table that says where a chunk behind the first one begins. -/
def readChunkTableEntry (chunksLen chunkIndex : Nat) : Except WimReadError Nat := do
  let before ← someOr (checkedSub chunkIndex 1) .invalidChunkTable
  let entry ← someOr (checkedMul 64 before (offsetEntryLen resource)) .invalidChunkTable
  let tableEntryOffset ← someOr (checkedAdd 64 resource.offset entry) .resourceOutOfBounds
  let raw ← reader.readAt tableEntryOffset (offsetEntryLen resource)
  let rawOffset ← someOr (readLe (offsetEntryLen resource) raw 0) .invalidChunkTable
  let offset ← someOr (checkedAdd 64 chunksLen rawOffset) .invalidChunkTable
  refuseIf (resource.compressedSize < offset) .invalidChunkTable
  pure offset

def resourceChunkDataOffset (chunkLen chunkIndex : Nat) : Except WimReadError Nat :=
  if resource.uncompressedSize = 0 then pure 0
  else do
    refuseIf (chunkLen = 0) .invalidChunkLength
    let chunkCount ← someOr (divRoundUp 64 resource.uncompressedSize chunkLen) .invalidChunkTable
    let chunksLen ← someOr (checkedMul 64 (chunkCount - 1) (offsetEntryLen resource)) .invalidChunkTable
    refuseIf (resource.compressedSize < chunksLen) .invalidChunkTable
    if chunkIndex = 0 then pure chunksLen
    else if chunkCount ≤ chunkIndex then pure resource.compressedSize
    else readChunkTableEntry reader resource chunksLen chunkIndex

/-- The chunk that an offset lies in. -/
def resourceChunkSpan (uncompressedOffset : Nat) : Except WimReadError WimChunkSpan := do
  let chunkLen := metadata.chunkLen
  refuseIf (chunkLen = 0) .invalidChunkLength
  refuseIf (resource.uncompressedSize ≤ uncompressedOffset) .invalidRange
  let chunkIndex := uncompressedOffset / chunkLen
  let chunkUncompressedOffset ← someOr (checkedMul 64 chunkIndex chunkLen) .invalidRange
  let left ← someOr (checkedSub resource.uncompressedSize chunkUncompressedOffset) .invalidRange
  let chunkStart ← resourceChunkDataOffset reader resource chunkLen chunkIndex
  let chunkEnd ← resourceChunkDataOffset reader resource chunkLen (chunkIndex + 1)
  refuseIf (chunkEnd < chunkStart ∨ resource.compressedSize < chunkEnd) .invalidChunkTable
  let compressedOffset ← someOr (checkedAdd 64 resource.offset chunkStart) .resourceOutOfBounds
  pure {
    index := chunkIndex
    uncompressedOffset := chunkUncompressedOffset
    uncompressedSize := min chunkLen left
    compressedOffset := compressedOffset
    compressedSize := chunkEnd - chunkStart }

def reserve (size : Nat) : Except WimReadError Unit := refuseIf (reader.granted size = false) .outputReserveFailed

def readCompressedChunk (chunk : WimChunkSpan) : Except WimReadError (List UInt8) := do
  reserve reader chunk.compressedSize
  reader.readAt chunk.compressedOffset chunk.compressedSize

/-- A chunk decompressed by one of the decompressors, whose errors `failed` passes on and which reports `overflow` where
it fills less than the chunk. -/
def decompressChunk {ε : Type} (decoder : Decoder ε) (failed : ε → WimReadError) (overflow : ε) (chunk : WimChunkSpan) :
    Except WimReadError (List UInt8) := do
  let compressed ← readCompressedChunk reader chunk
  reserve reader chunk.uncompressedSize
  let result ← (decoder.run compressed (List.replicate chunk.uncompressedSize 0)).mapError failed
  refuseIf (result.2 ≠ chunk.uncompressedSize) (failed overflow)
  pure result.1

def decompressXpressChunk (chunk : WimChunkSpan) : Except WimReadError (List UInt8) :=
  decompressChunk reader reader.decompressXpress .xpressDecodeFailed .outputOverflow chunk

def decompressLzxChunk (chunk : WimChunkSpan) : Except WimReadError (List UInt8) :=
  decompressChunk reader reader.decompressLzx .lzxDecodeFailed .outputOverflow chunk

/-- The part of a decompressed chunk that goes to the output. -/
def cutChunk (decompressed : Except WimReadError (List UInt8)) (skip copyLen : Nat) : Except WimReadError (List UInt8) := do
  let bytes ← decompressed
  let stop ← someOr (checkedAdd 64 skip copyLen) .resourceOutOfBounds
  pure ((bytes.take stop).drop skip)

/-- The bytes of one chunk from `skip` on. -/
def readChunk (chunk : WimChunkSpan) (skip copyLen : Nat) : Except WimReadError (List UInt8) :=
  if chunk.isStored then do
    let sourceStart ← someOr (checkedAdd 64 chunk.compressedOffset skip) .resourceOutOfBounds
    reader.readAt sourceStart copyLen
  else
    match metadata.compression with
    | .xpress => cutChunk (decompressXpressChunk reader chunk) skip copyLen
    | .lzx => cutChunk (decompressLzxChunk reader chunk) skip copyLen
    | _ => .error (.unsupportedCompressedChunk chunk.index chunk.compressedSize chunk.uncompressedSize)

/-- The copying of chunks while `remaining` bytes are left. Each round copies at least one byte, so that many rounds are
enough. -/
def readChunks : Nat → Nat → Nat → Except WimReadError (List UInt8)
  | 0, _, _ => pure []
  | rounds + 1, remaining, resourceOffset =>
      if remaining = 0 then pure []
      else do
        let chunk ← resourceChunkSpan reader metadata resource resourceOffset
        let skip ← someOr (checkedSub resourceOffset chunk.uncompressedOffset) .invalidRange
        let available ← someOr (checkedSub chunk.uncompressedSize skip) .invalidRange
        let copyLen := min remaining available
        let bytes ← readChunk reader metadata chunk skip copyLen
        let next ← someOr (checkedAdd 64 resourceOffset copyLen) .invalidRange
        let rest ← readChunks rounds (remaining - copyLen) next
        pure (bytes ++ rest)

/-- `read_resource_range_with`: the bytes that a buffer of `len` bytes is filled with. -/
def readResourceRange (wimLen offset len : Nat) : Except WimReadError (List UInt8) :=
  if len = 0 then pure []
  else do
    validateResourceBounds wimLen resource
    let readEnd ← someOr (checkedAdd 64 offset len) .invalidRange
    refuseIf (resource.uncompressedSize < readEnd) .invalidRange
    if ¬ resource.isCompressed ∧ ¬ resource.usesPackedStreams then do
      let start ← someOr (checkedAdd 64 resource.offset offset) .resourceOutOfBounds
      reader.readAt start len
    else readChunks reader metadata resource len len offset

end NextBoot.Wim
