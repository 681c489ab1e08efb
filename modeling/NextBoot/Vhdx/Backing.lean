import NextBoot.Virtio.DeviceReads
import NextBoot.Vhdx.Format

namespace NextBoot.Vhdx

open Words Bytes Results Virtio.Mapping Virtio.BlockIo

/-- The status a call ends with, or a panic. -/
inductive Failure
  | loadError
  | unsupported
  | deviceError
  | invalidParameter
  | writeProtected
  | mediaChanged
  | noMedia
  | crcError
  | panic
deriving DecidableEq, Repr

def virtioErrorToUefiStatus : VirtIoError → Failure
  | .outOfBounds | .invalidMapping => .loadError
  | .writeProtected => .writeProtected
  | .invalidArgument | .invalidBufferSize => .invalidParameter
  | .mediaChanged => .mediaChanged
  | .noPhysicalRead => .noMedia
  | .crcError => .crcError
  | .readFailed | .deviceError => .deviceError

/-- The size, block size and extents of a file on the source volume. -/
structure SourceFile where
  size : Nat
  blockSize : Nat
  extents : List Extent
  size_lt : size < 2 ^ 64
  blockSize_lt : blockSize < 2 ^ 32

/-- The image that is booted; without extents it is contiguous from its first block. -/
structure IsoFile extends SourceFile where
  startLba : Nat

theorem isoBlockSize_lt (iso : IsoFile) : iso.blockSize < 2 ^ 32 := iso.blockSize_lt

/-- A VHDX file of the chain with its metadata and block allocation table. -/
structure VhdxImage where
  file : SourceFile
  metadata : VhdxMetadata
  bat : List UInt8

/-- The first extent that holds the file byte at `cursor`, with its first file byte and the one behind it. -/
def extentAt (blockSize cursor : Nat) : List Extent → Except Failure (Option (Extent × Nat × Nat))
  | [] => .ok none
  | e :: extents => do
      let extentFileStart ← someOr (checkedMul 64 e.1 blockSize) .loadError
      let extentBytes ← someOr (checkedMul 64 e.2.2 blockSize) .loadError
      let extentFileEnd ← someOr (checkedAdd 64 extentFileStart extentBytes) .loadError
      if cursor < extentFileStart ∨ cursor ≥ extentFileEnd then extentAt blockSize cursor extents
      else .ok (some (e, extentFileStart, extentFileEnd))

theorem extentAt_spec {blockSize cursor : Nat} {extents : List Extent} {e : Extent} {start stop : Nat}
    (h : extentAt blockSize cursor extents = .ok (some (e, start, stop))) :
    e ∈ extents ∧ start = e.1 * blockSize ∧ stop = e.1 * blockSize + e.2.2 * blockSize ∧ start ≤ cursor ∧ cursor < stop := by
  induction extents with
  | nil => cases h
  | cons x extents ih =>
      obtain ⟨extentFileStart, hstart, h⟩ := bind_eq_ok.mp h
      obtain ⟨extentBytes, hbytes, h⟩ := bind_eq_ok.mp h
      obtain ⟨extentFileEnd, hend, h⟩ := bind_eq_ok.mp h
      obtain ⟨_, rfl⟩ := checkedMul_eq_some.mp (someOr_eq_ok.mp hstart)
      obtain ⟨_, rfl⟩ := checkedMul_eq_some.mp (someOr_eq_ok.mp hbytes)
      obtain ⟨_, rfl⟩ := checkedAdd_eq_some.mp (someOr_eq_ok.mp hend)
      split at h
      · obtain ⟨hmem, hrest⟩ := ih h
        exact ⟨List.mem_cons_of_mem _ hmem, hrest⟩
      · next hin =>
          cases h
          exact ⟨List.mem_cons_self, rfl, rfl, by omega, by omega⟩

/-- The `while cursor < file_end` loop over the extents of a file. -/
def mapFileRange (blockSize : Nat) (extents : List Extent) (virtualStart fileOffset fileEnd cursor : Nat)
    (table : ByteMappingTable) : Except Failure ByteMappingTable :=
  if cursor < fileEnd then
    match _h : extentAt blockSize cursor extents with
    | .error e => .error e
    | .ok none => .error .deviceError
    | .ok (some (e, extentFileStart, extentFileEnd)) => do
        let overlapEnd := min fileEnd extentFileEnd
        let physicalStart ← someOr ((checkedMul 64 e.2.1 blockSize).bind fun start =>
          checkedAdd 64 start (cursor - extentFileStart)) .loadError
        let segmentVirtualStart ← someOr (checkedAdd 64 virtualStart (cursor - fileOffset)) .loadError
        mapFileRange blockSize extents virtualStart fileOffset fileEnd overlapEnd
          (table.addSegment segmentVirtualStart (overlapEnd - cursor) physicalStart)
  else .ok table
termination_by fileEnd - cursor
decreasing_by
  have := extentAt_spec _h
  omega

def mapSourceFileRangeToPhysical (table : ByteMappingTable) (file : SourceFile)
    (virtualStart fileOffset byteCount : Nat) : Except Failure ByteMappingTable := do
  refuseIf (file.blockSize = 0) .invalidParameter
  let fileEnd ← someOr (checkedAdd 64 fileOffset byteCount) .loadError
  mapFileRange file.blockSize file.extents virtualStart fileOffset fileEnd fileOffset table

def mapImageFileRangeToPhysical (iso : IsoFile) (table : ByteMappingTable) (virtualStart fileOffset byteCount : Nat) :
    Except Failure ByteMappingTable := do
  refuseIf (iso.blockSize = 0) .invalidParameter
  if iso.extents = [] then
    let physicalStart ← someOr ((checkedMul 64 iso.startLba iso.blockSize).bind fun start =>
      checkedAdd 64 start fileOffset) .loadError
    .ok (table.addSegment virtualStart byteCount physicalStart)
  else
    let fileEnd ← someOr (checkedAdd 64 fileOffset byteCount) .loadError
    mapFileRange iso.blockSize iso.extents virtualStart fileOffset fileEnd fileOffset table

/-- One span of a parent, cut to the range that is asked for; `mapNext` maps a range of the next parent. -/
def mapParentSpan (parent : VhdxImage) (mapNext : ByteMappingTable → Nat → Nat → Except Failure ByteMappingTable)
    (virtualStart virtualEnd : Nat) (table : ByteMappingTable) (span : ImageSpan) : Except Failure ByteMappingTable := do
  let spanEnd ← someOr (checkedAdd 64 span.virtualOffset span.byteCount) .loadError
  let overlapStart := max virtualStart span.virtualOffset
  let overlapEnd := min virtualEnd spanEnd
  if overlapStart ≥ overlapEnd then .ok table
  else
    match span.source with
    | .image fileOffset => do
        let parentFileOffset ← someOr (checkedAdd 64 fileOffset (overlapStart - span.virtualOffset)) .loadError
        mapSourceFileRangeToPhysical table parent.file overlapStart parentFileOffset (overlapEnd - overlapStart)
    | .zero => .ok table
    | .parent => mapNext table overlapStart (overlapEnd - overlapStart)

def mapParentSpans (parent : VhdxImage) (mapNext : ByteMappingTable → Nat → Nat → Except Failure ByteMappingTable)
    (table : ByteMappingTable) (virtualStart byteCount : Nat) : Except Failure ByteMappingTable := do
  let parentSpans ← (planVhdxSpans parent.metadata parent.bat fun _ => .ok false).mapError fun _ => .unsupported
  let virtualEnd ← someOr (checkedAdd 64 virtualStart byteCount) .loadError
  parentSpans.foldlM (mapParentSpan parent mapNext virtualStart virtualEnd) table

/-- The list holds the parents of `parent`, the nearest first. -/
def mapParentVhdxRange (parent : VhdxImage) : List VhdxImage → ByteMappingTable → Nat → Nat → Except Failure ByteMappingTable
  | [] => mapParentSpans parent fun _ _ _ => .error .unsupported
  | nextParent :: higher => mapParentSpans parent (mapParentVhdxRange nextParent higher)

def mapVhdxPayloadBlock (iso : IsoFile) (table : ByteMappingTable) (virtualStart fileOffset byteCount : Nat) :
    Except Failure ByteMappingTable :=
  match checkedAdd 64 fileOffset byteCount with
  | none => .error .deviceError
  | some stop =>
      if stop > iso.size then .error .deviceError
      else mapImageFileRangeToPhysical iso table virtualStart fileOffset byteCount

def bitmapBitPresent (bitmap : List UInt8) (bit : Nat) : Bool :=
  (bitmap[bit / 8]?).any fun byte => byte.toNat.testBit (bit % 8)

/-- The end of the run of equal bitmap bits that goes on at `sectorIndex`. -/
def runEnd (bitmap : List UInt8) (firstSector : Nat) (present : Bool) (sectorCount sectorIndex : Nat) : Nat :=
  if sectorIndex < sectorCount ∧ bitmapBitPresent bitmap (firstSector + sectorIndex) = present then
    runEnd bitmap firstSector present sectorCount (sectorIndex + 1)
  else sectorIndex
termination_by sectorCount - sectorIndex

theorem le_runEnd (bitmap : List UInt8) (firstSector : Nat) (present : Bool) (sectorCount sectorIndex : Nat) :
    sectorIndex ≤ runEnd bitmap firstSector present sectorCount sectorIndex := by
  fun_induction runEnd bitmap firstSector present sectorCount sectorIndex with
  | case1 sectorIndex _ ih => omega
  | case2 sectorIndex _ => exact le_rfl

/-- One run of sectors that are all present in the image, or all left to its parents. -/
def mapSectorRun (iso : IsoFile) (parents : List VhdxImage) (present : Bool) (fileOffset runByteStart runVirtualStart
    runByteCount : Nat) (table : ByteMappingTable) : Except Failure ByteMappingTable :=
  if present then do
    let runFileOffset ← someOr (checkedAdd 64 fileOffset runByteStart) .loadError
    mapVhdxPayloadBlock iso table runVirtualStart runFileOffset runByteCount
  else
    match parents with
    | parent :: higher => mapParentVhdxRange parent higher table runVirtualStart runByteCount
    | [] => .error .unsupported

/-- The outer `while sector_index < sector_count` loop of a partially present block. -/
def mapSectorRuns (iso : IsoFile) (parents : List VhdxImage) (bitmap : List UInt8)
    (logicalSector firstSector sectorCount virtualStart fileOffset byteCount : Nat) (sectorIndex : Nat)
    (table : ByteMappingTable) : Except Failure ByteMappingTable :=
  if sectorIndex < sectorCount then
    let present := bitmapBitPresent bitmap (firstSector + sectorIndex)
    let next := runEnd bitmap firstSector present sectorCount (sectorIndex + 1)
    do
      let runByteStart ← someOr (checkedMul 64 sectorIndex logicalSector) .loadError
      let runStop ← someOr (checkedMul 64 next logicalSector) .loadError
      let runByteEnd := min runStop byteCount
      if runByteStart ≥ runByteEnd then
        mapSectorRuns iso parents bitmap logicalSector firstSector sectorCount virtualStart fileOffset byteCount next table
      else
        let runVirtualStart ← someOr (checkedAdd 64 virtualStart runByteStart) .loadError
        let table ← mapSectorRun iso parents present fileOffset runByteStart runVirtualStart (runByteEnd - runByteStart) table
        mapSectorRuns iso parents bitmap logicalSector firstSector sectorCount virtualStart fileOffset byteCount next table
  else .ok table
termination_by sectorCount - sectorIndex
decreasing_by
  all_goals
    have := le_runEnd bitmap firstSector (bitmapBitPresent bitmap (firstSector + sectorIndex)) sectorCount (sectorIndex + 1)
    omega

/-- The extents through which the image file itself is read. -/
def IsoFile.allExtents (iso : IsoFile) : List Extent :=
  if iso.extents = [] then [(0, iso.startLba, (iso.size + (iso.blockSize - 1)) / iso.blockSize)] else iso.extents

/-- The file device of the image; a contiguous file needs its block count. -/
def buildImageFileBlockIo (iso : IsoFile) (reader : PhysicalReader) : Except Failure VirtualBlockIo :=
  let config : VirtualDeviceConfig := ⟨iso.size, 512, iso.blockSize, iso.size_lt, Words.sector_lt_u32, isoBlockSize_lt iso⟩
  if iso.extents = [] then do
    let blockCount ← someOr (divRoundUp 64 iso.size iso.blockSize) .loadError
    .ok ((VirtualBlockIo.fromFileExtents config [(0, iso.startLba, blockCount)]).setPhysicalReader reader)
  else .ok ((VirtualBlockIo.fromFileExtents config iso.extents).setPhysicalReader reader)

def readFileBytes (vbio : VirtualBlockIo) (offset len : Nat) : Except Failure (List UInt8) :=
  match vbio.readBytes vbio.mediaId offset (List.replicate len 0) with
  | .ok buf => .ok buf
  | .error (.error e) => .error (virtioErrorToUefiStatus e)
  | .error .panic => .error .panic

def vhdxMib : Nat := 2 ^ 20

def readPayloadBatEntry (bat : List UInt8) (payloadIndex chunkRatio : Nat) : Except Failure VhdxBatEntry :=
  someOr ((payloadBatIndex payloadIndex chunkRatio).bind (batEntryAt bat)) .loadError

def readSectorBitmapBatEntry (bat : List UInt8) (payloadIndex chunkRatio : Nat) : Except Failure VhdxBatEntry :=
  someOr ((sectorBitmapBatIndex payloadIndex chunkRatio).bind (batEntryAt bat)) .loadError

def mapVhdxPartialPayloadBlock (iso : IsoFile) (fileVbio : VirtualBlockIo) (m : VhdxMetadata) (bat : List UInt8)
    (parents : List VhdxImage) (chunkRatio payloadIndex virtualStart fileOffset byteCount : Nat)
    (table : ByteMappingTable) : Except Failure ByteMappingTable := do
  let bitmapEntry ← readSectorBitmapBatEntry bat payloadIndex chunkRatio
  refuseIf (bitmapEntry.state ≠ .fullyPresent) .unsupported
  let bitmapEnd ← someOr (checkedAdd 64 bitmapEntry.fileOffset vhdxMib) .deviceError
  refuseIf (bitmapEnd > iso.size) .deviceError
  let bitmap ← readFileBytes fileVbio bitmapEntry.fileOffset vhdxMib
  let sectorsPerBlock := m.blockSize / m.logicalSectorSize
  let firstSector ← someOr (checkedMul 64 (payloadIndex % chunkRatio) sectorsPerBlock) .loadError
  let sectorCount ← someOr (divRoundUp 64 byteCount m.logicalSectorSize) .loadError
  mapSectorRuns iso parents bitmap m.logicalSectorSize firstSector sectorCount virtualStart fileOffset byteCount 0 table

/-- A block that is not present or unmapped: the parents have it, or it is zero. -/
def mapAbsentBlock (m : VhdxMetadata) (parents : List VhdxImage) (virtualStart byteCount : Nat) (table : ByteMappingTable) :
    Except Failure ByteMappingTable :=
  if m.hasParent then
    match parents with
    | parent :: higher => mapParentVhdxRange parent higher table virtualStart byteCount
    | [] => .error .unsupported
  else .ok table

/-- One payload block of the image that is booted. -/
def mapVhdxBlock (iso : IsoFile) (fileVbio : VirtualBlockIo) (m : VhdxMetadata) (bat : List UInt8)
    (parents : List VhdxImage) (chunkRatio : Nat) (table : ByteMappingTable) (payloadIndex : Nat) :
    Except Failure ByteMappingTable := do
  let entry ← readPayloadBatEntry bat payloadIndex chunkRatio
  let virtualStart ← someOr (checkedMul 64 payloadIndex m.blockSize) .loadError
  let byteCount := min m.blockSize (m.virtualDiskSize - virtualStart)
  match entry.state with
  | .fullyPresent => mapVhdxPayloadBlock iso table virtualStart entry.fileOffset byteCount
  | .partiallyPresent =>
      mapVhdxPartialPayloadBlock iso fileVbio m bat parents chunkRatio payloadIndex virtualStart entry.fileOffset byteCount
        table
  | .zero => .ok table
  | .notPresent | .unmapped => mapAbsentBlock m parents virtualStart byteCount table
  | .undefined => .error .unsupported
  | .reserved => .error .loadError

/-- The device for an image whose layout has been read and whose parents have been opened. -/
def buildVhdxBlockIo (iso : IsoFile) (reader : PhysicalReader) (m : VhdxMetadata) (bat : List UInt8)
    (parents : List VhdxImage) : Except Failure VirtualBlockIo := do
  let fileVbio ← buildImageFileBlockIo iso reader
  let payloadBlocks ← someOr (payloadBlockCount m.virtualDiskSize m.blockSize) .loadError
  let chunkRatio ← someOr m.chunkRatio .loadError
  let byteMapping ← (List.range payloadBlocks).foldlM (mapVhdxBlock iso fileVbio m bat parents chunkRatio) .empty
  have hsector : m.logicalSectorSize < 2 ^ 32 := by
    rcases m.logicalSectorSize_cases with h | h <;> rw [h] <;> decide
  .ok (VirtualBlockIo.withByteMapping
    ⟨m.virtualDiskSize, m.logicalSectorSize, iso.blockSize, m.virtualDiskSize_lt, hsector, isoBlockSize_lt iso⟩
    (byteMapping.truncate m.virtualDiskSize).optimize)

end NextBoot.Vhdx
