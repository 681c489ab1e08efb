import NextBoot.Bytes
import NextBoot.Virtio.Mapping

namespace NextBoot.Virtio.BlockIo

open Words Bytes Mapping

inductive VirtIoError
  | outOfBounds
  | writeProtected
  | readFailed
  | invalidArgument
  | invalidBufferSize
  | mediaChanged
  | invalidMapping
  | noPhysicalRead
  | deviceError
  | crcError
deriving DecidableEq, Repr

/-- A call either reports an error or, on an out-of-range slice, panics. -/
inductive Fault
  | error (e : VirtIoError)
  | panic
deriving DecidableEq, Repr

structure VirtualDeviceConfig where
  isoSize : Nat
  blockSize : Nat
  physicalBlockSize : Nat
  isoSize_lt : isoSize < 2 ^ 64
  blockSize_lt : blockSize < 2 ^ 32
  physicalBlockSize_lt : physicalBlockSize < 2 ^ 32

def VirtualDeviceConfig.blockCount (c : VirtualDeviceConfig) : Nat :=
  wrappingSub 64 (wrappingAdd 64 c.isoSize c.blockSize) 1 / c.blockSize

/-- Fills the buffer it is given from a physical block address. -/
structure PhysicalReader where
  readBlocks : Nat → List UInt8 → Except VirtIoError (List UInt8)

structure MemoryOverlay where
  virtualOffset : Nat
  data : List UInt8
deriving DecidableEq, Repr

def MemoryOverlay.end (o : MemoryOverlay) : Option Nat := checkedAdd 64 o.virtualOffset o.data.length

structure VirtualBlockIo where
  config : VirtualDeviceConfig
  byteMapping : ByteMappingTable
  memoryOverlays : List MemoryOverlay
  physicalRead : Option PhysicalReader
  mediaId : Nat

namespace VirtualBlockIo

def withByteMapping (config : VirtualDeviceConfig) (byteMapping : ByteMappingTable) : VirtualBlockIo :=
  ⟨config, byteMapping, [], none, 0x4E425453⟩

def fromFileExtents (config : VirtualDeviceConfig) (extents : List Extent) : VirtualBlockIo :=
  withByteMapping config
    (ByteMappingTable.fromFileExtents extents config.isoSize config.physicalBlockSize).optimize

def setPhysicalReader (io : VirtualBlockIo) (reader : PhysicalReader) : VirtualBlockIo :=
  { io with physicalRead := some reader }

/-- An overlay past the end also grows the device. -/
def addMemoryOverlay (io : VirtualBlockIo) (o : MemoryOverlay) : Except VirtIoError VirtualBlockIo :=
  match h : o.end with
  | none => .error .invalidArgument
  | some stop =>
      if stop > io.config.isoSize then
        have hlt : stop < 2 ^ 64 := by
          obtain ⟨hlt, rfl⟩ := checkedAdd_eq_some.mp h
          exact hlt
        .ok { io with
          config := { io.config with isoSize := stop, isoSize_lt := hlt }
          byteMapping := io.byteMapping.setTotalBytes stop
          memoryOverlays := io.memoryOverlays ++ [o] }
      else .ok { io with memoryOverlays := io.memoryOverlays ++ [o] }

def addMemoryOverlays (io : VirtualBlockIo) (os : List MemoryOverlay) : Except VirtIoError VirtualBlockIo :=
  os.foldlM addMemoryOverlay io

def blockCount (io : VirtualBlockIo) : Nat := io.config.blockCount

/-- The `while remaining > 0` loop that copies one translated piece block by block. -/
def copyLoop (reader : PhysicalReader) (physicalBlockSize : Nat) (hpos : 0 < physicalBlockSize) (dstOffset : Nat)
    (copied remaining physicalByte : Nat) (scratch buf : List UInt8) :
    Except Fault (List UInt8 × List UInt8) :=
  if _h : remaining > 0 then
    let inBlockOffset := physicalByte % physicalBlockSize
    let copySize := min (physicalBlockSize - inBlockOffset) remaining
    match reader.readBlocks (physicalByte / physicalBlockSize) scratch with
    | .error e => .error (.error e)
    | .ok scratch =>
        match (slice scratch inBlockOffset copySize).bind (copyFromSlice buf (dstOffset + copied)) with
        | none => .error .panic
        | some buf =>
            copyLoop reader physicalBlockSize hpos dstOffset (copied + copySize) (remaining - copySize)
              (wrappingAdd 64 physicalByte copySize) scratch buf
  else .ok (scratch, buf)
termination_by remaining
decreasing_by
  have := Nat.mod_lt physicalByte hpos
  omega

def copyPieces (reader : PhysicalReader) (physicalBlockSize : Nat) (hpos : 0 < physicalBlockSize) :
    List ByteMappingTable.Piece → List UInt8 → List UInt8 → Except Fault (List UInt8)
  | [], _, buf => .ok buf
  | (dstOffset, physicalByteStart, byteCount) :: ranges, scratch, buf => do
      let (scratch, buf) ← copyLoop reader physicalBlockSize hpos dstOffset 0 byteCount physicalByteStart scratch buf
      copyPieces reader physicalBlockSize hpos ranges scratch buf

def applyOverlay (virtualOffset readEnd : Nat) (buf : List UInt8) (o : MemoryOverlay) :
    Except Fault (List UInt8) :=
  match o.end with
  | none => .error (.error .invalidArgument)
  | some overlayEnd =>
      let overlapStart := max virtualOffset o.virtualOffset
      let overlapEnd := min readEnd overlayEnd
      if overlapStart ≥ overlapEnd then .ok buf
      else
        match (slice o.data (overlapStart - o.virtualOffset) (overlapEnd - overlapStart)).bind
            (copyFromSlice buf (overlapStart - virtualOffset)) with
        | none => .error .panic
        | some buf => .ok buf

def applyMemoryOverlays (io : VirtualBlockIo) (virtualOffset readable : Nat) (buf : List UInt8) :
    Except Fault (List UInt8) :=
  match checkedAdd 64 virtualOffset readable with
  | none => .error (.error .outOfBounds)
  | some readEnd => io.memoryOverlays.foldlM (applyOverlay virtualOffset readEnd) buf

/-- The `usize::try_from` conversions of the source are on offsets below the buffer length. -/
def readVirtualBytes (io : VirtualBlockIo) (reader : PhysicalReader) (virtualOffset : Nat) (buf : List UInt8) :
    Except Fault (List UInt8) :=
  let buf := List.replicate buf.length 0
  if virtualOffset ≥ io.config.isoSize then .ok buf
  else
    let readable := min (io.config.isoSize - virtualOffset) buf.length
    match io.byteMapping.translateRangeSparse virtualOffset readable with
    | none => .error (.error .invalidMapping)
    | some ranges =>
        if hpos : 0 < io.config.physicalBlockSize then do
          let buf ← copyPieces reader io.config.physicalBlockSize hpos ranges
            (List.replicate io.config.physicalBlockSize 0) buf
          io.applyMemoryOverlays virtualOffset readable buf
        else .error (.error .invalidArgument)

def readBlocks (io : VirtualBlockIo) (mediaId virtualLba : Nat) (buf : List UInt8) : Except Fault (List UInt8) :=
  if mediaId ≠ io.mediaId then .error (.error .mediaChanged)
  else if io.config.blockSize = 0 then .error (.error .invalidArgument)
  else if buf.length % io.config.blockSize ≠ 0 then .error (.error .invalidBufferSize)
  else if virtualLba ≥ io.config.blockCount then .error (.error .outOfBounds)
  else if ((checkedAdd 64 virtualLba (buf.length / io.config.blockSize)).all fun stop =>
      decide (stop > io.config.blockCount)) then .error (.error .outOfBounds)
  else
    match io.physicalRead with
    | none => .error (.error .noPhysicalRead)
    | some reader =>
        match checkedMul 64 virtualLba io.config.blockSize with
        | none => .error (.error .outOfBounds)
        | some virtualOffset => io.readVirtualBytes reader virtualOffset buf

def readBytes (io : VirtualBlockIo) (mediaId virtualOffset : Nat) (buf : List UInt8) : Except Fault (List UInt8) :=
  if mediaId ≠ io.mediaId then .error (.error .mediaChanged)
  else if buf = [] then .ok buf
  else
    match checkedAdd 64 virtualOffset buf.length with
    | none => .error (.error .outOfBounds)
    | some stop =>
        if stop > io.config.isoSize then .error (.error .outOfBounds)
        else
          match io.physicalRead with
          | none => .error (.error .noPhysicalRead)
          | some reader => io.readVirtualBytes reader virtualOffset buf

end VirtualBlockIo

end NextBoot.Virtio.BlockIo
