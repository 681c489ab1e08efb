import NextBoot.Bytes
import NextBoot.Words

namespace NextBoot.Vdi

open Words Bytes

inductive VdiType
  | dynamic
  | static
  | differencing
deriving DecidableEq, Repr

def VdiType.ofRaw : Nat → Option VdiType
  | 1 => some .dynamic
  | 2 => some .static
  | 4 => some .differencing
  | _ => none

/-- The header fields that pass `parse_vdi_metadata`. -/
structure VdiMetadata where
  imageType : VdiType
  virtualDiskSize : Nat
  blockSize : Nat
  blockExtraSize : Nat
  blockCount : Nat
  blocksAllocated : Nat
  offsetBlocks : Nat
  offsetData : Nat
  sectorSize : Nat
  createUuid : List UInt8
  modifyUuid : List UInt8
  linkageUuid : List UInt8
  parentModifyUuid : List UInt8
  virtualDiskSize_pos : 0 < virtualDiskSize
  virtualDiskSize_lt : virtualDiskSize < 2 ^ 64
  virtualDiskSize_le : virtualDiskSize ≤ blockCount * blockSize
  blockSize_pow : blockSize.isPowerOfTwo
  blockSize_lt : blockSize < 2 ^ 32
  blockCount_lt : blockCount < 2 ^ 32
  sectorSize_eq : sectorSize = 512
  offsetData_lt : offsetData < 2 ^ 32
  blockMap_le : offsetBlocks + blockCount * 4 ≤ offsetData

def VdiMetadata.isDifferencing (m : VdiMetadata) : Prop := m.imageType = .differencing

instance (m : VdiMetadata) : Decidable m.isDifferencing := inferInstanceAs (Decidable (_ = _))

def vdiHeaderSize : Nat := 512
def vdiSignature : Nat := 0xbeda107f
def vdiVersion : Nat := 0x00010001
def vdiDiscarded : Nat := 0xfffffffe
def vdiDefaultSectorSize : Nat := 512

def blockMapBytes (blockCount : Nat) : Option Nat := checkedMul 64 blockCount 4

def readBlockMapEntry (map : List UInt8) (index : Nat) : Option Nat := (checkedMul 64 index 4).bind (readLe 4 map)

def isAllocatedBlock (entry : Nat) : Bool := entry < vdiDiscarded

def readUuid (data : List UInt8) (offset : Nat) : Option (List UInt8) := slice data offset 16

/-- A little-endian field with the bound of its width. -/
def readField (width : Nat) (data : List UInt8) (offset : Nat) : Option { value : Nat // value < 256 ^ width } :=
  match h : readLe width data offset with
  | none => none
  | some value => some ⟨value, readLe_lt h⟩

def parseVdiMetadata (header : List UInt8) : Option VdiMetadata := do
  guard (¬ header.length < vdiHeaderSize)
  let signature ← readLe 4 header 0x40
  guard (signature = vdiSignature)
  let version ← readLe 4 header 0x44
  guard (version = vdiVersion)
  let headerSize ← readLe 4 header 0x48
  guard (¬ (headerSize = 0 ∨ 0x48 + headerSize > header.length))
  let rawType ← readLe 4 header 0x4c
  let imageType ← VdiType.ofRaw rawType
  let offsetBlocks ← readField 4 header 0x154
  let offsetData ← readField 4 header 0x158
  let sectorSize ← readField 4 header 0x168
  let virtualDiskSize ← readField 8 header 0x170
  let blockSize ← readField 4 header 0x178
  let blockExtraSize ← readField 4 header 0x17c
  let blockCount ← readField 4 header 0x180
  let blocksAllocated ← readField 4 header 0x184
  let createUuid ← readUuid header 0x188
  let modifyUuid ← readUuid header 0x198
  let linkageUuid ← readUuid header 0x1a8
  let parentModifyUuid ← readUuid header 0x1b8
  if hfields : virtualDiskSize.val = 0 ∨ blockSize.val = 0 ∨ blockCount.val = 0 ∨ ¬ blockSize.val.isPowerOfTwo ∨
      sectorSize.val ≠ vdiDefaultSectorSize ∨ offsetBlocks.val % vdiDefaultSectorSize ≠ 0 ∨
      offsetData.val % vdiDefaultSectorSize ≠ 0 then none
  else if hsize : virtualDiskSize.val > blockCount.val * blockSize.val then none
  else if hmap : offsetBlocks.val + blockCount.val * 4 > offsetData.val then none
  else some {
    imageType, createUuid, modifyUuid, linkageUuid, parentModifyUuid
    virtualDiskSize := virtualDiskSize
    blockSize := blockSize
    blockExtraSize := blockExtraSize
    blockCount := blockCount
    blocksAllocated := blocksAllocated
    offsetBlocks := offsetBlocks
    offsetData := offsetData
    sectorSize := sectorSize
    virtualDiskSize_pos := by omega
    virtualDiskSize_lt := virtualDiskSize.property
    virtualDiskSize_le := by omega
    blockSize_pow := by
      by_contra hpow
      exact hfields (.inr (.inr (.inr (.inl hpow))))
    blockSize_lt := blockSize.property
    blockCount_lt := blockCount.property
    sectorSize_eq := by
      by_contra hsector
      exact hfields (.inr (.inr (.inr (.inr (.inl hsector)))))
    offsetData_lt := offsetData.property
    blockMap_le := by omega }

theorem VdiMetadata.blockSize_pos (m : VdiMetadata) : 0 < m.blockSize := Nat.pos_of_isPowerOfTwo m.blockSize_pow

end NextBoot.Vdi
