import NextBoot.Vdi.Planner
import NextBoot.Vhdx.Device

namespace NextBoot.Vdi

open Words Bytes Results Virtio.Mapping Virtio.BlockIo Virtio.ReadSemantics Virtio.DeviceReads Vhdx

/-- A VDI file of the chain with its metadata and block map. -/
structure VdiImage where
  file : SourceFile
  metadata : VdiMetadata
  blockMap : List UInt8

def vdiParentMatches (child parent : VdiMetadata) : Prop :=
  child.virtualDiskSize = parent.virtualDiskSize ∧ child.blockSize = parent.blockSize ∧
    child.sectorSize = parent.sectorSize ∧ child.linkageUuid = parent.createUuid ∧
    child.parentModifyUuid = parent.modifyUuid

def maxVdiParentDepth : Nat := 8

/-- What opening the parents of an image can return, the nearest first. -/
inductive Opened : Nat → VdiMetadata → List VdiImage → Prop
  | missing (depth : Nat) (child : VdiMetadata) : Opened depth child []
  | found {depth : Nat} {child : VdiMetadata} {parent : VdiImage} {higher : List VdiImage}
      (differencing : child.isDifferencing) (admitted : depth < maxVdiParentDepth)
      (linked : vdiParentMatches child parent.metadata) (opened : Opened (depth + 1) parent.metadata higher) :
      Opened depth child (parent :: higher)

def mapParentSpans (parent : VdiImage) (mapNext : ByteMappingTable → Nat → Nat → Except Failure ByteMappingTable)
    (table : ByteMappingTable) (virtualStart byteCount : Nat) : Except Failure ByteMappingTable := do
  let parentSpans ← (planVdiSpans parent.metadata parent.blockMap).mapError fun _ => .unsupported
  let virtualEnd ← someOr (checkedAdd 64 virtualStart byteCount) .loadError
  parentSpans.foldlM (mapSpan parent.file mapNext virtualStart virtualEnd) table

/-- The list holds the parents of `parent`, the nearest first. -/
def mapParentVdiRange (parent : VdiImage) : List VdiImage → ByteMappingTable → Nat → Nat → Except Failure ByteMappingTable
  | [] => mapParentSpans parent fun _ _ _ => .error .unsupported
  | nextParent :: higher => mapParentSpans parent (mapParentVdiRange nextParent higher)

/-- One block of the image that is booted. -/
def mapVdiBlock (iso : IsoFile) (m : VdiMetadata) (blockMap : List UInt8) (parents : List VdiImage) (table : ByteMappingTable)
    (blockIndex virtualStart byteCount : Nat) : Except Failure ByteMappingTable := do
  let mapEntry ← someOr (readBlockMapEntry blockMap blockIndex) .loadError
  if ¬ isAllocatedBlock mapEntry then
    if m.isDifferencing then
      match parents with
      | [] => .error .unsupported
      | parent :: higher => mapParentVdiRange parent higher table virtualStart byteCount
    else .ok table
  else do
    refuseIf (mapEntry ≥ m.blocksAllocated) .loadError
    let blockOffset ← someOr (checkedMul 64 mapEntry m.blockSize) .loadError
    let fileOffset ← someOr (checkedAdd 64 m.offsetData blockOffset) .loadError
    refuseIf ((checkedAdd 64 fileOffset byteCount).all fun stop => stop > iso.size) .deviceError
    mapImageFileRangeToPhysical iso table virtualStart fileOffset byteCount

def readVdiMetadata (fileVbio : VirtualBlockIo) : Except Failure VdiMetadata := do
  let header ← readFileBytes fileVbio 0 vdiHeaderSize
  someOr (parseVdiMetadata header) .loadError

def readVdiBlockMap (fileVbio : VirtualBlockIo) (m : VdiMetadata) (fileSize : Nat) : Except Failure (List UInt8) := do
  let mapBytes ← someOr (blockMapBytes m.blockCount) .loadError
  refuseIf ((checkedAdd 64 m.offsetBlocks mapBytes).all fun stop => stop > fileSize ∨ stop > m.offsetData) .loadError
  readFileBytes fileVbio m.offsetBlocks mapBytes

/-- The parents are opened once the metadata of the image is known. -/
def buildVdiBlockIo (iso : IsoFile) (reader : PhysicalReader) (openParents : VdiMetadata → Except Failure (List VdiImage)) :
    Except Failure VirtualBlockIo := do
  let fileVbio ← buildImageFileBlockIo iso reader
  let m ← readVdiMetadata fileVbio
  let parents ← openParents m
  let blockMap ← readVdiBlockMap fileVbio m iso.size
  let byteMapping ← forBlocks m .loadError (mapVdiBlock iso m blockMap parents) 0 .empty
  have hsector : m.sectorSize < 2 ^ 32 := by
    rw [m.sectorSize_eq]
    decide
  .ok (VirtualBlockIo.withByteMapping
    ⟨m.virtualDiskSize, m.sectorSize, iso.blockSize, m.virtualDiskSize_lt, hsector, Vhdx.isoBlockSize_lt iso⟩
    (byteMapping.truncate m.virtualDiskSize).optimize)

/-- The physical byte for `v` in a chain of images, the child first: the span of the plan that holds it says where it is, and
a parent span leaves it to the images above. -/
def locate : List VdiImage → Nat → Option Nat
  | [], _ => none
  | image :: parents, v =>
      match planVdiSpans image.metadata image.blockMap with
      | .error _ => none
      | .ok spans =>
          (Tiling.locate ImageSpan.virtualOffset ImageSpan.byteCount spans v).bind fun span =>
            (span.source.advance (v - span.virtualOffset)).resolve image.file (locate parents v)

def chainByte (disk : Nat → UInt8) (images : List VdiImage) (v : Nat) : UInt8 := ((locate images v).map disk).getD 0

/-- Where one image finds a byte by the entry of its block; `above` is what its parents give. -/
def locateEntry (image : VdiImage) (above : Option Nat) (v : Nat) : Option Nat :=
  (readBlockMapEntry image.blockMap (v / image.metadata.blockSize)).bind fun mapEntry =>
    if isAllocatedBlock mapEntry then
      image.file.locate (image.metadata.offsetData + mapEntry * image.metadata.blockSize + v % image.metadata.blockSize)
    else if image.metadata.isDifferencing then above
    else none

theorem blockSource_cases {m : VdiMetadata} {mapEntry : Nat} {start : ImageSpanSource} (h : blockSource m mapEntry = .ok start) :
    start = .image (m.offsetData + mapEntry * m.blockSize) ∧ isAllocatedBlock mapEntry = true ∨
      isAllocatedBlock mapEntry = false ∧
        (start = .parent ∧ m.isDifferencing ∨ start = .zero ∧ ¬ m.isDifferencing) := by
  unfold blockSource at h
  split at h
  · next hallocated =>
      obtain ⟨_, -, h⟩ := bind_eq_ok.mp h
      obtain ⟨blockOffset, hblock, h⟩ := bind_eq_ok.mp h
      obtain ⟨_, rfl⟩ := checkedMul_eq_some.mp (someOr_eq_ok.mp hblock)
      obtain ⟨fileOffset, hoffset, h⟩ := bind_eq_ok.mp h
      obtain ⟨_, rfl⟩ := checkedAdd_eq_some.mp (someOr_eq_ok.mp hoffset)
      cases h
      exact .inl ⟨rfl, hallocated⟩
  · next hfree =>
      refine .inr ⟨by simpa using hfree, ?_⟩
      split at h <;> cases h
      · next hdifferencing => exact .inl ⟨rfl, hdifferencing⟩
      · next hdynamic => exact .inr ⟨rfl, hdynamic⟩

theorem locateEntry_of_planned {image : VdiImage} {above : Option Nat} {v : Nat} {source : ImageSpanSource}
    (h : PlannedSource image.metadata image.blockMap v source) :
    locateEntry image above v = source.resolve image.file above := by
  obtain ⟨mapEntry, start, hentry, hstart, rfl⟩ := h
  rw [locateEntry, hentry, Option.bind_some]
  rcases blockSource_cases hstart with ⟨rfl, hallocated⟩ | ⟨hfree, ⟨rfl, hdifferencing⟩ | ⟨rfl, hdynamic⟩⟩
  · rw [if_pos hallocated]
    rfl
  · rw [if_neg (by simp [hfree]), if_pos hdifferencing]
    rfl
  · rw [if_neg (by simp [hfree]), if_neg hdynamic]
    rfl

/-- The plan and the table of an image tell the same of every byte of the disk. -/
theorem locate_eq_entry {image : VdiImage} {parents : List VdiImage} {spans : List ImageSpan}
    (h : planVdiSpans image.metadata image.blockMap = .ok spans) {v : Nat} (hv : v < image.metadata.virtualDiskSize) :
    locate (image :: parents) v = locateEntry image (locate parents v) v := by
  obtain ⟨htiles, hdescribes⟩ := planVdiSpans_partitions h
  obtain ⟨span, hspan⟩ := htiles.exists_locate (Nat.zero_le v) hv
  obtain ⟨hmem, hlo, hhi⟩ := Tiling.locate_mem hspan
  simp only [locate, h, hspan, Option.bind_some]
  exact (locateEntry_of_planned (hdescribes span hmem v hlo hhi)).symm

variable {t t' : ByteMappingTable}

theorem mapParentSpans_extends {parent : VdiImage} {higher : List VdiImage} (hfile : parent.file.OnDevice)
    {mapNext : ByteMappingTable → Nat → Nat → Except Failure ByteMappingTable} {virtualStart byteCount : Nat}
    (hnext : ∀ t t' start count, mapNext t start count = .ok t' → start + count ≤ parent.metadata.virtualDiskSize →
      Extends t t' start (start + count) (locate higher))
    (hend : virtualStart + byteCount ≤ parent.metadata.virtualDiskSize)
    (h : mapParentSpans parent mapNext t virtualStart byteCount = .ok t') :
    Extends t t' virtualStart (virtualStart + byteCount) (locate (parent :: higher)) := by
  have hlt := parent.metadata.virtualDiskSize_lt
  obtain ⟨spans, hspans, h⟩ := bind_eq_ok.mp h
  obtain ⟨virtualEnd, hvirtualEnd, h⟩ := bind_eq_ok.mp h
  obtain ⟨_, rfl⟩ := checkedAdd_eq_some.mp (someOr_eq_ok.mp hvirtualEnd)
  have hplan := mapError_eq_ok.mp hspans
  obtain ⟨htiles, hdescribes⟩ := planVdiSpans_partitions hplan
  have hrange := mapSpans_extends
    (fun v _ hs => @locateEntry_of_planned parent (locate higher v) v _ hs) hfile
    (fun t t' start count hmap hle => hnext t t' start count hmap (hle.trans hend)) (by omega) hend (Nat.le_add_right _ _)
    (tiles_of_tiling htiles) hdescribes h
  rw [Nat.zero_min, Nat.max_zero] at hrange
  exact hrange.congr fun v _ hv => (locate_eq_entry hplan (by omega)).symm

theorem mapParentVdiRange_extends {depth : Nat} {parent : VdiImage} {higher : List VdiImage}
    (hopened : Opened depth parent.metadata higher) (hfiles : ∀ image ∈ parent :: higher, image.file.OnDevice)
    {virtualStart byteCount : Nat} (hend : virtualStart + byteCount ≤ parent.metadata.virtualDiskSize)
    (h : mapParentVdiRange parent higher t virtualStart byteCount = .ok t') :
    Extends t t' virtualStart (virtualStart + byteCount) (locate (parent :: higher)) := by
  induction higher generalizing parent depth virtualStart byteCount t t' with
  | nil =>
      refine mapParentSpans_extends (hfiles parent List.mem_cons_self) (fun t t' start count hmap => ?_) hend h
      cases hmap
  | cons nextParent higher ih =>
      refine mapParentSpans_extends (hfiles parent List.mem_cons_self) (fun t t' start count hmap hle => ?_) hend h
      cases hopened with
      | found _ _ linked hopened =>
          exact ih hopened (fun image hi => hfiles image (List.mem_cons_of_mem _ hi)) (hle.trans_eq linked.1) hmap

end NextBoot.Vdi
