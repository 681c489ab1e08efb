import NextBoot.Fs.Udf.Mount

namespace NextBoot.Fs.Udf

open Words BlockStore Bytes Results Strings Paths

/-- One bit of the descriptor CRC. -/
def crc16Round (crc : BitVec 16) : BitVec 16 :=
  if crc &&& 0x8000#16 ≠ 0#16 then (crc <<< 1) ^^^ 0x1021#16 else crc <<< 1

def udfCrc16 (data : List UInt8) : BitVec 16 :=
  data.foldl (fun crc byte => crc16Round^[8] (crc ^^^ (BitVec.ofNat 16 byte.toNat <<< 8))) 0#16

/-- The sum of the sixteen bytes of a descriptor tag but for its own place. -/
def tagChecksum (block : List UInt8) : UInt8 := ((block.take 16).eraseIdx 4).foldl (· + ·) 0

def writeAt (width : Nat) (data : List UInt8) (offset value : Nat) : Except FsError (List UInt8) :=
  someOr (writeLe width data offset value) .corrupted

/-- The CRC that a descriptor is given, where its tag says that it has one. -/
def refreshCrc (block : List UInt8) : Except FsError (List UInt8) := do
  let crcLen ← readU16 block 10
  if crcLen = 0 then pure block
  else do
    let body ← someOr (slice block 16 crcLen) .corrupted
    writeAt 2 block 8 (udfCrc16 body).toNat

def refreshDescriptorTag (block : List UInt8) : Except FsError (List UInt8) :=
  if block.length < 16 then .error .corrupted
  else do
    let block ← refreshCrc block
    pure (block.set 4 (tagChecksum block))

structure UdfPartitionDescriptorPatch where
  descriptorOffset : Nat
  descriptorData : List UInt8
deriving DecidableEq, Repr

structure UdfFileReplacementPatch where
  fileEntryOffset : Nat
  fileEntryData : List UInt8
  partitionDescriptor : Option UdfPartitionDescriptorPatch
deriving DecidableEq, Repr

/-- The block of a partition descriptor for a partition of another length. -/
def growDescriptor (descriptor : List UInt8) (newLength : Nat) : Except FsError (List UInt8) := do
  let descriptor ← writeAt 4 descriptor 192 newLength
  refreshDescriptorTag descriptor

def partitionDescriptorPatch (io : BlockIo) (partition : Partition) (replacementEndLba : Nat) :
    Except FsError (Option UdfPartitionDescriptorPatch) :=
  if replacementEndLba ≤ partition.start + partition.length then pure none
  else do
    let newLength := replacementEndLba - partition.start
    refuseIf (2 ^ 32 ≤ newLength) .fileTooLarge
    let descriptor ← readLogicalBlock io partition.descriptorLba
    let data ← growDescriptor descriptor.val newLength
    let offset ← someOr (checkedMul 64 partition.descriptorLba io.blockSize) .corrupted
    pure (some ⟨offset, data⟩)

/-- The length of the one descriptor that a replaced file has; a file inside its entry gets a short one. -/
def descriptorSize (flags : Nat) : Option Nat :=
  if flags.land icbAdMask = icbAdShort ∨ flags.land icbAdMask = icbAdInIcb then some 8
  else if flags.land icbAdMask = icbAdLong then some 16
  else none

/-- The flags with the kind of that descriptor. -/
def descriptorFlags (flags descriptorSize : Nat) : Nat :=
  flags / 8 * 8 + if descriptorSize = 16 then icbAdLong else icbAdShort

/-- The sizes in the head of a file entry. -/
def writeSizes (tagIdent : Nat) (entry : List UInt8) (replacementSize allocatedBytes : Nat) : Except FsError (List UInt8) := do
  let entry ← writeAt 8 entry 56 replacementSize
  if tagIdent = tagIdentEfe then do
    let entry ← writeAt 8 entry 64 replacementSize
    writeAt 8 entry 72 allocatedBytes
  else writeAt 8 entry 64 allocatedBytes

/-- The one descriptor, over the ones that were there. -/
def writeDescriptor (node : Node) (entry : List UInt8) (descriptorSize replacementSize replacementBlock : Nat) :
    Except FsError (List UInt8) := do
  let clearLen := max node.allocDescLen descriptorSize
  let entry ← someOr (copyFromSlice entry node.allocDescOffset (List.replicate clearLen 0)) .corrupted
  let entry ← writeAt 4 entry node.allocDescOffset replacementSize
  let entry ← writeAt 4 entry (node.allocDescOffset + 4) replacementBlock
  if descriptorSize = 16 then writeAt 2 entry (node.allocDescOffset + 8) node.partRef else pure entry

/-- The block of the file entry of a replaced file. -/
def patchEntry (node : Node) (descriptorSize replacementSize replacementBlock allocatedBytes : Nat) :
    Except FsError (List UInt8) := do
  let entry ← writeSizes node.tagIdent node.entry replacementSize allocatedBytes
  let entry ← writeAt 4 entry (allocDescsLengthOffset node.tagIdent) descriptorSize
  let entry ← writeAt 2 entry 34 (descriptorFlags node.flags descriptorSize)
  let entry ← writeDescriptor node entry descriptorSize replacementSize replacementBlock
  refreshDescriptorTag entry

/-- The patch for a node that has been found. -/
def replaceNode (fs : Volume) (node : Node) (replacementLba replacementSize allocatedBytes : Nat) :
    Except FsError UdfFileReplacementPatch := do
  refuseIf (node.fileType ≠ fileTypeRegular) .notFile
  let descriptorSize ← someOr (descriptorSize node.flags) .unsupportedFs
  refuseIf (2 ^ 30 ≤ replacementSize) .fileTooLarge
  let index ← someOr fs.partitionMaps[node.partRef]? .corrupted
  let partition ← someOr fs.partitions[index]? .corrupted
  let replacementBlock ← someOr (checkedSub replacementLba partition.start) .invalidArgument
  refuseIf (2 ^ 32 ≤ replacementBlock) .fileTooLarge
  let entry ← patchEntry node descriptorSize replacementSize replacementBlock allocatedBytes
  let replacementEndLba ←
    someOr (checkedAdd 64 replacementLba (Volume.divRoundUp allocatedBytes fs.io.blockSize)) .corrupted
  let partitionDescriptor ← partitionDescriptorPatch fs.io partition replacementEndLba
  let offset ← someOr (checkedMul 64 node.entryLba fs.io.blockSize) .corrupted
  pure ⟨offset, entry, partitionDescriptor⟩

def Mounted.fileReplacementPatch (granted : Nat → Bool) (fs : Mounted) (path : Text)
    (replacementLba replacementSize allocatedBytes : Nat) : Except FsError UdfFileReplacementPatch := do
  let node ← fs.findNode granted path
  replaceNode fs.toVolume node replacementLba replacementSize allocatedBytes

/-- A tag whose checksum is right, and its CRC where it has one. -/
structure ValidTag (block : List UInt8) : Prop where
  checksum : block[4]? = some (tagChecksum block)
  crc : ∀ crcLen, readLe 2 block 10 = some crcLen → crcLen ≠ 0 →
    ∃ body, slice block 16 crcLen = some body ∧ readLe 2 block 8 = some (udfCrc16 body).toNat

section Tags

variable {block out : List UInt8} {width offset value : Nat}

theorem writeAt_eq_ok : writeAt width block offset value = .ok out ↔
    offset + width ≤ block.length ∧ out = splice block offset (toLeBytes width value) := by
  rw [writeAt, someOr_eq_ok, writeLe_eq_some]

/-- The checksum does not depend on its own place. -/
theorem tagChecksum_set {x : UInt8} : tagChecksum (block.set 4 x) = tagChecksum block := by
  rw [tagChecksum, tagChecksum, List.take_set, List.eraseIdx_set_eq]

/-- What a fresh tag is: a CRC and a checksum written into the block. -/
structure Refreshed (block out : List UInt8) : Prop where
  length_eq : out.length = block.length
  long : 16 ≤ block.length
  valid : ValidTag out
  kept : ∀ i, i ≠ 4 → i < 8 ∨ 10 ≤ i → out[i]? = block[i]?

theorem refreshCrc_kept (h : refreshCrc block = .ok out) (hlong : 16 ≤ block.length) :
    out.length = block.length ∧ (∀ i, i < 8 ∨ 10 ≤ i → out[i]? = block[i]?) ∧
      ∀ crcLen, readLe 2 block 10 = some crcLen → crcLen ≠ 0 →
        ∃ body, slice block 16 crcLen = some body ∧ readLe 2 out 8 = some (udfCrc16 body).toNat := by
  obtain ⟨crcLen, hcrcLen, h⟩ := bind_eq_ok.mp h
  rw [readU16, someOr_eq_ok] at hcrcLen
  split at h
  · next hzero =>
      cases h
      refine ⟨rfl, fun _ _ => rfl, fun other hother hne => ?_⟩
      cases hcrcLen.symm.trans hother
      exact absurd hzero hne
  · obtain ⟨body, hbody, h⟩ := bind_eq_ok.mp h
    obtain ⟨hroom, rfl⟩ := writeAt_eq_ok.mp h
    have hfits : 8 + (toLeBytes 2 (udfCrc16 body).toNat).length ≤ block.length := by
      rw [length_toLeBytes]
      exact hroom
    refine ⟨length_splice _ _ _ hfits, fun i hi => ?_, fun other hother _ => ?_⟩
    · rw [getElem?_splice _ _ _ hfits, length_toLeBytes, if_neg (by omega)]
    · cases hcrcLen.symm.trans hother
      exact ⟨body, someOr_eq_ok.mp hbody, readLe_splice_self hroom (udfCrc16 body).isLt⟩

theorem refreshDescriptorTag_spec (h : refreshDescriptorTag block = .ok out) : Refreshed block out := by
  rw [refreshDescriptorTag] at h
  split at h
  · cases h
  next hlong =>
  obtain ⟨mid, hmid, h⟩ := bind_eq_ok.mp h
  rw [pure_eq_ok] at h
  obtain ⟨hlength, hkept, hcrc⟩ := refreshCrc_kept hmid (by omega)
  have hset : ∀ i, i ≠ 4 → out[i]? = mid[i]? := by
    intro i hi
    rw [← h, List.getElem?_set_ne (Ne.symm hi)]
  have hlengthOut : out.length = mid.length := by rw [← h, List.length_set]
  refine ⟨hlengthOut.trans hlength, by omega, ⟨?_, fun crcLen hcrcLen hne => ?_⟩,
    fun i hne hi => (hset i hne).trans (hkept i hi)⟩
  · rw [← h, tagChecksum_set, List.getElem?_set_self (by omega)]
  · have hbody : readLe 2 block 10 = some crcLen := by
      rw [← hcrcLen]
      exact readLe_congr (by omega) fun i hlo _ => ((hset i (by omega)).trans (hkept i (.inr (by omega)))).symm
    obtain ⟨body, hslice, hread⟩ := hcrc crcLen hbody hne
    refine ⟨body, ?_, ?_⟩
    · rw [← hslice]
      exact slice_congr (by omega) fun i hlo _ => (hset i (by omega)).trans (hkept i (.inr (by omega)))
    · rw [← hread]
      exact readLe_congr hlengthOut fun i hlo _ => hset i (by omega)

/-- A fresh tag leaves the number at a place outside the tag's own checks as it is. -/
theorem Refreshed.readLe_eq (h : Refreshed block out) (hat : offset + width ≤ 4 ∨ 10 ≤ offset) :
    readLe width out offset = readLe width block offset :=
  readLe_congr h.length_eq fun i _ _ => h.kept i (by omega) (by omega)

end Tags

section Entries

variable {fs : Volume} {node : Node} {entry out : List UInt8} {lba partRef tagIdent kind size block allocated : Nat}
variable {buffer : { block : List UInt8 // block.length < 2 ^ 32 }}

/-- What `read_icb` has found in the block that a node is of. -/
structure ReadFrom (lba partRef : Nat) (entry : List UInt8) (node : Node) : Prop where
  entry_eq : node.entry = entry
  entryLba_eq : node.entryLba = lba
  partRef_eq : node.partRef = partRef
  tagIdent_eq : readLe 2 entry 0 = some node.tagIdent
  known : node.tagIdent = tagIdentFe ∨ node.tagIdent = tagIdentEfe
  extAttr : readLe 4 entry (extAttrLengthOffset node.tagIdent) =
    some (node.allocDescOffset - allocDescsOffset node.tagIdent)
  offset_le : allocDescsOffset node.tagIdent ≤ node.allocDescOffset
  allocDescLen_eq : readLe 4 entry (allocDescsLengthOffset node.tagIdent) = some node.allocDescLen
  fileType_eq : entry[27]?.map UInt8.toNat = some node.fileType
  flags_eq : readLe 2 entry 34 = some node.flags
  fileSize_eq : readLe 8 entry 56 = some node.fileSize

theorem parseIcb_eq_ok : parseIcb lba partRef buffer = .ok node ↔ ReadFrom lba partRef buffer.val node := by
  obtain ⟨entry, hentry⟩ := buffer
  simp only [parseIcb, bind_eq_ok, readU16, readU32, readU64, someOr_eq_ok, refuseIf_eq_ok]
  constructor
  · rintro ⟨tagIdent, htag, _, hknown, extAttrLen, hext, allocDescLen, halloc, h⟩
    split at h
    · simp only [bind_eq_ok, someOr_eq_ok, pure_eq_ok] at h
      obtain ⟨fileType, htype, flags, hflags, fileSize, hsize, rfl⟩ := h
      exact ⟨rfl, rfl, rfl, htag, by tauto, by simpa using hext, Nat.le_add_right _ _, halloc, by simp [htype], hflags, hsize⟩
    · cases h
  · intro h
    obtain ⟨entryLba, tagIdent, ref, fileType, flags, fileSize, descOffset, descLen, nodeEntry, hlt, hdesc⟩ := node
    obtain ⟨rfl, rfl, rfl, htag, hknown, hext, hoffset, halloc, htype, hflags, hsize⟩ := h
    dsimp only at htag hknown hext hoffset halloc htype hflags hsize
    obtain ⟨type, hbyte, rfl⟩ := Option.map_eq_some_iff.mp htype
    refine ⟨tagIdent, htag, (), by tauto, _, hext, descLen, halloc, ?_⟩
    have hback : allocDescsOffset tagIdent + (descOffset - allocDescsOffset tagIdent) = descOffset :=
      Nat.add_sub_cancel' hoffset
    rw [dif_pos (by rwa [hback])]
    simp only [bind_eq_ok, someOr_eq_ok, pure_eq_ok]
    exact ⟨type, hbyte, flags, hflags, fileSize, hsize, by simp only [hback]⟩

/-- The sizes as writes into the block. -/
def sizeWrites (tagIdent size allocated : Nat) : List (Nat × List UInt8) :=
  if tagIdent = tagIdentEfe then [(56, toLeBytes 8 size), (64, toLeBytes 8 size), (72, toLeBytes 8 allocated)]
  else [(56, toLeBytes 8 size), (64, toLeBytes 8 allocated)]

theorem writeSizes_eq (h : writeSizes tagIdent entry size allocated = .ok out) :
    out = patch entry (sizeWrites tagIdent size allocated) ∧
      ∀ p ∈ sizeWrites tagIdent size allocated, p.1 + p.2.length ≤ entry.length := by
  obtain ⟨mid, hmid, h⟩ := bind_eq_ok.mp h
  obtain ⟨hfirst, rfl⟩ := writeAt_eq_ok.mp hmid
  have hlength : (splice entry 56 (toLeBytes 8 size)).length = entry.length :=
    length_splice _ _ _ (by rwa [length_toLeBytes])
  rw [sizeWrites]
  split at h
  · next hefe =>
      obtain ⟨next, hnext, h⟩ := bind_eq_ok.mp h
      obtain ⟨hsecond, rfl⟩ := writeAt_eq_ok.mp hnext
      obtain ⟨hthird, rfl⟩ := writeAt_eq_ok.mp h
      rw [length_splice _ _ _ (by rwa [length_toLeBytes]), hlength] at hthird
      rw [hlength] at hsecond
      rw [if_pos hefe]
      exact ⟨rfl, by simp; omega⟩
  · next hfe =>
      obtain ⟨hsecond, rfl⟩ := writeAt_eq_ok.mp h
      rw [hlength] at hsecond
      rw [if_neg hfe]
      exact ⟨rfl, by simp; omega⟩

/-- The bytes that a descriptor puts in the place of the ones before it. -/
structure DescriptorBytes (node : Node) (kind size block : Nat) (desc : List UInt8) : Prop where
  length_eq : desc.length = max node.allocDescLen kind
  size_eq : readLe 4 desc 0 = some size
  block_eq : readLe 4 desc 4 = some block
  partRef_eq : kind = 16 → readLe 2 desc 8 = some node.partRef

theorem writeDescriptor_eq (hkind : kind = 8 ∨ kind = 16) (hsize : size < 2 ^ 30) (hblock : block < 2 ^ 32)
    (hpartRef : node.partRef < 2 ^ 16) (h : writeDescriptor node entry kind size block = .ok out) :
    ∃ desc, DescriptorBytes node kind size block desc ∧ out = splice entry node.allocDescOffset desc ∧
      node.allocDescOffset + desc.length ≤ entry.length := by
  obtain ⟨cleared, hcleared, h⟩ := bind_eq_ok.mp h
  rw [someOr_eq_ok, copyFromSlice_eq_some, List.length_replicate] at hcleared
  obtain ⟨hroom, rfl⟩ := hcleared
  obtain ⟨first, hfirst, h⟩ := bind_eq_ok.mp h
  obtain ⟨-, rfl⟩ := writeAt_eq_ok.mp hfirst
  obtain ⟨second, hsecond, h⟩ := bind_eq_ok.mp h
  obtain ⟨-, rfl⟩ := writeAt_eq_ok.mp hsecond
  generalize hzeros : List.replicate (max node.allocDescLen kind) (0 : UInt8) = zeros at h
  have hlength : zeros.length = max node.allocDescLen kind := by rw [← hzeros, List.length_replicate]
  have hfour : ∀ value, (toLeBytes 4 value).length = 4 := length_toLeBytes 4
  have htwo : ∀ value, (toLeBytes 2 value).length = 2 := length_toLeBytes 2
  -- the three numbers are written into the cleared bytes
  have hlengthOne : (splice zeros 0 (toLeBytes 4 size)).length = zeros.length := length_splice _ _ _ (by rw [hfour]; omega)
  have hone := @splice_splice_inside _ entry zeros (toLeBytes 4 size) node.allocDescOffset 0 (by omega) (by rw [hfour]; omega)
  have htwice := @splice_splice_inside _ entry (splice zeros 0 (toLeBytes 4 size)) (toLeBytes 4 block) node.allocDescOffset 4
    (by omega) (by rw [hfour]; omega)
  rw [Nat.add_zero] at hone
  rw [hone, htwice] at h
  generalize hdesc : splice (splice zeros 0 (toLeBytes 4 size)) 4 (toLeBytes 4 block) = desc at h
  have hlengthTwo : desc.length = zeros.length := by
    rw [← hdesc, length_splice _ _ _ (by rw [hfour]; omega), hlengthOne]
  have hreadBlock : readLe 4 desc 4 = some block := by
    rw [← hdesc]
    exact readLe_splice_self (by omega) hblock
  have hreadSize : readLe 4 desc 0 = some size := by
    rw [← hdesc, readLe_splice_disjoint (by rw [hfour]; omega) (.inl (by omega))]
    exact readLe_splice_self (by omega) (hsize.trans (by decide))
  rcases hkind with rfl | rfl
  · rw [if_neg (by decide), pure_eq_ok] at h
    exact ⟨desc, ⟨by omega, hreadSize, hreadBlock, fun hlong => absurd hlong (by decide)⟩, h.symm, by omega⟩
  · rw [if_pos rfl] at h
    obtain ⟨-, rfl⟩ := writeAt_eq_ok.mp h
    have hroomRef : 8 + (toLeBytes 2 node.partRef).length ≤ desc.length := by
      rw [htwo]
      omega
    have hlengthThree := length_splice _ _ _ hroomRef
    refine ⟨splice desc 8 (toLeBytes 2 node.partRef), ⟨by omega, ?_, ?_, fun _ => ?_⟩, ?_, by omega⟩
    · rw [readLe_splice_disjoint hroomRef (.inl (by omega))]
      exact hreadSize
    · rw [readLe_splice_disjoint hroomRef (.inl (by omega))]
      exact hreadBlock
    · exact readLe_splice_self (by omega) hpartRef
    · exact splice_splice_inside (by omega) hroomRef

/-- The node of a file whose entry has been patched. -/
structure PatchedNode (node node' : Node) (kind size block : Nat) : Prop where
  entryLba_eq : node'.entryLba = node.entryLba
  partRef_eq : node'.partRef = node.partRef
  fileType_eq : node'.fileType = node.fileType
  fileSize_eq : node'.fileSize = size
  flags_eq : node'.flags.land icbAdMask = if kind = 16 then icbAdLong else icbAdShort
  length_eq : (Volume.descriptors node').length = kind
  size_eq : readLe 4 (Volume.descriptors node') 0 = some size
  block_eq : readLe 4 (Volume.descriptors node') 4 = some block
  descriptorRef_eq : kind = 16 → readLe 2 (Volume.descriptors node') 8 = some node.partRef

theorem land_icbAdMask (flags : Nat) : flags.land icbAdMask = flags % 8 := Nat.and_two_pow_sub_one_eq_mod flags 3

theorem descriptorFlags_land : (descriptorFlags size kind).land icbAdMask = if kind = 16 then icbAdLong else icbAdShort := by
  rw [land_icbAdMask, descriptorFlags]
  split <;> simp [icbAdLong, icbAdShort] <;> omega

theorem kind_of_descriptorSize (h : descriptorSize size = some kind) : kind = 8 ∨ kind = 16 := by
  rw [descriptorSize] at h
  split at h
  · cases h
    exact .inl rfl
  · split at h
    · cases h
      exact .inr rfl
    · cases h

/-- All writes of a patched entry but for its tag. -/
def entryWrites (node : Node) (kind size allocated : Nat) (desc : List UInt8) : List (Nat × List UInt8) :=
  sizeWrites node.tagIdent size allocated ++
    [(allocDescsLengthOffset node.tagIdent, toLeBytes 4 kind), (34, toLeBytes 2 (descriptorFlags node.flags kind)),
      (node.allocDescOffset, desc)]

theorem patchEntry_writes (hkind : kind = 8 ∨ kind = 16) (hsize : size < 2 ^ 30) (hblock : block < 2 ^ 32)
    (hpartRef : node.partRef < 2 ^ 16) (h : patchEntry node kind size block allocated = .ok out) :
    ∃ desc, DescriptorBytes node kind size block desc ∧
      (∀ p ∈ entryWrites node kind size allocated desc, p.1 + p.2.length ≤ node.entry.length) ∧
      Refreshed (patch node.entry (entryWrites node kind size allocated desc)) out := by
  obtain ⟨sized, hsized, h⟩ := bind_eq_ok.mp h
  obtain ⟨rfl, hfits⟩ := writeSizes_eq hsized
  obtain ⟨counted, hcounted, h⟩ := bind_eq_ok.mp h
  obtain ⟨hcount, rfl⟩ := writeAt_eq_ok.mp hcounted
  obtain ⟨flagged, hflagged, h⟩ := bind_eq_ok.mp h
  obtain ⟨hflag, rfl⟩ := writeAt_eq_ok.mp hflagged
  obtain ⟨described, hdescribed, h⟩ := bind_eq_ok.mp h
  obtain ⟨desc, hdesc, rfl, hroom⟩ := writeDescriptor_eq hkind hsize hblock hpartRef hdescribed
  have hlength := length_patch hfits
  have hlengthCount := length_splice (patch node.entry (sizeWrites node.tagIdent size allocated))
    (allocDescsLengthOffset node.tagIdent) (toLeBytes 4 kind) (by rwa [length_toLeBytes])
  rw [hlengthCount, hlength] at hflag
  have hlengthFlag := length_splice (splice (patch node.entry (sizeWrites node.tagIdent size allocated))
    (allocDescsLengthOffset node.tagIdent) (toLeBytes 4 kind)) 34 (toLeBytes 2 (descriptorFlags node.flags kind))
    (by rwa [length_toLeBytes, hlengthCount, hlength])
  rw [hlengthFlag, hlengthCount, hlength] at hroom
  rw [hlength] at hcount
  refine ⟨desc, hdesc, fun p hp => ?_, ?_⟩
  · rw [entryWrites, List.mem_append] at hp
    rcases hp with hp | hp
    · exact hfits p hp
    · simp only [List.mem_cons, List.not_mem_nil, or_false] at hp
      rcases hp with rfl | rfl | rfl
      · rw [length_toLeBytes]
        omega
      · rw [length_toLeBytes]
        omega
      · omega
  · have hall := refreshDescriptorTag_spec h
    rw [entryWrites, patch, List.foldl_append]
    exact hall

theorem entryWrites_apart {desc : List UInt8} (h : ReadFrom lba partRef entry node) :
    (entryWrites node kind size allocated desc).Pairwise fun q r => q.1 + q.2.length ≤ r.1 ∨ r.1 + r.2.length ≤ q.1 := by
  have hoffset := h.offset_le
  rw [entryWrites, sizeWrites]
  rcases h.known with hfe | hefe
  · rw [allocDescsOffset, if_pos hfe] at hoffset
    rw [if_neg (by rw [hfe]; decide), allocDescsLengthOffset, if_pos hfe]
    simp
    omega
  · have hne : ¬ node.tagIdent = tagIdentFe := by rw [hefe]; decide
    rw [allocDescsOffset, if_neg hne] at hoffset
    rw [if_pos hefe, allocDescsLengthOffset, if_neg hne]
    simp
    omega

/-- Where the writes of a patched entry lie. -/
theorem entryWrites_at {desc : List UInt8} {p : Nat × List UInt8} (hp : p ∈ entryWrites node kind size allocated desc) :
    (34 ≤ p.1 ∧ p.1 + p.2.length ≤ 36) ∨ (56 ≤ p.1 ∧ p.1 + p.2.length ≤ 80) ∨
      (p.1 = allocDescsLengthOffset node.tagIdent ∧ p.2.length = 4) ∨ p.1 = node.allocDescOffset := by
  rw [entryWrites, sizeWrites] at hp
  split at hp
  · simp only [List.mem_append, List.mem_cons, List.not_mem_nil, or_false] at hp
    rcases hp with (rfl | rfl | rfl) | rfl | rfl | rfl <;> simp
  · simp only [List.mem_append, List.mem_cons, List.not_mem_nil, or_false] at hp
    rcases hp with (rfl | rfl) | rfl | rfl | rfl <;> simp

theorem descriptorPlaces (h : ReadFrom lba partRef entry node) :
    extAttrLengthOffset node.tagIdent + 4 = allocDescsLengthOffset node.tagIdent ∧
      allocDescsLengthOffset node.tagIdent + 4 = allocDescsOffset node.tagIdent ∧ 172 ≤ allocDescsLengthOffset node.tagIdent := by
  rcases h.known with hfe | hefe
  · rw [extAttrLengthOffset, allocDescsLengthOffset, allocDescsOffset, if_pos hfe, if_pos hfe, if_pos hfe]
    decide
  · have hne : ¬ node.tagIdent = tagIdentFe := by rw [hefe]; decide
    rw [extAttrLengthOffset, allocDescsLengthOffset, allocDescsOffset, if_neg hne, if_neg hne, if_neg hne]
    decide

/-- A patched entry is read as the same file with the one descriptor, and its tag is right. -/
theorem patchEntry_spec (h : ReadFrom lba partRef entry node) (hentry : entry.length < 2 ^ 32)
    (hkind : descriptorSize node.flags = some kind) (hsize : size < 2 ^ 30) (hblock : block < 2 ^ 32)
    (hpartRef : partRef < 2 ^ 16) (hpatch : patchEntry node kind size block allocated = .ok out) :
    out.length = entry.length ∧ ValidTag out ∧ readLe 2 out 0 = readLe 2 entry 0 ∧
      ∃ node', ReadFrom lba partRef out node' ∧ PatchedNode node node' kind size block := by
  have hkinds := kind_of_descriptorSize hkind
  obtain ⟨desc, hdesc, hfits, hrefreshed⟩ := patchEntry_writes hkinds hsize hblock (h.partRef_eq ▸ hpartRef) hpatch
  have hapart := @entryWrites_apart _ _ _ _ kind size allocated desc h
  have hoffset := h.offset_le
  rw [h.entry_eq] at hfits hrefreshed
  have hlength : out.length = entry.length := hrefreshed.length_eq.trans (length_patch hfits)
  have hflags : descriptorFlags node.flags kind < 256 ^ 2 := by
    have := readLe_lt h.flags_eq
    rw [descriptorFlags]
    split <;> simp [icbAdLong, icbAdShort] <;> omega
  -- the places that are written read as what was written there, the others as before
  have hwritten : ∀ {width offset value : Nat}, (offset, toLeBytes width value) ∈ entryWrites node kind size allocated desc →
      value < 256 ^ width → offset + width ≤ 4 ∨ 10 ≤ offset → readLe width out offset = some value :=
    fun hmem hvalue hat => (hrefreshed.readLe_eq hat).trans (readLe_patch_mem hfits hapart hmem hvalue)
  have hkept : ∀ {width offset : Nat}, offset + width ≤ 4 ∨ 10 ≤ offset →
      (∀ p ∈ entryWrites node kind size allocated desc, offset + width ≤ p.1 ∨ p.1 + p.2.length ≤ offset) →
      readLe width out offset = readLe width entry offset :=
    fun hat hd => (hrefreshed.readLe_eq hat).trans (readLe_patch_disjoint hfits hd)
  obtain ⟨hext, hlen, hlow⟩ := descriptorPlaces h
  have htag : readLe 2 out 0 = readLe 2 entry 0 := hkept (.inl (by omega)) fun p hp => by
    have := entryWrites_at hp
    omega
  have htype : out[27]? = entry[27]? := by
    rw [hrefreshed.kept 27 (by decide) (.inr (by decide))]
    refine getElem?_patch_disjoint hfits fun p hp => ?_
    have := entryWrites_at hp
    omega
  have hextAttr : readLe 4 out (extAttrLengthOffset node.tagIdent) = readLe 4 entry (extAttrLengthOffset node.tagIdent) :=
    hkept (.inr (by omega)) fun p hp => by
      have := entryWrites_at hp
      omega
  have hcount : readLe 4 out (allocDescsLengthOffset node.tagIdent) = some kind :=
    hwritten (List.mem_append_right _ (by simp)) (by omega) (.inr (by omega))
  have hflag : readLe 2 out 34 = some (descriptorFlags node.flags kind) :=
    hwritten (List.mem_append_right _ (by simp)) hflags (.inr (by omega))
  have hfileSize : readLe 8 out 56 = some size := by
    refine hwritten (List.mem_append_left _ ?_) (hsize.trans (by decide)) (.inr (by omega))
    rw [sizeWrites]
    split <;> simp
  have hdescAt : slice out node.allocDescOffset desc.length = some desc := by
    have hpatched := slice_patch_mem hfits hapart
      (show (node.allocDescOffset, desc) ∈ entryWrites node kind size allocated desc from List.mem_append_right _ (by simp))
    rw [← hpatched]
    exact slice_congr hrefreshed.length_eq fun i hlo _ => hrefreshed.kept i (by omega) (.inr (by omega))
  have hroom := (slice_isSome_iff.mp hdescAt).1
  have hlong := hdesc.length_eq
  have hinside : node.allocDescOffset + kind ≤ out.length := by omega
  have hdescriptors : (out.drop node.allocDescOffset).take kind = desc.take kind := by
    obtain ⟨-, hdesc⟩ := slice_isSome_iff.mp hdescAt
    rw [← hdesc, List.take_take, Nat.min_eq_left (by omega)]
  have hread : ∀ {width offset value : Nat}, readLe width desc offset = some value → offset + width ≤ kind →
      readLe width (desc.take kind) offset = some value := by
    intro width offset value hvalue hin
    rw [← hvalue, readLe, slice_take hin (by omega), readLe]
  refine ⟨hlength, hrefreshed.valid, htag, {
    entryLba := lba
    tagIdent := node.tagIdent
    partRef := partRef
    fileType := node.fileType
    flags := descriptorFlags node.flags kind
    fileSize := size
    allocDescOffset := node.allocDescOffset
    allocDescLen := kind
    entry := out
    entry_lt := by rwa [hlength]
    descriptors_le := hinside }, ?_, ?_⟩
  · exact ⟨rfl, rfl, rfl, htag.trans h.tagIdent_eq, h.known, hextAttr.trans h.extAttr, hoffset, hcount,
      (congrArg (Option.map UInt8.toNat) htype).trans h.fileType_eq, hflag, hfileSize⟩
  · refine ⟨h.entryLba_eq.symm, h.partRef_eq.symm, rfl, rfl, descriptorFlags_land, ?_, ?_, ?_, fun hkind => ?_⟩
    · show ((out.drop node.allocDescOffset).take kind).length = kind
      rw [List.length_take, List.length_drop]
      omega
    · show readLe 4 ((out.drop node.allocDescOffset).take kind) 0 = some size
      rw [hdescriptors]
      exact hread hdesc.size_eq (by omega)
    · show readLe 4 ((out.drop node.allocDescOffset).take kind) 4 = some block
      rw [hdescriptors]
      exact hread hdesc.block_eq (by omega)
    · show readLe 2 ((out.drop node.allocDescOffset).take kind) 8 = some node.partRef
      rw [hdescriptors]
      exact hread (hdesc.partRef_eq hkind) (by omega)

end Entries

end NextBoot.Fs.Udf
