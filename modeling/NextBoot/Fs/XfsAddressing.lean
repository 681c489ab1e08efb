import Mathlib.Data.Nat.Size
import NextBoot.Fs.SparseFiles

namespace NextBoot.Fs

open Words BlockStore Tiling Bytes Results NodeReader

/-- An opened XFS volume with the geometry that `init` takes from the superblock. -/
structure XfsVolume extends Xfs where
  inodeSize : Nat
  rootInode : Nat
  agblocks : Nat
  inopblog : Nat
  inodeAginoBits : Nat
  dirBlockSize : Nat
  hasFtype : Bool

namespace Xfs

def withBytes (fs : Xfs) (bytes : Nat → UInt8) : Xfs := { fs with io := { fs.io with bytes := bytes } }

end Xfs

namespace XfsVolume

open Xfs

/-- `read_log_or_ceil`: a logarithm that the superblock stores, or else that of the value, rounded up. -/
def readLogOrCeil (block : List UInt8) (offset value : Nat) : Nat :=
  match block[offset]? with
  | some log => if log.toNat ≠ 0 then log.toNat else Nat.size (value - 1)
  | none => Nat.size (value - 1)

def isPowerOfTwo (n : Nat) : Bool := n ≠ 0 ∧ 2 ^ Nat.log2 n = n

/-- The block of the file system in which an inode is, and its place among the inodes of the block. A shift by 64 or
more is taken modulo 64, as in a release build. -/
def mappedInode (v : XfsVolume) (inodeNumber : Nat) : Except FsError (Nat × Nat) := do
  refuseIf (64 ≤ v.inodeAginoBits) .corrupted
  let agno := inodeNumber / 2 ^ v.inodeAginoBits
  let agino := inodeNumber % 2 ^ v.inodeAginoBits
  let agbno := agino / 2 ^ (v.inopblog % 64)
  let base ← someOr (checkedMul 64 agno v.agblocks) .corrupted
  let fsBlock ← someOr (checkedAdd 64 base agbno) .corrupted
  pure (fsBlock, agino % 2 ^ (v.inopblog % 64))

def checkMagic (inode : List UInt8) : Except FsError (List UInt8) := do
  let magic ← readBe 2 inode 0
  refuseIf (magic ≠ 0x494E) .corrupted
  pure inode

def readMappedInodeBytes (v : XfsVolume) (inodeNumber : Nat) : Except FsError (List UInt8) := do
  let (fsBlock, inodeIndex) ← v.mappedInode inodeNumber
  let block ← v.readBlock fsBlock
  let start ← someOr (checkedMul 64 inodeIndex v.inodeSize) .corrupted
  let _ ← someOr (checkedAdd 64 start v.inodeSize) .corrupted
  let inode ← someOr (slice block start v.inodeSize) .corrupted
  checkMagic inode

def readLegacyInodeBytes (v : XfsVolume) (inodeNumber : Nat) : Except FsError (List UInt8) := do
  let block ← v.readBlock inodeNumber
  let inode ← someOr (slice block 0 v.inodeSize) .corrupted
  checkMagic inode

def readInodeBytes (v : XfsVolume) (inodeNumber : Nat) : Except FsError (List UInt8) :=
  match v.readMappedInodeBytes inodeNumber with
  | .ok inode => .ok inode
  | .error _ => v.readLegacyInodeBytes inodeNumber

def readInode (v : XfsVolume) (inodeNumber : Nat) : Except FsError XfsNode := do
  refuseIf (inodeNumber = 0) .corrupted
  let inode ← v.readInodeBytes inodeNumber
  parseInode inode

/-- One chunk of a directory: as many blocks in a row as are given. -/
def readDirChunk (v : XfsVolume) (physical count : Nat) : Except FsError (List UInt8) :=
  (List.range count).foldlM (fun chunk index => do
    let block ← v.readBlock (wrappingAdd 64 physical index)
    pure (chunk ++ block)) []

def dirBlocks (v : XfsVolume) : Nat := max (v.dirBlockSize / v.blockSize) 1

/-- The chunks of one extent of a directory. Every round takes a block of it at least. -/
def extentChunks (v : XfsVolume) : Nat → Nat → Nat → Except FsError (List (List UInt8))
  | 0, _, _ => pure []
  | fuel + 1, physical, remaining =>
      if remaining = 0 then pure []
      else do
        let chunkBlocks := min remaining v.dirBlocks
        let chunk ← v.readDirChunk physical chunkBlocks
        let chunks ← v.extentChunks fuel (saturatingAdd 64 physical chunkBlocks) (remaining - chunkBlocks)
        pure (chunk :: chunks)

def leafStart (v : XfsVolume) : Nat := 2 ^ 35 / v.blockSize

def readDirectoryBlocks (v : XfsVolume) (node : XfsNode) : Except FsError (List (List UInt8)) :=
  node.extents.foldlM (fun out extent =>
    if v.leafStart ≤ extent.fileBlock then pure out
    else do
      let chunks ← v.extentChunks extent.blockCount extent.physicalBlock extent.blockCount
      pure (out ++ chunks)) []

def hasFtypeOf (block : List UInt8) (version : Nat) : Bool :=
  let features2 := (readBe 4 block 200).toOption.getD 0
  let incompat := (readBe 4 block 216).toOption.getD 0
  (5 ≤ version ∧ incompat.land 1 ≠ 0) ∨ features2.land 0x200 ≠ 0

/-- `init` behind the checks of the block size. -/
def openGeometry (fs : Xfs) (block : List UInt8) : Except FsError XfsVolume := do
  let totalBlocks ← readBe 8 block 8
  let totalHardwareBlocks ← someOr (checkedMul 64 totalBlocks fs.blocksPerFsBlock) .invalidSignature
  refuseIf (totalBlocks = 0 ∨ fs.io.totalBlocks < totalHardwareBlocks) .invalidSignature
  let inodeSize ← readBe 2 block 104
  refuseIf (inodeSize < 128 ∨ fs.blockSize < inodeSize) .unsupportedFs
  let agblocks ← readBe 4 block 84
  let inopblock ← readBe 2 block 106
  refuseIf (agblocks = 0 ∨ ¬ isPowerOfTwo inopblock) .invalidSignature
  let version ← readBe 2 block 100
  let inopblog := Nat.log2 inopblock
  let dirblklog := (block[192]?.getD 0).toNat
  refuseIf (32 ≤ dirblklog) .unsupportedFs
  let inodeAginoBits ← someOr (checkedAdd 8 (readLogOrCeil block 124 agblocks) inopblog) .invalidSignature
  let rootInode ← readBe 8 block 56
  let volume : XfsVolume := {
    toXfs := fs
    inodeSize := inodeSize
    rootInode := rootInode
    agblocks := agblocks
    inopblog := max (block[123]?.elim inopblog UInt8.toNat) inopblog
    inodeAginoBits := inodeAginoBits
    dirBlockSize := fs.blockSize * 2 ^ dirblklog % 2 ^ 32
    hasFtype := hasFtypeOf block (version % 16) }
  let _ ← volume.readInode rootInode
  pure volume

theorem readBe_lt {width offset value : Nat} {data : List UInt8} (h : readBe width data offset = .ok value) :
    value < 256 ^ width := by
  obtain ⟨bytes, hslice, rfl⟩ := Option.map_eq_some_iff.mp (someOr_eq_ok.mp h)
  have hlt := fromLeBytes_lt bytes.reverse
  rwa [List.length_reverse, slice_length hslice] at hlt

def init (io : BlockIo) : Except FsError XfsVolume :=
  if hhardware : io.blockSize = 0 then .error .invalidArgument
  else do
    let block ← io.readFullBlocks 0 io.blockSize
    refuseIf (slice block 0 4 ≠ some [0x58, 0x46, 0x53, 0x42]) .invalidSignature
    match hsize : readBe 4 block 4 with
    | .error e => .error e
    | .ok fsBlockSize =>
        if hbad : fsBlockSize < io.blockSize ∨ fsBlockSize % io.blockSize ≠ 0 ∨ ¬ isPowerOfTwo fsBlockSize then
          .error .blockSizeMismatch
        else
          openGeometry {
            io := io
            blocksPerFsBlock := fsBlockSize / io.blockSize
            hardwareBlockSize_pos := Nat.pos_of_ne_zero hhardware
            blocksPerFsBlock_pos := Nat.div_pos (by omega) (Nat.pos_of_ne_zero hhardware)
            blockSize_lt := Nat.lt_of_le_of_lt (Nat.mul_div_le _ _) (readBe_lt hsize) } block

/-- An inode number has the bits of a place in its group that the superblock gives, and some for the place in a block. -/
theorem openGeometry_geometry {fs : Xfs} {block : List UInt8} {v : XfsVolume} (h : openGeometry fs block = .ok v) :
    0 < v.agblocks ∧ ∃ inopblock, readBe 2 block 106 = .ok inopblock ∧
      v.inodeAginoBits = readLogOrCeil block 124 v.agblocks + Nat.log2 inopblock ∧ Nat.log2 inopblock ≤ v.inopblog := by
  simp only [openGeometry, bind_eq_ok, someOr_eq_ok, refuseIf_eq_ok, checkedAdd_eq_some, pure_eq_ok] at h
  obtain ⟨_, -, _, -, _, -, _, -, _, -, agblocks, -, inopblock, hinop, _, hgroups, _, -, _, -, bits, ⟨-, rfl⟩, _, -, _, -, rfl⟩ := h
  exact ⟨Nat.pos_of_ne_zero fun h => hgroups (.inl h), inopblock, hinop, rfl, Nat.le_max_right _ _⟩

def withBytes (v : XfsVolume) (bytes : Nat → UInt8) : XfsVolume := { v with toXfs := v.toXfs.withBytes bytes }

/-- The packed number of a block: its allocation group above `agblklog` bits, and its place in the group. -/
def packed (agblklog agno agbno : Nat) : Nat := agno * 2 ^ agblklog + agbno

/-- The block of the file system that a packed number stands for. -/
def fsBlock (v : XfsVolume) (agno agbno : Nat) : Nat := agno * v.agblocks + agbno

/-- A regular file with the extent, whose extents are in order and end within 64 bits. -/
structure HasExtent (v : XfsVolume) (node : XfsNode) (x : XfsExtent) : Prop where
  isFile : Xfs.isFile node = true
  format : node.format = formatExtents
  mem : x ∈ node.extents
  ordered : Ordered FileExtent.virtualBlockStart FileExtent.blockCount (blockExtents node) 0
  bytes_lt : ∀ e ∈ node.extents, (e.fileBlock + e.blockCount) * v.blockSize < 2 ^ 64

variable {v : XfsVolume} {node : XfsNode} {x : XfsExtent} {agblklog agno agbno offset len p q : Nat} {bytes : Nat → UInt8}

theorem packed_eq_iff : packed agblklog agno agbno = v.fsBlock agno agbno ↔ agno = 0 ∨ v.agblocks = 2 ^ agblklog := by
  rw [packed, fsBlock, Nat.add_right_cancel_iff, mul_eq_mul_left_iff, or_comm,
    @eq_comm _ (2 ^ agblklog)]

theorem HasExtent.withBytes (h : v.HasExtent node x) : (v.withBytes bytes).HasExtent node x :=
  ⟨h.isFile, h.format, h.mem, h.ordered, h.bytes_lt⟩

theorem HasExtent.not_local (h : v.HasExtent node x) : node.format ≠ formatLocal := by
  rw [h.format]
  decide

theorem HasExtent.mem_blockExtents (h : v.HasExtent node x) :
    (⟨x.fileBlock, x.physicalBlock, x.blockCount⟩ : FileExtent) ∈ blockExtents node := List.mem_map_of_mem h.mem

/-- A file is read from the blocks that its extent record has. -/
theorem readFile_inside (h : v.HasExtent node x) (hdevice : x.physicalBlock + x.blockCount ≤ v.blocks.totalBlocks)
    (hlo : x.fileBlock * v.blockSize ≤ offset)
    (hhi : offset + min len (node.size - offset) ≤ (x.fileBlock + x.blockCount) * v.blockSize) :
    v.readFile node offset len = .ok (window v.io.bytes
      (x.physicalBlock * v.blockSize + (offset - x.fileBlock * v.blockSize)) (min len (node.size - offset))) := by
  obtain ⟨hbacked, hwindow⟩ := window_fileByte_inside v.blockSize_pos h.ordered h.mem_blockExtents hdevice hlo hhi
  rw [(Xfs.readFile_iff h.isFile h.not_local h.ordered h.bytes_lt).mpr hbacked, hwindow]
  rfl

/-- The first byte that a read inside an extent returns is from the block that the record has. -/
theorem head_of_readFile {read : List UInt8} (h : v.HasExtent node x) (hread : v.readFile node offset len = .ok read)
    (hlength : read.length = min len (node.size - offset)) (hpos : 0 < min len (node.size - offset))
    (hlo : x.fileBlock * v.blockSize ≤ offset) (hhi : offset < (x.fileBlock + x.blockCount) * v.blockSize) :
    read[0]? = some (v.io.bytes (x.physicalBlock * v.blockSize + (offset - x.fileBlock * v.blockSize))) := by
  have hphysical := x.physicalBlock_lt
  have hcount := x.blockCount_lt
  have hfits : x.physicalBlock + x.blockCount ≤ 2 ^ 64 := by omega
  obtain ⟨-, -, hbyte⟩ := @fileByte_inside v.blocks _ _ _ v.blockSize_pos h.ordered h.mem_blockExtents hfits hlo hhi
  have hloop := hread
  rw [Xfs.readFile, if_neg (not_not.mpr h.isFile), readNodeData, if_neg (by omega), if_neg h.not_local] at hloop
  have hbacked := backed_of_readExtents v.reader_faithful (Xfs.soundExtents h.ordered h.bytes_lt) hpos hloop hlength
  rw [(Xfs.readFile_iff h.isFile h.not_local h.ordered h.bytes_lt).mpr hbacked, Except.ok.injEq] at hread
  rw [← hread, getElem?_window _ _ hpos, Nat.add_zero, hbyte]
  rfl

/-- Bytes that are all zero but for one. -/
def mark (place : Nat) : Nat → UInt8 := fun i => if i = place then 1 else 0

theorem mark_eq_one {place i : Nat} : mark place i = 1 ↔ i = place := by
  rw [mark]
  split <;> simp [*]

theorem readFile_iff (h : v.HasExtent node x) (hdevice : q + x.blockCount ≤ v.blocks.totalBlocks)
    (hpos : 0 < min len (node.size - offset)) (hlo : x.fileBlock * v.blockSize ≤ offset)
    (hhi : offset + min len (node.size - offset) ≤ (x.fileBlock + x.blockCount) * v.blockSize) :
    (∀ bytes, (v.withBytes bytes).readFile node offset len = .ok (window bytes
      (q * v.blockSize + (offset - x.fileBlock * v.blockSize)) (min len (node.size - offset)))) ↔ x.physicalBlock = q := by
  constructor
  · intro hread
    have hmark := hread (mark (q * v.blockSize + (offset - x.fileBlock * v.blockSize)))
    have hhead := head_of_readFile h.withBytes hmark (length_window _ _ _) hpos hlo (show _ < _ * v.blockSize by omega)
    rw [getElem?_window _ _ hpos, Option.some.injEq, Nat.add_zero, mark_eq_one.mpr rfl] at hhead
    have hplace : x.physicalBlock * v.blockSize + (offset - x.fileBlock * v.blockSize) =
        q * v.blockSize + (offset - x.fileBlock * v.blockSize) := mark_eq_one.mp hhead.symm
    exact Nat.eq_of_mul_eq_mul_right v.blockSize_pos (by omega)
  · rintro rfl bytes
    exact readFile_inside h.withBytes hdevice hlo hhi

theorem fileExtents_iff {E : List FileExtent} {j : Nat} (hE : v.fileExtents node = .ok E) (hj : node.extents[j]? = some x) :
    E[j]?.map FileExtent.physicalLba = some (q * v.blocksPerFsBlock) ↔ x.physicalBlock = q := by
  rw [Xfs.fileExtents] at hE
  split at hE
  · cases hE
  · rw [mapM_toFileExtent hE, blockExtents, List.map_map, List.getElem?_map, hj, Option.map_map, Option.map_some,
      Option.some.injEq]
    exact Nat.mul_left_inj (Nat.ne_of_gt v.blocksPerFsBlock_pos)

theorem readBlock_of_lt (h : p < v.blocks.totalBlocks) :
    v.readBlock p = .ok (window v.io.bytes (p * v.blockSize) v.blockSize) := readBlock_eq_ok.mpr ⟨h, rfl⟩

theorem totalBlocks_lt (v : XfsVolume) : v.blocks.totalBlocks < 2 ^ 64 := v.blocks.totalBlocks_lt

theorem readDirChunk_spec {count : Nat} (h : p + count ≤ v.blocks.totalBlocks) :
    v.readDirChunk p count = .ok (window v.io.bytes (p * v.blockSize) (count * v.blockSize)) := by
  have htotal := v.totalBlocks_lt
  induction count with
  | zero =>
      rw [Nat.zero_mul]
      rfl
  | succ count ih =>
      have hstep : v.readBlock (wrappingAdd 64 p count) = .ok (window v.io.bytes ((p + count) * v.blockSize) v.blockSize) := by
        rw [wrappingAdd_eq (by omega)]
        exact readBlock_of_lt (by omega)
      have hrest := ih (by omega)
      rw [readDirChunk] at hrest ⊢
      rw [List.range_succ, List.foldlM_append, hrest, ok_bind, List.foldlM_cons, hstep, ok_bind, Nat.succ_mul, window_add,
        Nat.add_mul]
      rfl

/-- The chunks of an extent are its blocks, one after the other. -/
theorem extentChunks_spec {fuel count : Nat} (hfuel : count ≤ fuel) (h : p + count ≤ v.blocks.totalBlocks) :
    ∃ chunks, v.extentChunks fuel p count = .ok chunks ∧
      chunks.flatten = window v.io.bytes (p * v.blockSize) (count * v.blockSize) := by
  induction fuel generalizing p count with
  | zero =>
      obtain rfl : count = 0 := by omega
      exact ⟨[], rfl, by rw [Nat.zero_mul]; rfl⟩
  | succ fuel ih =>
      rw [extentChunks]
      split
      · next hzero =>
          subst hzero
          exact ⟨[], rfl, by rw [Nat.zero_mul]; rfl⟩
      · have htotal := v.totalBlocks_lt
        have hpos : 0 < v.dirBlocks := Nat.lt_of_lt_of_le Nat.one_pos (Nat.le_max_right _ _)
        generalize hcount : min count v.dirBlocks = chunkBlocks
        have hsat : saturatingAdd 64 p chunkBlocks = p + chunkBlocks := Nat.min_eq_left (by omega)
        obtain ⟨chunks, hchunks, hflat⟩ := @ih (p + chunkBlocks) (count - chunkBlocks) (by omega) (by omega)
        refine ⟨window v.io.bytes (p * v.blockSize) (chunkBlocks * v.blockSize) :: chunks, ?_, ?_⟩
        · dsimp only
          rw [readDirChunk_spec (by omega), ok_bind, hsat, hchunks]
          rfl
        · rw [List.flatten_cons, hflat, Nat.add_mul, ← window_add, ← Nat.add_mul]
          congr 2
          omega

/-- What is read of an extent starts with its first block. -/
theorem head_of_extentChunks {fuel count : Nat} {chunks : List (List UInt8)} (hp : p < 2 ^ 64) (hfuel : 0 < fuel)
    (hcount : 0 < count) (h : v.extentChunks fuel p count = .ok chunks) :
    window v.io.bytes (p * v.blockSize) v.blockSize <+: chunks.flatten := by
  obtain ⟨fuel, rfl⟩ := Nat.exists_eq_succ_of_ne_zero (Nat.ne_of_gt hfuel)
  rw [extentChunks, if_neg (by omega)] at h
  dsimp only at h
  obtain ⟨chunk, hchunk, h⟩ := bind_eq_ok.mp h
  obtain ⟨rest, -, h⟩ := bind_eq_ok.mp h
  rw [pure_eq_ok] at h
  have hpos : 0 < v.dirBlocks := Nat.lt_of_lt_of_le Nat.one_pos (Nat.le_max_right _ _)
  obtain ⟨more, hmore⟩ := Nat.exists_eq_succ_of_ne_zero (show min count v.dirBlocks ≠ 0 by omega)
  rw [readDirChunk, hmore, List.range_succ_eq_map, List.foldlM_cons, wrappingAdd_eq (by omega)] at hchunk
  obtain ⟨first, hfirst, hchunk⟩ := bind_eq_ok.mp hchunk
  obtain ⟨block, hblock, hfirst⟩ := bind_eq_ok.mp hfirst
  obtain ⟨-, rfl⟩ := readBlock_eq_ok.mp hblock
  rw [pure_eq_ok, List.nil_append] at hfirst
  subst hfirst
  have hprefix : window v.io.bytes (p * v.blockSize) v.blockSize <+: chunk := by
    refine foldlM_ok_invariant (P := fun chunk => window v.io.bytes (p * v.blockSize) v.blockSize <+: chunk)
      (fun chunk index chunk' _ hstep hinside => ?_) hchunk (List.prefix_refl _)
    obtain ⟨next, -, hstep⟩ := bind_eq_ok.mp hstep
    rw [pure_eq_ok] at hstep
    rw [← hstep]
    exact hinside.trans (List.prefix_append _ _)
  rw [← h, List.flatten_cons]
  exact hprefix.trans (List.prefix_append _ _)

theorem extentChunks_iff {count : Nat} (hp : p < 2 ^ 64) (hcount : 0 < count) (hdevice : q + count ≤ v.blocks.totalBlocks) :
    (∀ bytes, (v.withBytes bytes).extentChunks count p count = (v.withBytes bytes).extentChunks count q count) ↔ p = q := by
  refine ⟨fun h => ?_, fun h bytes => by rw [h]⟩
  have hsame := h (mark (q * v.blockSize))
  obtain ⟨chunks, hchunks, hflat⟩ :=
    @extentChunks_spec (v.withBytes (mark (q * v.blockSize))) q count count (Nat.le_refl _) hdevice
  rw [hchunks] at hsame
  obtain ⟨rest, happend⟩ := head_of_extentChunks hp hcount hcount hsame
  have hbs : 0 < (v.withBytes (mark (q * v.blockSize))).blockSize := v.blockSize_pos
  have hhead := congrArg (·[0]?) (happend.trans hflat)
  rw [List.getElem?_append_left (by rw [length_window]; exact hbs), getElem?_window _ _ hbs,
    getElem?_window _ _ (Nat.mul_pos hcount hbs), Option.some.injEq, Nat.add_zero, Nat.add_zero] at hhead
  have hplace : p * v.blockSize = q * v.blockSize := mark_eq_one.mp (hhead.trans (mark_eq_one.mpr rfl))
  exact Nat.eq_of_mul_eq_mul_right v.blockSize_pos hplace

/-- Inode numbers are taken apart by the geometry of the volume. -/
theorem mappedInode_eq {inopblog index : Nat} (hbits : v.inodeAginoBits = agblklog + inopblog)
    (hinopblog : v.inopblog = inopblog) (hlt : v.inodeAginoBits < 64) (hagbno : agbno < 2 ^ agblklog)
    (hindex : index < 2 ^ inopblog) (hfits : v.fsBlock agno agbno < 2 ^ 64) :
    v.mappedInode (packed agblklog agno agbno * 2 ^ inopblog + index) = .ok (v.fsBlock agno agbno, index) := by
  have hsplit : packed agblklog agno agbno * 2 ^ inopblog + index =
      2 ^ (agblklog + inopblog) * agno + (2 ^ inopblog * agbno + index) := by
    rw [packed, Nat.pow_add]
    ring
  have hinside : 2 ^ inopblog * agbno + index < 2 ^ (agblklog + inopblog) := by
    calc 2 ^ inopblog * agbno + index < 2 ^ inopblog * agbno + 2 ^ inopblog := by omega
      _ = 2 ^ inopblog * (agbno + 1) := by ring
      _ ≤ 2 ^ inopblog * 2 ^ agblklog := Nat.mul_le_mul_left _ hagbno
      _ = 2 ^ (agblklog + inopblog) := by ring
  rw [fsBlock] at hfits
  rw [mappedInode, hinopblog, hbits, hsplit, Nat.mul_add_div (Nat.two_pow_pos _), Nat.mul_add_mod, Nat.div_eq_of_lt hinside,
    Nat.mod_eq_of_lt hinside, Nat.mod_eq_of_lt (show inopblog < 64 by omega), refuseIf, if_neg (by omega), ok_bind]
  dsimp only
  rw [Nat.mul_add_div (Nat.two_pow_pos _), Nat.mul_add_mod, Nat.div_eq_of_lt hindex, Nat.mod_eq_of_lt hindex, Nat.add_zero,
    Nat.add_zero, checkedMul_eq_some.mpr ⟨by omega, rfl⟩, someOr_some, ok_bind, checkedAdd_eq_some.mpr ⟨hfits, rfl⟩]
  rfl

/-- Reads, listings and directories take the packed number of an extent's block for the block itself: they come to the
block that it stands for just when the number is in the first group or the groups fill their bits. Inode numbers are
taken apart as they should. -/
theorem block_addresses_iff (v : XfsVolume) (x : XfsExtent) (agblklog agno agbno : Nat)
    (hpacked : x.physicalBlock = packed agblklog agno agbno) (hagbno : agbno < 2 ^ agblklog)
    (hplaced : v.fsBlock agno agbno + x.blockCount ≤ v.blocks.totalBlocks) :
    (∀ node offset len, v.HasExtent node x → 0 < min len (node.size - offset) → x.fileBlock * v.blockSize ≤ offset →
        offset + min len (node.size - offset) ≤ (x.fileBlock + x.blockCount) * v.blockSize →
        ((∀ bytes, (v.withBytes bytes).readFile node offset len = .ok (window bytes
            (v.fsBlock agno agbno * v.blockSize + (offset - x.fileBlock * v.blockSize)) (min len (node.size - offset)))) ↔
          agno = 0 ∨ v.agblocks = 2 ^ agblklog)) ∧
      (∀ (node : XfsNode) (E : List FileExtent) (j : Nat), v.fileExtents node = .ok E → node.extents[j]? = some x →
        (E[j]?.map FileExtent.physicalLba = some (v.fsBlock agno agbno * v.blocksPerFsBlock) ↔
          agno = 0 ∨ v.agblocks = 2 ^ agblklog)) ∧
      ((∀ bytes, (v.withBytes bytes).extentChunks x.blockCount x.physicalBlock x.blockCount =
          (v.withBytes bytes).extentChunks x.blockCount (v.fsBlock agno agbno) x.blockCount) ↔
        agno = 0 ∨ v.agblocks = 2 ^ agblklog) ∧
      ∀ inopblog index, v.inodeAginoBits = agblklog + inopblog → v.inopblog = inopblog → v.inodeAginoBits < 64 →
        index < 2 ^ inopblog →
          v.mappedInode (packed agblklog agno agbno * 2 ^ inopblog + index) = .ok (v.fsBlock agno agbno, index) := by
  have htotal := v.totalBlocks_lt
  have hphysical := x.physicalBlock_lt
  have haddress : x.physicalBlock = v.fsBlock agno agbno ↔ agno = 0 ∨ v.agblocks = 2 ^ agblklog := by
    rw [hpacked]
    exact packed_eq_iff
  refine ⟨fun node offset len hnode hpos hlo hhi => ?_, fun node E j hE hj => ?_, ?_,
    fun inopblog index hbits hlog hlt hindex => ?_⟩
  · exact (readFile_iff hnode hplaced hpos hlo hhi).trans haddress
  · exact (fileExtents_iff hE hj).trans haddress
  · exact (extentChunks_iff (by omega) x.blockCount_pos hplaced).trans haddress
  · exact mappedInode_eq hbits hlog hlt hagbno hindex (by omega)

/-- A volume with groups of as many blocks as given, a device block to each block. -/
def groupVolume (agblocks : Nat) : XfsVolume where
  io := sampleBlocks
  blocksPerFsBlock := 1
  hardwareBlockSize_pos := sampleBlocks_pos
  blocksPerFsBlock_pos := Nat.one_pos
  blockSize_lt := by decide
  inodeSize := 256
  rootInode := 4
  agblocks := agblocks
  inopblog := 0
  inodeAginoBits := 2
  dirBlockSize := 4
  hasFtype := false

/-- The first block of the second group, with two bits for the place in a group. -/
def groupExtent : XfsExtent := ⟨0, 4, 1, firstBlock_lt, by decide, Nat.one_pos, singleBlock_lt⟩

def groupNode : XfsNode where
  mode := 0x8000
  size := 4
  format := formatExtents
  extents := [groupExtent]
  localData := []

theorem groupVolume_extent (agblocks : Nat) : (groupVolume agblocks).HasExtent groupNode groupExtent where
  isFile := by decide
  format := rfl
  mem := List.mem_singleton_self _
  ordered := ⟨by decide, trivial⟩
  bytes_lt := fun e he => by
    obtain rfl := List.mem_singleton.mp he
    show (0 + 1) * 4 < 2 ^ 64
    decide

theorem fullGroups_read : (groupVolume 4).readFile groupNode 0 4 = .ok (window sampleBlocks.bytes 16 4) :=
  ((block_addresses_iff (groupVolume 4) groupExtent 2 1 0 (by decide) (by decide) (by decide)).1 groupNode 0 4
    (groupVolume_extent 4) (by decide) (by decide) (by decide)).mpr (.inr rfl) sampleBlocks.bytes

/-- With groups of three blocks the second starts at block 3, as the inode numbers have it; the file is read and listed
at block 4. -/
theorem shortGroups_misread : (groupVolume 3).mappedInode (packed 2 1 0) = .ok (3, 0) ∧
    groupExtent.physicalBlock = packed 2 1 0 ∧
    (groupVolume 3).readFile groupNode 0 4 = .ok (window sampleBlocks.bytes 16 4) ∧
    window sampleBlocks.bytes 16 4 ≠ window sampleBlocks.bytes 12 4 ∧
    (groupVolume 3).fileExtents groupNode = .ok [⟨0, 4, 1⟩] ∧
    (groupVolume 3).extentChunks 1 4 1 = .ok [window sampleBlocks.bytes 16 4] := by
  decide +kernel

end XfsVolume

end NextBoot.Fs
