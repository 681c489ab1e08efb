import NextBoot.Fs.SparseRead

namespace NextBoot.Fs

open Words BlockStore Tiling Bytes Results

/-- An opened XFS volume; `init` checks that a file system block is a whole number of device blocks. -/
structure Xfs where
  io : BlockIo
  blocksPerFsBlock : Nat
  hardwareBlockSize_pos : 0 < io.blockSize
  blocksPerFsBlock_pos : 0 < blocksPerFsBlock
  blockSize_lt : io.blockSize * blocksPerFsBlock < 2 ^ 32

/-- A mapping record of the data fork, in the ranges that its bit fields have. -/
structure XfsExtent where
  fileBlock : Nat
  physicalBlock : Nat
  blockCount : Nat
  fileBlock_lt : fileBlock < 2 ^ 54
  physicalBlock_lt : physicalBlock < 2 ^ 52
  blockCount_pos : 0 < blockCount
  blockCount_lt : blockCount < 2 ^ 21

structure XfsNode where
  mode : Nat
  size : Nat
  format : Nat
  extents : List XfsExtent
  localData : List UInt8

namespace Xfs

def formatLocal : Nat := 1

def formatExtents : Nat := 2

def readBe (width : Nat) (data : List UInt8) (offset : Nat) : Except FsError Nat :=
  someOr ((slice data offset width).map fun bytes => fromLeBytes bytes.reverse) .corrupted

def readBmbtRecord (data : List UInt8) : Except FsError XfsExtent := do
  let l0 ← readBe 8 data 0
  let l1 ← readBe 8 data 8
  refuseIf (l0 / 2 ^ 63 ≠ 0) .unsupportedFs
  if hzero : l1 % 2 ^ 21 = 0 then .error .corrupted
  else
    pure {
      fileBlock := l0 / 2 ^ 9 % 2 ^ 54
      physicalBlock := (l0 % 2 ^ 9 * 2 ^ 43 + l1 / 2 ^ 21) % 2 ^ 52
      blockCount := l1 % 2 ^ 21
      fileBlock_lt := Nat.mod_lt _ (Nat.two_pow_pos _)
      physicalBlock_lt := Nat.mod_lt _ (Nat.two_pow_pos _)
      blockCount_pos := Nat.pos_of_ne_zero hzero
      blockCount_lt := Nat.mod_lt _ (Nat.two_pow_pos _) }

/-- `read_inode` from the bytes of the inode on. -/
def parseInode (inode : List UInt8) : Except FsError XfsNode := do
  let magic ← readBe 2 inode 0
  refuseIf (magic ≠ 0x494E) .corrupted
  let version ← readBe 1 inode 4
  let format ← readBe 1 inode 5
  refuseIf (format ≠ formatLocal ∧ format ≠ formatExtents) .unsupportedFs
  let dataFork := if 3 ≤ version then 176 else 100
  refuseIf (inode.length < dataFork) .corrupted
  let size ← readBe 8 inode 56
  refuseIf (format = formatLocal ∧ inode.length < dataFork + size) .corrupted
  let nextents ← readBe 4 inode 76
  refuseIf (format = formatLocal ∧ nextents ≠ 0) .corrupted
  refuseIf (format = formatExtents ∧ inode.length < dataFork + nextents * 16) .corrupted
  let extents ← (List.range nextents).mapM fun index => readBmbtRecord ((inode.drop (dataFork + index * 16)).take 16)
  let mode ← readBe 2 inode 2
  pure {
    mode := mode
    size := size
    format := format
    extents := if format = formatExtents then extents else []
    localData := if format = formatLocal then (inode.drop dataFork).take size else [] }

def isFile (node : XfsNode) : Bool := node.mode.land 0xF000 = 0x8000

def blockSize (fs : Xfs) : Nat := fs.io.blockSize * fs.blocksPerFsBlock

def readBlock (fs : Xfs) (fsBlock : Nat) : Except FsError (List UInt8) := do
  let lba ← someOr (checkedMul 64 fsBlock fs.blocksPerFsBlock) .corrupted
  fs.io.readFullBlocks lba fs.blockSize

def reader (fs : Xfs) : NodeReader where
  blockSize := fs.blockSize
  readBlock := fs.readBlock
  full := fun _ _ => false
  extentEnd := wrappingAdd 64

/-- The extents of a node, in file system blocks. -/
def blockExtents (node : XfsNode) : List FileExtent :=
  node.extents.map fun e => ⟨e.fileBlock, e.physicalBlock, e.blockCount⟩

def readNodeData (fs : Xfs) (node : XfsNode) (offset len : Nat) : Except FsError (List UInt8) :=
  if node.size ≤ offset ∨ len = 0 then pure []
  else if node.format = formatLocal then
    pure ((node.localData.drop offset).take (min len (node.localData.length - offset)))
  else fs.reader.readExtents offset (min len (node.size - offset)) (blockExtents node) 0

/-- `read_file` of the inode that `find_node` has found, into a buffer of `len` bytes. -/
def readFile (fs : Xfs) (node : XfsNode) (offset len : Nat) : Except FsError (List UInt8) :=
  if ¬ isFile node then .error .notFile else fs.readNodeData node offset len

def toFileExtent (fs : Xfs) (e : FileExtent) : Except FsError FileExtent := do
  let virtualBlockStart ← someOr (checkedMul 64 e.virtualBlockStart fs.blocksPerFsBlock) .corrupted
  let physicalLba ← someOr (checkedMul 64 e.physicalLba fs.blocksPerFsBlock) .corrupted
  let blockCount ← someOr (checkedMul 64 e.blockCount fs.blocksPerFsBlock) .corrupted
  pure ⟨virtualBlockStart, physicalLba, blockCount⟩

def fileExtentsForNode (fs : Xfs) (node : XfsNode) : Except FsError (List FileExtent) :=
  (blockExtents node).mapM fs.toFileExtent

def fileExtents (fs : Xfs) (node : XfsNode) : Except FsError (List FileExtent) :=
  if ¬ isFile node then .error .notFile else fs.fileExtentsForNode node

/-- The device, seen in file system blocks. -/
def blocks (fs : Xfs) : BlockIo where
  blockSize := fs.blockSize
  totalBlocks := fs.io.totalBlocks / fs.blocksPerFsBlock
  bytes := fs.io.bytes
  blockSize_lt := fs.blockSize_lt
  totalBlocks_lt := Nat.lt_of_le_of_lt (Nat.div_le_self _ _) fs.io.totalBlocks_lt

variable {fs : Xfs}

theorem blockSize_pos (fs : Xfs) : 0 < fs.blockSize := Nat.mul_pos fs.hardwareBlockSize_pos fs.blocksPerFsBlock_pos

theorem readBlock_eq_ok {p : Nat} {bytes : List UInt8} : fs.readBlock p = .ok bytes ↔
    p < fs.blocks.totalBlocks ∧ bytes = window fs.blocks.bytes (p * fs.blocks.blockSize) fs.blocks.blockSize := by
  have hpos := fs.blockSize_pos
  have hhw := fs.hardwareBlockSize_pos
  have hratio := fs.blocksPerFsBlock_pos
  have htotal := fs.io.totalBlocks_lt
  have hmod : fs.blockSize % fs.io.blockSize = 0 := Nat.mul_mod_right _ _
  have hdiv : fs.blockSize / fs.io.blockSize = fs.blocksPerFsBlock := Nat.mul_div_cancel_left _ hhw
  have hshape : p * fs.blocksPerFsBlock * fs.io.blockSize = p * fs.blockSize := by
    rw [blockSize, Nat.mul_assoc, Nat.mul_comm fs.blocksPerFsBlock]
  have hinside : p < fs.io.totalBlocks / fs.blocksPerFsBlock ↔
      p * fs.blocksPerFsBlock + fs.blocksPerFsBlock ≤ fs.io.totalBlocks := by
    rw [← Nat.succ_mul, ← Nat.le_div_iff_mul_le hratio]
    exact Iff.rfl
  simp only [readBlock, bind_eq_ok, someOr_eq_ok, checkedMul_eq_some, readFullBlocks_eq_ok, hmod, hdiv, blocks, hinside]
  constructor
  · rintro ⟨lba, ⟨-, rfl⟩, -, hfits, hbytes⟩
    exact ⟨hfits, by rw [← hbytes, hshape]⟩
  · rintro ⟨hfits, rfl⟩
    exact ⟨_, ⟨by omega, rfl⟩, by omega, hfits, by rw [hshape]⟩

theorem reader_faithful (fs : Xfs) : fs.reader.Faithful fs.blocks where
  blockSize_eq := rfl
  blockSize_pos := fs.blockSize_pos
  readBlock_iff := fun _ _ => readBlock_eq_ok
  not_full := fun _ _ _ => rfl
  extentEnd_eq := fun _ _ h => wrappingAdd_eq h

def scale (ratio : Nat) (e : FileExtent) : FileExtent :=
  ⟨e.virtualBlockStart * ratio, e.physicalLba * ratio, e.blockCount * ratio⟩

theorem mapM_toFileExtent {es E : List FileExtent} (h : es.mapM fs.toFileExtent = .ok E) :
    E = es.map (scale fs.blocksPerFsBlock) := by
  induction es generalizing E with
  | nil =>
      rw [List.mapM_nil, pure_eq_ok] at h
      exact h.symm
  | cons e es ih =>
      simp only [List.mapM_cons, bind_eq_ok, toFileExtent, someOr_eq_ok, checkedMul_eq_some, pure_eq_ok] at h
      obtain ⟨x, ⟨_, ⟨-, rfl⟩, _, ⟨-, rfl⟩, _, ⟨-, rfl⟩, rfl⟩, xs, hxs, rfl⟩ := h
      rw [ih hxs]
      rfl

theorem locate_scale {es : List FileExtent} {ratio k : Nat} (hpos : 0 < ratio) :
    extentOf (es.map (scale ratio)) k = (extentOf es (k / ratio)).map (scale ratio) := by
  show List.find? _ (es.map (scale ratio)) = (List.find? _ es).map (scale ratio)
  rw [List.find?_map]
  congr 2
  funext e
  simp only [Function.comp_def, Covers, scale, ← Nat.add_mul, Nat.le_div_iff_mul_le hpos, Nat.div_lt_iff_lt_mul hpos]

/-- A byte on the device is at the same place through the extents that `file_extents` reports. -/
theorem fileByte_scale {es : List FileExtent} {i p : Nat} (hp : translate es (i / fs.blockSize) = some p)
    (hdevice : p < fs.blocks.totalBlocks) (hnowrap : ∀ e ∈ es, e.physicalLba + e.blockCount < 2 ^ 64) :
    fileByte fs.io (es.map (scale fs.blocksPerFsBlock)) i = fileByte fs.blocks es i := by
  have hratio := fs.blocksPerFsBlock_pos
  obtain ⟨e, he, hplace⟩ := Option.map_eq_some_iff.mp hp
  obtain ⟨hmem, hlo, hhi⟩ := locate_mem he
  have hfits : p * fs.blocksPerFsBlock + fs.blocksPerFsBlock ≤ fs.io.totalBlocks := by
    rw [← Nat.succ_mul]
    exact (Nat.le_div_iff_mul_le hratio).mp hdevice
  have htotal := fs.io.totalBlocks_lt
  have hsmall := hnowrap e hmem
  rw [FileExtent.place, wrappingAdd_eq (by omega)] at hplace
  have hk : i / fs.blockSize = i / fs.io.blockSize / fs.blocksPerFsBlock := (Nat.div_div_eq_div_mul _ _ _).symm
  have hmod := Nat.mod_lt (i / fs.io.blockSize) hratio
  have hsplit := Nat.div_add_mod (i / fs.io.blockSize) fs.blocksPerFsBlock
  rw [← hk, Nat.mul_comm] at hsplit
  have hscaled : (e.physicalLba + (i / fs.blockSize - e.virtualBlockStart)) * fs.blocksPerFsBlock =
      e.physicalLba * fs.blocksPerFsBlock + (i / fs.blockSize * fs.blocksPerFsBlock -
        e.virtualBlockStart * fs.blocksPerFsBlock) := by
    rw [Nat.add_mul, Nat.sub_mul]
  have hle := Nat.mul_le_mul_right fs.blocksPerFsBlock hlo
  have hplace' : (scale fs.blocksPerFsBlock e).place (i / fs.io.blockSize) =
      p * fs.blocksPerFsBlock + i / fs.io.blockSize % fs.blocksPerFsBlock := by
    rw [hplace] at hscaled
    show wrappingAdd 64 (e.physicalLba * fs.blocksPerFsBlock)
      (i / fs.io.blockSize - e.virtualBlockStart * fs.blocksPerFsBlock) = _
    rw [wrappingAdd_eq (by omega)]
    omega
  have htranslate : translate (es.map (scale fs.blocksPerFsBlock)) (i / fs.io.blockSize) =
      some (p * fs.blocksPerFsBlock + i / fs.io.blockSize % fs.blocksPerFsBlock) := by
    rw [translate, locate_scale hratio, ← hk, he, Option.map_some, Option.map_some, hplace']
  have hblocks : translate es (i / fs.blocks.blockSize) = some p := hp
  rw [fileByte, htranslate, fileByte, hblocks]
  dsimp only [blocks]
  congr 1
  rw [blockSize, Nat.mod_mul, Nat.add_mul, Nat.mul_comm (i / fs.io.blockSize % _), Nat.mul_assoc,
    Nat.mul_comm fs.blocksPerFsBlock]
  omega

theorem soundExtents {node : XfsNode}
    (hordered : Ordered FileExtent.virtualBlockStart FileExtent.blockCount (blockExtents node) 0)
    (hbytes : ∀ e ∈ node.extents, (e.fileBlock + e.blockCount) * fs.blockSize < 2 ^ 64) :
    NodeReader.SoundExtents fs.blocks.blockSize (blockExtents node) := by
  refine ⟨hordered, fun e he => ?_, fun e he => ?_⟩
  · obtain ⟨x, -, rfl⟩ := List.mem_map.mp he
    exact x.blockCount_pos
  · obtain ⟨x, hx, rfl⟩ := List.mem_map.mp he
    exact hbytes x hx

end Xfs

end NextBoot.Fs
