import NextBoot.Fs.SparseRead

namespace NextBoot.Fs

open Words BlockStore Tiling Bytes Results

/-- An opened ext2/3/4 volume; `init` takes only volumes whose block size, a power of two, is the device's. -/
structure Ext4 where
  io : BlockIo
  blockSize_pos : 0 < io.blockSize
  blockSize_le : io.blockSize ≤ 2 ^ 31

structure Ext4Extent where
  fileBlock : Nat
  blockCount : Nat
  physicalBlock : Nat
deriving DecidableEq, Repr

/-- An inode; `init` refuses volumes with inodes of fewer than 128 bytes. -/
structure Ext4Node where
  mode : Nat
  flags : Nat
  size : Nat
  inode : List UInt8

def Ext4Node.isFile (node : Ext4Node) : Bool := node.mode.land 0xF000 = 0x8000

namespace Ext4

def inodeBlocks : Nat := 40

def extentsFlag : Nat := 0x00080000

def extentMagic : Nat := 0xF30A

def legacyDirectBlocks : Nat := 12

def readU16 (data : List UInt8) (offset : Nat) : Except FsError Nat := someOr (readLe 2 data offset) .corrupted

def readU32 (data : List UInt8) (offset : Nat) : Except FsError Nat := someOr (readLe 4 data offset) .corrupted

/-- The fields of an inode that `read_inode` has cut out of its table block. -/
def parseInode (inode : List UInt8) : Except FsError Ext4Node := do
  let sizeLo ← readU32 inode 4
  let sizeHigh ← readU32 inode 108
  let mode ← readU16 inode 0
  let flags ← readU32 inode 32
  pure ⟨mode, flags, sizeLo + sizeHigh * 2 ^ 32, inode⟩

def readBlock (fs : Ext4) (fsBlock : Nat) : Except FsError (List UInt8) := fs.io.readFullBlocks fsBlock fs.io.blockSize

def treeEntry (root : List UInt8) (out : List Ext4Extent) (index : Nat) : Except FsError (List Ext4Extent) := do
  let offset := 12 + index * 12
  let rawCount ← readU16 root (offset + 4)
  let blockCount := rawCount % 2 ^ 15
  if blockCount = 0 then pure out
  else do
    let fileBlock ← readU32 root offset
    let physicalHigh ← readU16 root (offset + 6)
    let physicalLow ← readU32 root (offset + 8)
    pure (out ++ [⟨fileBlock, blockCount, physicalHigh * 2 ^ 32 + physicalLow⟩])

def extentTreeExtents (node : Ext4Node) : Except FsError (List Ext4Extent) := do
  let root := (node.inode.drop inodeBlocks).take 60
  let magic ← readU16 root 0
  let depth ← readU16 root 6
  refuseIf (magic ≠ extentMagic ∨ depth ≠ 0) .unsupportedFs
  let entries ← readU16 root 2
  refuseIf (root.length < 12 + entries * 12) .corrupted
  (List.range entries).foldlM (treeEntry root) []

def pushLegacyExtent (out : List Ext4Extent) (fileBlock physical : Nat) : Except FsError (List Ext4Extent) :=
  if physical = 0 ∨ 2 ^ 32 - 1 < fileBlock then .error .corrupted
  else
    match out.getLast? with
    | some last =>
        if last.physicalBlock + last.blockCount = physical ∧ last.blockCount < 2 ^ 16 - 1 then
          pure (out.dropLast ++ [{ last with blockCount := last.blockCount + 1 }])
        else pure (out ++ [⟨fileBlock, 1, physical⟩])
    | none => pure (out ++ [⟨fileBlock, 1, physical⟩])

def pushEntry (table : List UInt8) (first : Nat) (out : List Ext4Extent) (index : Nat) :
    Except FsError (List Ext4Extent) := do
  let physical ← readU32 table (index * 4)
  pushLegacyExtent out (first + index) physical

/-- Push the file blocks from `first` on, whose numbers are the first entries of `table`. -/
def pushTable (table : List UInt8) (out : List Ext4Extent) (first count : Nat) : Except FsError (List Ext4Extent) :=
  (List.range count).foldlM (pushEntry table first) out

def legacyBlockExtents (fs : Ext4) (node : Ext4Node) : Except FsError (List Ext4Extent) := do
  let neededBlocks := (node.size + (fs.io.blockSize - 1)) / fs.io.blockSize
  if neededBlocks = 0 then pure []
  else do
    refuseIf (legacyDirectBlocks + fs.io.blockSize / 4 < neededBlocks) .unsupportedFs
    let blocks := (node.inode.drop inodeBlocks).take 60
    let out ← pushTable blocks [] 0 (min neededBlocks legacyDirectBlocks)
    if neededBlocks ≤ legacyDirectBlocks then pure out
    else do
      let indirect ← readU32 blocks (12 * 4)
      refuseIf (indirect = 0) .corrupted
      let block ← fs.readBlock indirect
      pushTable block out legacyDirectBlocks (neededBlocks - legacyDirectBlocks)

def extents (fs : Ext4) (node : Ext4Node) : Except FsError (List Ext4Extent) :=
  if node.flags.land extentsFlag ≠ 0 then extentTreeExtents node else fs.legacyBlockExtents node

def toFileExtent (e : Ext4Extent) : FileExtent := ⟨e.fileBlock, e.physicalBlock, e.blockCount⟩

def fileExtentsForNode (fs : Ext4) (node : Ext4Node) : Except FsError (List FileExtent) := do
  let extents ← fs.extents node
  pure (extents.map toFileExtent)

def reader (fs : Ext4) : NodeReader where
  blockSize := fs.io.blockSize
  readBlock := fs.readBlock
  full := fun readable copied => decide (readable ≤ copied)
  extentEnd := saturatingAdd 64

def readNodeData (fs : Ext4) (node : Ext4Node) (offset len : Nat) : Except FsError (List UInt8) :=
  if node.size ≤ offset ∨ len = 0 then pure []
  else do
    let extents ← fs.extents node
    fs.reader.readExtents offset (min len (node.size - offset)) (extents.map toFileExtent) 0

/-- `read_file` of the inode that `find_node` has found, into a buffer of `len` bytes. -/
def readFile (fs : Ext4) (node : Ext4Node) (offset len : Nat) : Except FsError (List UInt8) :=
  if ¬ node.isFile then .error .notFile else fs.readNodeData node offset len

def fileExtents (fs : Ext4) (node : Ext4Node) : Except FsError (List FileExtent) :=
  if ¬ node.isFile then .error .notFile else fs.fileExtentsForNode node

theorem reader_faithful (fs : Ext4) : fs.reader.Faithful fs.io where
  blockSize_eq := rfl
  blockSize_pos := fs.blockSize_pos
  readBlock_iff := fun p bytes => by
    have hpos := fs.blockSize_pos
    show fs.io.readFullBlocks p fs.io.blockSize = .ok bytes ↔ _
    rw [readFullBlocks_eq_ok, Nat.mod_self, Nat.div_self hpos]
    constructor
    · exact fun h => ⟨h.2.1, h.2.2.symm⟩
    · exact fun h => ⟨by omega, h.1, h.2.symm⟩
  not_full := fun readable copied h => by simpa [reader] using h
  extentEnd_eq := fun start len h => Nat.min_eq_left (by omega)

/-- What both ways to find the extents of a node give: a 32-bit file block and a 16-bit count that is not zero. -/
def InRange (e : Ext4Extent) : Prop := e.fileBlock < 2 ^ 32 ∧ 0 < e.blockCount ∧ e.blockCount < 2 ^ 16

variable {fs : Ext4} {node : Ext4Node} {out out' : List Ext4Extent} {data : List UInt8} {index : Nat}

theorem treeEntry_inRange (h : treeEntry data out index = .ok out') (hout : ∀ e ∈ out, InRange e) :
    ∀ e ∈ out', InRange e := by
  simp only [treeEntry, bind_eq_ok, readU16, someOr_eq_ok] at h
  obtain ⟨rawCount, -, h⟩ := h
  split at h
  · rw [pure_eq_ok] at h
    rwa [← h]
  · next hcount =>
      simp only [bind_eq_ok, readU32, someOr_eq_ok, pure_eq_ok] at h
      obtain ⟨fileBlock, hfile, high, -, low, -, rfl⟩ := h
      have hlt := readLe_lt hfile
      have hmod := Nat.mod_lt rawCount (Nat.two_pow_pos 15)
      intro e he
      rcases List.mem_append.mp he with he | he
      · exact hout e he
      · obtain rfl := List.mem_singleton.mp he
        exact ⟨by simpa using hlt, by simp only; omega, by simp only; omega⟩

theorem pushLegacyExtent_inRange {fileBlock physical : Nat} (h : pushLegacyExtent out fileBlock physical = .ok out')
    (hout : ∀ e ∈ out, InRange e) : ∀ e ∈ out', InRange e := by
  rw [pushLegacyExtent] at h
  split at h
  · cases h
  · next hok =>
      have hnew : ∀ e ∈ out ++ [⟨fileBlock, 1, physical⟩], InRange e := by
        intro e he
        rcases List.mem_append.mp he with he | he
        · exact hout e he
        · obtain rfl := List.mem_singleton.mp he
          exact ⟨by simp only; omega, Nat.one_pos, by simp only; omega⟩
      split at h
      · next last hlast =>
          split at h
          · next hmerge =>
              rw [pure_eq_ok] at h
              obtain ⟨hfile, hpos, -⟩ := hout last (List.mem_of_getLast? hlast)
              intro e he
              rw [← h] at he
              rcases List.mem_append.mp he with he | he
              · exact hout e (List.dropLast_subset _ he)
              · obtain rfl := List.mem_singleton.mp he
                exact ⟨hfile, by simp only; omega, by simp only; omega⟩
          · rw [pure_eq_ok] at h
            rwa [← h]
      · rw [pure_eq_ok] at h
        rwa [← h]

theorem pushTable_inRange {first count : Nat} (h : pushTable data out first count = .ok out')
    (hout : ∀ e ∈ out, InRange e) : ∀ e ∈ out', InRange e := by
  refine foldlM_ok_invariant (P := fun out => ∀ e ∈ out, InRange e) (fun out index out' _ hstep hout => ?_) h hout
  obtain ⟨physical, -, hpush⟩ := bind_eq_ok.mp hstep
  exact pushLegacyExtent_inRange hpush hout

theorem extents_inRange (h : fs.extents node = .ok out) : ∀ e ∈ out, InRange e := by
  rw [extents] at h
  split at h
  · simp only [extentTreeExtents, bind_eq_ok, refuseIf_eq_ok] at h
    obtain ⟨-, -, -, -, -, -, entries, -, -, -, h⟩ := h
    exact foldlM_ok_invariant (P := fun out => ∀ e ∈ out, InRange e)
      (fun out index out' _ hstep hout => treeEntry_inRange hstep hout) h (by simp)
  · rw [legacyBlockExtents] at h
    dsimp only at h
    split at h
    · rw [pure_eq_ok] at h
      rw [← h]
      simp
    · simp only [bind_eq_ok, refuseIf_eq_ok] at h
      obtain ⟨-, -, direct, hdirect, h⟩ := h
      have hrange := pushTable_inRange hdirect (by simp)
      split at h
      · rw [pure_eq_ok] at h
        rwa [← h]
      · simp only [bind_eq_ok] at h
        obtain ⟨indirect, -, -, -, block, -, h⟩ := h
        exact pushTable_inRange h hrange

theorem soundExtents (h : fs.extents node = .ok out)
    (hordered : Ordered FileExtent.virtualBlockStart FileExtent.blockCount (out.map toFileExtent) 0) :
    NodeReader.SoundExtents fs.io.blockSize (out.map toFileExtent) := by
  have hrange := extents_inRange h
  refine ⟨hordered, fun e he => ?_, fun e he => ?_⟩
  · obtain ⟨x, hx, rfl⟩ := List.mem_map.mp he
    exact (hrange x hx).2.1
  · obtain ⟨x, hx, rfl⟩ := List.mem_map.mp he
    obtain ⟨hfile, -, hcount⟩ := hrange x hx
    calc (x.fileBlock + x.blockCount) * fs.io.blockSize
        ≤ (2 ^ 32 + 2 ^ 16) * 2 ^ 31 := Nat.mul_le_mul (by omega) fs.blockSize_le
      _ < 2 ^ 64 := by decide

end Ext4

end NextBoot.Fs
