import NextBoot.Fs.Ext4
import NextBoot.Fs.Xfs

namespace NextBoot.Fs

open Words BlockStore Tiling Results NodeReader

variable {E : List FileExtent} {offset len : Nat}

theorem Ext4.readFile_iff {fs : Ext4} {node : Ext4Node} (h : fs.fileExtents node = .ok E)
    (hordered : Ordered FileExtent.virtualBlockStart FileExtent.blockCount E 0) :
    fs.readFile node offset len = .ok (window (fileByte fs.io E) offset (min len (node.size - offset))) ↔
      Backed fs.io E offset (min len (node.size - offset)) := by
  rw [fileExtents] at h
  split at h
  · cases h
  · next hfile =>
      rw [readFile, if_neg hfile, readNodeData]
      split
      · next hnothing =>
          rw [show min len (node.size - offset) = 0 by omega]
          exact ⟨fun _ i hlo hhi => absurd hhi (by omega), fun _ => rfl⟩
      · next hsome =>
          obtain ⟨es, hes, h⟩ := bind_eq_ok.mp h
          rw [pure_eq_ok] at h
          subst h
          have hsound := soundExtents hes hordered
          rw [hes]
          constructor
          · intro hread
            exact backed_of_readExtents fs.reader_faithful hsound (by omega) hread (length_window _ _ _)
          · exact fun hbacked => readExtents_of_backed fs.reader_faithful hsound (by omega) hbacked

theorem Xfs.readFile_iff {fs : Xfs} {node : XfsNode} (hfile : isFile node = true) (hformat : node.format ≠ formatLocal)
    (hordered : Ordered FileExtent.virtualBlockStart FileExtent.blockCount (blockExtents node) 0)
    (hbytes : ∀ e ∈ node.extents, (e.fileBlock + e.blockCount) * fs.blockSize < 2 ^ 64) :
    fs.readFile node offset len =
        .ok (window (fileByte fs.blocks (blockExtents node)) offset (min len (node.size - offset))) ↔
      Backed fs.blocks (blockExtents node) offset (min len (node.size - offset)) := by
  have hsound := @soundExtents fs node hordered hbytes
  rw [readFile, if_neg (not_not.mpr hfile), readNodeData, if_neg hformat]
  split
  · next hnothing =>
      rw [show min len (node.size - offset) = 0 by omega]
      exact ⟨fun _ i hlo hhi => absurd hhi (by omega), fun _ => rfl⟩
  · next hsome =>
      constructor
      · intro hread
        exact backed_of_readExtents fs.reader_faithful hsound (by omega) hread (length_window _ _ _)
      · exact fun hbacked => readExtents_of_backed fs.reader_faithful hsound (by omega) hbacked

/-- Where XFS reports extents, they put the bytes of the read where the node's own records put them. -/
theorem Xfs.window_fileExtents {fs : Xfs} {node : XfsNode} {n : Nat} (h : fs.fileExtents node = .ok E)
    (hbacked : Backed fs.blocks (blockExtents node) offset n) :
    window (fileByte fs.io E) offset n = window (fileByte fs.blocks (blockExtents node)) offset n := by
  rw [fileExtents] at h
  split at h
  · cases h
  · rw [mapM_toFileExtent h]
    apply List.map_congr_left
    intro i hi
    rw [List.mem_range] at hi
    obtain ⟨p, hp, hdevice⟩ := hbacked (offset + i) (by omega) (by omega)
    refine fileByte_scale hp hdevice fun e he => ?_
    obtain ⟨x, -, rfl⟩ := List.mem_map.mp he
    have hphysical := x.physicalBlock_lt
    have hcount := x.blockCount_lt
    show x.physicalBlock + x.blockCount < 2 ^ 64
    omega

/-- Reads of ext4 and XFS files against their extents, a hole being zero: they are right exactly where there is no
hole, and every block is on the device. -/
theorem sparse_reads (ext4 : Ext4) (ext4Node : Ext4Node) (xfs : Xfs) (xfsNode : XfsNode) (E : List FileExtent)
    (offset len : Nat) :
    (ext4.fileExtents ext4Node = .ok E → Ordered FileExtent.virtualBlockStart FileExtent.blockCount E 0 →
      (ext4.readFile ext4Node offset len =
          .ok (window (fileByte ext4.io E) offset (min len (ext4Node.size - offset))) ↔
        Backed ext4.io E offset (min len (ext4Node.size - offset)))) ∧
    (Xfs.isFile xfsNode = true → xfsNode.format ≠ Xfs.formatLocal →
      Ordered FileExtent.virtualBlockStart FileExtent.blockCount (Xfs.blockExtents xfsNode) 0 →
      (∀ e ∈ xfsNode.extents, (e.fileBlock + e.blockCount) * xfs.blockSize < 2 ^ 64) →
        (xfs.readFile xfsNode offset len =
            .ok (window (fileByte xfs.blocks (Xfs.blockExtents xfsNode)) offset (min len (xfsNode.size - offset))) ↔
          Backed xfs.blocks (Xfs.blockExtents xfsNode) offset (min len (xfsNode.size - offset))) ∧
        (xfs.fileExtents xfsNode = .ok E →
          Backed xfs.blocks (Xfs.blockExtents xfsNode) offset (min len (xfsNode.size - offset)) →
            window (fileByte xfs.io E) offset (min len (xfsNode.size - offset)) =
              window (fileByte xfs.blocks (Xfs.blockExtents xfsNode)) offset (min len (xfsNode.size - offset)))) :=
  ⟨fun h hordered => Ext4.readFile_iff h hordered,
    fun hfile hformat hordered hbytes => ⟨Xfs.readFile_iff hfile hformat hordered hbytes,
      fun h hbacked => Xfs.window_fileExtents h hbacked⟩⟩

def sampleBlocks : BlockIo where
  blockSize := 4
  totalBlocks := 8
  bytes := fun i => UInt8.ofNat (i + 1)
  blockSize_lt := Words.four_lt_u32
  totalBlocks_lt := Words.eight_lt_u64

theorem sampleBlocks_pos : 0 < sampleBlocks.blockSize := by decide

def sampleExt4 : Ext4 where
  io := sampleBlocks
  blockSize_pos := sampleBlocks_pos
  blockSize_le := by decide

/-- A file of three blocks: the first in block 3, the last in block 5, and a hole between them. -/
def holeNode : Ext4Node where
  mode := 0x8000
  flags := 0x80000
  size := 12
  inode := List.replicate 40 0 ++
    [0x0A, 0xF3, 2, 0, 4, 0, 0, 0, 0, 0, 0, 0, 0, 0, 0, 0, 1, 0, 0, 0, 3, 0, 0, 0, 2, 0, 0, 0, 1, 0, 0, 0, 5, 0, 0, 0] ++
    List.replicate 24 0

def holeExtents : List FileExtent := [⟨0, 3, 1⟩, ⟨2, 5, 1⟩]

def sampleXfs : Xfs where
  io := sampleBlocks
  blocksPerFsBlock := 2
  hardwareBlockSize_pos := sampleBlocks_pos
  blocksPerFsBlock_pos := Nat.two_pos
  blockSize_lt := by decide

theorem firstBlock_lt : 0 < 2 ^ 54 := by decide

theorem singleBlock_lt : 1 < 2 ^ 21 := by decide

def holeXfsNode : XfsNode where
  mode := 0x8000
  size := 24
  format := Xfs.formatExtents
  extents := [⟨0, 3, 1, firstBlock_lt, by decide, Nat.one_pos, singleBlock_lt⟩, ⟨2, 2, 1, by decide, by decide, Nat.one_pos, singleBlock_lt⟩]
  localData := []

theorem holeNodes_tail_reads :
    sampleExt4.readFile holeNode 9 10 = .ok (window (fileByte sampleBlocks holeExtents) 9 3) ∧
      sampleXfs.readFile holeXfsNode 16 4 = .ok (window (fileByte sampleXfs.blocks [⟨0, 3, 1⟩, ⟨2, 2, 1⟩]) 16 4) :=
  ⟨((sparse_reads sampleExt4 holeNode sampleXfs holeXfsNode holeExtents 9 10).1 (by decide +kernel)
      ⟨by decide, by decide, trivial⟩).mpr fun i hlo hhi => ⟨5, by
        rw [show i / sampleExt4.io.blockSize = 2 from Nat.div_eq_of_lt_le (show 2 * 4 ≤ i by omega)
          (Nat.lt_of_lt_of_le hhi (by decide))]
        decide, by decide⟩,
    ((sparse_reads sampleExt4 holeNode sampleXfs holeXfsNode [] 16 4).2 (by decide) (by decide)
      ⟨by decide, by decide, trivial⟩ (by decide)).1.mpr fun i hlo hhi => ⟨2, by
        rw [show i / sampleXfs.blocks.blockSize = 2 from Nat.div_eq_of_lt_le (show 2 * 8 ≤ i by omega)
          (Nat.lt_of_lt_of_le hhi (by decide))]
        decide, by decide⟩⟩

/-- Read from its start, the file loses its hole: the bytes of the last block follow those of the first. -/
theorem holeNode_hole_skipped : ¬ ∀ E, sampleExt4.fileExtents holeNode = .ok E →
    Ordered FileExtent.virtualBlockStart FileExtent.blockCount E 0 →
      sampleExt4.readFile holeNode 0 12 = .ok (window (fileByte sampleBlocks E) 0 (min 12 (holeNode.size - 0))) := by
  intro h
  have hread := h holeExtents (by decide +kernel) ⟨by decide, by decide, trivial⟩
  have hpacked : sampleExt4.readFile holeNode 0 12 = .ok [13, 14, 15, 16, 21, 22, 23, 24] := by decide +kernel
  rw [hpacked] at hread
  exact absurd hread (by decide +kernel)

end NextBoot.Fs
