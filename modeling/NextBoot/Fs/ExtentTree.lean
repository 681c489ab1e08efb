import NextBoot.Fs.SparseFiles

namespace NextBoot.Fs

open Words BlockStore Tiling Bytes Results NodeReader

/-- An entry of an extent tree as it is stored; `len` is its 16-bit length field. -/
structure TreeEntry where
  fileBlock : Nat
  len : Nat
  start : Nat
deriving DecidableEq, Repr

namespace Ext4Node

def treeRoot (node : Ext4Node) : List UInt8 := (node.inode.drop Ext4.inodeBlocks).take 60

def entryAt (node : Ext4Node) (index : Nat) : Option TreeEntry := do
  let fileBlock ← readLe 4 node.treeRoot (12 + index * 12)
  let len ← readLe 2 node.treeRoot (12 + index * 12 + 4)
  let high ← readLe 2 node.treeRoot (12 + index * 12 + 6)
  let low ← readLe 4 node.treeRoot (12 + index * 12 + 8)
  pure ⟨fileBlock, len, high * 2 ^ 32 + low⟩

/-- The root of an extent tree in a node, with the depth and the number of entries that its header gives. -/
structure ExtentTree (node : Ext4Node) (depth count : Nat) : Prop where
  flagged : node.flags.land Ext4.extentsFlag ≠ 0
  inode_length : Ext4.inodeBlocks + 60 ≤ node.inode.length
  magic : readLe 2 node.treeRoot 0 = some Ext4.extentMagic
  depth_eq : readLe 2 node.treeRoot 6 = some depth
  count_eq : readLe 2 node.treeRoot 2 = some count
  fits : 12 + count * 12 ≤ 60

variable {node : Ext4Node} {depth count index : Nat} {e : TreeEntry}

theorem ExtentTree.length_treeRoot (h : node.ExtentTree depth count) : node.treeRoot.length = 60 := by
  have hlength := h.inode_length
  rw [treeRoot, List.length_take, List.length_drop]
  omega

theorem ExtentTree.exists_entry (h : node.ExtentTree depth count) (hindex : index < count) :
    ∃ e, node.entryAt index = some e := by
  have hlength := h.length_treeRoot
  have hfits := h.fits
  obtain ⟨fileBlock, hfile⟩ := @readLe_isSome 4 node.treeRoot (12 + index * 12) (by omega)
  obtain ⟨len, hlen⟩ := @readLe_isSome 2 node.treeRoot (12 + index * 12 + 4) (by omega)
  obtain ⟨high, hhigh⟩ := @readLe_isSome 2 node.treeRoot (12 + index * 12 + 6) (by omega)
  obtain ⟨low, hlow⟩ := @readLe_isSome 4 node.treeRoot (12 + index * 12 + 8) (by omega)
  exact ⟨⟨fileBlock, len, high * 2 ^ 32 + low⟩, by rw [entryAt, hfile, hlen, hhigh, hlow]; rfl⟩

theorem start_lt (h : node.entryAt index = some e) : e.start < 2 ^ 48 := by
  simp only [entryAt, Option.bind_eq_bind, Option.bind_eq_some_iff] at h
  obtain ⟨_, -, _, -, high, hhigh, low, hlow, heq⟩ := h
  have hhigh' := readLe_lt hhigh
  have hlow' := readLe_lt hlow
  cases heq
  dsimp only
  omega

end Ext4Node

namespace Ext4

variable {fs : Ext4} {node : Ext4Node} {depth count index : Nat} {e : TreeEntry} {out : List Ext4Extent}

/-- What an entry of the root adds to the extents, with the high bit of its length masked out. -/
def contribution (node : Ext4Node) (index : Nat) : List Ext4Extent :=
  match node.entryAt index with
  | none => []
  | some e => if e.len % 2 ^ 15 = 0 then [] else [⟨e.fileBlock, e.len % 2 ^ 15, e.start⟩]

theorem treeEntry_eq (h : node.entryAt index = some e) :
    treeEntry node.treeRoot out index = .ok (out ++ contribution node index) := by
  rw [contribution, h]
  simp only [Ext4Node.entryAt, Option.bind_eq_bind, Option.bind_eq_some_iff] at h
  obtain ⟨fileBlock, hfile, len, hlen, high, hhigh, low, hlow, heq⟩ := h
  cases heq
  rw [treeEntry, readU16, hlen]
  dsimp only [someOr]
  rw [ok_bind]
  split
  · rw [List.append_nil]
    rfl
  · rw [readU32, hfile, readU16, hhigh, readU32, hlow]
    rfl

theorem extents_of_deep (h : node.ExtentTree depth count) (hdeep : depth ≠ 0) : fs.extents node = .error .unsupportedFs := by
  have hmagic := h.magic
  have hdepth := h.depth_eq
  rw [Ext4Node.treeRoot] at hmagic hdepth
  rw [extents, if_pos h.flagged, extentTreeExtents, readU16, hmagic, someOr_some, ok_bind, readU16, hdepth, someOr_some,
    ok_bind, refuseIf, if_pos (Or.inr hdeep)]
  rfl

theorem extents_of_flat (h : node.ExtentTree 0 count) :
    fs.extents node = .ok ((List.range count).flatMap (contribution node)) := by
  have hmagic := h.magic
  have hdepth := h.depth_eq
  have hcount := h.count_eq
  have hlength := h.length_treeRoot
  have hloop : (List.range count).foldlM (treeEntry node.treeRoot) [] =
      .ok ([] ++ (List.range count).flatMap (contribution node)) := by
    refine foldlM_append_ok fun out index hindex => ?_
    obtain ⟨e, he⟩ := h.exists_entry (List.mem_range.mp hindex)
    exact treeEntry_eq he
  rw [Ext4Node.treeRoot] at hmagic hdepth hcount hlength hloop
  have hfits : ¬ 60 < 12 + count * 12 := Nat.not_lt.mpr h.fits
  rw [extents, if_pos h.flagged, extentTreeExtents, readU16, hmagic, someOr_some, ok_bind, readU16, hdepth, someOr_some,
    ok_bind, refuseIf, if_neg (by simp), ok_bind, readU16, hcount, someOr_some, ok_bind, hlength, refuseIf, if_neg hfits,
    ok_bind]
  exact hloop

/-- Reading inside one extent of a file returns the bytes of its blocks. -/
theorem readFile_inside {E : List FileExtent} {x : FileExtent} {offset len : Nat} (hE : fs.fileExtents node = .ok E)
    (hordered : Ordered FileExtent.virtualBlockStart FileExtent.blockCount E 0) (hx : x ∈ E)
    (hdevice : x.physicalLba + x.blockCount ≤ fs.io.totalBlocks) (hlo : x.virtualBlockStart * fs.io.blockSize ≤ offset)
    (hhi : offset + min len (node.size - offset) ≤ (x.virtualBlockStart + x.blockCount) * fs.io.blockSize) :
    fs.readFile node offset len = .ok (window fs.io.bytes
      (x.physicalLba * fs.io.blockSize + (offset - x.virtualBlockStart * fs.io.blockSize)) (min len (node.size - offset))) := by
  obtain ⟨hbacked, hwindow⟩ := window_fileByte_inside fs.blockSize_pos hordered hx hdevice hlo hhi
  rw [(readFile_iff hE hordered).mpr hbacked, hwindow]

/-- Of a tree without further levels each entry contributes to the extents what is its own: an entry of at most 32767
blocks one extent of as many, read from the blocks where it starts. Deeper trees are refused. -/
theorem extent_lengths (fs : Ext4) (node : Ext4Node) (depth count : Nat) (htree : node.ExtentTree depth count) :
    (depth ≠ 0 → fs.extents node = .error .unsupportedFs) ∧
      (depth = 0 → ∃ contribution : Nat → List Ext4Extent,
        fs.extents node = .ok ((List.range count).flatMap contribution) ∧
        ∀ index < count, ∃ e, node.entryAt index = some e ∧ (e.len = 0 → contribution index = []) ∧
          (1 ≤ e.len → e.len < 32768 → contribution index = [⟨e.fileBlock, e.len, e.start⟩] ∧
            ∀ E offset len, fs.fileExtents node = .ok E →
              Ordered FileExtent.virtualBlockStart FileExtent.blockCount E 0 → e.start + e.len ≤ fs.io.totalBlocks →
              e.fileBlock * fs.io.blockSize ≤ offset →
              offset + min len (node.size - offset) ≤ (e.fileBlock + e.len) * fs.io.blockSize →
                fs.readFile node offset len = .ok (window fs.io.bytes
                  (e.start * fs.io.blockSize + (offset - e.fileBlock * fs.io.blockSize)) (min len (node.size - offset))))) := by
  refine ⟨extents_of_deep htree, fun hflat => ?_⟩
  subst hflat
  refine ⟨contribution node, extents_of_flat htree, fun index hindex => ?_⟩
  obtain ⟨e, he⟩ := htree.exists_entry hindex
  refine ⟨e, he, fun hzero => ?_, fun hpos hshort => ?_⟩
  · rw [contribution, he]
    exact if_pos (by rw [hzero]; rfl)
  · have hlisted : contribution node index = [⟨e.fileBlock, e.len, e.start⟩] := by
      rw [contribution, he]
      dsimp only
      have hmod : e.len % 2 ^ 15 = e.len := Nat.mod_eq_of_lt hshort
      rw [hmod, if_neg (by omega)]
    refine ⟨hlisted, fun E offset len hE hordered hdevice hlo hhi => ?_⟩
    have hmem : (⟨e.fileBlock, e.start, e.len⟩ : FileExtent) ∈ E := by
      rw [fileExtents] at hE
      split at hE
      · cases hE
      · obtain ⟨extents, hextents, hE⟩ := bind_eq_ok.mp hE
        rw [extents_of_flat htree, Except.ok.injEq] at hextents
        rw [pure_eq_ok] at hE
        rw [← hE, ← hextents]
        refine List.mem_map.mpr ⟨⟨e.fileBlock, e.len, e.start⟩, List.mem_flatMap.mpr ⟨index, List.mem_range.mpr hindex, ?_⟩, rfl⟩
        rw [hlisted]
        exact List.mem_singleton_self _
    exact readFile_inside hE hordered hmem hdevice hlo hhi

/-- A file of one block whose tree has one entry: with a header of the given depth, and a length of the given bytes. -/
def lengthNode (depth low high : UInt8) : Ext4Node where
  mode := 0x8000
  flags := 0x80000
  size := 4
  inode := List.replicate 40 0 ++
    [0x0A, 0xF3, 1, 0, 4, 0, depth, 0, 0, 0, 0, 0, 0, 0, 0, 0, low, high, 0, 0, 3, 0, 0, 0] ++ List.replicate 36 0

theorem shortNode_tree : (lengthNode 0 1 0).ExtentTree 0 1 where
  flagged := by decide
  inode_length := by decide
  magic := by decide +kernel
  depth_eq := by decide +kernel
  count_eq := by decide +kernel
  fits := by decide

theorem shortNode_read : sampleExt4.readFile (lengthNode 0 1 0) 0 4 = .ok (window sampleBlocks.bytes 12 4) := by
  obtain ⟨contribution, -, hentries⟩ := (extent_lengths sampleExt4 _ _ _ shortNode_tree).2 rfl
  obtain ⟨e, he, -, hkept⟩ := hentries 0 Nat.one_pos
  have hentry : (lengthNode 0 1 0).entryAt 0 = some ⟨0, 1, 3⟩ := by decide +kernel
  obtain rfl : ⟨0, 1, 3⟩ = e := Option.some.inj (hentry.symm.trans he)
  exact (hkept (by decide) (by decide)).2 [⟨0, 3, 1⟩] 0 4 (by decide +kernel) ⟨by decide, trivial⟩ (by decide) (by decide)
    (by decide)

/-- An entry of 32768 blocks is dropped, one of a block that has not been written is read from the device, and a tree
with further levels is refused. -/
theorem long_entries_lost :
    ((lengthNode 0 0 0x80).entryAt 0 = some ⟨0, 32768, 3⟩ ∧ sampleExt4.extents (lengthNode 0 0 0x80) = .ok []) ∧
      ((lengthNode 0 1 0x80).entryAt 0 = some ⟨0, 32769, 3⟩ ∧
        sampleExt4.readFile (lengthNode 0 1 0x80) 0 4 = .ok [13, 14, 15, 16]) ∧
      sampleExt4.extents (lengthNode 1 1 0) = .error .unsupportedFs := by
  decide +kernel

end Ext4

end NextBoot.Fs
