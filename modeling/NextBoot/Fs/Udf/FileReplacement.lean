import NextBoot.Fs.Udf.PatchedVolume

namespace NextBoot.Fs.Udf

open Words BlockStore Bytes Results Strings Paths

def UdfFileReplacementPatch.writes (patch : UdfFileReplacementPatch) : List (Write UInt8) :=
  ⟨patch.fileEntryOffset, patch.fileEntryData⟩ ::
    patch.partitionDescriptor.toList.map fun d => ⟨d.descriptorOffset, d.descriptorData⟩

/-- A file that another one takes the place of: where the other one lies, and the patch that leads there. -/
structure Replaced where
  node : Node
  lba : Nat
  size : Nat
  allocated : Nat
  patch : UdfFileReplacementPatch

namespace Replaced

/-- The block behind the new file. -/
def stop (r : Replaced) (blockSize : Nat) : Nat := r.lba + Volume.divRoundUp r.allocated blockSize

structure Valid (fs : Volume) (r : Replaced) : Prop where
  inside : r.node.entryLba < fs.io.totalBlocks
  read : ReadFrom r.node.entryLba r.node.partRef (blockAt fs.io r.node.entryLba) r.node
  partRef_lt : r.node.partRef < 2 ^ 16
  patched : replaceNode fs r.node r.lba r.size r.allocated = .ok r.patch

/-- What a patch has been made from. -/
structure PatchOf (fs : Volume) (r : Replaced) (kind block : Nat) (p : Partition) : Prop where
  regular : r.node.fileType = fileTypeRegular
  kind_eq : descriptorSize r.node.flags = some kind
  size_lt : r.size < 2 ^ 30
  partition_eq : ∃ index, fs.partitionMaps[r.node.partRef]? = some index ∧ fs.partitions[index]? = some p
  lba_eq : r.lba = p.start + block
  block_lt : block < 2 ^ 32
  entry_eq : patchEntry r.node kind r.size block r.allocated = .ok r.patch.fileEntryData
  descriptor_eq : partitionDescriptorPatch fs.io p (r.stop fs.io.blockSize) = .ok r.patch.partitionDescriptor
  offset_eq : r.patch.fileEntryOffset = r.node.entryLba * fs.io.blockSize

end Replaced

section Patches

variable {fs fs' : Volume} {r : Replaced} {rs : List Replaced} {p : Partition} {node : Node} {kind block lba stop : Nat}
  {patch : Option UdfPartitionDescriptorPatch}

theorem Replaced.Valid.patchOf (h : r.Valid fs) : ∃ kind block p, r.PatchOf fs kind block p := by
  have hpatched := h.patched
  simp only [replaceNode, bind_eq_ok, refuseIf_eq_ok, someOr_eq_ok, pure_eq_ok] at hpatched
  obtain ⟨_, hregular, kind, hkind, _, hsize, index, hindex, p, hp, block, hblock, _, hblockLt, entry, hentry, endLba, hend,
    descriptor, hdescriptor, offset, hoffset, heq⟩ := hpatched
  obtain ⟨-, rfl⟩ := checkedAdd_eq_some.mp hend
  obtain ⟨-, rfl⟩ := checkedMul_eq_some.mp hoffset
  obtain ⟨hle, rfl⟩ := checkedSub_eq_some.mp hblock
  refine ⟨kind, r.lba - p.start, p, not_not.mp hregular, hkind, by omega, ⟨index, hindex, hp⟩, by omega, by omega, ?_, ?_, ?_⟩
  · rw [hentry, ← heq]
  · rw [Replaced.stop, hdescriptor, ← heq]
  · rw [← heq]

theorem partitionDescriptorPatch_spec (hp : Described fs.io p)
    (h : partitionDescriptorPatch fs.io p stop = .ok patch) :
    (patch = none ∧ stop ≤ p.start + p.length) ∨ ∃ d, patch = some d ∧
      d.descriptorOffset = p.descriptorLba * fs.io.blockSize ∧ d.descriptorData.length = fs.io.blockSize ∧
      ValidTag d.descriptorData ∧ readLe 4 d.descriptorData 192 = some (stop - p.start) ∧ p.start ≤ stop ∧
      DescriptorChange (blockAt fs.io p.descriptorLba) d.descriptorData := by
  rw [partitionDescriptorPatch] at h
  split at h
  · next hle =>
      rw [pure_eq_ok] at h
      exact .inl ⟨h.symm, hle⟩
  · next hlt =>
      simp only [bind_eq_ok, refuseIf_eq_ok, someOr_eq_ok, pure_eq_ok, readLogicalBlock_eq_ok] at h
      obtain ⟨_, hfits, buffer, ⟨-, hbuffer⟩, data, hdata, offset, hoffset, rfl⟩ := h
      obtain ⟨-, rfl⟩ := checkedMul_eq_some.mp hoffset
      rw [hbuffer] at hdata
      obtain ⟨hlength, hvalid, hnew, hchange⟩ := growDescriptor_spec hp.ident (fun n hn => by
        have := Option.some.inj (hn.symm.trans hp.length_eq)
        omega) (by omega) hdata
      exact .inr ⟨_, rfl, rfl, hlength.trans length_blockAt, hvalid, hnew, by omega, hchange⟩

/-- The descriptors that a run of patches changes, in the order of the patches. -/
def changedBlocks (rs : List Replaced) (blockSize lba : Nat) : Option (List UInt8) :=
  lastWrite (rs.flatMap fun r => r.patch.writes) (lba * blockSize)

theorem lastWrite_writes (patch : UdfFileReplacementPatch) (start : Nat) : lastWrite patch.writes start =
    ((patch.partitionDescriptor.filter fun d => d.descriptorOffset = start).map fun d => d.descriptorData).or
      (if patch.fileEntryOffset = start then some patch.fileEntryData else none) := by
  rw [UdfFileReplacementPatch.writes]
  cases patch.partitionDescriptor with
  | none => exact lastWrite_concat [] _ start
  | some d =>
      refine (lastWrite_concat [_] ⟨d.descriptorOffset, d.descriptorData⟩ start).trans ?_
      rw [Option.filter_some]
      dsimp only
      split
      · next heq =>
          rw [if_pos (by simpa using heq)]
          rfl
      · next hne =>
          rw [if_neg (by simpa using hne)]
          exact lastWrite_concat [] _ start

namespace Replaced.Valid

variable (h : r.Valid fs) (hdescribed : ∀ p ∈ fs.partitions, Described fs.io p)

include h

theorem ident : readLe 2 (blockAt fs.io r.node.entryLba) 0 = some tagIdentFe ∨
    readLe 2 (blockAt fs.io r.node.entryLba) 0 = some tagIdentEfe := h.read.ident

theorem entryChange : EntryChange (blockAt fs.io r.node.entryLba) r.patch.fileEntryData ∧
    r.patch.fileEntryData.length = fs.io.blockSize ∧ ValidTag r.patch.fileEntryData := by
  obtain ⟨kind, block, p, hpatch⟩ := h.patchOf
  obtain ⟨hlength, hvalid, -⟩ := patchEntry_spec h.read (length_blockAt.trans_lt fs.io.blockSize_lt) hpatch.kind_eq hpatch.size_lt
    hpatch.block_lt h.partRef_lt hpatch.entry_eq
  exact ⟨entryChange_of_patchEntry h.read hpatch.regular hpatch.kind_eq hpatch.size_lt hpatch.block_lt h.partRef_lt hpatch.entry_eq,
    hlength.trans length_blockAt, hvalid⟩

include hdescribed

theorem descriptorChange {d : UdfPartitionDescriptorPatch} (hd : r.patch.partitionDescriptor = some d) :
    ∃ p ∈ fs.partitions, d.descriptorOffset = p.descriptorLba * fs.io.blockSize ∧ d.descriptorData.length = fs.io.blockSize ∧
      ValidTag d.descriptorData ∧ readLe 4 d.descriptorData 192 = some (r.stop fs.io.blockSize - p.start) ∧
      p.start ≤ r.stop fs.io.blockSize ∧ DescriptorChange (blockAt fs.io p.descriptorLba) d.descriptorData := by
  obtain ⟨kind, block, p, hpatch⟩ := h.patchOf
  obtain ⟨index, -, hp⟩ := hpatch.partition_eq
  have hmem := List.mem_of_getElem? hp
  rcases partitionDescriptorPatch_spec (hdescribed p hmem) hpatch.descriptor_eq with ⟨hnone, -⟩ | ⟨d', hsome, hspec⟩
  · cases hd.symm.trans hnone
  · cases hd.symm.trans hsome
    exact ⟨p, hmem, hspec⟩

theorem writes_blocks {w : Write UInt8} (hw : w ∈ r.patch.writes) : ∃ lba < fs.io.totalBlocks,
    w.start = lba * fs.io.blockSize ∧ w.cells.length = fs.io.blockSize ∧
      (EntryChange (blockAt fs.io lba) w.cells ∨ DescriptorChange (blockAt fs.io lba) w.cells) := by
  obtain ⟨kind, block, p, hpatch⟩ := h.patchOf
  rcases List.mem_cons.mp hw with rfl | hw
  · obtain ⟨hchange, hlength, -⟩ := h.entryChange
    exact ⟨r.node.entryLba, h.inside, hpatch.offset_eq, hlength, .inl hchange⟩
  · obtain ⟨d, hd, rfl⟩ := List.mem_map.mp hw
    rw [Option.mem_toList] at hd
    obtain ⟨p, hp, hoffset, hlength, -, -, -, hchange⟩ := h.descriptorChange hdescribed hd
    exact ⟨p.descriptorLba, (hdescribed p hp).inside, hoffset, hlength, .inr hchange⟩

/-- The block of a file entry is written by the patches for that entry only. -/
theorem lastWrite_entry (hident : readLe 2 (blockAt fs.io lba) 0 = some tagIdentFe ∨
      readLe 2 (blockAt fs.io lba) 0 = some tagIdentEfe) :
    lastWrite r.patch.writes (lba * fs.io.blockSize) =
      if r.node.entryLba = lba then some r.patch.fileEntryData else none := by
  obtain ⟨kind, block, p, hpatch⟩ := h.patchOf
  have hnone : r.patch.partitionDescriptor.filter (fun d => d.descriptorOffset = lba * fs.io.blockSize) = none := by
    rw [Option.filter_eq_none_iff]
    intro d hd
    obtain ⟨p, hp, hoffset, -⟩ := h.descriptorChange hdescribed hd
    rw [decide_eq_true_eq, hoffset]
    intro hsame
    have hlba := Nat.eq_of_mul_eq_mul_right fs.blockSize_pos hsame
    rw [← hlba, (hdescribed p hp).ident] at hident
    exact absurd hident (by decide)
  rw [lastWrite_writes, hnone, hpatch.offset_eq]
  simp only [Option.map_none, Option.none_or, Nat.mul_left_inj (Nat.ne_of_gt fs.blockSize_pos)]

end Replaced.Valid

theorem lt_divRoundUp {size allocated blockSize k : Nat} (hblockSize : blockSize < 2 ^ 32) (hsize : size < 2 ^ 30)
    (hpos : 0 < blockSize) (hfits : size ≤ allocated) (hk : k * blockSize < size) : k < Volume.divRoundUp allocated blockSize := by
  rw [Volume.divRoundUp, if_neg (by omega), Nat.lt_iff_add_one_le, Nat.le_div_iff_mul_le hpos, Nat.succ_mul, saturatingAdd,
    Nat.le_min]
  exact ⟨by omega, by omega⟩

section Runs

variable (hvalid : ∀ r ∈ rs, r.Valid fs) (hdescribed : ∀ p ∈ fs.partitions, Described fs.io p)

include hvalid hdescribed

/-- A device that the patches have been written to differs from the first one in descriptors only. -/
theorem rewritten_of_patches {io' : BlockIo} (hblockSize : io'.blockSize = fs.io.blockSize)
    (htotal : fs.io.totalBlocks ≤ io'.totalBlocks) (hbytes : ∀ x < fs.io.totalBlocks * fs.io.blockSize,
      io'.bytes x = applyWrites fs.io.bytes (rs.flatMap fun r => r.patch.writes) x) :
    Rewritten fs.io io' (changedBlocks rs fs.io.blockSize) := by
  have hblocks : ∀ w ∈ rs.flatMap fun r => r.patch.writes, ∃ lba < fs.io.totalBlocks, w.start = lba * fs.io.blockSize ∧
      w.cells.length = fs.io.blockSize ∧
        (EntryChange (blockAt fs.io lba) w.cells ∨ DescriptorChange (blockAt fs.io lba) w.cells) := by
    intro w hw
    obtain ⟨r, hr, hw⟩ := List.mem_flatMap.mp hw
    exact (hvalid r hr).writes_blocks hdescribed hw
  refine ⟨hblockSize, htotal, fun lba hlba => ?_, fun lba new _ hnew => ?_⟩
  · have hstop := Nat.mul_le_mul_right fs.io.blockSize hlba
    rw [Nat.succ_mul] at hstop
    rw [blockAt, hblockSize, window_congr fun x _ hx => hbytes x (by omega), window_applyWrites_blocks fun w hw => ?_]
    · rfl
    · obtain ⟨at', -, hstart, hlength, -⟩ := hblocks w hw
      exact ⟨by rw [hstart, Nat.mul_mod_left], hlength⟩
  · obtain ⟨w, hw, hstart, rfl⟩ := mem_of_lastWrite hnew
    obtain ⟨at', -, hstart', -, hchange⟩ := hblocks w hw
    rwa [Nat.eq_of_mul_eq_mul_right fs.blockSize_pos (hstart.symm.trans hstart')]

/-- What becomes of a file entry is what the last patch for it makes of it. -/
theorem changedBlocks_entry (hident : readLe 2 (blockAt fs.io lba) 0 = some tagIdentFe ∨
      readLe 2 (blockAt fs.io lba) 0 = some tagIdentEfe) :
    changedBlocks rs fs.io.blockSize lba =
      (rs.reverse.find? fun r => r.node.entryLba = lba).map fun r => r.patch.fileEntryData := by
  rw [changedBlocks, lastWrite_flatMap]
  have hall : ∀ r ∈ rs.reverse, lastWrite r.patch.writes (lba * fs.io.blockSize) =
      if r.node.entryLba = lba then some r.patch.fileEntryData else none :=
    fun r hr => (hvalid r (List.mem_reverse.mp hr)).lastWrite_entry hdescribed hident
  generalize rs.reverse = reversed at hall
  induction reversed with
  | nil => rfl
  | cons r reversed ih =>
      rw [List.findSome?_cons, hall r List.mem_cons_self]
      by_cases hlba : r.node.entryLba = lba
      · rw [if_pos hlba, List.find?_cons_of_pos (by simpa using hlba), Option.map_some]
      · rw [if_neg hlba, List.find?_cons_of_neg (by simpa using hlba)]
        exact ih fun r hr => hall r (List.mem_cons_of_mem _ hr)

/-- The partition of a replaced file reaches as far as the new file. -/
theorem stop_le (hstops : rs.Pairwise fun r s => r.stop fs.io.blockSize ≤ s.stop fs.io.blockSize) (hr : r ∈ rs)
    (hpatch : r.PatchOf fs kind block p) {p' : Partition} (hp' : PartitionKept (changedBlocks rs fs.io.blockSize) p p') :
    r.stop fs.io.blockSize ≤ p'.start + p'.length := by
  obtain ⟨index, -, hp⟩ := hpatch.partition_eq
  have hmem := List.mem_of_getElem? hp
  have hle := hp'.length_le
  have hstart := hp'.start_eq
  rcases partitionDescriptorPatch_spec (hdescribed p hmem) hpatch.descriptor_eq with ⟨-, hwithin⟩ | ⟨d, hd, hoffset, -⟩
  · omega
  · -- the last patch of the descriptor is for a file that does not end before this one
    have hwritten : (lastWrite r.patch.writes (p.descriptorLba * fs.io.blockSize)).isSome := by
      rw [lastWrite_writes, hd, Option.filter_some, if_pos (by simpa using hoffset)]
      rfl
    have hsome : (changedBlocks rs fs.io.blockSize p.descriptorLba).isSome := by
      rw [changedBlocks, lastWrite_flatMap, List.findSome?_isSome_iff]
      exact ⟨r, List.mem_reverse.mpr hr, hwritten⟩
    obtain ⟨new, hnew⟩ := Option.isSome_iff_exists.mp hsome
    have hlength := hp'.renewed new hnew
    rw [changedBlocks, lastWrite_flatMap, List.findSome?_eq_some_iff] at hnew
    obtain ⟨later, last, before, hsplit, hlast, hnone⟩ := hnew
    have hlastMem : last ∈ rs := List.mem_reverse.mp (by rw [hsplit]; simp)
    have hstop : r.stop fs.io.blockSize ≤ last.stop fs.io.blockSize := by
      have hreversed := List.pairwise_reverse.mpr hstops
      rw [hsplit] at hreversed
      have hr' := List.mem_reverse.mpr hr
      rw [hsplit] at hr'
      rcases List.mem_append.mp hr' with hlater | hbefore
      · rw [hnone r hlater] at hwritten
        cases hwritten
      · rcases List.mem_cons.mp hbefore with rfl | hbefore
        · exact Nat.le_refl _
        · exact (List.pairwise_cons.mp (List.pairwise_append.mp hreversed).2.1).1 r hbefore
    have hlastValid := hvalid last hlastMem
    rw [lastWrite_writes, Option.or_eq_some_iff] at hlast
    rcases hlast with hdescriptor | ⟨-, hentry⟩
    · obtain ⟨d', hd', rfl⟩ := Option.map_eq_some_iff.mp hdescriptor
      obtain ⟨hd', hoffset'⟩ := Option.filter_eq_some_iff.mp hd'
      obtain ⟨q, hq, hqOffset, -, -, hnewLength, hqStart, -⟩ := hlastValid.descriptorChange hdescribed hd'
      have hlba := Nat.eq_of_mul_eq_mul_right fs.blockSize_pos (hqOffset.symm.trans (of_decide_eq_true hoffset'))
      have hstarts := (hdescribed q hq).start_eq
      rw [hlba, (hdescribed p hmem).start_eq] at hstarts
      have := Option.some.inj hstarts
      have := Option.some.inj (hlength.symm.trans hnewLength)
      omega
    · obtain ⟨_, _, _, hlastPatch⟩ := hlastValid.patchOf
      obtain ⟨hsame, -⟩ := Option.ite_none_right_eq_some.mp hentry
      have hlba := Nat.eq_of_mul_eq_mul_right fs.blockSize_pos (hlastPatch.offset_eq.symm.trans hsame)
      have hident := hlastValid.ident
      rw [hlba, (hdescribed p hmem).ident] at hident
      exact absurd hident (by decide)

/-- The file that takes another one's place last is read where it lies. -/
theorem readFile_replaced (hkept : Kept fs fs' (changedBlocks rs fs.io.blockSize))
    (hstops : rs.Pairwise fun r s => r.stop fs.io.blockSize ≤ s.stop fs.io.blockSize)
    (hlast : rs.reverse.find? (fun s => s.node.entryLba = r.node.entryLba) = some r) {node' : Node}
    (hbecomes : Becomes (changedBlocks rs fs.io.blockSize) r.node node') (hfits : r.size ≤ r.allocated)
    (hdevice : r.stop fs.io.blockSize ≤ fs'.io.totalBlocks) :
    node'.fileSize = r.size ∧ ∀ offset len, offset < fs.io.blockSize ∨ offset % fs.io.blockSize = 0 →
      fs'.readFile node' offset len = .ok (((window fs'.io.bytes (r.lba * fs.io.blockSize) r.size).drop offset).take len) := by
  have hr : r ∈ rs := List.mem_reverse.mp (List.mem_of_find?_eq_some hlast)
  have hrValid := hvalid r hr
  obtain ⟨kind, block, p, hpatch⟩ := hrValid.patchOf
  have hchanged := changedBlocks_entry hvalid hdescribed hrValid.ident
  rw [hlast, Option.map_some] at hchanged
  rw [Becomes, hchanged] at hbecomes
  obtain ⟨-, -, -, patched, hread, hpatched⟩ := patchEntry_spec hrValid.read (length_blockAt.trans_lt fs.io.blockSize_lt)
    hpatch.kind_eq hpatch.size_lt hpatch.block_lt hrValid.partRef_lt hpatch.entry_eq
  obtain rfl := hread.unique hbecomes
  have hkind := kind_of_descriptorSize hpatch.kind_eq
  have hregular : node'.fileType = fileTypeRegular := hpatched.fileType_eq.trans hpatch.regular
  have hsame := hkept.device.blockSize_eq
  have hblockSize := fs.io.blockSize_lt
  have hpos := fs.blockSize_pos
  have hsize := hpatch.size_lt
  refine ⟨hpatched.fileSize_eq, fun offset len hoffset => ?_⟩
  rcases Nat.eq_zero_or_pos r.size with hzero | hsome
  · rw [Volume.readFile, if_neg (not_not.mpr hregular), Volume.readNodeData, hpatched.fileSize_eq, hzero,
      if_pos (.inl (Nat.zero_le _)), window, List.range_zero, List.map_nil, List.drop_nil, List.take_nil]
    rfl
  · obtain ⟨index, hindex, hp⟩ := hpatch.partition_eq
    obtain ⟨p', hp', hpKept⟩ := hkept.getElem?_partitions hp
    have hstop := stop_le hvalid hdescribed hstops hr hpatch hpKept
    have hstart := hpKept.start_eq
    have hlba := hpatch.lba_eq
    have hone := lt_divRoundUp hblockSize hsize hpos hfits (show 0 * fs.io.blockSize < r.size by omega)
    have hpStart := p'.start_lt
    have hpLength := p'.length_lt
    rw [Replaced.stop] at hstop hdevice
    have hplaced : r.lba = p'.start + block := by omega
    have hmap : fs'.mapPartitionBlock r.node.partRef block = .ok ⟨r.lba, by omega⟩ :=
      mapPartitionBlock_eq_ok.mpr ⟨index, p', by rw [hkept.maps_eq, hindex], hp', by omega, hplaced⟩
    obtain ⟨e, hextents, hlength, hplace, htype⟩ := hpatched.nodeDataExtents hkind hsome hsize hmap
    have hicb : node'.flags.land icbAdMask ≠ icbAdInIcb := by
      rw [hpatched.flags_eq]
      split <;> decide
    rw [readFile_single hregular hicb hextents htype (hpatched.fileSize_eq.trans hlength.symm) (fun k hk => ?_)
      (by rwa [hsame]), hplace, hsame, hlength]
    rw [hsame, hlength] at hk
    rw [hplace]
    have := lt_divRoundUp hblockSize hsize hpos hfits hk
    show r.lba + k < _
    omega

end Runs

end Patches

section Mounted

variable {granted : Nat → Bool} {io : BlockIo} {fs fs' : Mounted} {path : Text} {node root : Node}
  {changed : Nat → Option (List UInt8)} {icb : LongAd}

theorem readIcb_read {fs : Volume} (h : fs.readIcb icb = .ok node) : node.entryLba < fs.io.totalBlocks ∧
    ReadFrom node.entryLba node.partRef (blockAt fs.io node.entryLba) node := by
  simp only [Volume.readIcb, bind_eq_ok, parseIcb_eq_ok, readLogicalBlock_eq_ok] at h
  obtain ⟨lba, -, buffer, ⟨hlba, hbuffer⟩, hread⟩ := h
  rw [hbuffer] at hread
  rw [hread.entryLba_eq, hread.partRef_eq]
  exact ⟨hlba, hread⟩

theorem InTree.read {fs : Volume} (h : InTree granted fs root node)
    (hroot : root.entryLba < fs.io.totalBlocks ∧ ReadFrom root.entryLba root.partRef (blockAt fs.io root.entryLba) root) :
    node.entryLba < fs.io.totalBlocks ∧ ReadFrom node.entryLba node.partRef (blockAt fs.io node.entryLba) node := by
  cases h with
  | root => exact hroot
  | child _ _ _ _ hchild => exact readIcb_read hchild

theorem openUdf_root (h : openUdf io = .ok fs) : fs.io = io ∧ fs.rootIcb.block.partRef < 2 ^ 16 := by
  rw [openUdf] at h
  split at h
  · cases h
  simp only [bind_eq_ok, pure_eq_ok] at h
  obtain ⟨anchor, -, ⟨partitions, maps, icb⟩, -, _, -, _, -, _, -, _, -, _, -, rootIcb, hroot, rfl⟩ := h
  exact ⟨rfl, readLongAd_partRef hroot⟩

theorem readIcb_partRef_lt {fs : Volume} (h : fs.readIcb icb = .ok node) : node.partRef < fs.partitionMaps.length := by
  obtain ⟨lba, hlba, -⟩ := bind_eq_ok.mp h
  obtain ⟨index, _, hindex, -⟩ := mapPartitionBlock_eq_ok.mp hlba
  rw [readIcb_partRef h]
  exact (List.getElem?_eq_some_iff.mp hindex).1

/-- On a volume of one partition map every node has the same partition reference. -/
theorem findNode_partRef (hone : fs.partitionMaps.length ≤ 1) (hfind : fs.findNode granted path = .ok node) :
    node.partRef = 0 := by
  obtain ⟨root, hreadRoot, hfind⟩ := bind_eq_ok.mp hfind
  have hlt : node.partRef < fs.partitionMaps.length := by
    cases findParts_inTree .root hfind with
    | root => exact readIcb_partRef_lt hreadRoot
    | child _ _ _ _ hchild => exact readIcb_partRef_lt hchild
  omega

/-- No directory of the volume keeps its entries in a block that is changed. -/
def Mounted.DirectoriesClear (granted : Nat → Bool) (fs : Mounted) (changed : Nat → Option (List UInt8)) : Prop :=
  ∀ root, fs.readIcb fs.rootIcb = .ok root → Udf.DirectoriesClear granted fs.toVolume root changed

theorem findNode_kept (h : Kept fs.toVolume fs'.toVolume changed) (hroot : fs'.rootIcb = fs.rootIcb)
    (hclear : fs.DirectoriesClear granted changed) (hfind : fs.findNode granted path = .ok node) :
    ∃ node', fs'.findNode granted path = .ok node' ∧ Becomes changed node node' := by
  obtain ⟨root, hreadRoot, hfind⟩ := bind_eq_ok.mp hfind
  obtain ⟨root', hreadRoot', hbecomes, hkind⟩ := h.readIcb hreadRoot
  obtain ⟨node', hfind', hresult⟩ := h.findParts (hclear root hreadRoot) .root hbecomes hkind hfind
  exact ⟨node', bind_eq_ok.mpr ⟨root', hroot ▸ hreadRoot', hfind'⟩, hresult⟩

theorem findNode_read (hopen : openUdf io = .ok fs) (hfind : fs.findNode granted path = .ok node) :
    node.entryLba < fs.io.totalBlocks ∧ ReadFrom node.entryLba node.partRef (blockAt fs.io node.entryLba) node ∧
      node.partRef < 2 ^ 16 := by
  obtain ⟨root, hreadRoot, hfind⟩ := bind_eq_ok.mp hfind
  have hpartRef : root.partRef < 2 ^ 16 := by
    rw [readIcb_partRef hreadRoot]
    exact (openUdf_root hopen).2
  have htree : InTree granted fs.toVolume root node := findParts_inTree .root hfind
  obtain ⟨hinside, hread⟩ := htree.read (readIcb_read hreadRoot)
  exact ⟨hinside, hread, htree.partRef_lt hpartRef⟩

end Mounted

/-- A volume with one file in its root directory, whose entries lie inside its file entry. -/
def sampleWrites (blockSize : Nat) : List (Write UInt8) :=
  let at' (lba offset : Nat) (bytes : List UInt8) : Write UInt8 := ⟨lba * blockSize + offset, bytes⟩
  [at' 256 0 [2], at' 256 12 [0, 1], at' 256 16 (toLeBytes 4 (3 * blockSize)), at' 256 20 [10],
    at' 10 0 [5], at' 10 188 [20], at' 10 192 [10],
    at' 11 0 [6], at' 11 212 (toLeBytes 4 blockSize), at' 11 264 [6], at' 11 268 [1], at' 11 440 [1, 6],
    at' 12 0 [8],
    at' 20 0 [0, 1], at' 20 404 [1],
    at' 21 0 [5, 1], at' 21 27 [4], at' 21 34 [3], at' 21 56 [40], at' 21 172 [40], at' 21 176 [1, 1], at' 21 195 [2],
    at' 21 200 [2], at' 21 214 [8, 97],
    at' 22 0 [5, 1], at' 22 10 [100], at' 22 27 [5], at' 22 56 [5], at' 22 172 [8], at' 22 176 [5, 0, 0, 0, 3],
    at' 23 0 [104, 101, 108, 108, 111]]

def sampleUdf : BlockIo where
  blockSize := 512
  totalBlocks := 257
  bytes := applyWrites (fun _ => 0) (sampleWrites 512)
  blockSize_lt := Words.sector_lt_u32
  totalBlocks_lt := by decide

def samplePath : Text := ['/', 'A']

def sampleData : List UInt8 := [1, 2, 3, 4, 5, 6, 7]

/-- The volume with a patch, and the new file in a block behind it. -/
def patchedUdf (patch : UdfFileReplacementPatch) : BlockIo where
  blockSize := 512
  totalBlocks := 258
  bytes := applyWrites sampleUdf.bytes (patch.writes ++ [⟨131584, sampleData⟩])
  blockSize_lt := Words.sector_lt_u32
  totalBlocks_lt := by decide

section OneFile

variable {io : BlockIo} {fs : Mounted} {granted : Nat → Bool} {entry : UdfDirEntry}

/-- A root directory inside its own file entry, with one file, is clear of every change. -/
theorem clear_of_oneFile (hopen : openUdf io = .ok fs)
    (hentries : (openUdf io >>= fun fs => fs.readIcb fs.rootIcb >>= fun root => fs.readDirEntries granted root) = .ok [entry])
    (hfile : (openUdf io >>= fun fs => (fs.readIcb entry.icb).map Node.fileType) = .ok fileTypeRegular)
    (hextents : (openUdf io >>= fun fs => fs.readIcb fs.rootIcb >>= fun root =>
      (fs.nodeDataExtents root).map List.length) = .ok 0) (changed : Nat → Option (List UInt8)) :
    fs.DirectoriesClear granted changed := by
  rw [hopen, ok_bind] at hentries hfile hextents
  intro root hroot
  rw [hroot, ok_bind] at hentries hextents
  have htree : ∀ node, InTree granted fs.toVolume root node → node = root ∨ node.fileType = fileTypeRegular := by
    intro node htree
    induction htree with
    | root => exact .inl rfl
    | child hparent hdirectory hread hentry hchild ih =>
        right
        rcases ih with rfl | hregular
        · cases hentries.symm.trans hread
          rw [List.mem_singleton.mp hentry] at hchild
          rw [hchild] at hfile
          exact Except.ok.inj hfile
        · exact absurd (hdirectory.symm.trans hregular) (by decide)
  intro directory hin hdirectory extents hread
  rcases htree directory hin with rfl | hregular
  · rw [hread] at hextents
    rw [List.length_eq_zero_iff.mp (Except.ok.inj hextents)]
    exact fun e he => absurd he List.not_mem_nil
  · exact absurd (hdirectory.symm.trans hregular) (by decide)

end OneFile

end NextBoot.Fs.Udf
