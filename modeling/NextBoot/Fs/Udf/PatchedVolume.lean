import Mathlib.Data.List.Forall2
import NextBoot.Fs.Udf.EntryPatch
import NextBoot.Fs.Udf.Files

namespace NextBoot.Fs.Udf

open Words BlockStore Bytes Results Strings Paths

def blockAt (io : BlockIo) (lba : Nat) : List UInt8 := window io.bytes (lba * io.blockSize) io.blockSize

/-- A file entry that stays the entry of a file. -/
structure EntryChange (old new : List UInt8) : Prop where
  ident : readLe 2 old 0 = some tagIdentFe ∨ readLe 2 old 0 = some tagIdentEfe
  tag_eq : readLe 2 new 0 = readLe 2 old 0
  reads : ∀ {lba partRef node}, ReadFrom lba partRef old node →
    node.fileType = fileTypeRegular ∧ ∃ node', ReadFrom lba partRef new node' ∧ node'.fileType = fileTypeRegular

/-- A partition descriptor whose partition has grown. -/
structure DescriptorChange (old new : List UInt8) : Prop where
  ident : readLe 2 old 0 = some tagIdentPd
  tag_eq : readLe 2 new 0 = readLe 2 old 0
  number_eq : readLe 2 new 22 = readLe 2 old 22
  start_eq : readLe 4 new 188 = readLe 4 old 188
  grown : ∀ n, readLe 4 old 192 = some n → ∃ n', readLe 4 new 192 = some n' ∧ n ≤ n'

/-- Two devices that differ in descriptors only, as far as the first one goes. -/
structure Rewritten (io io' : BlockIo) (changed : Nat → Option (List UInt8)) : Prop where
  blockSize_eq : io'.blockSize = io.blockSize
  totalBlocks_le : io.totalBlocks ≤ io'.totalBlocks
  block : ∀ lba < io.totalBlocks, blockAt io' lba = (changed lba).getD (blockAt io lba)
  change : ∀ lba new, lba < io.totalBlocks → changed lba = some new →
    EntryChange (blockAt io lba) new ∨ DescriptorChange (blockAt io lba) new

/-- A partition of the changed device: the same one, as long as its descriptor says now. -/
structure PartitionKept (changed : Nat → Option (List UInt8)) (p p' : Partition) : Prop where
  number_eq : p'.number = p.number
  start_eq : p'.start = p.start
  length_le : p.length ≤ p'.length
  renewed : ∀ new, changed p.descriptorLba = some new → readLe 4 new 192 = some p'.length

structure Kept (fs fs' : Volume) (changed : Nat → Option (List UInt8)) : Prop where
  device : Rewritten fs.io fs'.io changed
  maps_eq : fs'.partitionMaps = fs.partitionMaps
  partitions : List.Forall₂ (PartitionKept changed) fs.partitions fs'.partitions

/-- No block that the extents record is changed. -/
def Clear (changed : Nat → Option (List UInt8)) (blockSize : Nat) (extents : List NodeExtent) : Prop :=
  ∀ e ∈ extents, e.extentType = 0 → ∀ k, k * blockSize < e.length → changed (e.physicalLba + k) = none

section Reads

variable {β : Type} {readBlock readBlock' : Nat → Except FsError (List β)} {blockSize offset readable copied fuel : Nat}
  {lba base lbaOffset inBlock remaining within cursor : Nat} {e : NodeExtent} {extents : List NodeExtent} {cells : List β}

/-- The copying loop reads blocks of the extent only. -/
theorem copyBlocks_congr (hpos : 0 < blockSize) (hin : inBlock < blockSize)
    (hlength : ∀ lba block, readBlock lba = .ok block → block.length = blockSize)
    (hsame : ∀ k, k * blockSize < e.length → ∀ block, readBlock (e.physicalLba + k) = .ok block →
      readBlock' (e.physicalLba + k) = .ok block)
    (hbase : lba = e.physicalLba + base) (hroom : copied < readable ∧ 0 < remaining →
      base * blockSize + remaining + (if lbaOffset = 0 ∧ copied = 0 then inBlock else 0) ≤ e.length)
    (h : copyBlocks readBlock readable lbaOffset inBlock fuel copied lba remaining = .ok cells) :
    copyBlocks readBlock' readable lbaOffset inBlock fuel copied lba remaining = .ok cells := by
  have he := e.length_lt
  have hphysical := e.physicalLba_lt
  induction fuel generalizing copied lba base remaining cells with
  | zero => exact h
  | succ fuel ih =>
      rw [copyBlocks] at h ⊢
      split at h
      · next hmore =>
          rw [if_pos hmore]
          have hfits := hroom hmore
          have hle := Nat.le_mul_of_pos_right base hpos
          obtain ⟨block, hblock, h⟩ := bind_eq_ok.mp h
          obtain ⟨rest, hrest, h⟩ := bind_eq_ok.mp h
          have hlen := hlength _ _ hblock
          rw [hbase] at hblock
          refine bind_eq_ok.mpr ⟨block, ?_, bind_eq_ok.mpr ⟨rest, ?_, h⟩⟩
          · rw [hbase]
            exact hsame base (by omega) block hblock
          · have hnext : saturatingAdd 64 lba 1 = e.physicalLba + (base + 1) := by
              rw [hbase]
              exact Nat.min_eq_left (by omega)
            refine ih hnext (fun hmore' => ?_) hrest
            rw [hlen] at hmore' ⊢
            have hsource : (if lbaOffset = 0 ∧ copied = 0 then inBlock else 0) < blockSize := by split <;> omega
            generalize (if lbaOffset = 0 ∧ copied = 0 then inBlock else 0) = source at hmore' hfits hsource ⊢
            rw [if_neg (by omega), Nat.succ_mul]
            omega
      · next hdone =>
          rw [if_neg hdone]
          exact h

theorem copyExtent_congr (hpos : 0 < blockSize) (hwithin : within < e.length)
    (hlength : ∀ lba block, readBlock lba = .ok block → block.length = blockSize)
    (hsame : ∀ k, k * blockSize < e.length → ∀ block, readBlock (e.physicalLba + k) = .ok block →
      readBlock' (e.physicalLba + k) = .ok block)
    (h : copyExtent readBlock blockSize readable e within copied = .ok cells) :
    copyExtent readBlock' blockSize readable e within copied = .ok cells := by
  have he := e.length_lt
  have hphysical := e.physicalLba_lt
  have hdiv := Nat.div_le_self within blockSize
  have hsplit := Nat.div_add_mod within blockSize
  have hlba : saturatingAdd 64 e.physicalLba (within / blockSize) = e.physicalLba + within / blockSize :=
    Nat.min_eq_left (by omega)
  refine copyBlocks_congr hpos (Nat.mod_lt _ hpos) hlength hsame hlba (fun _ => ?_) h
  · rw [Nat.mul_comm] at hsplit
    split <;> omega

/-- The walk reads blocks that the extents record only. -/
theorem walkExtents_congr (hpos : 0 < blockSize) (hlength : ∀ lba block, readBlock lba = .ok block → block.length = blockSize)
    (hsame : ∀ e ∈ extents, e.extentType = 0 → ∀ k, k * blockSize < e.length → ∀ block,
      readBlock (e.physicalLba + k) = .ok block → readBlock' (e.physicalLba + k) = .ok block)
    (hcursor : cursor + totalLength extents < 2 ^ 64)
    (h : walkExtents readBlock blockSize offset readable extents copied cursor = .ok cells) :
    walkExtents readBlock' blockSize offset readable extents copied cursor = .ok cells := by
  induction extents generalizing copied cursor cells with
  | nil => exact h
  | cons e extents ih =>
      rw [totalLength_cons] at hcursor
      have hrest := fun e he => hsame e (List.mem_cons_of_mem _ he)
      have hend : saturatingAdd 64 cursor e.length = cursor + e.length := Nat.min_eq_left (by omega)
      rw [walkExtents, hend] at h ⊢
      split at h
      · next hunrecorded =>
          rw [if_pos hunrecorded]
          exact ih hrest (by omega) h
      · next hrecorded =>
          rw [if_neg hrecorded]
          split at h
          · next hpast =>
              rw [if_pos hpast]
              exact ih hrest (by omega) h
          · next hinside =>
              have hlengthPos := e.length_pos
              rw [if_neg hinside]
              obtain ⟨piece, hpiece, h⟩ := bind_eq_ok.mp h
              refine bind_eq_ok.mpr ⟨piece, copyExtent_congr hpos (by omega) hlength
                (hsame e List.mem_cons_self (not_not.mp hrecorded)) hpiece, ?_⟩
              split at h
              · next hfull =>
                  rw [if_pos hfull]
                  exact h
              · next hpart =>
                  rw [if_neg hpart]
                  obtain ⟨more, hmore, h⟩ := bind_eq_ok.mp h
                  exact bind_eq_ok.mpr ⟨more, ih hrest (by omega) hmore, h⟩

end Reads

section Devices

variable {io io' : BlockIo} {changed : Nat → Option (List UInt8)} {lba tag : Nat} {block : List UInt8}
  {buffer : { block : List UInt8 // block.length < 2 ^ 32 }}

@[simp] theorem length_blockAt : (blockAt io lba).length = io.blockSize := length_window ..

theorem readBlock_eq_ok : io.readBlock lba = .ok block ↔ lba < io.totalBlocks ∧ block = blockAt io lba := by
  rw [BlockIo.readBlock]
  split
  · next hlt => simp [hlt, blockAt, eq_comm]
  · next hge => simp [hge]

theorem readLogicalBlock_eq_ok : readLogicalBlock io lba = .ok buffer ↔
    lba < io.totalBlocks ∧ buffer.val = blockAt io lba := by
  rw [readLogicalBlock]
  split
  · next hlt =>
      simp only [Except.ok.injEq, hlt, true_and]
      exact ⟨fun h => h ▸ rfl, fun h => Subtype.ext h.symm⟩
  · next hge => simp [hge]

namespace Rewritten

variable (h : Rewritten io io' changed)

include h

theorem block_of_none (hlba : lba < io.totalBlocks) (hnone : changed lba = none) : blockAt io' lba = blockAt io lba := by
  rw [h.block lba hlba, hnone, Option.getD_none]

theorem block_of_some {new : List UInt8} (hlba : lba < io.totalBlocks) (hsome : changed lba = some new) :
    blockAt io' lba = new := by
  rw [h.block lba hlba, hsome, Option.getD_some]

theorem readBlock (hnone : changed lba = none) (hread : io.readBlock lba = .ok block) : io'.readBlock lba = .ok block := by
  obtain ⟨hlba, rfl⟩ := readBlock_eq_ok.mp hread
  exact readBlock_eq_ok.mpr ⟨hlba.trans_le h.totalBlocks_le, (h.block_of_none hlba hnone).symm⟩

theorem tag_eq (hlba : lba < io.totalBlocks) : readLe 2 (blockAt io' lba) 0 = readLe 2 (blockAt io lba) 0 := by
  cases hchanged : changed lba with
  | none => rw [h.block_of_none hlba hchanged]
  | some new =>
      rw [h.block_of_some hlba hchanged]
      rcases h.change lba new hlba hchanged with hentry | hdescriptor
      · exact hentry.tag_eq
      · exact hdescriptor.tag_eq

/-- Descriptors of other kinds are not changed. -/
theorem none_of_tag (hlba : lba < io.totalBlocks) (htag : readLe 2 (blockAt io lba) 0 = some tag)
    (hfe : tag ≠ tagIdentFe) (hefe : tag ≠ tagIdentEfe) (hpd : tag ≠ tagIdentPd) : changed lba = none := by
  cases hchanged : changed lba with
  | none => rfl
  | some new =>
      rcases h.change lba new hlba hchanged with hentry | hdescriptor
      · rcases hentry.ident with hident | hident
        · cases htag.symm.trans hident
          exact absurd rfl hfe
        · cases htag.symm.trans hident
          exact absurd rfl hefe
      · cases htag.symm.trans hdescriptor.ident
        exact absurd rfl hpd

theorem descriptorChange {new : List UInt8} (hlba : lba < io.totalBlocks)
    (htag : readLe 2 (blockAt io lba) 0 = some tagIdentPd) (hsome : changed lba = some new) :
    DescriptorChange (blockAt io lba) new := by
  rcases h.change lba new hlba hsome with hentry | hdescriptor
  · rcases hentry.ident with hident | hident <;> cases htag.symm.trans hident
  · exact hdescriptor

end Rewritten

end Devices

section Mounting

variable {io io' : BlockIo} {changed : Nat → Option (List UInt8)} {lba count blockSize : Nat} {candidates : List Nat}
  {anchor : ExtentAd} {block block' : List UInt8} {state state' out : MountState}

structure StateKept (changed : Nat → Option (List UInt8)) (state state' : MountState) : Prop where
  partitions : List.Forall₂ (PartitionKept changed) state.partitions state'.partitions
  maps_eq : state'.partitionMaps = state.partitionMaps
  root_eq : state'.rootIcb = state.rootIcb

theorem readAnchorFrom_past (h : ∀ lba ∈ candidates, io.totalBlocks ≤ lba) :
    readAnchorFrom io candidates = .error .invalidSignature := by
  induction candidates with
  | nil => rfl
  | cons lba candidates ih =>
      rw [readAnchorFrom, if_pos (h lba List.mem_cons_self)]
      exact ih fun lba hlba => h lba (List.mem_cons_of_mem _ hlba)

theorem Rewritten.readAnchorFrom (h : Rewritten io io' changed) (hsorted : candidates.Pairwise (· ≤ ·))
    (hanchor : readAnchorFrom io candidates = .ok anchor) : readAnchorFrom io' candidates = .ok anchor := by
  induction candidates with
  | nil => cases hanchor
  | cons lba candidates ih =>
      obtain ⟨hfirst, hsorted⟩ := List.pairwise_cons.mp hsorted
      by_cases hpast : io.totalBlocks ≤ lba
      · rw [readAnchorFrom_past fun other hother => ?_] at hanchor
        · cases hanchor
        · rcases List.mem_cons.mp hother with rfl | hother
          · exact hpast
          · exact hpast.trans (hfirst other hother)
      · rw [Nat.not_le] at hpast
        have hpast' := hpast.trans_le h.totalBlocks_le
        rw [Udf.readAnchorFrom, if_neg (by omega)] at hanchor ⊢
        obtain ⟨buffer, hbuffer, hanchor⟩ := bind_eq_ok.mp hanchor
        obtain ⟨ident, hident, hanchor⟩ := bind_eq_ok.mp hanchor
        obtain ⟨location, hlocation, hanchor⟩ := bind_eq_ok.mp hanchor
        rw [readU16, someOr_eq_ok] at hident
        rw [readU32, someOr_eq_ok] at hlocation
        obtain ⟨-, hbuffer⟩ := readLogicalBlock_eq_ok.mp hbuffer
        rw [hbuffer] at hident hlocation hanchor
        have htag := (h.tag_eq hpast).trans hident
        have hlength : (blockAt io' lba).length = (blockAt io lba).length := by
          rw [length_blockAt, length_blockAt, h.blockSize_eq]
        obtain ⟨location', hlocation'⟩ := readLe_isSome (hlength ▸ readLe_inside hlocation)
        have hread : readLogicalBlock io' lba = .ok ⟨blockAt io' lba, length_blockAt.trans_lt io'.blockSize_lt⟩ :=
          readLogicalBlock_eq_ok.mpr ⟨hpast', rfl⟩
        refine bind_eq_ok.mpr ⟨_, hread, bind_eq_ok.mpr ⟨ident, someOr_eq_ok.mpr htag, ?_⟩⟩
        by_cases havdp : ident = tagIdentAvdp
        · have hnone := h.none_of_tag hpast hident (by rw [havdp]; decide) (by rw [havdp]; decide) (by rw [havdp]; decide)
          have hsame := h.block_of_none hpast hnone
          refine bind_eq_ok.mpr ⟨location, ?_, ?_⟩
          · rw [readU32, someOr_eq_ok]
            dsimp only
            rwa [hsame]
          · split at hanchor
            · next hfound =>
                rw [if_pos hfound]
                dsimp only
                rwa [hsame]
            · next hnot =>
                rw [if_neg hnot]
                exact ih hsorted hanchor
        · refine bind_eq_ok.mpr ⟨location', someOr_eq_ok.mpr hlocation', ?_⟩
          rw [if_neg fun hfound => havdp hfound.1] at hanchor ⊢
          exact ih hsorted hanchor

theorem readBounded_eq_ok {n : { n : Nat // n < 2 ^ 32 }} {offset : Nat} :
    readBounded block offset = .ok n ↔ readLe 4 block offset = some n.val := by
  rw [readBounded, someOr_eq_ok, Option.attachWith_eq_some_iff]

theorem readPartitionDescriptor_kept (hnone : changed lba = none → block' = block)
    (hsome : ∀ new, changed lba = some new → block' = new ∧ DescriptorChange block new) (hstate : StateKept changed state state')
    (h : readPartitionDescriptor block lba state = .ok out) :
    ∃ out', readPartitionDescriptor block' lba state' = .ok out' ∧ StateKept changed out out' := by
  simp only [readPartitionDescriptor, bind_eq_ok, pure_eq_ok, readBounded_eq_ok] at h ⊢
  obtain ⟨number, hnumber, start, hstart, length, hlength, rfl⟩ := h
  rw [readU16, someOr_eq_ok] at hnumber
  cases hchanged : changed lba with
  | none =>
      rw [hnone hchanged]
      refine ⟨_, ⟨number, someOr_eq_ok.mpr hnumber, start, hstart, length, hlength, rfl⟩,
        List.rel_append hstate.partitions (.cons ⟨rfl, rfl, Nat.le_refl _, fun new hnew => ?_⟩ .nil), hstate.maps_eq,
        hstate.root_eq⟩
      cases hchanged.symm.trans hnew
  | some new =>
      obtain ⟨rfl, hgrown⟩ := hsome new hchanged
      obtain ⟨n', hn', hle⟩ := hgrown.grown _ hlength
      refine ⟨_, ⟨number, someOr_eq_ok.mpr (hgrown.number_eq.trans hnumber), start, hgrown.start_eq.trans hstart,
        ⟨n', readLe_lt hn'⟩, hn', rfl⟩,
        List.rel_append hstate.partitions (.cons ⟨rfl, rfl, hle, fun new hnew => ?_⟩ .nil), hstate.maps_eq, hstate.root_eq⟩
      cases hchanged.symm.trans hnew
      exact hn'

theorem readLogicalVolumeDescriptor_kept (hstate : StateKept changed state state')
    (h : readLogicalVolumeDescriptor blockSize block state = .ok out) :
    ∃ out', readLogicalVolumeDescriptor blockSize block state' = .ok out' ∧ StateKept changed out out' := by
  simp only [readLogicalVolumeDescriptor, bind_eq_ok, pure_eq_ok] at h ⊢
  obtain ⟨size, hsize, _, hblockSize, root, hroot, tableLen, htableLen, mapCount, hmapCount, _, hfits, maps, hmaps, rfl⟩ := h
  exact ⟨_, ⟨size, hsize, _, hblockSize, root, hroot, tableLen, htableLen, mapCount, hmapCount, _, hfits, maps, hmaps, rfl⟩,
    hstate.partitions, rfl, rfl⟩

theorem Rewritten.readDescriptors (h : Rewritten io io' changed) (hstate : StateKept changed state state')
    (hread : readDescriptors io count lba state = .ok out) :
    ∃ out', readDescriptors io' count lba state' = .ok out' ∧ StateKept changed out out' := by
  induction count generalizing lba state state' with
  | zero =>
      rw [Udf.readDescriptors, pure_eq_ok] at hread
      rw [← hread]
      exact ⟨state', rfl, hstate⟩
  | succ count ih =>
      rw [Udf.readDescriptors] at hread ⊢
      obtain ⟨buffer, hbuffer, hread⟩ := bind_eq_ok.mp hread
      obtain ⟨ident, hident, hread⟩ := bind_eq_ok.mp hread
      obtain ⟨hlba, hbuffer⟩ := readLogicalBlock_eq_ok.mp hbuffer
      rw [readU16, someOr_eq_ok, hbuffer] at hident
      rw [hbuffer] at hread
      have htag := (h.tag_eq hlba).trans hident
      have hread' : readLogicalBlock io' lba = .ok ⟨blockAt io' lba, length_blockAt.trans_lt io'.blockSize_lt⟩ :=
        readLogicalBlock_eq_ok.mpr ⟨hlba.trans_le h.totalBlocks_le, rfl⟩
      rw [hread', ok_bind, readU16, htag, someOr_some, ok_bind]
      by_cases hpd : ident = tagIdentPd
      · rw [if_pos hpd] at hread ⊢
        obtain ⟨next, hnext, hread⟩ := bind_eq_ok.mp hread
        obtain ⟨next', hnext', hkept⟩ := readPartitionDescriptor_kept (fun hnone => h.block_of_none hlba hnone)
          (fun new hnew => ⟨h.block_of_some hlba hnew, h.descriptorChange hlba (hpd ▸ hident) hnew⟩) hstate hnext
        rw [hnext', ok_bind]
        exact ih hkept hread
      rw [if_neg hpd] at hread ⊢
      by_cases hlvd : ident = tagIdentLvd
      · have hsame := h.block_of_none hlba (h.none_of_tag hlba hident (by rw [hlvd]; decide) (by rw [hlvd]; decide) hpd)
        rw [if_pos hlvd] at hread ⊢
        obtain ⟨next, hnext, hread⟩ := bind_eq_ok.mp hread
        obtain ⟨next', hnext', hkept⟩ := readLogicalVolumeDescriptor_kept hstate hnext
        dsimp only
        rw [hsame, h.blockSize_eq, hnext', ok_bind]
        exact ih hkept hread
      rw [if_neg hlvd] at hread ⊢
      by_cases htd : ident = tagIdentTd
      · rw [if_pos htd, pure_eq_ok] at hread
        rw [if_pos htd, ← hread]
        exact ⟨state', rfl, hstate⟩
      rw [if_neg htd] at hread ⊢
      by_cases hlate : tagIdentTd < ident
      · rw [if_pos hlate] at hread
        cases hread
      · rw [if_neg hlate] at hread ⊢
        exact ih hstate hread

theorem findIdx?_kept {partitions partitions' : List Partition} (h : List.Forall₂ (PartitionKept changed) partitions partitions')
    (number : Nat) : partitions'.findIdx? (fun partition => partition.number = number) =
      partitions.findIdx? fun partition => partition.number = number := by
  induction h with
  | nil => rfl
  | cons hhead _ ih => rw [List.findIdx?_cons, List.findIdx?_cons, ih, hhead.number_eq]

theorem resolvePartitionMaps_kept (hstate : StateKept changed state state') :
    resolvePartitionMaps state' = resolvePartitionMaps state := by
  rw [resolvePartitionMaps, resolvePartitionMaps, hstate.maps_eq]
  simp only [findIdx?_kept hstate.partitions]

theorem mapPartitionBlock_eq_ok {fs : Volume} {partRef blockNum : Nat} {at' : { lba : Nat // lba < 2 ^ 33 }} :
    fs.mapPartitionBlock partRef blockNum = .ok at' ↔ ∃ index partition, fs.partitionMaps[partRef]? = some index ∧
      fs.partitions[index]? = some partition ∧ blockNum < partition.length ∧ at'.val = partition.start + blockNum := by
  simp only [Volume.mapPartitionBlock, bind_eq_ok, someOr_eq_ok]
  constructor
  · rintro ⟨index, hindex, partition, hpartition, h⟩
    split at h
    · cases h
    · rw [pure_eq_ok] at h
      exact ⟨index, partition, hindex, hpartition, by omega, h ▸ rfl⟩
  · rintro ⟨index, partition, hindex, hpartition, hlt, hat⟩
    refine ⟨index, hindex, partition, hpartition, ?_⟩
    rw [dif_neg (by omega), pure_eq_ok]
    exact Subtype.ext hat.symm

namespace Kept

variable {fs fs' : Volume} {partRef blockNum : Nat} {at' : { lba : Nat // lba < 2 ^ 33 }} (h : Kept fs fs' changed)

include h

theorem getElem?_partitions {index : Nat} {p : Partition} (hp : fs.partitions[index]? = some p) :
    ∃ p', fs'.partitions[index]? = some p' ∧ PartitionKept changed p p' := by
  obtain ⟨hlength, hget⟩ := List.forall₂_iff_get.mp h.partitions
  obtain ⟨hindex, rfl⟩ := List.getElem?_eq_some_iff.mp hp
  have hindex' : index < fs'.partitions.length := by omega
  exact ⟨fs'.partitions[index], List.getElem?_eq_getElem hindex', by simpa using hget index hindex hindex'⟩

theorem mapPartitionBlock (hmap : fs.mapPartitionBlock partRef blockNum = .ok at') :
    fs'.mapPartitionBlock partRef blockNum = .ok at' := by
  obtain ⟨index, p, hindex, hp, hlt, hat⟩ := mapPartitionBlock_eq_ok.mp hmap
  obtain ⟨p', hp', hkept⟩ := h.getElem?_partitions hp
  refine mapPartitionBlock_eq_ok.mpr ⟨index, p', by rw [h.maps_eq, hindex], hp', hlt.trans_le hkept.length_le, ?_⟩
  rw [hat, hkept.start_eq]

end Kept

/-- What is changed does not keep the volume from being mounted. -/
theorem Rewritten.openUdf {fs : Mounted} (h : Rewritten io io' changed) (hopen : openUdf io = .ok fs) :
    ∃ fs', openUdf io' = .ok fs' ∧ fs.io = io ∧ fs'.io = io' ∧ fs'.rootIcb = fs.rootIcb ∧
      Kept fs.toVolume fs'.toVolume changed := by
  rw [Udf.openUdf] at hopen ⊢
  split at hopen
  · cases hopen
  next hpos =>
  obtain ⟨anchor, hanchor, hopen⟩ := bind_eq_ok.mp hopen
  obtain ⟨⟨partitions, maps, icb⟩, hsequence, hopen⟩ := bind_eq_ok.mp hopen
  obtain ⟨_, hsome, hopen⟩ := bind_eq_ok.mp hopen
  obtain ⟨filesetLba, hfilesetLba, hopen⟩ := bind_eq_ok.mp hopen
  obtain ⟨fileset, hfileset, hopen⟩ := bind_eq_ok.mp hopen
  obtain ⟨ident, hident, hopen⟩ := bind_eq_ok.mp hopen
  obtain ⟨_, hfsd, hopen⟩ := bind_eq_ok.mp hopen
  obtain ⟨root, hroot, hopen⟩ := bind_eq_ok.mp hopen
  rw [pure_eq_ok] at hopen
  subst hopen
  obtain ⟨state, hstate, hsequence⟩ := bind_eq_ok.mp hsequence
  obtain ⟨maps', hmaps, hsequence⟩ := bind_eq_ok.mp hsequence
  cases hsequence
  have hstart : StateKept changed ⟨[], [], ⟨0, 0, 0⟩⟩ ⟨[], [], ⟨0, 0, 0⟩⟩ := ⟨.nil, rfl, rfl⟩
  obtain ⟨state', hstate', hkept⟩ := h.readDescriptors hstart hstate
  have hpos' : 0 < io'.blockSize := by
    rw [h.blockSize_eq]
    omega
  have hvolume : Kept ⟨io, state.partitions, maps, by omega⟩ ⟨io', state'.partitions, maps, hpos'⟩ changed :=
    ⟨h, rfl, hkept.partitions⟩
  -- the file set descriptor is not one that is changed
  obtain ⟨hlba, hfilesetAt⟩ := readLogicalBlock_eq_ok.mp hfileset
  rw [readU16, someOr_eq_ok, hfilesetAt] at hident
  rw [refuseIf_eq_ok, not_not] at hfsd
  have hsame : blockAt io' filesetLba.val = blockAt io filesetLba.val :=
    h.block_of_none hlba (h.none_of_tag hlba hident (by rw [hfsd]; decide) (by rw [hfsd]; decide) (by rw [hfsd]; decide))
  have hfileset' : readLogicalBlock io' filesetLba.val = .ok fileset :=
    readLogicalBlock_eq_ok.mpr ⟨hlba.trans_le h.totalBlocks_le, hfilesetAt.trans hsame.symm⟩
  have hsequence : readVolumeDescriptorSequence io' anchor = .ok (state'.partitions, maps, state'.rootIcb) := by
    rw [readVolumeDescriptorSequence, h.blockSize_eq, hstate', ok_bind, resolvePartitionMaps_kept hkept, hmaps, ok_bind]
    rfl
  have hempty : ¬ (maps = [] ∨ state'.partitions = []) := by
    rw [← List.length_eq_zero_iff (l := state'.partitions), ← hkept.partitions.length_eq, List.length_eq_zero_iff]
    exact refuseIf_eq_ok.mp hsome
  refine ⟨⟨⟨io', state'.partitions, maps, hpos'⟩, root⟩, ?_, rfl, rfl, rfl, hvolume⟩
  rw [dif_neg (by omega)]
  simp only [bind_eq_ok, refuseIf_eq_ok]
  refine ⟨anchor, h.readAnchorFrom (by decide) hanchor, _, hsequence, (), hempty, filesetLba, ?_, fileset, hfileset', ident, ?_,
    (), not_not.mpr hfsd, root, hroot, rfl⟩
  · rw [hkept.root_eq]
    exact hvolume.mapPartitionBlock hfilesetLba
  · rw [readU16, someOr_eq_ok, hfilesetAt]
    exact hident

end Mounting

section Files

variable {granted : Nat → Bool} {fs fs' : Volume} {node child : Node} {changed : Nat → Option (List UInt8)}
  {offset len : Nat} {data : List UInt8} {parts : List Text} {icb : LongAd}

/-- The directories and files of a volume, as they are reached from a node. -/
inductive InTree (granted : Nat → Bool) (fs : Volume) (root : Node) : Node → Prop
  | root : InTree granted fs root root
  | child {directory child : Node} {entries : List UdfDirEntry} {entry : UdfDirEntry} :
      InTree granted fs root directory → directory.fileType = fileTypeDirectory →
      fs.readDirEntries granted directory = .ok entries → entry ∈ entries → fs.readIcb entry.icb = .ok child →
      InTree granted fs root child

theorem findParts_inTree {root found : Node} (htree : InTree granted fs root node)
    (hfind : fs.findParts granted parts node = .ok found) : InTree granted fs root found := by
  induction parts generalizing node with
  | nil =>
      rw [Volume.findParts, pure_eq_ok] at hfind
      rwa [← hfind]
  | cons part parts ih =>
      rw [Volume.findParts] at hfind
      simp only [bind_eq_ok, refuseIf_eq_ok, someOr_eq_ok] at hfind
      obtain ⟨_, hdirectory, entries, hentries, entry, hentry, child, hchild, hfind⟩ := hfind
      exact ih (htree.child (not_not.mp hdirectory) hentries (List.mem_of_find?_eq_some hentry) hchild) hfind

/-- No directory keeps its entries in a block that is changed. -/
def DirectoriesClear (granted : Nat → Bool) (fs : Volume) (root : Node) (changed : Nat → Option (List UInt8)) : Prop :=
  ∀ directory, InTree granted fs root directory → directory.fileType = fileTypeDirectory →
    ∀ extents, fs.nodeDataExtents directory = .ok extents → Clear changed fs.io.blockSize extents

/-- What a file entry comes to on the changed device. -/
def Becomes (changed : Nat → Option (List UInt8)) (node node' : Node) : Prop :=
  match changed node.entryLba with
  | none => node' = node
  | some new => ReadFrom node.entryLba node.partRef new node'

namespace Kept

variable (h : Kept fs fs' changed)

include h

theorem pushDescriptor {partRefOf : List UInt8 → Except FsError Nat} {extents out : List NodeExtent} {chunk : List UInt8}
    (hpush : fs.pushDescriptor partRefOf extents chunk = .ok out) :
    fs'.pushDescriptor partRefOf extents chunk = .ok out := by
  simp only [Volume.pushDescriptor, bind_eq_ok] at hpush ⊢
  obtain ⟨rawLength, hraw, hpush⟩ := hpush
  refine ⟨rawLength, hraw, ?_⟩
  split at hpush
  · next hzero =>
      rw [dif_pos hzero]
      exact hpush
  · next hsome =>
      rw [dif_neg hsome]
      simp only [bind_eq_ok] at hpush ⊢
      obtain ⟨blockNum, hblockNum, partRef, hpartRef, lba, hlba, hpush⟩ := hpush
      exact ⟨blockNum, hblockNum, partRef, hpartRef, lba, h.mapPartitionBlock hlba, hpush⟩

theorem foldlM_pushDescriptor {partRefOf : List UInt8 → Except FsError Nat} {extents out : List NodeExtent}
    {chunks : List (List UInt8)} (hfold : chunks.foldlM (fs.pushDescriptor partRefOf) extents = .ok out) :
    chunks.foldlM (fs'.pushDescriptor partRefOf) extents = .ok out := by
  induction chunks generalizing extents with
  | nil => exact hfold
  | cons chunk chunks ih =>
      rw [List.foldlM_cons] at hfold ⊢
      obtain ⟨next, hnext, hfold⟩ := bind_eq_ok.mp hfold
      exact bind_eq_ok.mpr ⟨next, h.pushDescriptor hnext, ih hfold⟩

theorem nodeDataExtents {extents : List NodeExtent} (hextents : fs.nodeDataExtents node = .ok extents) :
    fs'.nodeDataExtents node = .ok extents := by
  rw [Volume.nodeDataExtents] at hextents ⊢
  split at hextents
  · next hshort =>
      rw [if_pos hshort]
      exact h.foldlM_pushDescriptor hextents
  · next hshort =>
      rw [if_neg hshort]
      split at hextents
      · next hlong =>
          rw [if_pos hlong]
          exact h.foldlM_pushDescriptor hextents
      · next hlong =>
          rw [if_neg hlong]
          exact hextents

/-- What a node holds outside the changed blocks is read as before. -/
theorem readNodeData (hclear : ∀ extents, fs.nodeDataExtents node = .ok extents → Clear changed fs.io.blockSize extents)
    (hread : fs.readNodeData node offset len = .ok data) : fs'.readNodeData node offset len = .ok data := by
  rw [Volume.readNodeData] at hread ⊢
  split at hread
  · next hnone =>
      rw [if_pos hnone]
      exact hread
  next hsome =>
  rw [if_neg hsome]
  dsimp only at hread ⊢
  split at hread
  · next hicb =>
      rw [if_pos hicb]
      exact hread
  next hicb =>
  rw [if_neg hicb]
  obtain ⟨extents, hextents, hread⟩ := bind_eq_ok.mp hread
  refine bind_eq_ok.mpr ⟨extents, h.nodeDataExtents hextents, ?_⟩
  have htotal := totalLength_lt hextents
  rw [h.device.blockSize_eq]
  refine walkExtents_congr fs.blockSize_pos (fun lba block hblock => ?_) (fun e he hrecorded k hk block hblock => ?_) (by omega)
    hread
  · obtain ⟨-, rfl⟩ := readBlock_eq_ok.mp hblock
    exact length_blockAt
  · exact h.device.readBlock (hclear extents hextents e he hrecorded k hk) hblock

/-- A file whose blocks are not changed is read as it was. -/
theorem readFile (hclear : ∀ extents, fs.nodeDataExtents node = .ok extents → Clear changed fs.io.blockSize extents)
    (hread : fs.readFile node offset len = .ok data) : fs'.readFile node offset len = .ok data := by
  rw [Volume.readFile] at hread ⊢
  split at hread
  · cases hread
  · next hregular =>
      rw [if_neg hregular]
      exact h.readNodeData hclear hread

theorem readDirEntries {entries : List UdfDirEntry}
    (hclear : ∀ extents, fs.nodeDataExtents node = .ok extents → Clear changed fs.io.blockSize extents)
    (hread : fs.readDirEntries granted node = .ok entries) : fs'.readDirEntries granted node = .ok entries := by
  obtain ⟨_, hgranted, hread⟩ := bind_eq_ok.mp hread
  obtain ⟨copied, hcopied, hread⟩ := bind_eq_ok.mp hread
  exact bind_eq_ok.mpr ⟨_, hgranted, bind_eq_ok.mpr ⟨copied, h.readNodeData hclear hcopied, hread⟩⟩

/-- A file entry is found again, with what became of it. -/
theorem readIcb (hread : fs.readIcb icb = .ok node) : ∃ node', fs'.readIcb icb = .ok node' ∧ Becomes changed node node' ∧
    (node' = node ∨ node.fileType = fileTypeRegular ∧ node'.fileType = fileTypeRegular) := by
  obtain ⟨lba, hlba, hread⟩ := bind_eq_ok.mp hread
  obtain ⟨buffer, hbuffer, hread⟩ := bind_eq_ok.mp hread
  obtain ⟨hlbaLt, hbufferAt⟩ := readLogicalBlock_eq_ok.mp hbuffer
  rw [parseIcb_eq_ok, hbufferAt] at hread
  have hlba' := h.mapPartitionBlock hlba
  have hat := hread.entryLba_eq
  have href := hread.partRef_eq
  have hbuffer' : readLogicalBlock fs'.io lba.val =
      .ok ⟨blockAt fs'.io lba.val, length_blockAt.trans_lt fs'.io.blockSize_lt⟩ :=
    readLogicalBlock_eq_ok.mpr ⟨hlbaLt.trans_le h.device.totalBlocks_le, rfl⟩
  have hfound : ∀ {node'}, ReadFrom lba.val icb.block.partRef (blockAt fs'.io lba.val) node' → fs'.readIcb icb = .ok node' :=
    fun hnode' => bind_eq_ok.mpr ⟨lba, hlba', bind_eq_ok.mpr ⟨_, hbuffer', parseIcb_eq_ok.mpr hnode'⟩⟩
  cases hchanged : changed lba.val with
  | none =>
      have hsame := h.device.block_of_none hlbaLt hchanged
      refine ⟨node, hfound (hsame ▸ hread), ?_, .inl rfl⟩
      rw [Becomes, hat, hchanged]
  | some new =>
      have hnew := h.device.block_of_some hlbaLt hchanged
      rcases h.device.change lba.val new hlbaLt hchanged with hentry | hdescriptor
      · obtain ⟨hregular, node', hnode', hregular'⟩ := hentry.reads hread
        refine ⟨node', hfound (hnew ▸ hnode'), ?_, .inr ⟨hregular, hregular'⟩⟩
        rw [Becomes, hat, hchanged, href]
        exact hnode'
      · have hident : node.tagIdent = tagIdentPd := Option.some.inj (hread.tagIdent_eq.symm.trans hdescriptor.ident)
        have hknown := hread.known
        rw [hident] at hknown
        exact absurd hknown (by decide)

/-- A path leads to the same file entry, with what became of it. -/
theorem findParts {root node' found : Node} (hclear : DirectoriesClear granted fs root changed)
    (htree : InTree granted fs root node) (hbecomes : Becomes changed node node')
    (hkind : node' = node ∨ node.fileType = fileTypeRegular ∧ node'.fileType = fileTypeRegular)
    (hfind : fs.findParts granted parts node = .ok found) :
    ∃ found', fs'.findParts granted parts node' = .ok found' ∧ Becomes changed found found' := by
  induction parts generalizing node node' with
  | nil =>
      rw [Volume.findParts, pure_eq_ok] at hfind
      rw [← hfind]
      exact ⟨node', rfl, hbecomes⟩
  | cons part parts ih =>
      rw [Volume.findParts] at hfind
      simp only [bind_eq_ok, refuseIf_eq_ok, someOr_eq_ok] at hfind
      obtain ⟨_, hdirectory, entries, hentries, entry, hentry, child, hchild, hfind⟩ := hfind
      rw [not_not] at hdirectory
      have hsame : node' = node := by
        rcases hkind with hsame | ⟨hregular, -⟩
        · exact hsame
        · exact absurd (hdirectory.symm.trans hregular) (by decide)
      have htreeChild := htree.child hdirectory hentries (List.mem_of_find?_eq_some hentry) hchild
      obtain ⟨child', hchild', hbecomes', hkind'⟩ := h.readIcb hchild
      obtain ⟨found', hfound', hresult⟩ := ih htreeChild hbecomes' hkind' hfind
      refine ⟨found', ?_, hresult⟩
      rw [hsame, Volume.findParts]
      simp only [bind_eq_ok, refuseIf_eq_ok, someOr_eq_ok]
      exact ⟨(), not_not.mpr hdirectory, entries, h.readDirEntries (hclear node htree hdirectory) hentries, entry, hentry, child',
        hchild', hfound'⟩

end Kept

section References

theorem fidEntry_partRef {characteristics : UInt8} {name : List UInt8} {entries : List UdfDirEntry}
    (h : fidEntry characteristics name icb = .ok entries) : ∀ entry ∈ entries, entry.icb = icb := by
  rw [fidEntry] at h
  split at h
  · rw [pure_eq_ok] at h
    rw [← h]
    exact fun entry hentry => absurd hentry List.not_mem_nil
  · obtain ⟨decoded, -, h⟩ := bind_eq_ok.mp h
    rw [pure_eq_ok] at h
    rw [← h]
    intro entry hentry
    rw [List.mem_singleton.mp hentry]

theorem readLongAd_partRef (h : readLongAd data offset = .ok icb) : icb.block.partRef < 2 ^ 16 := by
  simp only [readLongAd, bind_eq_ok, readU16, someOr_eq_ok, pure_eq_ok] at h
  obtain ⟨length, -, blockNum, -, partRef, hpartRef, rfl⟩ := h
  exact readLe_lt hpartRef

theorem fidLoop_partRef {fuel : Nat} {before entries : List UdfDirEntry} (hbefore : ∀ entry ∈ before, entry.icb.block.partRef < 2 ^ 16)
    (h : fidLoop data fuel offset before = .ok entries) : ∀ entry ∈ entries, entry.icb.block.partRef < 2 ^ 16 := by
  induction fuel generalizing offset before with
  | zero =>
      rw [fidLoop, pure_eq_ok] at h
      rwa [← h]
  | succ fuel ih =>
      rw [fidLoop] at h
      split at h
      · rw [pure_eq_ok] at h
        rwa [← h]
      · simp only [bind_eq_ok] at h
        obtain ⟨_, -, _, -, _, -, _, -, icb, hicb, _, -, _, -, _, -, _, -, found, hfound, _, -, h⟩ := h
        refine ih (fun entry hentry => ?_) h
        rcases List.mem_append.mp hentry with hentry | hentry
        · exact hbefore entry hentry
        · rw [fidEntry_partRef hfound entry hentry]
          exact readLongAd_partRef hicb

theorem readIcb_partRef (h : fs.readIcb icb = .ok node) : node.partRef = icb.block.partRef := by
  simp only [Volume.readIcb, bind_eq_ok, parseIcb_eq_ok] at h
  obtain ⟨_, -, _, -, h⟩ := h
  exact h.partRef_eq

theorem InTree.partRef_lt {root : Node} (h : InTree granted fs root node) (hroot : root.partRef < 2 ^ 16) :
    node.partRef < 2 ^ 16 := by
  cases h with
  | root => exact hroot
  | child _ _ hentries hentry hchild =>
      rw [readIcb_partRef hchild]
      simp only [Volume.readDirEntries, bind_eq_ok] at hentries
      obtain ⟨_, -, _, -, hentries⟩ := hentries
      exact fidLoop_partRef (fun entry hentry => absurd hentry List.not_mem_nil) hentries _ hentry

end References

/-- A file of one recorded extent reads as the bytes there, from its first block or from the start of a block on. -/
theorem readFile_single {e : NodeExtent} (hregular : node.fileType = fileTypeRegular)
    (hicb : node.flags.land icbAdMask ≠ icbAdInIcb) (hextents : fs.nodeDataExtents node = .ok [e]) (htype : e.extentType = 0)
    (hsize : node.fileSize = e.length) (hdevice : ∀ k, k * fs.io.blockSize < e.length → e.physicalLba + k < fs.io.totalBlocks)
    (hoffset : offset < fs.io.blockSize ∨ offset % fs.io.blockSize = 0) :
    fs.readFile node offset len =
      .ok (((window fs.io.bytes (e.physicalLba * fs.io.blockSize) e.length).drop offset).take len) := by
  have hpos := fs.blockSize_pos
  have hcontents : ∀ {β : Type} (cell : Nat → β) (zero : β), contents cell zero fs.io.blockSize [e] =
      window cell (e.physicalLba * fs.io.blockSize) e.length := by
    intro β cell zero
    rw [contents_cons, if_pos htype]
    exact List.append_nil _
  have hplain : PlainRange fs [e] offset (min len (node.fileSize - offset)) := by
    refine ⟨fun a ha => ?_, fun _ => ?_, fun _ => ?_⟩
    · rw [wanted, hcontents] at ha
      obtain ⟨i, hi, rfl⟩ := mem_window.mp (List.mem_of_mem_drop (List.mem_of_mem_take ha))
      refine ⟨_, rfl, ?_⟩
      rw [Nat.add_comm, Nat.add_mul_div_right _ _ hpos, Nat.add_comm]
      exact hdevice _ ((Nat.div_mul_le_self _ _).trans_lt hi)
    · rw [withinExtent]
      split
      · exact hoffset
      · exact .inl hpos
    · next hsome =>
        have hlength := @length_wanted [e] fs.io.blockSize offset (min len (node.fileSize - offset))
        have hwanted := List.length_pos_iff.mpr hsome
        rw [totalLength_cons, totalLength, List.map_nil, List.sum_nil] at hlength
        exact fun hlt => absurd hlt (by omega)
  have hreads : fs.readFile node offset len = _ := (hplain.readsRange hregular hicb hextents).reads fs.io.bytes
  have hwhole : e.length - offset = ((window fs.io.bytes (e.physicalLba * fs.io.blockSize) e.length).drop offset).length := by
    rw [List.length_drop, length_window]
  rw [hreads, hcontents, hsize, hwhole, ← List.take_eq_take_min]

end Files

section Patches

variable {fs fs' : Volume} {io : BlockIo} {node node' : Node} {entry out : List UInt8} {p : Partition} {state state' : MountState}
  {lba partRef kind size block allocated count stop : Nat} {at' : { lba : Nat // lba < 2 ^ 33 }}

theorem ReadFrom.unique (h : ReadFrom lba partRef entry node) (h' : ReadFrom lba partRef entry node') : node' = node := by
  have hlt : entry.length < 2 ^ 32 := h.entry_eq ▸ node.entry_lt
  have hparse := (@parseIcb_eq_ok node lba partRef ⟨entry, hlt⟩).mpr h
  exact Except.ok.inj (((@parseIcb_eq_ok node' lba partRef ⟨entry, hlt⟩).mpr h').symm.trans hparse)

/-- What is read of an entry does not depend on where it lies. -/
theorem ReadFrom.relabel (h : ReadFrom lba partRef entry node) (lba' partRef' : Nat) :
    ReadFrom lba' partRef' entry { node with entryLba := lba', partRef := partRef' } :=
  ⟨h.entry_eq, rfl, rfl, h.tagIdent_eq, h.known, h.extAttr, h.offset_le, h.allocDescLen_eq, h.fileType_eq, h.flags_eq,
    h.fileSize_eq⟩

theorem ReadFrom.ident (h : ReadFrom lba partRef entry node) :
    readLe 2 entry 0 = some tagIdentFe ∨ readLe 2 entry 0 = some tagIdentEfe := by
  rw [h.tagIdent_eq, Option.some.injEq, Option.some.injEq]
  exact h.known

theorem entryChange_of_patchEntry (h : ReadFrom lba partRef entry node) (hregular : node.fileType = fileTypeRegular)
    (hkind : descriptorSize node.flags = some kind) (hsize : size < 2 ^ 30) (hblock : block < 2 ^ 32)
    (hpartRef : partRef < 2 ^ 16) (hpatch : patchEntry node kind size block allocated = .ok out) : EntryChange entry out := by
  obtain ⟨-, -, htag, node', hnode', hpatched⟩ :=
    patchEntry_spec h (h.entry_eq ▸ node.entry_lt) hkind hsize hblock hpartRef hpatch
  refine ⟨h.ident, htag, fun {lba' partRef' other} hother => ⟨?_, _, hnode'.relabel lba' partRef', ?_⟩⟩
  · exact (Option.some.inj (hother.fileType_eq.symm.trans h.fileType_eq)).trans hregular
  · exact hpatched.fileType_eq.trans hregular

theorem chunksExact_self {width : Nat} {xs : List UInt8} (hpos : 0 < width) (hlength : xs.length = width) :
    chunksExact width xs = [xs] := by
  rw [chunksExact, hlength, Nat.div_self hpos, List.range_one, List.map_singleton, Nat.zero_mul, List.drop_zero,
    List.take_of_length_le (Nat.le_of_eq hlength)]

/-- The one descriptor of a patched entry is read as the one extent of the new file. -/
theorem PatchedNode.nodeDataExtents (h : PatchedNode node node' kind size block) (hkind : kind = 8 ∨ kind = 16)
    (hpos : 0 < size) (hsize : size < 2 ^ 30) (hmap : fs.mapPartitionBlock node.partRef block = .ok at') :
    ∃ e, fs.nodeDataExtents node' = .ok [e] ∧ e.length = size ∧ e.physicalLba = at'.val ∧ e.extentType = 0 := by
  have hpush : ∀ partRefOf : List UInt8 → Except FsError Nat, partRefOf (Volume.descriptors node') = .ok node.partRef →
      ∃ e, fs.pushDescriptor partRefOf [] (Volume.descriptors node') = .ok [e] ∧ e.length = size ∧
        e.physicalLba = at'.val ∧ e.extentType = 0 := by
    intro partRefOf href
    have hmod : size % 2 ^ 30 = size := Nat.mod_eq_of_lt hsize
    rw [Volume.pushDescriptor, readU32, h.size_eq, someOr_some, ok_bind, dif_neg (by omega), readU32, h.block_eq, someOr_some,
      ok_bind, href, ok_bind, hmap, ok_bind]
    refine ⟨_, rfl, hmod, rfl, ?_⟩
    show size / 2 ^ 30 * 2 ^ 30 = 0
    rw [Nat.div_eq_of_lt hsize, Nat.zero_mul]
  have hlength := h.length_eq
  rcases hkind with rfl | rfl
  · rw [Volume.nodeDataExtents, h.flags_eq, if_pos (by decide), Volume.shortExtents,
      chunksExact_self (by decide) hlength, List.foldlM_cons]
    obtain ⟨e, he, hresult⟩ := hpush (fun _ => pure node'.partRef) (congrArg Except.ok h.partRef_eq)
    exact ⟨e, by rw [he]; rfl, hresult⟩
  · rw [Volume.nodeDataExtents, h.flags_eq, if_pos rfl, if_neg (by decide), if_pos rfl, Volume.longExtents,
      chunksExact_self (by decide) hlength, List.foldlM_cons]
    obtain ⟨e, he, hresult⟩ := hpush (fun chunk => readU16 chunk 8) (by rw [readU16, h.descriptorRef_eq rfl, someOr_some])
    exact ⟨e, by rw [he]; rfl, hresult⟩

/-- The descriptor that a partition has been read from. -/
structure Described (io : BlockIo) (p : Partition) : Prop where
  inside : p.descriptorLba < io.totalBlocks
  ident : readLe 2 (blockAt io p.descriptorLba) 0 = some tagIdentPd
  start_eq : readLe 4 (blockAt io p.descriptorLba) 188 = some p.start
  length_eq : readLe 4 (blockAt io p.descriptorLba) 192 = some p.length

theorem readDescriptors_described (hstate : ∀ p ∈ state.partitions, Described io p)
    (h : readDescriptors io count lba state = .ok state') : ∀ p ∈ state'.partitions, Described io p := by
  induction count generalizing lba state with
  | zero =>
      rw [readDescriptors, pure_eq_ok] at h
      rwa [← h]
  | succ count ih =>
      rw [readDescriptors] at h
      obtain ⟨buffer, hbuffer, h⟩ := bind_eq_ok.mp h
      obtain ⟨ident, hident, h⟩ := bind_eq_ok.mp h
      obtain ⟨hlba, hbuffer⟩ := readLogicalBlock_eq_ok.mp hbuffer
      rw [readU16, someOr_eq_ok, hbuffer] at hident
      rw [hbuffer] at h
      split at h
      · next hpd =>
          obtain ⟨next, hnext, h⟩ := bind_eq_ok.mp h
          simp only [readPartitionDescriptor, bind_eq_ok, pure_eq_ok, readBounded_eq_ok] at hnext
          obtain ⟨number, -, start, hstart, length, hlength, rfl⟩ := hnext
          refine ih (fun p hp => ?_) h
          rcases List.mem_append.mp hp with hp | hp
          · exact hstate p hp
          · rw [List.mem_singleton.mp hp]
            exact ⟨hlba, hpd ▸ hident, hstart, hlength⟩
      · split at h
        · obtain ⟨next, hnext, h⟩ := bind_eq_ok.mp h
          simp only [readLogicalVolumeDescriptor, bind_eq_ok, pure_eq_ok] at hnext
          obtain ⟨_, -, _, -, _, -, _, -, _, -, _, -, _, -, rfl⟩ := hnext
          refine ih ?_ h
          exact hstate
        · split at h
          · rw [pure_eq_ok] at h
            rwa [← h]
          · split at h
            · cases h
            · exact ih hstate h

theorem openUdf_described {fs : Mounted} (h : openUdf io = .ok fs) : ∀ p ∈ fs.partitions, Described fs.io p := by
  rw [openUdf] at h
  split at h
  · cases h
  simp only [bind_eq_ok, readVolumeDescriptorSequence, pure_eq_ok] at h
  obtain ⟨anchor, -, ⟨partitions, maps, icb⟩, ⟨state, hstate, maps', -, heq⟩, _, -, _, -, _, -, _, -, _, -, _, -, rfl⟩ := h
  cases heq
  exact readDescriptors_described (fun p hp => absurd hp List.not_mem_nil) hstate

/-- A grown descriptor says so, and its tag is right. -/
theorem growDescriptor_spec {descriptor : List UInt8} {newLength : Nat} (hident : readLe 2 descriptor 0 = some tagIdentPd)
    (hle : ∀ n, readLe 4 descriptor 192 = some n → n ≤ newLength) (hlt : newLength < 2 ^ 32)
    (h : growDescriptor descriptor newLength = .ok out) :
    out.length = descriptor.length ∧ ValidTag out ∧ readLe 4 out 192 = some newLength ∧ DescriptorChange descriptor out := by
  obtain ⟨written, hwritten, h⟩ := bind_eq_ok.mp h
  obtain ⟨hroom, rfl⟩ := writeAt_eq_ok.mp hwritten
  have hfits : 192 + (toLeBytes 4 newLength).length ≤ descriptor.length := by rwa [length_toLeBytes]
  have hrefreshed := refreshDescriptorTag_spec h
  have hkept : ∀ {width offset : Nat}, offset + width ≤ 4 ∨ 10 ≤ offset → offset + width ≤ 192 →
      readLe width out offset = readLe width descriptor offset :=
    fun hat hbefore => (hrefreshed.readLe_eq hat).trans (readLe_splice_disjoint hfits (.inl hbefore))
  have hnew : readLe 4 out 192 = some newLength :=
    (hrefreshed.readLe_eq (.inr (by decide))).trans (readLe_splice_self hroom hlt)
  exact ⟨hrefreshed.length_eq.trans (length_splice _ _ _ hfits), hrefreshed.valid, hnew, hident, hkept (by decide) (by decide),
    hkept (by decide) (by decide), hkept (by decide) (by decide), fun n hn => ⟨newLength, hnew, hle n hn⟩⟩

end Patches

end NextBoot.Fs.Udf
