import NextBoot.Vdi.Chain

namespace NextBoot.Vdi

open Words Bytes Results Virtio.Mapping Virtio.BlockIo Virtio.Translation Virtio.ReadSemantics Virtio.DeviceReads Vhdx

/-- The booted image as the first one of its chain. -/
def asImage (iso : IsoFile) (m : VdiMetadata) (blockMap : List UInt8) : VdiImage := ⟨iso.whole, m, blockMap⟩

variable {iso : IsoFile} {m : VdiMetadata} {blockMap : List UInt8} {parents : List VdiImage} {t t' : ByteMappingTable}

theorem mapVdiBlock_extends (hfiles : ∀ image ∈ asImage iso m blockMap :: parents, image.file.OnDevice)
    (hopened : Opened 0 m parents) {k : Nat} (hk : k * m.blockSize < m.virtualDiskSize)
    (h : mapVdiBlock iso m blockMap parents t k (k * m.blockSize) (min m.blockSize (m.virtualDiskSize - k * m.blockSize)) =
      .ok t') :
    Extends t t' (k * m.blockSize) (min ((k + 1) * m.blockSize) m.virtualDiskSize)
      fun v => locateEntry (asImage iso m blockMap) (locate parents v) v := by
  have hlt := m.virtualDiskSize_lt
  rw [block_end hk]
  generalize hcount : min m.blockSize (m.virtualDiskSize - k * m.blockSize) = byteCount at *
  obtain ⟨mapEntry, hentry, h⟩ := bind_eq_ok.mp h
  have hlocate (v : Nat) (hlo : k * m.blockSize ≤ v) (hhi : v < k * m.blockSize + byteCount) :
      locateEntry (asImage iso m blockMap) (locate parents v) v =
        if isAllocatedBlock mapEntry then
          iso.whole.locate (m.offsetData + mapEntry * m.blockSize + (v - k * m.blockSize))
        else if m.isDifferencing then locate parents v
        else none := by
    obtain ⟨hblock, hmod⟩ := block_offset hlo (by omega)
    simp only [locateEntry, asImage, hblock, someOr_eq_ok.mp hentry, Option.bind_some, hmod]
    rfl
  split at h
  · next hfree =>
      split at h
      · next hdifferencing =>
          have hsource : ∀ v, k * m.blockSize ≤ v → v < k * m.blockSize + byteCount →
              locate parents v = locateEntry (asImage iso m blockMap) (locate parents v) v := by
            intro v hlo hhi
            rw [hlocate v hlo hhi, if_neg hfree, if_pos hdifferencing]
          cases hopened with
          | missing => cases h
          | found _ _ linked hopened =>
              have hsize := linked.1
              refine (mapParentVdiRange_extends hopened (fun image hi => hfiles image (List.mem_cons_of_mem _ hi)) ?_
                h).congr hsource
              omega
      · next hdynamic =>
          cases h
          refine Extends.hole fun v hlo hhi => ?_
          rw [hlocate v hlo hhi, if_neg hfree, if_neg hdynamic]
  · next hallocated =>
      rw [not_not] at hallocated
      obtain ⟨_, -, h⟩ := bind_eq_ok.mp h
      obtain ⟨blockOffset, hblock, h⟩ := bind_eq_ok.mp h
      obtain ⟨_, rfl⟩ := checkedMul_eq_some.mp (someOr_eq_ok.mp hblock)
      obtain ⟨fileOffset, hoffset, h⟩ := bind_eq_ok.mp h
      obtain ⟨_, rfl⟩ := checkedAdd_eq_some.mp (someOr_eq_ok.mp hoffset)
      obtain ⟨_, hinside, h⟩ := bind_eq_ok.mp h
      have hpayload := mapVhdxPayloadBlock_of_inside (refuseIf_eq_ok.mp hinside) h
      refine (mapVhdxPayloadBlock_extends (hfiles _ List.mem_cons_self) (by omega) hpayload).congr fun v hlo hhi => ?_
      rw [hlocate v hlo hhi, if_pos hallocated]

/-- A block that the loader maps is a block that the planner classifies. -/
theorem blockSource_of_mapped {k virtualStart byteCount : Nat}
    (h : mapVdiBlock iso m blockMap parents t k virtualStart byteCount = .ok t') :
    ∃ mapEntry start, readBlockMapEntry blockMap k = some mapEntry ∧ blockSource m mapEntry = .ok start := by
  obtain ⟨mapEntry, hentry, h⟩ := bind_eq_ok.mp h
  have hsource : ∃ start, blockSource m mapEntry = .ok start := by
    unfold blockSource
    split at h
    · next hfree =>
        rw [if_neg hfree]
        split
        · exact ⟨_, rfl⟩
        · exact ⟨_, rfl⟩
    · next hallocated =>
        rw [not_not] at hallocated
        obtain ⟨_, hcount, h⟩ := bind_eq_ok.mp h
        obtain ⟨blockOffset, hblock, h⟩ := bind_eq_ok.mp h
        obtain ⟨fileOffset, hoffset, -⟩ := bind_eq_ok.mp h
        rw [if_pos hallocated, refuseIf, if_neg (refuseIf_eq_ok.mp hcount), someOr_eq_ok.mp hblock]
        simp only [someOr, bind, Except.bind]
        rw [someOr_eq_ok.mp hoffset]
        exact ⟨_, rfl⟩
  obtain ⟨start, hstart⟩ := hsource
  exact ⟨mapEntry, start, someOr_eq_ok.mp hentry, hstart⟩

theorem pushSpan_total {spans : List ImageSpan} {virtualOffset byteCount : Nat} (source : ImageSpanSource)
    (htiles : Vhdx.Tiles spans 0 virtualOffset) (hend : virtualOffset + byteCount < 2 ^ 64) :
    ∃ spans', pushSpan spans virtualOffset byteCount source = .ok spans' := by
  unfold pushSpan
  split
  · exact ⟨_, rfl⟩
  · split
    · exact ⟨_, rfl⟩
    · next last hlast =>
        have hsplit : spans = spans.dropLast ++ [last] := (List.dropLast_append_getLast? last hlast).symm
        rw [hsplit] at htiles
        obtain ⟨mid, -, rfl, hstop⟩ := tiles_append.mp htiles
        have hstop : last.virtualOffset + last.byteCount = virtualOffset := hstop
        rw [checkedAdd_eq_some.mpr ⟨by omega, rfl⟩]
        simp only [someOr, bind, Except.bind]
        split
        · rw [checkedAdd_eq_some.mpr ⟨by omega, rfl⟩]
          exact ⟨_, rfl⟩
        · exact ⟨_, rfl⟩

/-- A map that is long enough and whose entries can be classified is planned. -/
theorem planVdiSpans_total (hlength : m.blockCount * 4 ≤ blockMap.length)
    (hblocks : ∀ k, k * m.blockSize < m.virtualDiskSize →
      ∃ mapEntry start, readBlockMapEntry blockMap k = some mapEntry ∧ blockSource m mapEntry = .ok start) :
    ∃ spans, planVdiSpans m blockMap = .ok spans := by
  have hlt := m.virtualDiskSize_lt
  have hcount := m.blockCount_lt
  rw [planVdiSpans, blockMapBytes, checkedMul_eq_some.mpr ⟨by omega, rfl⟩]
  simp only [someOr, bind, Except.bind, refuseIf, if_neg (Nat.not_lt.mpr hlength)]
  refine forBlocks_total (P := fun stop spans => Vhdx.Tiles spans 0 stop) (fun k spans hk htiles => ?_) (by simp [Vhdx.Tiles])
  obtain ⟨mapEntry, start, hentry, hstart⟩ := hblocks k hk
  obtain ⟨spans', hpush⟩ := @pushSpan_total spans (k * m.blockSize)
    (min m.blockSize (m.virtualDiskSize - k * m.blockSize)) start htiles (by omega)
  refine ⟨spans', ?_, ?_⟩
  · simp only [planBlock, hentry, hstart, someOr, bind, Except.bind]
    exact hpush
  · rw [block_end hk]
    exact (@pushSpan_spec (fun _ _ => True) _ _ _ _ _ hpush htiles (fun _ _ _ _ _ => trivial) fun _ _ _ => trivial).1

theorem readVdiBlockMap_length {fileVbio : VirtualBlockIo} {fileSize : Nat}
    (h : readVdiBlockMap fileVbio m fileSize = .ok blockMap) : m.blockCount * 4 ≤ blockMap.length := by
  obtain ⟨mapBytes, hbytes, h⟩ := bind_eq_ok.mp h
  obtain ⟨_, rfl⟩ := checkedMul_eq_some.mp (someOr_eq_ok.mp hbytes)
  obtain ⟨_, -, h⟩ := bind_eq_ok.mp h
  exact (readFileBytes_length h).ge

/-- What a finished loop has mapped is what the plan of the whole chain says, and there is such a plan. -/
theorem mapVdiBlocks_extends (hfiles : ∀ image ∈ asImage iso m blockMap :: parents, image.file.OnDevice)
    (hopened : Opened 0 m parents) (hlength : m.blockCount * 4 ≤ blockMap.length)
    (h : forBlocks m .loadError (mapVdiBlock iso m blockMap parents) 0 .empty = .ok t) :
    ∃ spans, planVdiSpans m blockMap = .ok spans ∧
      Extends .empty t 0 m.virtualDiskSize (locate (asImage iso m blockMap :: parents)) := by
  have hblocks := forBlocks_ok (P := fun stop _ => ∀ k, k * m.blockSize < stop →
    ∃ mapEntry start, readBlockMapEntry blockMap k = some mapEntry ∧ blockSource m mapEntry = .ok start)
    (fun k t t' _ hP hstep j hj => ?_) (fun k hk => absurd hk (by simp)) h
  · obtain ⟨spans, hspans⟩ := planVdiSpans_total hlength hblocks
    refine ⟨spans, hspans, ?_⟩
    have hloop := forBlocks_ok (P := fun stop t => Extends .empty t 0 stop
      fun v => locateEntry (asImage iso m blockMap) (locate parents v) v)
      (fun k t t' hk hP hstep => hP.trans (mapVdiBlock_extends hfiles hopened hk hstep) (Nat.zero_le _) ?_)
      (Extends.hole fun v _ hv => by simp at hv) h
    · exact hloop.congr fun v _ hv => (@locate_eq_entry (asImage iso m blockMap) parents spans hspans v hv).symm
    · rw [Nat.succ_mul]
      omega
  · by_cases hbefore : j * m.blockSize < k * m.blockSize
    · exact hP j hbefore
    · have hlast : j < k + 1 := Nat.lt_of_mul_lt_mul_right (Nat.lt_of_lt_of_le hj (Nat.min_le_left _ _))
      have hle : k ≤ j := Nat.le_of_mul_le_mul_right (Nat.not_lt.mp hbefore) m.blockSize_pos
      obtain rfl : j = k := by omega
      exact blockSource_of_mapped hstep

/-- The device serves every byte as the plans of the chain say: an allocated block from its place in the file, and a block
that is not allocated from the parents of a differencing image, or as zeros. -/
theorem vdi_chain_reads (disk : Nat → UInt8) (reader : PhysicalReader) (iso : IsoFile)
    (openParents : VdiMetadata → Except Failure (List VdiImage)) (io : VirtualBlockIo) (hfile : iso.whole.OnDevice)
    (hr : Reads disk iso.blockSize reader)
    (hopen : ∀ m parents, openParents m = .ok parents → Opened 0 m parents ∧ ∀ image ∈ parents, image.file.OnDevice)
    (hbuild : buildVdiBlockIo iso reader openParents = .ok io) :
    ∃ fileVbio m parents blockMap, buildImageFileBlockIo iso reader = .ok fileVbio ∧ readVdiMetadata fileVbio = .ok m ∧
      openParents m = .ok parents ∧ readVdiBlockMap fileVbio m iso.size = .ok blockMap ∧
      (∃ spans, planVdiSpans m blockMap = .ok spans) ∧
      (∀ off buf, off + buf.length ≤ m.virtualDiskSize →
        (io.setPhysicalReader reader).readBytes io.mediaId off buf =
          .ok ((List.range buf.length).map fun i => chainByte disk (asImage iso m blockMap :: parents) (off + i))) ∧
      (∀ depth parent higher t t' start count, Opened depth parent.metadata higher →
        (∀ image ∈ parent :: higher, image.file.OnDevice) → start + count ≤ parent.metadata.virtualDiskSize →
        mapParentVdiRange parent higher t start count = .ok t' →
        Extends t t' start (start + count) (locate (parent :: higher))) ∧
      ∀ image higher spans v, planVdiSpans image.metadata image.blockMap = .ok spans → v < image.metadata.virtualDiskSize →
        locate (image :: higher) v = locateEntry image (locate higher v) v := by
  obtain ⟨fileVbio, hvbio, h⟩ := bind_eq_ok.mp hbuild
  obtain ⟨m, hm, h⟩ := bind_eq_ok.mp h
  obtain ⟨parents, hparents, h⟩ := bind_eq_ok.mp h
  obtain ⟨blockMap, hmap, h⟩ := bind_eq_ok.mp h
  obtain ⟨byteMapping, hloop, h⟩ := bind_eq_ok.mp h
  cases h
  obtain ⟨hopened, honDevice⟩ := hopen m parents hparents
  have hfiles : ∀ image ∈ asImage iso m blockMap :: parents, image.file.OnDevice := by
    intro image hi
    rcases List.mem_cons.mp hi with rfl | hi
    · exact hfile
    · exact honDevice image hi
  obtain ⟨spans, hspans, hextends⟩ := mapVdiBlocks_extends hfiles hopened (readVdiBlockMap_length hmap) hloop
  obtain ⟨htotal, hfits, hmaps⟩ := hextends.finished
  refine ⟨fileVbio, m, parents, blockMap, hvbio, hm, hparents, hmap, ⟨spans, hspans⟩, fun off buf hin => ?_,
    fun depth parent higher t t' start count hopened hfiles hend h => mapParentVdiRange_extends hopened hfiles hend h,
    fun image higher spans v hplan hv => locate_eq_entry hplan hv⟩
  exact readBytes_located rfl htotal hfits hmaps hfile.blockSize_pos hr hin

def sampleHeader : List UInt8 :=
  patch (List.replicate 512 0) [(0x40, toLeBytes 4 vdiSignature), (0x44, toLeBytes 4 vdiVersion), (0x48, toLeBytes 4 400),
    (0x4c, toLeBytes 4 4), (0x154, toLeBytes 4 512), (0x158, toLeBytes 4 1024), (0x168, toLeBytes 4 512),
    (0x170, toLeBytes 8 1200), (0x178, toLeBytes 4 512), (0x180, toLeBytes 4 4), (0x184, toLeBytes 4 2)]

/-- The file of a differencing image in the first blocks, whose map holds `entry` for every block, and that of its parent from
4096 on. -/
def sampleDisk (entry p : Nat) : UInt8 :=
  if p < 512 then sampleHeader.getD p 0
  else if p < 1024 then (sampleBlockMap entry entry entry).getD (p - 512) 0
  else if p < 4096 then 3
  else 7

def sampleFile (lba : Nat) : SourceFile := ⟨2048, 512, [(0, lba, 4)], by decide, Words.sector_lt_u32⟩

def sampleIso : IsoFile := ⟨sampleFile 0, 0⟩

/-- A parent whose first block is allocated, the others are not. -/
def sampleParent : VdiImage := ⟨sampleFile 8, Vdi.sampleMetadata .dynamic, sampleBlockMap 0 0xffffffff 0xffffffff⟩

/-- Only a differencing image has its parent opened, if the two are linked. -/
def openSampleParent (m : VdiMetadata) : Except Failure (List VdiImage) :=
  if m.isDifferencing ∧ m.virtualDiskSize = 1200 ∧ m.blockSize = 512 ∧ m.sectorSize = 512 ∧
      m.linkageUuid = List.replicate 16 0 ∧ m.parentModifyUuid = List.replicate 16 0 then .ok [sampleParent]
  else .ok []

theorem sampleFile_onDevice {lba : Nat} (h : lba ≤ 2 ^ 20) : (sampleFile lba).OnDevice := by
  refine ⟨show 0 < 512 by decide, List.pairwise_singleton _ _, fun e he => ?_⟩
  rw [List.mem_singleton.mp he]
  refine ⟨show (0 + 4) * 512 < 2 ^ 64 by decide, ?_⟩
  change (lba + 4) * 512 < 2 ^ 64
  omega

theorem openSampleParent_opened {m : VdiMetadata} {parents : List VdiImage} (h : openSampleParent m = .ok parents) :
    Opened 0 m parents ∧ ∀ image ∈ parents, image.file.OnDevice := by
  unfold openSampleParent at h
  split at h
  · next hlinked =>
      cases h
      obtain ⟨hdifferencing, hsize, hblock, hsector, hlinkage, hmodify⟩ := hlinked
      refine ⟨.found hdifferencing (by decide) ⟨hsize, hblock, hsector, hlinkage, hmodify⟩ (.missing _ _), fun image hi => ?_⟩
      rw [List.mem_singleton.mp hi]
      exact sampleFile_onDevice (by decide)
  · cases h
    exact ⟨.missing _ _, fun image hi => absurd hi List.not_mem_nil⟩

theorem openedParent_reads : ∃ io m, buildVdiBlockIo sampleIso (diskReader (sampleDisk 0xffffffff)) openSampleParent = .ok io ∧
    ∃ parents blockMap, openSampleParent m = .ok parents ∧ ∀ off buf, off + buf.length ≤ m.virtualDiskSize →
      (io.setPhysicalReader (diskReader (sampleDisk 0xffffffff))).readBytes io.mediaId off buf =
        .ok ((List.range buf.length).map fun i =>
          chainByte (sampleDisk 0xffffffff) (asImage sampleIso m blockMap :: parents) (off + i)) := by
  have hok : (buildVdiBlockIo sampleIso (diskReader (sampleDisk 0xffffffff)) openSampleParent).isOk = true := by
    decide +kernel
  cases hbuild : buildVdiBlockIo sampleIso (diskReader (sampleDisk 0xffffffff)) openSampleParent with
  | error e =>
      rw [hbuild] at hok
      cases hok
  | ok io =>
      obtain ⟨_, m, parents, blockMap, _, _, hparents, _, _, hreads, _⟩ := vdi_chain_reads (sampleDisk 0xffffffff)
        (diskReader (sampleDisk 0xffffffff)) sampleIso openSampleParent io (sampleFile_onDevice (by decide))
        (diskReader_reads _ _) (fun _ _ h => openSampleParent_opened h) hbuild
      exact ⟨io, m, rfl, parents, blockMap, hparents, hreads⟩

/-- The first byte that a device built over the sample serves. -/
def firstByte (entry : Nat) : Option UInt8 :=
  match buildVdiBlockIo sampleIso (diskReader (sampleDisk entry)) openSampleParent with
  | .error _ => none
  | .ok io =>
      match (io.setPhysicalReader (diskReader (sampleDisk entry))).readBytes io.mediaId 0 [0] with
      | .error _ => none
      | .ok out => out.head?

/-- A block marked as zero in a differencing image does not read as zeros: the byte of the parent is served. -/
theorem zero_block_reads_parent : isAllocatedBlock vdiDiscarded = false ∧ vdiDiscarded ≠ 0xffffffff ∧
    firstByte vdiDiscarded = some 7 := by
  refine ⟨rfl, by decide, ?_⟩
  decide +kernel

end NextBoot.Vdi
