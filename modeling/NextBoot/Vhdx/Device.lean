import NextBoot.Vhdx.Chain

namespace NextBoot.Vhdx

open Words Bytes Results Virtio.Mapping Virtio.BlockIo Virtio.Translation Virtio.ReadSemantics Virtio.DeviceReads

variable {t t' : ByteMappingTable}

/-- The image file with the extents it is read through. -/
def IsoFile.whole (iso : IsoFile) : SourceFile := { iso.toSourceFile with extents := iso.allExtents }

theorem mapVhdxPayloadBlock_extends {iso : IsoFile} (hfile : iso.whole.OnDevice)
    {virtualStart fileOffset byteCount : Nat} (hv : virtualStart + byteCount < 2 ^ 64)
    (h : mapVhdxPayloadBlock iso t virtualStart fileOffset byteCount = .ok t') :
    Extends t t' virtualStart (virtualStart + byteCount) fun v => iso.whole.locate (fileOffset + (v - virtualStart)) := by
  unfold mapVhdxPayloadBlock at h
  split at h
  · cases h
  · next stop hstop =>
      obtain ⟨_, rfl⟩ := checkedAdd_eq_some.mp hstop
      split at h
      · cases h
      · next hinside =>
          obtain ⟨_, _, h⟩ := bind_eq_ok.mp h
          have hpos : 0 < iso.blockSize := hfile.blockSize_pos
          split at h
          · next hempty =>
              have hall : iso.whole.extents = [(0, iso.startLba, (iso.size + (iso.blockSize - 1)) / iso.blockSize)] :=
                if_pos hempty
              obtain ⟨physicalStart, hphysical, h⟩ := bind_eq_ok.mp h
              obtain ⟨first, hfirst, hphysical⟩ := Option.bind_eq_some_iff.mp (someOr_eq_ok.mp hphysical)
              obtain ⟨_, rfl⟩ := checkedMul_eq_some.mp hfirst
              obtain ⟨_, rfl⟩ := checkedAdd_eq_some.mp hphysical
              cases h
              have hblocks : iso.size ≤ (iso.size + (iso.blockSize - 1)) / iso.blockSize * iso.blockSize := by
                have := Nat.lt_div_mul_add (a := iso.size + (iso.blockSize - 1)) hpos
                omega
              have hfits := (hfile.fits (0, iso.startLba, (iso.size + (iso.blockSize - 1)) / iso.blockSize)
                (by rw [hall]; exact List.mem_singleton_self _)).2
              change (iso.startLba + (iso.size + (iso.blockSize - 1)) / iso.blockSize) * iso.blockSize < 2 ^ 64 at hfits
              rw [Nat.add_mul] at hfits
              refine (addSegment_extends t hv (by omega)).congr fun v hlo hhi => ?_
              refine ((assigned_eq_some hpos hfile.disjoint).mpr ⟨_, by rw [hall]; exact List.mem_singleton_self _,
                ?_, ?_, ?_⟩).symm
              · simp
              · simp only [Nat.zero_add]
                omega
              · simp only [Nat.zero_mul]
                omega
          · next hext =>
              have hall : iso.extents = iso.whole.extents := (if_neg hext).symm
              obtain ⟨fileEnd, hend, h⟩ := bind_eq_ok.mp h
              obtain ⟨_, rfl⟩ := checkedAdd_eq_some.mp (someOr_eq_ok.mp hend)
              rw [hall] at h
              have hrange := mapFileRange_extends hpos hfile.disjoint hfile.fits le_rfl (by omega) (by omega) h
              rwa [Nat.sub_self, Nat.add_zero, Nat.add_sub_cancel_left] at hrange

/-- The other formats write the check on the end of the file in their own way. -/
theorem mapVhdxPayloadBlock_of_inside {iso : IsoFile} {virtualStart fileOffset byteCount : Nat}
    (hinside : ¬ (checkedAdd 64 fileOffset byteCount).all fun stop => stop > iso.size)
    (h : mapImageFileRangeToPhysical iso t virtualStart fileOffset byteCount = .ok t') :
    mapVhdxPayloadBlock iso t virtualStart fileOffset byteCount = .ok t' := by
  unfold mapVhdxPayloadBlock
  cases hstop : checkedAdd 64 fileOffset byteCount with
  | none =>
      rw [hstop] at hinside
      exact absurd rfl hinside
  | some stop =>
      rw [hstop] at hinside
      have hle : ¬ stop > iso.size := by simpa using hinside
      simp only [hle, if_false]
      exact h

variable {disk : Nat → UInt8} {reader : PhysicalReader}

theorem built_imageFileBlockIo {iso : IsoFile} (hfile : iso.whole.OnDevice) {vbio : VirtualBlockIo}
    (h : buildImageFileBlockIo iso reader = .ok vbio) :
    Built ⟨iso.size, 512, iso.blockSize, iso.size_lt, by decide, iso.blockSize_lt⟩ iso.whole.extents reader [] vbio := by
  unfold buildImageFileBlockIo at h
  split at h
  · next hempty =>
      obtain ⟨blockCount, hcount, h⟩ := bind_eq_ok.mp h
      obtain ⟨_, _, rfl⟩ := divRoundUp_eq_some.mp (someOr_eq_ok.mp hcount)
      cases h
      have hall : [(0, iso.startLba, (iso.size + (iso.blockSize - 1)) / iso.blockSize)] = iso.whole.extents :=
        (if_pos hempty).symm
      rw [hall]
      exact built_fromFileExtents _ _ reader hfile.blockSize_pos hfile.fits
  · next hext =>
      cases h
      have hall : iso.extents = iso.whole.extents := (if_neg hext).symm
      rw [hall]
      exact built_fromFileExtents _ _ reader hfile.blockSize_pos hfile.fits

/-- What is read from the image file are its bytes on the disk. -/
theorem readFileBytes_eq {iso : IsoFile} (hfile : iso.whole.OnDevice) (hr : Reads disk iso.blockSize reader)
    {vbio : VirtualBlockIo} (hbuild : buildImageFileBlockIo iso reader = .ok vbio) {offset len : Nat} {bytes : List UInt8}
    (hlen : 0 < len) (hin : offset + len ≤ iso.size) (h : readFileBytes vbio offset len = .ok bytes) :
    bytes = (List.range len).map fun i => ((iso.whole.locate (offset + i)).map disk).getD 0 := by
  have hbuilt := built_imageFileBlockIo hfile hbuild
  unfold readFileBytes at h
  split at h
  · next buf hbuf =>
      cases h
      have hne : List.replicate len (0 : UInt8) ≠ [] := by simpa using Nat.ne_of_gt hlen
      obtain ⟨_, hbytes⟩ := (readBytes_iff hbuilt hfile.blockSize_pos hfile.disjoint hfile.fits hr offset _ bytes hne).mp hbuf
      rw [List.length_replicate] at hbytes
      rw [hbytes]
      refine List.map_congr_left fun i hi => ?_
      have hi' := List.mem_range.mp hi
      rw [virtualByte, lastOverlayByte, Option.getD_none, fileByte, if_pos (by simp only; omega)]
      rfl
  · cases h
  · cases h

theorem readFileBytes_length {vbio : VirtualBlockIo} {offset len : Nat} {bytes : List UInt8}
    (h : readFileBytes vbio offset len = .ok bytes) : bytes.length = len := by
  unfold readFileBytes at h
  split at h
  · next buf hread =>
      cases h
      rw [readBytes_length hread, List.length_replicate]
  · cases h
  · cases h

theorem chunkRatio_spec {m : VhdxMetadata} {ratio : Nat} (h : m.chunkRatio = some ratio) :
    m.blockSize * ratio = 2 ^ 23 * m.logicalSectorSize ∧ 0 < ratio := by
  obtain ⟨chunkBytes, hchunk, h⟩ := Option.bind_eq_some_iff.mp h
  obtain ⟨_, rfl⟩ := checkedMul_eq_some.mp hchunk
  split at h
  · cases h
  · next hdvd =>
      split at h
      · cases h
      · next hne =>
          cases h
          exact ⟨Nat.mul_div_cancel' (Nat.dvd_of_mod_eq_zero (by omega)), Nat.pos_of_ne_zero hne⟩

theorem logicalSectorSize_dvd (m : VhdxMetadata) : m.logicalSectorSize ∣ m.blockSize := by
  obtain ⟨exponent, hpow⟩ := m.blockSize_pow
  have hlarge := m.blockSize_range.1
  rw [hpow] at hlarge ⊢
  have hexp : 20 ≤ exponent := (Nat.pow_le_pow_iff_right (by decide)).mp hlarge
  rcases m.logicalSectorSize_cases with h | h <;> rw [h]
  · exact Nat.pow_dvd_pow 2 (show 9 ≤ exponent by omega)
  · exact Nat.pow_dvd_pow 2 (show 12 ≤ exponent by omega)

theorem logicalSectorSize_pos (m : VhdxMetadata) : 0 < m.logicalSectorSize := by
  rcases m.logicalSectorSize_cases with h | h <;> rw [h] <;> decide

/-- The number of a sector in its chunk, counted from the payload block that holds it. -/
theorem sector_in_chunk {m : VhdxMetadata} {ratio : Nat} (h : m.chunkRatio = some ratio) {v k : Nat}
    (hk : v / m.blockSize = k) :
    k % ratio * (m.blockSize / m.logicalSectorSize) + (v - k * m.blockSize) / m.logicalSectorSize =
      v / m.logicalSectorSize % 2 ^ 23 := by
  obtain ⟨hchunk, hratio⟩ := chunkRatio_spec h
  have hls := logicalSectorSize_pos m
  obtain ⟨perBlock, hper⟩ := logicalSectorSize_dvd m
  have hpos : 0 < perBlock := by
    have := m.blockSize_range.1
    rcases Nat.eq_zero_or_pos perBlock with h0 | h0
    · rw [h0, Nat.mul_zero] at hper
      omega
    · exact h0
  have hbits : perBlock * ratio = 2 ^ 23 := by
    rw [hper, Nat.mul_assoc, Nat.mul_comm (2 ^ 23)] at hchunk
    exact Nat.eq_of_mul_eq_mul_left hls hchunk
  have hv := Nat.div_add_mod v m.blockSize
  have hlt := Nat.mod_lt v (show 0 < m.blockSize by have := m.blockSize_range.1; omega)
  rw [hk] at hv
  have hrest : v - k * m.blockSize = v % m.blockSize := by
    rw [Nat.mul_comm]
    omega
  have hsplit : v / m.logicalSectorSize = perBlock * k + v % m.blockSize / m.logicalSectorSize := by
    conv_lhs => rw [← hv]
    rw [hper, Nat.mul_assoc, Nat.mul_add_div hls]
  have hinner : v % m.blockSize / m.logicalSectorSize < perBlock := by
    rw [Nat.div_lt_iff_lt_mul hls, Nat.mul_comm, ← hper]
    exact hlt
  have hmod := Nat.div_add_mod k ratio
  have hk' : k % ratio < ratio := Nat.mod_lt k hratio
  have hdiv : m.blockSize / m.logicalSectorSize = perBlock := by rw [hper, Nat.mul_div_cancel_left _ hls]
  have hwhole : perBlock * k = perBlock * ratio * (k / ratio) + perBlock * (k % ratio) := by
    conv_lhs => rw [← hmod]
    rw [Nat.mul_add, Nat.mul_assoc]
  have hsmall : perBlock * (k % ratio) + v % m.blockSize / m.logicalSectorSize < perBlock * ratio :=
    calc perBlock * (k % ratio) + v % m.blockSize / m.logicalSectorSize
        < perBlock * (k % ratio) + perBlock := by omega
      _ = perBlock * (k % ratio + 1) := by rw [Nat.mul_add, Nat.mul_one]
      _ ≤ perBlock * ratio := Nat.mul_le_mul_left _ hk'
  rw [hrest, hsplit, hdiv, ← hbits, hwhole, Nat.add_assoc, Nat.mul_add_mod, Nat.mod_eq_of_lt hsmall, Nat.mul_comm]

theorem runEnd_spec (bitmap : List UInt8) (firstSector : Nat) (present : Bool) (sectorCount sectorIndex : Nat) :
    runEnd bitmap firstSector present sectorCount sectorIndex ≤ max sectorCount sectorIndex ∧
      ∀ j, sectorIndex ≤ j → j < runEnd bitmap firstSector present sectorCount sectorIndex →
        bitmapBitPresent bitmap (firstSector + j) = present := by
  fun_induction runEnd bitmap firstSector present sectorCount sectorIndex with
  | case1 sectorIndex h ih =>
      refine ⟨by omega, fun j hj hj' => ?_⟩
      rcases Nat.eq_or_lt_of_le hj with rfl | hlt
      · exact h.2
      · exact ih.2 j hlt hj'
  | case2 sectorIndex h => exact ⟨by omega, fun j hj hj' => by omega⟩

/-- Where a byte of a partially present block of the child is: its sector is present, or the parents have it. -/
def locateSector (iso : IsoFile) (parents : List VhdxImage) (bitmap : List UInt8)
    (logicalSector firstSector virtualStart fileOffset v : Nat) : Option Nat :=
  if bitmapBitPresent bitmap (firstSector + (v - virtualStart) / logicalSector) then
    iso.whole.locate (fileOffset + (v - virtualStart))
  else locateInParents parents v

/-- The parents of the image that is booted serve every part of its virtual disk. -/
theorem mapParents_extends {top parent : VhdxImage} {higher : List VhdxImage} (hopened : Opened 0 top (parent :: higher))
    (hfiles : OnDevice (parent :: higher)) {virtualStart byteCount : Nat}
    (hend : virtualStart + byteCount ≤ top.metadata.virtualDiskSize)
    (h : mapParentVhdxRange parent higher t virtualStart byteCount = .ok t') :
    Extends t t' virtualStart (virtualStart + byteCount) (locateInParents (parent :: higher)) := by
  cases hopened with
  | found _ _ hsize _ hopened => exact mapParentVhdxRange_extends hopened hfiles (hend.trans_eq hsize.symm) h

theorem mapSectorRun_extends {iso : IsoFile} (hfile : iso.whole.OnDevice) {top : VhdxImage} {parents : List VhdxImage}
    (hopened : Opened 0 top parents) (hfiles : OnDevice parents) {present : Bool}
    {virtualStart fileOffset runByteStart runByteCount : Nat}
    (hend : virtualStart + runByteStart + runByteCount ≤ top.metadata.virtualDiskSize)
    (h : mapSectorRun iso parents present fileOffset runByteStart (virtualStart + runByteStart) runByteCount t = .ok t') :
    Extends t t' (virtualStart + runByteStart) (virtualStart + runByteStart + runByteCount)
      fun v => if present then iso.whole.locate (fileOffset + (v - virtualStart)) else locateInParents parents v := by
  have hlt := top.metadata.virtualDiskSize_lt
  unfold mapSectorRun at h
  split at h
  · next hpresent =>
      obtain ⟨runFileOffset, hoffset, h⟩ := bind_eq_ok.mp h
      obtain ⟨_, rfl⟩ := checkedAdd_eq_some.mp (someOr_eq_ok.mp hoffset)
      refine (mapVhdxPayloadBlock_extends hfile (by omega) h).congr fun v hlo hhi => ?_
      rw [if_pos hpresent]
      congr 1
      omega
  · next hpresent =>
      split at h
      · refine (mapParents_extends hopened hfiles hend h).congr fun v _ _ => ?_
        rw [if_neg hpresent]
      · cases h

theorem mapSectorRuns_extends {iso : IsoFile} (hfile : iso.whole.OnDevice) {top : VhdxImage} {parents : List VhdxImage}
    (hopened : Opened 0 top parents) (hfiles : OnDevice parents) {bitmap : List UInt8}
    {logicalSector firstSector sectorCount virtualStart fileOffset byteCount sectorIndex : Nat} (hls : 0 < logicalSector)
    (hend : virtualStart + byteCount ≤ top.metadata.virtualDiskSize) (hcount : byteCount ≤ sectorCount * logicalSector)
    (h : mapSectorRuns iso parents bitmap logicalSector firstSector sectorCount virtualStart fileOffset byteCount sectorIndex
      t = .ok t') :
    Extends t t' (virtualStart + min (sectorIndex * logicalSector) byteCount) (virtualStart + byteCount)
      (locateSector iso parents bitmap logicalSector firstSector virtualStart fileOffset) := by
  induction hn : sectorCount - sectorIndex using Nat.strong_induction_on generalizing sectorIndex t with
  | _ n ih =>
      rw [mapSectorRuns] at h
      split at h
      · next hsector =>
          dsimp only at h
          obtain ⟨hnext, hrun⟩ := runEnd_spec bitmap firstSector (bitmapBitPresent bitmap (firstSector + sectorIndex))
            sectorCount (sectorIndex + 1)
          have hle := le_runEnd bitmap firstSector (bitmapBitPresent bitmap (firstSector + sectorIndex)) sectorCount
            (sectorIndex + 1)
          generalize runEnd bitmap firstSector (bitmapBitPresent bitmap (firstSector + sectorIndex)) sectorCount
            (sectorIndex + 1) = next at *
          obtain ⟨runByteStart, hstart, h⟩ := bind_eq_ok.mp h
          obtain ⟨_, rfl⟩ := checkedMul_eq_some.mp (someOr_eq_ok.mp hstart)
          obtain ⟨runStop, hstop, h⟩ := bind_eq_ok.mp h
          obtain ⟨_, rfl⟩ := checkedMul_eq_some.mp (someOr_eq_ok.mp hstop)
          have hmul : sectorIndex * logicalSector ≤ next * logicalSector := Nat.mul_le_mul_right _ (by omega)
          have hrest (t₁ : ByteMappingTable) := @ih (sectorCount - next) (by omega) t₁ next
          by_cases hge : sectorIndex * logicalSector ≥ min (next * logicalSector) byteCount
          · rw [if_pos hge] at h
            have hrest := hrest t h rfl
            have hsame : min (next * logicalSector) byteCount = min (sectorIndex * logicalSector) byteCount := by omega
            rwa [hsame] at hrest
          · rw [if_neg hge] at h
            obtain ⟨runVirtualStart, hvirtual, h⟩ := bind_eq_ok.mp h
            obtain ⟨_, rfl⟩ := checkedAdd_eq_some.mp (someOr_eq_ok.mp hvirtual)
            obtain ⟨t₁, hmap, h⟩ := bind_eq_ok.mp h
            have hmapped := mapSectorRun_extends hfile hopened hfiles (by omega) hmap
            have hrunEnd : virtualStart + sectorIndex * logicalSector +
                (min (next * logicalSector) byteCount - sectorIndex * logicalSector) =
                  virtualStart + min (next * logicalSector) byteCount := by omega
            have hrunStart : min (sectorIndex * logicalSector) byteCount = sectorIndex * logicalSector := by omega
            rw [hrunEnd] at hmapped
            rw [hrunStart]
            refine Extends.trans (hmapped.congr fun v hlo hhi => ?_) (hrest t₁ h rfl) (by omega) (by omega)
            -- All bits of the run agree with its first one.
            have hbit : bitmapBitPresent bitmap (firstSector + (v - virtualStart) / logicalSector) =
                bitmapBitPresent bitmap (firstSector + sectorIndex) := by
              have hlow : sectorIndex ≤ (v - virtualStart) / logicalSector := (Nat.le_div_iff_mul_le hls).mpr (by omega)
              have hhigh : (v - virtualStart) / logicalSector < next := (Nat.div_lt_iff_lt_mul hls).mpr (by omega)
              rcases Nat.eq_or_lt_of_le hlow with heq | hlt
              · rw [← heq]
              · exact hrun _ hlt hhigh
            rw [locateSector, hbit]
      · next hge =>
          cases h
          have hmul : sectorCount * logicalSector ≤ sectorIndex * logicalSector := Nat.mul_le_mul_right _ (by omega)
          refine Extends.hole fun v hv hv' => ?_
          omega

/-- The booted image as the first one of its chain. -/
def IsoFile.asImage (iso : IsoFile) (m : VhdxMetadata) (bat : List UInt8) : VhdxImage := ⟨iso.whole, m, bat⟩

/-- Where the loader finds a byte of the booted image. -/
def locateMapped (disk : Nat → UInt8) (top : VhdxImage) (parents : List VhdxImage) (v : Nat) : Option Nat :=
  searchImage BatState.defersToParent (top.sectorPresent disk v) top v (locateInParents parents v)

theorem testBit_getD (o : Option UInt8) (i : Nat) : (o.getD 0).toNat.testBit i = o.any fun byte => byte.toNat.testBit i := by
  cases o with
  | none => simp
  | some byte => rfl

/-- The bit the loader reads for a sector is the bit of that sector in the chunk. -/
theorem bitmapBitPresent_eq (disk : Nat → UInt8) (iso : IsoFile) {m : VhdxMetadata} {bat : List UInt8} {ratio v k : Nat}
    (hratio : m.chunkRatio = some ratio) (hk : v / m.blockSize = k) {entry : VhdxBatEntry}
    (hentry : (sectorBitmapBatIndex k ratio).bind (batEntryAt bat) = some entry) (hstate : entry.state = .fullyPresent) :
    bitmapBitPresent ((List.range vhdxMib).map fun i => ((iso.whole.locate (entry.fileOffset + i)).map disk).getD 0)
        (k % ratio * (m.blockSize / m.logicalSectorSize) + (v - k * m.blockSize) / m.logicalSectorSize) =
      (iso.asImage m bat).sectorPresent disk v := by
  have hlt : v / m.logicalSectorSize % 2 ^ 23 < 2 ^ 23 := Nat.mod_lt _ (by decide)
  rw [sector_in_chunk hratio hk]
  simp only [VhdxImage.sectorPresent, IsoFile.asImage, hratio, Option.bind_some, hk, hentry, Option.any_some, hstate,
    true_and, Bool.decide_eq_true]
  generalize v / m.logicalSectorSize % 2 ^ 23 = sector at hlt
  have hin : sector / 8 < vhdxMib := by
    unfold vhdxMib
    omega
  rw [bitmapBitPresent, List.getElem?_map, List.getElem?_range hin, Option.map_some, Option.any_some, testBit_getD]

theorem mapVhdxPartialPayloadBlock_extends {iso : IsoFile} {m : VhdxMetadata} {bat : List UInt8} {parents : List VhdxImage}
    (hfiles : OnDevice (iso.asImage m bat :: parents)) (hopened : Opened 0 (iso.asImage m bat) parents)
    (hr : Reads disk iso.blockSize reader) {fileVbio : VirtualBlockIo}
    (hvbio : buildImageFileBlockIo iso reader = .ok fileVbio) {ratio k byteCount : Nat} (hratio : m.chunkRatio = some ratio)
    (hbytes : byteCount = min m.blockSize (m.virtualDiskSize - k * m.blockSize)) (hstart : k * m.blockSize ≤ m.virtualDiskSize)
    {entry : VhdxBatEntry} (hentry : payloadEntry m bat k = some entry) (hstate : entry.state = .partiallyPresent)
    (h : mapVhdxPartialPayloadBlock iso fileVbio m bat parents ratio k (k * m.blockSize) entry.fileOffset byteCount t =
      .ok t') :
    Extends t t' (k * m.blockSize) (k * m.blockSize + byteCount) (locateMapped disk (iso.asImage m bat) parents) := by
  have hfile : iso.whole.OnDevice := hfiles _ List.mem_cons_self
  obtain ⟨bitmapEntry, hbitmapEntry, h⟩ := bind_eq_ok.mp h
  obtain ⟨_, hpresent, h⟩ := bind_eq_ok.mp h
  obtain ⟨bitmapEnd, hbitmapEnd, h⟩ := bind_eq_ok.mp h
  obtain ⟨_, hinside, h⟩ := bind_eq_ok.mp h
  obtain ⟨bitmap, hbitmap, h⟩ := bind_eq_ok.mp h
  obtain ⟨firstSector, hfirst, h⟩ := bind_eq_ok.mp h
  obtain ⟨sectorCount, hcount, h⟩ := bind_eq_ok.mp h
  obtain ⟨_, rfl⟩ := checkedAdd_eq_some.mp (someOr_eq_ok.mp hbitmapEnd)
  obtain ⟨_, rfl⟩ := checkedMul_eq_some.mp (someOr_eq_ok.mp hfirst)
  obtain ⟨_, _, rfl⟩ := divRoundUp_eq_some.mp (someOr_eq_ok.mp hcount)
  have hls := logicalSectorSize_pos m
  have hcover : byteCount ≤ (byteCount + (m.logicalSectorSize - 1)) / m.logicalSectorSize * m.logicalSectorSize := by
    have := Nat.lt_div_mul_add (a := byteCount + (m.logicalSectorSize - 1)) hls
    omega
  have hruns := mapSectorRuns_extends hfile hopened (fun image hi => hfiles image (List.mem_cons_of_mem _ hi)) hls
    (show k * m.blockSize + byteCount ≤ m.virtualDiskSize by omega) hcover h
  rw [Nat.zero_mul, Nat.zero_min, Nat.add_zero] at hruns
  refine hruns.congr fun v hlo hhi => ?_
  obtain ⟨hk, hmod⟩ := block_offset hlo (by omega)
  have hbits := readFileBytes_eq hfile hr hvbio (by decide) (Nat.le_of_not_gt (refuseIf_eq_ok.mp hinside)) hbitmap
  have hbit := bitmapBitPresent_eq disk iso hratio hk (someOr_eq_ok.mp hbitmapEntry)
    (not_not.mp (refuseIf_eq_ok.mp hpresent))
  rw [locateSector, locateMapped, searchImage, hbits, hbit, hmod]
  simp only [IsoFile.asImage, hk, hentry, hstate]

theorem mapAbsentBlock_extends {iso : IsoFile} {m : VhdxMetadata} {bat : List UInt8} {parents : List VhdxImage}
    (hfiles : OnDevice parents) (hopened : Opened 0 (iso.asImage m bat) parents) {virtualStart byteCount : Nat}
    (hend : virtualStart + byteCount ≤ m.virtualDiskSize)
    (h : mapAbsentBlock m parents virtualStart byteCount t = .ok t') :
    Extends t t' virtualStart (virtualStart + byteCount) (locateInParents parents) := by
  unfold mapAbsentBlock at h
  split at h
  · split at h
    · exact mapParents_extends hopened hfiles hend h
    · cases h
  · next hparent =>
      cases h
      cases hopened with
      | missing => exact Extends.hole fun v _ _ => rfl
      | found hasParent => exact absurd hasParent hparent

theorem mapVhdxBlock_extends {iso : IsoFile} {m : VhdxMetadata} {bat : List UInt8} {parents : List VhdxImage}
    (hfiles : OnDevice (iso.asImage m bat :: parents)) (hopened : Opened 0 (iso.asImage m bat) parents)
    (hr : Reads disk iso.blockSize reader) {fileVbio : VirtualBlockIo}
    (hvbio : buildImageFileBlockIo iso reader = .ok fileVbio) {ratio k : Nat} (hratio : m.chunkRatio = some ratio)
    (hstart : k * m.blockSize ≤ m.virtualDiskSize)
    (h : mapVhdxBlock iso fileVbio m bat parents ratio t k = .ok t') :
    Extends t t' (k * m.blockSize) (k * m.blockSize + min m.blockSize (m.virtualDiskSize - k * m.blockSize))
      (locateMapped disk (iso.asImage m bat) parents) := by
  have hlt := m.virtualDiskSize_lt
  have hfile : iso.whole.OnDevice := hfiles _ List.mem_cons_self
  obtain ⟨entry, hentry, h⟩ := bind_eq_ok.mp h
  obtain ⟨virtualStart, hvirtual, h⟩ := bind_eq_ok.mp h
  obtain ⟨_, rfl⟩ := checkedMul_eq_some.mp (someOr_eq_ok.mp hvirtual)
  have hpayload : payloadEntry m bat k = some entry := by
    rw [payloadEntry, hratio]
    exact someOr_eq_ok.mp hentry
  generalize hcount : min m.blockSize (m.virtualDiskSize - k * m.blockSize) = byteCount at *
  have hblock : ∀ v, k * m.blockSize ≤ v → v < k * m.blockSize + byteCount →
      v / m.blockSize = k ∧ v - k * m.blockSize = v % m.blockSize := fun v hlo hhi => block_offset hlo (by omega)
  have hdefers : entry.state.defersToParent = true → ∀ v, k * m.blockSize ≤ v → v < k * m.blockSize + byteCount →
      locateMapped disk (iso.asImage m bat) parents v = locateInParents parents v := by
    intro hs v hlo hhi
    refine searchImage_defers ?_ hs
    change payloadEntry m bat (v / m.blockSize) = some entry
    rw [(hblock v hlo hhi).1, hpayload]
  have hparents (hs : entry.state.defersToParent = true)
      (h : mapAbsentBlock m parents (k * m.blockSize) byteCount t = .ok t') :
      Extends t t' (k * m.blockSize) (k * m.blockSize + byteCount) (locateMapped disk (iso.asImage m bat) parents) :=
    (mapAbsentBlock_extends (fun image hi => hfiles image (List.mem_cons_of_mem _ hi)) hopened (by omega) h).congr
      fun v hlo hhi => (hdefers hs v hlo hhi).symm
  dsimp only at h
  cases hstate : entry.state <;> rw [hstate] at h hparents
  case fullyPresent =>
    refine (mapVhdxPayloadBlock_extends hfile (by omega) h).congr fun v hlo hhi => ?_
    obtain ⟨hk, hmod⟩ := hblock v hlo hhi
    simp only [locateMapped, searchImage, IsoFile.asImage, hk, hpayload, hstate, hmod]
  case partiallyPresent =>
    exact mapVhdxPartialPayloadBlock_extends hfiles hopened hr hvbio hratio hcount.symm hstart hpayload hstate h
  case zero =>
    cases h
    refine Extends.hole fun v hlo hhi => ?_
    simp only [locateMapped, searchImage, IsoFile.asImage, (hblock v hlo hhi).1, hpayload, hstate]
    rfl
  case notPresent => exact hparents rfl h
  case unmapped => exact hparents rfl h
  case undefined => cases h
  case reserved => cases h

/-- The device maps every byte of the virtual disk to where the loader finds it, and no other byte. -/
theorem buildVhdxBlockIo_spec {iso : IsoFile} {m : VhdxMetadata} {bat : List UInt8} {parents : List VhdxImage}
    (hfiles : OnDevice (iso.asImage m bat :: parents)) (hopened : Opened 0 (iso.asImage m bat) parents)
    (hr : Reads disk iso.blockSize reader) {io : VirtualBlockIo} (h : buildVhdxBlockIo iso reader m bat parents = .ok io) :
    io.config.isoSize = m.virtualDiskSize ∧ io.config.physicalBlockSize = iso.blockSize ∧ io.memoryOverlays = [] ∧
      io.byteMapping.totalBytes = m.virtualDiskSize ∧ (∀ x ∈ io.byteMapping.mappings, Fits x) ∧
      ∀ v p, Maps io.byteMapping.mappings v p ↔
        v < m.virtualDiskSize ∧ locateMapped disk (iso.asImage m bat) parents v = some p := by
  obtain ⟨fileVbio, hvbio, h⟩ := bind_eq_ok.mp h
  obtain ⟨payloadBlocks, hblocks, h⟩ := bind_eq_ok.mp h
  obtain ⟨ratio, hratio, h⟩ := bind_eq_ok.mp h
  obtain ⟨byteMapping, hmapping, h⟩ := bind_eq_ok.mp h
  cases h
  obtain ⟨hinside, hall⟩ := payloadBlockCount_spec (someOr_eq_ok.mp hblocks)
  have hloop := foldlM_range_ok (P := fun k t => Extends .empty t 0 (min (k * m.blockSize) m.virtualDiskSize)
    (locateMapped disk (iso.asImage m bat) parents)) (fun k t t' hk hstep hP => ?_) hmapping
    (Extends.hole fun v hlo hhi => by omega)
  · rw [Nat.min_eq_right hall] at hloop
    obtain ⟨htotal, hfits, hmaps⟩ := hloop.finished
    exact ⟨rfl, rfl, rfl, htotal, hfits, hmaps⟩
  · have hstart := (hinside k hk).le
    have hblock := mapVhdxBlock_extends hfiles hopened hr hvbio (someOr_eq_ok.mp hratio) hstart hstep
    rw [Nat.min_eq_left hstart] at hP
    have hend : min ((k + 1) * m.blockSize) m.virtualDiskSize =
        k * m.blockSize + min m.blockSize (m.virtualDiskSize - k * m.blockSize) := by
      rw [Nat.succ_mul]
      omega
    rw [hend]
    exact hP.trans hblock (Nat.zero_le _) (by omega)

/-- What the device serves: the byte the loader has found, or zero. -/
theorem readBytes_mapped {iso : IsoFile} {m : VhdxMetadata} {bat : List UInt8} {parents : List VhdxImage}
    (hfiles : OnDevice (iso.asImage m bat :: parents)) (hopened : Opened 0 (iso.asImage m bat) parents)
    (hr : Reads disk iso.blockSize reader) {io : VirtualBlockIo} (h : buildVhdxBlockIo iso reader m bat parents = .ok io)
    {off : Nat} {buf : List UInt8} (hin : off + buf.length ≤ m.virtualDiskSize) :
    (io.setPhysicalReader reader).readBytes io.mediaId off buf = .ok ((List.range buf.length).map fun i =>
      ((locateMapped disk (iso.asImage m bat) parents (off + i)).map disk).getD 0) := by
  obtain ⟨hsize, hphysical, hoverlays, htotal, hfits, hmaps⟩ := buildVhdxBlockIo_spec hfiles hopened hr h
  have hpos : 0 < iso.blockSize := (hfiles _ List.mem_cons_self).blockSize_pos
  rw [← hsize] at hin hmaps
  rw [← hphysical] at hpos hr
  exact readBytes_located hoverlays (htotal.trans hsize.symm) hfits hmaps hpos hr hin

/-- The search for `v` goes on above this image. -/
def VhdxImage.defers (disk : Nat → UInt8) (image : VhdxImage) (v : Nat) : Bool :=
  match image.stateAt v with
  | none => false
  | some .partiallyPresent => !image.sectorPresent disk v
  | some state => state.defersToParent

/-- The search for `v` comes to a partially present block of a parent. -/
def meetsPartialParent (disk : Nat → UInt8) : VhdxImage → List VhdxImage → Nat → Bool
  | _, [], _ => false
  | image, parent :: higher, v =>
      image.defers disk v &&
        (parent.stateAt v = some .partiallyPresent || meetsPartialParent disk parent higher v)

theorem searchImage_congr {image : VhdxImage} {v : Nat} {above above' : Option Nat}
    (h : image.defers disk v = true → above = above') :
    searchImage BatState.defersToParent (image.sectorPresent disk v) image v above =
      searchImage BatState.defersToParent (image.sectorPresent disk v) image v above' := by
  cases hd : image.defers disk v with
  | true => rw [h hd]
  | false =>
      rw [VhdxImage.defers, VhdxImage.stateAt] at hd
      unfold searchImage
      cases hentry : payloadEntry image.metadata image.bat (v / image.metadata.blockSize) with
      | none => rfl
      | some entry =>
          rw [hentry, Option.map_some] at hd
          cases hs : entry.state <;> simp_all [BatState.defersToParent]

theorem searchImage_present {defers : BatState → Bool} {image : VhdxImage} {v : Nat} {above : Option Nat} {present present' : Bool}
    (h : image.stateAt v ≠ some .partiallyPresent) :
    searchImage defers present image v above = searchImage defers present' image v above := by
  unfold searchImage
  cases hentry : payloadEntry image.metadata image.bat (v / image.metadata.blockSize) with
  | none => rfl
  | some entry =>
      rw [VhdxImage.stateAt, hentry, Option.map_some] at h
      cases hs : entry.state <;> simp_all

/-- Without a partially present block of a parent on its way, the search finds the byte of the chain. -/
theorem locateMapped_eq {image : VhdxImage} {parents : List VhdxImage} {v : Nat}
    (h : meetsPartialParent disk image parents v = false) :
    locateMapped disk image parents v = locate BatState.defersToParent disk (image :: parents) v := by
  induction parents generalizing image with
  | nil => rfl
  | cons parent higher ih =>
      rw [locateMapped, locate]
      refine searchImage_congr fun hdefers => ?_
      simp only [meetsPartialParent, hdefers, Bool.true_and, Bool.or_eq_false_iff, decide_eq_false_iff_not] at h
      obtain ⟨hwhole, hrest⟩ := h
      rw [← ih hrest, locateInParents, locateMapped]
      exact searchImage_present hwhole

/-- The device serves the bytes of the chain: a sector comes from the topmost image that has it, an absent or unmapped
block leaves it to the parent, and a sector no image has is zero. -/
theorem vhdx_chain_reads (disk : Nat → UInt8) (reader : PhysicalReader) (iso : IsoFile) (m : VhdxMetadata) (bat : List UInt8)
    (parents : List VhdxImage) (io : VirtualBlockIo) (hfiles : OnDevice (iso.asImage m bat :: parents))
    (hopened : Opened 0 (iso.asImage m bat) parents) (hr : Reads disk iso.blockSize reader)
    (hbuild : buildVhdxBlockIo iso reader m bat parents = .ok io) (off : Nat) (buf : List UInt8)
    (hin : off + buf.length ≤ m.virtualDiskSize) :
    ∃ out, (io.setPhysicalReader reader).readBytes io.mediaId off buf = .ok out ∧ out.length = buf.length ∧
      ∀ i < buf.length, meetsPartialParent disk (iso.asImage m bat) parents (off + i) = false →
        out[i]? = some (chainByte BatState.defersToParent disk (iso.asImage m bat :: parents) (off + i)) := by
  refine ⟨_, readBytes_mapped hfiles hopened hr hbuild hin, by simp, fun i hi hpartial => ?_⟩
  rw [List.getElem?_map, List.getElem?_range hi, Option.map_some, locateMapped_eq hpartial]
  rfl

/-- Two sectors in one payload block of 256 MiB. -/
def sampleMetadata (hasParent : Bool) : VhdxMetadata :=
  ⟨1024, 2 ^ 28, 512, hasParent, smallestDisk_pos, Words.kilo_lt_u64, largestBlock_pow, largestBlock_range, sector_cases⟩

/-- The payload at 2 MiB in the given state, and the sector bitmap at 1 MiB. -/
def sampleBat (state : Nat) : List UInt8 :=
  toLeBytes 8 (2 ^ 21 + state) ++ List.replicate 120 0 ++ toLeBytes 8 (2 ^ 20 + 6) ++ List.replicate 376 0

def sampleFile (lba : Nat) : SourceFile := ⟨2 ^ 21 + 1024, 512, [(0, lba, 4098)], by decide, Words.sector_lt_u32⟩

def sampleIso : IsoFile := ⟨sampleFile 0, 0⟩

def sampleParent (lba state : Nat) (hasParent : Bool) : VhdxImage :=
  ⟨sampleFile lba, sampleMetadata hasParent, sampleBat state⟩

/-- Every byte holds the number of the file it belongs to, so that a bitmap of ones has its first sector present. -/
def sampleDisk (p : Nat) : UInt8 := UInt8.ofNat (p / (8192 * 512))

theorem sampleFile_onDevice {lba : Nat} (h : lba ≤ 2 ^ 20) : (sampleFile lba).OnDevice := by
  refine ⟨show 0 < 512 by decide, List.pairwise_singleton _ _, fun e he => ?_⟩
  rw [List.mem_singleton.mp he]
  refine ⟨show (0 + 4098) * 512 < 2 ^ 64 by decide, ?_⟩
  change (lba + 4098) * 512 < 2 ^ 64
  omega

theorem samples_onDevice {state lba lba' state' state'' : Nat} {parent parent' : Bool} (h : lba ≤ 2 ^ 20) (h' : lba' ≤ 2 ^ 20) :
    OnDevice [sampleIso.asImage (sampleMetadata true) (sampleBat state), sampleParent lba state' parent,
      sampleParent lba' state'' parent'] := by
  intro image hi
  simp only [List.mem_cons, List.not_mem_nil, or_false] at hi
  rcases hi with rfl | rfl | rfl
  · exact sampleFile_onDevice (by decide)
  · exact sampleFile_onDevice h
  · exact sampleFile_onDevice h'

theorem samples_opened (state lba lba' state' state'' : Nat) :
    Opened 0 (sampleIso.asImage (sampleMetadata true) (sampleBat state))
      [sampleParent lba state' true, sampleParent lba' state'' false] :=
  .found rfl (by decide) rfl rfl (.found rfl (by decide) rfl rfl (.missing _ _))

/-- An absent block over an unmapped one over a present one. -/
theorem sampleChain_reads : ∃ io out, buildVhdxBlockIo sampleIso (diskReader sampleDisk) (sampleMetadata true) (sampleBat 0)
      [sampleParent 8192 3 true, sampleParent 16384 6 false] = .ok io ∧
    (io.setPhysicalReader (diskReader sampleDisk)).readBytes io.mediaId 510 [0, 0, 0, 0] = .ok out ∧
    out[3]? = some 2 := by
  have hok : (buildVhdxBlockIo sampleIso (diskReader sampleDisk) (sampleMetadata true) (sampleBat 0)
      [sampleParent 8192 3 true, sampleParent 16384 6 false]).isOk = true := by decide +kernel
  cases hbuild : buildVhdxBlockIo sampleIso (diskReader sampleDisk) (sampleMetadata true) (sampleBat 0)
      [sampleParent 8192 3 true, sampleParent 16384 6 false] with
  | error e =>
      rw [hbuild] at hok
      cases hok
  | ok io =>
      obtain ⟨out, hread, _, hbytes⟩ := vhdx_chain_reads sampleDisk (diskReader sampleDisk) sampleIso (sampleMetadata true)
        (sampleBat 0) [sampleParent 8192 3 true, sampleParent 16384 6 false] io
        (samples_onDevice (by decide) (by decide)) (samples_opened 0 8192 16384 3 6) (diskReader_reads _ _) hbuild
        510 [0, 0, 0, 0] (by decide)
      refine ⟨io, out, rfl, hread, (hbytes 3 (by decide) (by decide +kernel)).trans ?_⟩
      decide +kernel

/-- An unmapped block does not end the search: the byte of the parent is served, not zero. A sector that a partially
present block of the parent holds is passed over: the byte of the parent above it is served. -/
theorem sampleChains_differ : ∃ io io' out out', buildVhdxBlockIo sampleIso (diskReader sampleDisk) (sampleMetadata true)
      (sampleBat 3) [sampleParent 8192 6 true, sampleParent 16384 6 false] = .ok io ∧
    (io.setPhysicalReader (diskReader sampleDisk)).readBytes io.mediaId 0 [0] = .ok out ∧
    out ≠ [chainByte (· = .notPresent) sampleDisk [sampleIso.asImage (sampleMetadata true) (sampleBat 3),
      sampleParent 8192 6 true, sampleParent 16384 6 false] 0] ∧
    buildVhdxBlockIo sampleIso (diskReader sampleDisk) (sampleMetadata true)
      (sampleBat 0) [sampleParent 8192 7 true, sampleParent 16384 6 false] = .ok io' ∧
    (io'.setPhysicalReader (diskReader sampleDisk)).readBytes io'.mediaId 0 [0] = .ok out' ∧
    out' ≠ [chainByte (· = .notPresent) sampleDisk [sampleIso.asImage (sampleMetadata true) (sampleBat 0),
      sampleParent 8192 7 true, sampleParent 16384 6 false] 0] := by
  have hok : (buildVhdxBlockIo sampleIso (diskReader sampleDisk) (sampleMetadata true) (sampleBat 3)
      [sampleParent 8192 6 true, sampleParent 16384 6 false]).isOk = true := by decide +kernel
  have hok' : (buildVhdxBlockIo sampleIso (diskReader sampleDisk) (sampleMetadata true) (sampleBat 0)
      [sampleParent 8192 7 true, sampleParent 16384 6 false]).isOk = true := by decide +kernel
  cases hbuild : buildVhdxBlockIo sampleIso (diskReader sampleDisk) (sampleMetadata true) (sampleBat 3)
      [sampleParent 8192 6 true, sampleParent 16384 6 false] with
  | error e =>
      rw [hbuild] at hok
      cases hok
  | ok io =>
      cases hbuild' : buildVhdxBlockIo sampleIso (diskReader sampleDisk) (sampleMetadata true) (sampleBat 0)
          [sampleParent 8192 7 true, sampleParent 16384 6 false] with
      | error e =>
          rw [hbuild'] at hok'
          cases hok'
      | ok io' =>
          refine ⟨io, io', _, _, rfl, readBytes_mapped (samples_onDevice (by decide) (by decide))
            (samples_opened 3 8192 16384 6 6) (diskReader_reads sampleDisk _) hbuild (by decide), by decide +kernel, rfl,
            readBytes_mapped (samples_onDevice (by decide) (by decide)) (samples_opened 0 8192 16384 7 6)
            (diskReader_reads sampleDisk _) hbuild' (by decide), by decide +kernel⟩

end NextBoot.Vhdx
