import NextBoot.Vhdx.Device
import NextBoot.Vhdx.FileRanges

namespace NextBoot.Vhd

open Words Bytes Results Virtio.Mapping Virtio.BlockIo Virtio.Translation Virtio.ReadSemantics Virtio.DeviceReads Vhdx

def sectorSize : Nat := 512
def footerSize : Nat := 512
def dynamicHeaderSize : Nat := 1024
def unusedBatEntry : Nat := 0xffffffff

structure DynamicFooter where
  dataOffset : Nat
  virtualSize : Nat

structure DynamicHeader where
  tableOffset : Nat
  headerVersion : Nat
  maxTableEntries : Nat
  blockSize : Nat

def readBe (width : Nat) (data : List UInt8) (offset : Nat) : Option Nat :=
  (slice data offset width).map fun bytes => fromLeBytes bytes.reverse

/-- The cookie `conectix`. -/
def footerCookie : List UInt8 := [0x63, 0x6f, 0x6e, 0x65, 0x63, 0x74, 0x69, 0x78]

/-- The cookie `cxsparse`. -/
def headerCookie : List UInt8 := [0x63, 0x78, 0x73, 0x70, 0x61, 0x72, 0x73, 0x65]

def parseDynamicFooter (data : List UInt8) : Option DynamicFooter := do
  guard (¬ data.length < footerSize)
  let cookie ← slice data 0 8
  guard (cookie = footerCookie)
  let dataOffset ← readBe 8 data 16
  let virtualSize ← readBe 8 data 48
  let diskType ← readBe 4 data 60
  guard (¬ (dataOffset = 2 ^ 64 - 1 ∨ diskType ≠ 3))
  return ⟨dataOffset, virtualSize⟩

def parseDynamicHeader (data : List UInt8) : Option DynamicHeader := do
  guard (¬ data.length < dynamicHeaderSize)
  let cookie ← slice data 0 8
  guard (cookie = headerCookie)
  let tableOffset ← readBe 8 data 16
  let headerVersion ← readBe 4 data 24
  let maxTableEntries ← readBe 4 data 28
  let blockSize ← readBe 4 data 32
  guard (¬ (tableOffset = 2 ^ 64 - 1 ∨ maxTableEntries = 0 ∨ blockSize = 0))
  return ⟨tableOffset, headerVersion, maxTableEntries, blockSize⟩

def alignUpU64 (value align : Nat) : Option Nat :=
  if align = 0 then none
  else if value % align = 0 then some value
  else checkedAdd 64 value (align - value % align)

/-- The block allocation table of a dynamic disk with the sizes the blocks are cut by. -/
structure DynamicLayout where
  blockSize : Nat
  bitmapBytes : Nat
  entries : Nat
  bat : List UInt8

def readDynamicLayout (iso : IsoFile) (fileVbio : VirtualBlockIo) (virtualSize : Nat) : Except Failure DynamicLayout := do
  let footerOffset ← someOr (checkedSub iso.size footerSize) .loadError
  let footerBytes ← readFileBytes fileVbio footerOffset footerSize
  let footer ← someOr (parseDynamicFooter footerBytes) .loadError
  let headerBytes ← readFileBytes fileVbio footer.dataOffset dynamicHeaderSize
  let header ← someOr (parseDynamicHeader headerBytes) .loadError
  refuseIf (virtualSize = 0 ∨ header.blockSize = 0 ∨ header.blockSize % sectorSize ≠ 0) .loadError
  let bitmapBytes ← someOr ((divRoundUp 64 (header.blockSize / sectorSize) 8).bind fun bytes =>
    alignUpU64 bytes sectorSize) .loadError
  let entriesNeeded ← someOr (divRoundUp 64 virtualSize header.blockSize) .loadError
  refuseIf (entriesNeeded = 0 ∨ header.maxTableEntries < entriesNeeded) .loadError
  let batBytes ← someOr ((checkedMul 64 entriesNeeded 4).bind fun bytes => alignUpU64 bytes sectorSize) .loadError
  let bat ← readFileBytes fileVbio header.tableOffset batBytes
  .ok ⟨header.blockSize, bitmapBytes, entriesNeeded, bat⟩

/-- The loop over the table; an unused entry leaves its block out of the mapping. -/
def mapDynamicBlocks (iso : IsoFile) (d : DynamicLayout) (virtualSize index : Nat) (table : ByteMappingTable) :
    Except Failure ByteMappingTable :=
  if index < d.entries then do
    let batOffset ← someOr (checkedMul 64 index 4) .loadError
    let batEntry ← someOr (readBe 4 d.bat batOffset) .loadError
    if batEntry = unusedBatEntry then mapDynamicBlocks iso d virtualSize (index + 1) table
    else
      let virtualStart ← someOr (checkedMul 64 index d.blockSize) .loadError
      if virtualStart ≥ virtualSize then .ok table
      else
        let byteCount := min d.blockSize (virtualSize - virtualStart)
        let fileOffset ← someOr ((checkedMul 64 batEntry sectorSize).bind fun offset =>
          checkedAdd 64 offset d.bitmapBytes) .loadError
        refuseIf ((checkedAdd 64 fileOffset byteCount).all fun stop => stop > iso.size) .deviceError
        let table ← mapImageFileRangeToPhysical iso table virtualStart fileOffset byteCount
        mapDynamicBlocks iso d virtualSize (index + 1) table
  else .ok table
termination_by d.entries - index

/-- The configuration of the device to be built has the size and the block size that the image was scanned with. -/
def buildDynamicVhdBlockIo (iso : IsoFile) (reader : PhysicalReader) (config : VirtualDeviceConfig) :
    Except Failure VirtualBlockIo := do
  let fileVbio ← buildImageFileBlockIo iso reader
  let layout ← readDynamicLayout iso fileVbio config.isoSize
  let byteMapping ← mapDynamicBlocks iso layout config.isoSize 0 .empty
  .ok (VirtualBlockIo.withByteMapping config (byteMapping.truncate config.isoSize).optimize)

/-- The byte of the image file behind a virtual byte; an unused entry has none. -/
def DynamicLayout.fileOffset (d : DynamicLayout) (v : Nat) : Option Nat := do
  let batEntry ← readBe 4 d.bat (v / d.blockSize * 4)
  if batEntry = unusedBatEntry then none
  else some (batEntry * sectorSize + d.bitmapBytes + v % d.blockSize)

variable {iso : IsoFile} {d : DynamicLayout} {virtualSize : Nat}

/-- One used block: its bytes follow one another in the image file. -/
theorem mapDynamicBlock_extends (hfile : iso.whole.OnDevice) {t t' : ByteMappingTable} {index batEntry : Nat}
    (hentry : readBe 4 d.bat (index * 4) = some batEntry) (hused : batEntry ≠ unusedBatEntry)
    (hstart : index * d.blockSize < virtualSize) (hsize : virtualSize < 2 ^ 64)
    (hinside : ¬ (checkedAdd 64 (batEntry * sectorSize + d.bitmapBytes)
      (min d.blockSize (virtualSize - index * d.blockSize))).all fun stop => stop > iso.size)
    (h : mapImageFileRangeToPhysical iso t (index * d.blockSize) (batEntry * sectorSize + d.bitmapBytes)
      (min d.blockSize (virtualSize - index * d.blockSize)) = .ok t') :
    Extends t t' (index * d.blockSize) (min ((index + 1) * d.blockSize) virtualSize)
        (fun v => (d.fileOffset v).bind iso.whole.locate) ∧
      ∀ v, index * d.blockSize ≤ v → v < min ((index + 1) * d.blockSize) virtualSize →
        ∃ offset, d.fileOffset v = some offset ∧ offset < iso.size := by
  rw [Nat.succ_mul]
  generalize hcount : min d.blockSize (virtualSize - index * d.blockSize) = byteCount at *
  have hpayload := mapVhdxPayloadBlock_of_inside hinside h
  cases hstop : checkedAdd 64 (batEntry * sectorSize + d.bitmapBytes) byteCount with
  | none =>
      rw [hstop] at hinside
      exact absurd rfl hinside
  | some stop =>
      rw [hstop] at hinside
      obtain ⟨_, rfl⟩ := checkedAdd_eq_some.mp hstop
      have hle : ¬ batEntry * sectorSize + d.bitmapBytes + byteCount > iso.size := by simpa using hinside
      have hoffset (v : Nat) (hlo : index * d.blockSize ≤ v) (hhi : v < index * d.blockSize + byteCount) :
          d.fileOffset v = some (batEntry * sectorSize + d.bitmapBytes + (v - index * d.blockSize)) := by
        obtain ⟨hblock, hmod⟩ := block_offset hlo (by omega)
        rw [DynamicLayout.fileOffset, hblock, hentry, ← hmod]
        exact if_neg hused
      have hend : min (index * d.blockSize + d.blockSize) virtualSize = index * d.blockSize + byteCount := by omega
      rw [hend]
      refine ⟨(mapVhdxPayloadBlock_extends hfile (by omega) hpayload).congr fun v hlo hhi => ?_, fun v hlo hhi => ?_⟩
      · rw [hoffset v hlo hhi, Option.bind_some]
      · exact ⟨_, hoffset v hlo hhi, by omega⟩

/-- An unused entry has no byte behind its block. -/
theorem fileOffset_unused {index : Nat} (hentry : readBe 4 d.bat (index * 4) = some unusedBatEntry) {v : Nat}
    (hlo : index * d.blockSize ≤ v) (hhi : v < (index + 1) * d.blockSize) : d.fileOffset v = none := by
  rw [Nat.succ_mul] at hhi
  obtain ⟨hblock, -⟩ := block_offset hlo hhi
  rw [DynamicLayout.fileOffset, hblock, hentry]
  rfl

/-- What the loop has mapped when it comes to the byte `stop` of the disk. -/
structure MappedTo (iso : IsoFile) (d : DynamicLayout) (stop : Nat) (t : ByteMappingTable) : Prop where
  extends_empty : Extends .empty t 0 stop fun v => (d.fileOffset v).bind iso.whole.locate
  inside : ∀ v < stop, ∀ offset, d.fileOffset v = some offset → offset < iso.size
  readable : ∀ v < stop, ∃ batEntry, readBe 4 d.bat (v / d.blockSize * 4) = some batEntry

theorem mapDynamicBlocks_ok (hfile : iso.whole.OnDevice) (hsize : virtualSize < 2 ^ 64)
    (hall : virtualSize ≤ d.entries * d.blockSize) {index : Nat} {t t' : ByteMappingTable}
    (hmapped : MappedTo iso d (min (index * d.blockSize) virtualSize) t)
    (h : mapDynamicBlocks iso d virtualSize index t = .ok t') : MappedTo iso d virtualSize t' := by
  fun_induction mapDynamicBlocks iso d virtualSize index t with
  | case1 index t hlt ih ih' =>
      obtain ⟨batOffset, hoffset, h⟩ := bind_eq_ok.mp h
      obtain ⟨_, rfl⟩ := checkedMul_eq_some.mp (someOr_eq_ok.mp hoffset)
      obtain ⟨batEntry, hentry, h⟩ := bind_eq_ok.mp h
      have hentry := someOr_eq_ok.mp hentry
      have hmul : (index + 1) * d.blockSize = index * d.blockSize + d.blockSize := Nat.succ_mul _ _
      have hreadable : ∀ v < min ((index + 1) * d.blockSize) virtualSize,
          ∃ batEntry, readBe 4 d.bat (v / d.blockSize * 4) = some batEntry := by
        intro v hv
        by_cases hbefore : v < min (index * d.blockSize) virtualSize
        · exact hmapped.readable v hbefore
        · obtain ⟨hblock, -⟩ := @block_offset d.blockSize index v (by omega) (by omega)
          rw [hblock]
          exact ⟨batEntry, hentry⟩
      split at h
      · next hunused =>
          rw [hunused] at hentry
          refine ih ?_ h
          have hnone {v : Nat} (hlo : min (index * d.blockSize) virtualSize ≤ v)
              (hhi : v < min ((index + 1) * d.blockSize) virtualSize) : d.fileOffset v = none :=
            fileOffset_unused hentry (by omega) (by omega)
          refine ⟨hmapped.extends_empty.trans (Extends.hole fun v hlo hhi => ?_) (Nat.zero_le _) (by omega),
            fun v hv offset hoff => ?_, hreadable⟩
          · rw [hnone hlo hhi]
            rfl
          · by_cases hbefore : v < min (index * d.blockSize) virtualSize
            · exact hmapped.inside v hbefore offset hoff
            · rw [hnone (by omega) hv] at hoff
              cases hoff
      · next hused =>
          obtain ⟨virtualStart, hstart, h⟩ := bind_eq_ok.mp h
          obtain ⟨_, rfl⟩ := checkedMul_eq_some.mp (someOr_eq_ok.mp hstart)
          split at h
          · next hpast =>
              cases h
              rwa [Nat.min_eq_right hpast] at hmapped
          · next hinside =>
              obtain ⟨fileOffset, hfileOffset, h⟩ := bind_eq_ok.mp h
              obtain ⟨first, hfirst, hsum⟩ := Option.bind_eq_some_iff.mp (someOr_eq_ok.mp hfileOffset)
              obtain ⟨_, rfl⟩ := checkedMul_eq_some.mp hfirst
              obtain ⟨_, rfl⟩ := checkedAdd_eq_some.mp hsum
              obtain ⟨_, hbounds, h⟩ := bind_eq_ok.mp h
              obtain ⟨next, hmap, h⟩ := bind_eq_ok.mp h
              obtain ⟨hblock, hoffsets⟩ := mapDynamicBlock_extends hfile hentry hused (by omega) hsize
                (refuseIf_eq_ok.mp hbounds) hmap
              rw [Nat.min_eq_left (by omega)] at hmapped
              refine ih' (index * d.blockSize) next ?_ h
              refine ⟨hmapped.extends_empty.trans hblock (Nat.zero_le _) (by omega), fun v hv offset hoff => ?_, hreadable⟩
              by_cases hbefore : v < index * d.blockSize
              · exact hmapped.inside v hbefore offset hoff
              · obtain ⟨found, hfound, hlt⟩ := hoffsets v (by omega) hv
                rw [hfound] at hoff
                cases hoff
                exact hlt
  | case2 index t hge =>
      cases h
      have hmul : d.entries * d.blockSize ≤ index * d.blockSize := Nat.mul_le_mul_right _ (by omega)
      rwa [Nat.min_eq_right (by omega)] at hmapped

theorem readDynamicLayout_spec {fileVbio : VirtualBlockIo} (h : readDynamicLayout iso fileVbio virtualSize = .ok d) :
    virtualSize ≤ d.entries * d.blockSize := by
  obtain ⟨_, -, h⟩ := bind_eq_ok.mp h
  obtain ⟨_, -, h⟩ := bind_eq_ok.mp h
  obtain ⟨_, -, h⟩ := bind_eq_ok.mp h
  obtain ⟨_, -, h⟩ := bind_eq_ok.mp h
  obtain ⟨header, -, h⟩ := bind_eq_ok.mp h
  obtain ⟨_, hblock, h⟩ := bind_eq_ok.mp h
  obtain ⟨_, -, h⟩ := bind_eq_ok.mp h
  obtain ⟨entries, hentries, h⟩ := bind_eq_ok.mp h
  obtain ⟨_, -, h⟩ := bind_eq_ok.mp h
  obtain ⟨_, -, h⟩ := bind_eq_ok.mp h
  obtain ⟨_, -, h⟩ := bind_eq_ok.mp h
  obtain ⟨hpos, _, rfl⟩ := divRoundUp_eq_some.mp (someOr_eq_ok.mp hentries)
  cases h
  have hlt := Nat.lt_div_mul_add (a := virtualSize + (header.blockSize - 1)) (Nat.pos_of_ne_zero hpos)
  dsimp only
  omega

/-- The byte of a dynamic disk: the byte of the image file that the entry of its block leads to, or zero. -/
def dynamicByte (disk : Nat → UInt8) (iso : IsoFile) (d : DynamicLayout) (v batEntry : Nat) : UInt8 :=
  if batEntry = unusedBatEntry then 0
  else
    fileByte disk iso.blockSize iso.whole.extents iso.size (batEntry * sectorSize + d.bitmapBytes + v % d.blockSize)

theorem dynamic_vhd_reads {disk : Nat → UInt8} {reader : PhysicalReader} {config : VirtualDeviceConfig} {io : VirtualBlockIo}
    (hfile : iso.whole.OnDevice) (hr : Reads disk iso.blockSize reader) (hconfig : config.physicalBlockSize = iso.blockSize)
    (hbuild : buildDynamicVhdBlockIo iso reader config = .ok io) :
    ∃ fileVbio d, buildImageFileBlockIo iso reader = .ok fileVbio ∧ readDynamicLayout iso fileVbio config.isoSize = .ok d ∧
      ∀ off buf, off + buf.length ≤ config.isoSize →
        ∃ out, (io.setPhysicalReader reader).readBytes io.mediaId off buf = .ok out ∧ out.length = buf.length ∧
          ∀ i < buf.length, ∃ batEntry, readBe 4 d.bat ((off + i) / d.blockSize * 4) = some batEntry ∧
            out[i]? = some (dynamicByte disk iso d (off + i) batEntry) := by
  obtain ⟨fileVbio, hvbio, h⟩ := bind_eq_ok.mp hbuild
  obtain ⟨d, hlayout, h⟩ := bind_eq_ok.mp h
  obtain ⟨byteMapping, hmap, h⟩ := bind_eq_ok.mp h
  cases h
  have hstart : MappedTo iso d (min (0 * d.blockSize) config.isoSize) .empty := by
    rw [Nat.zero_mul, Nat.zero_min]
    exact ⟨Extends.hole fun v _ hv => absurd hv (Nat.not_lt_zero v), fun v hv => absurd hv (Nat.not_lt_zero v),
      fun v hv => absurd hv (Nat.not_lt_zero v)⟩
  have hmapped := mapDynamicBlocks_ok hfile config.isoSize_lt (readDynamicLayout_spec hlayout) hstart hmap
  obtain ⟨htotal, hfits, hmaps⟩ := hmapped.extends_empty.finished
  refine ⟨fileVbio, d, hvbio, hlayout, fun off buf hin => ?_⟩
  have hread := @readBytes_located reader
    (VirtualBlockIo.withByteMapping config (byteMapping.truncate config.isoSize).optimize) disk _ rfl htotal hfits hmaps
    (hconfig ▸ hfile.blockSize_pos) (by rw [← hconfig] at hr; exact hr) off buf hin
  refine ⟨_, hread, by simp, fun i hi => ?_⟩
  obtain ⟨batEntry, hentry⟩ := hmapped.readable (off + i) (by omega)
  refine ⟨batEntry, hentry, ?_⟩
  rw [List.getElem?_map, List.getElem?_range hi, Option.map_some, dynamicByte]
  congr 1
  have hoffset : d.fileOffset (off + i) = if batEntry = unusedBatEntry then none
      else some (batEntry * sectorSize + d.bitmapBytes + (off + i) % d.blockSize) := by
    rw [DynamicLayout.fileOffset, hentry]
    rfl
  split
  · next hunused =>
      rw [hoffset, if_pos hunused]
      rfl
  · next hused =>
      rw [if_neg hused] at hoffset
      rw [hoffset, Option.bind_some, fileByte, if_pos (hmapped.inside (off + i) (by omega) _ hoffset)]
      rfl

/-- A mapping of a file range: when it succeeds, and where the virtual bytes are found then. -/
structure Composes (map : ByteMappingTable → Except Failure ByteMappingTable) (succeeds : Prop) (virtualStart byteCount : Nat)
    (source : Nat → Option Nat) : Prop where
  ok_iff : ∀ t, (∃ t', map t = .ok t') ↔ succeeds
  maps : ∀ t t', map t = .ok t' → ∀ v p, Maps t'.mappings v p ↔ Maps t.mappings v p ∨
    virtualStart ≤ v ∧ v < virtualStart + byteCount ∧ source (v - virtualStart) = some p

/-- A file range is mapped exactly when all its bytes are reached, and then byte for byte as the extents of the file say; an
image without extents is one run from its first block. The blocks of a dynamic disk are mapped in this way. -/
theorem composed_mapping (file : SourceFile) (iso : IsoFile) (virtualStart fileOffset byteCount : Nat)
    (hv : virtualStart + byteCount < 2 ^ 64) (hfile : ExtentsDisjoint file.extents) (hiso : ExtentsDisjoint iso.extents) :
    Composes (fun t => mapSourceFileRangeToPhysical t file virtualStart fileOffset byteCount)
      (0 < file.blockSize ∧ fileOffset + byteCount < 2 ^ 64 ∧
        ∀ c, fileOffset ≤ c → c < fileOffset + byteCount → Reachable file.blockSize file.extents fileOffset c)
      virtualStart byteCount (fun i => file.locate (fileOffset + i)) ∧
    (iso.extents ≠ [] → Composes (fun t => mapImageFileRangeToPhysical iso t virtualStart fileOffset byteCount)
      (0 < iso.blockSize ∧ fileOffset + byteCount < 2 ^ 64 ∧
        ∀ c, fileOffset ≤ c → c < fileOffset + byteCount → Reachable iso.blockSize iso.extents fileOffset c)
      virtualStart byteCount (fun i => iso.locate (fileOffset + i))) ∧
    (iso.extents = [] → Composes (fun t => mapImageFileRangeToPhysical iso t virtualStart fileOffset byteCount)
      (0 < iso.blockSize ∧ iso.startLba * iso.blockSize + fileOffset < 2 ^ 64)
      virtualStart byteCount (fun i => some (iso.startLba * iso.blockSize + (fileOffset + i)))) ∧
    ((∀ e ∈ file.extents, ExtentFits file.blockSize e) → ∀ c, fileOffset ≤ c →
      (Reachable file.blockSize file.extents fileOffset c ↔ ∃ e ∈ file.extents, Holds file.blockSize e c)) ∧
    ∀ (disk : Nat → UInt8) (reader : PhysicalReader) (config : VirtualDeviceConfig) (io : VirtualBlockIo),
      iso.whole.OnDevice → Reads disk iso.blockSize reader → config.physicalBlockSize = iso.blockSize →
      buildDynamicVhdBlockIo iso reader config = .ok io →
      ∃ fileVbio d, buildImageFileBlockIo iso reader = .ok fileVbio ∧ readDynamicLayout iso fileVbio config.isoSize = .ok d ∧
        ∀ off buf, off + buf.length ≤ config.isoSize →
          ∃ out, (io.setPhysicalReader reader).readBytes io.mediaId off buf = .ok out ∧ out.length = buf.length ∧
            ∀ i < buf.length, ∃ batEntry, readBe 4 d.bat ((off + i) / d.blockSize * 4) = some batEntry ∧
              out[i]? = some (dynamicByte disk iso d (off + i) batEntry) := by
  refine ⟨⟨fun t => mapSourceFileRange_ok_iff hfile hv t, fun t t' h v p => mapSourceFileRange_maps hfile hv h v p⟩,
    fun hextents => ⟨fun t => ?_, fun t t' h v p => ?_⟩, fun hextents => ⟨fun t => ?_, fun t t' h v p => ?_⟩,
    fun hfits c hc => reachable_iff_held hfits hc, fun disk reader config io => dynamic_vhd_reads⟩
  · rw [mapImageFileRange_extents hextents]
    exact mapSourceFileRange_ok_iff hiso hv t
  · rw [mapImageFileRange_extents hextents] at h
    exact mapSourceFileRange_maps hiso hv h v p
  · exact mapImageFileRange_contiguous hextents t
  · rw [mapImageFileRange_contiguous_maps hextents hv h v p, Option.some.injEq]
    simp only [eq_comm]

/-- The bytes of a dynamic disk of two blocks of 512 bytes: the header, the table at 1024, the first block behind its bitmap
at 2048, and the footer at 3072. -/
def sampleDisk (p : Nat) : UInt8 :=
  if p < 8 then headerCookie.getD p 0
  else if p = 22 ∨ p = 1027 ∨ p = 3126 then 4
  else if p = 31 ∨ p = 34 then 2
  else if 1028 ≤ p ∧ p < 1032 then 0xff
  else if 2560 ≤ p ∧ p < 3072 then 7
  else if 3072 ≤ p ∧ p < 3080 then footerCookie.getD (p - 3072) 0
  else if p = 3135 then 3
  else 0

def sampleIso : IsoFile := ⟨⟨3584, 512, [(0, 0, 7)], by decide, Words.sector_lt_u32⟩, 0⟩

def sampleConfig : VirtualDeviceConfig := ⟨1024, 512, 512, Words.kilo_lt_u64, Words.sector_lt_u32, Words.sector_lt_u32⟩

theorem sampleIso_onDevice : sampleIso.whole.OnDevice :=
  ⟨show 0 < 512 by decide, List.pairwise_singleton _ _, by decide⟩

theorem sample_reads : ∃ io out, buildDynamicVhdBlockIo sampleIso (diskReader sampleDisk) sampleConfig = .ok io ∧
    (io.setPhysicalReader (diskReader sampleDisk)).readBytes io.mediaId 510 [0, 0, 0, 0] = .ok out ∧ out.length = 4 := by
  have hok : (buildDynamicVhdBlockIo sampleIso (diskReader sampleDisk) sampleConfig).isOk = true := by decide +kernel
  cases hbuild : buildDynamicVhdBlockIo sampleIso (diskReader sampleDisk) sampleConfig with
  | error e =>
      rw [hbuild] at hok
      cases hok
  | ok io =>
      have hmapping := composed_mapping sampleIso.toSourceFile sampleIso 0 2560 512 (by decide) sampleIso_onDevice.disjoint
        sampleIso_onDevice.disjoint
      obtain ⟨fileVbio, d, -, -, hreads⟩ := hmapping.2.2.2.2 sampleDisk (diskReader sampleDisk) sampleConfig io
        sampleIso_onDevice (diskReader_reads _ _) rfl hbuild
      obtain ⟨out, hread, hlength, -⟩ := hreads 510 [0, 0, 0, 0] (by decide)
      exact ⟨io, out, rfl, hread, hlength⟩

/-- An extent on blocks past 64-bit addresses, which holds its bytes all the same. -/
def farFile : SourceFile := ⟨4096, 512, [(0, 2 ^ 60, 8)], by decide, Words.sector_lt_u32⟩

def contiguousIso : IsoFile := ⟨⟨4096, 512, [], by decide, Words.sector_lt_u32⟩, 16⟩

/-- A range whose bytes are all held by an extent is refused, and one that no extent holds is mapped. -/
theorem coverage_does_not_decide :
    (ExtentsDisjoint farFile.extents ∧ (∀ c < 512, ∃ e ∈ farFile.extents, Holds farFile.blockSize e c) ∧
      mapSourceFileRangeToPhysical .empty farFile 0 0 512 = .error .loadError) ∧
    (ExtentsDisjoint contiguousIso.extents ∧ (∀ c < 512, ¬ ∃ e ∈ contiguousIso.extents, Holds contiguousIso.blockSize e c) ∧
      ∃ t', mapImageFileRangeToPhysical contiguousIso .empty 0 0 512 = .ok t') := by
  refine ⟨⟨List.pairwise_singleton _ _, fun c hc => ⟨(0, 2 ^ 60, 8), List.mem_singleton_self _, ?_⟩, by decide +kernel⟩,
    ⟨List.Pairwise.nil, fun c _ h => ?_, ⟨_, rfl⟩⟩⟩
  · refine ⟨Nat.zero_le _, ?_⟩
    change c < 8 * 512
    omega
  · obtain ⟨e, he, -⟩ := h
    cases he

end NextBoot.Vhd
