import NextBoot.Boot.ConfReplace
import NextBoot.Fs.IsoFiles

namespace NextBoot.Boot.ConfReplace

open Words Bytes Strings Results Faults Outcome BlockStore
open Fs hiding fileByte
open Fs.Paths Fs.Scan Fs.Iso9660
open Virtio.Mapping Virtio.BlockIo Virtio.Translation Virtio.ReadSemantics Virtio.DeviceReads
open Virtio.BlockIo.VirtualBlockIo (fromFileExtents setPhysicalReader addMemoryOverlay addMemoryOverlays)

section overlays

variable {os : List MemoryOverlay} {rs : List Replacement} {m : Nat → UInt8} {start stop limit x : Nat}

def asWrite (o : MemoryOverlay) : Write UInt8 := ⟨o.virtualOffset, o.data⟩

/-- Overlays over what a device holds are writes to it, the later ones over the earlier ones. -/
theorem lastOverlayByte_getD : (lastOverlayByte os x).getD (m x) = applyWrites m (os.map asWrite) x := by
  induction os generalizing m with
  | nil => rfl
  | cons o os ih =>
      have hwrite : (Virtio.ReadSemantics.MemoryOverlay.byteAt o x).getD (m x) = write m (asWrite o) x := by
        rw [Virtio.ReadSemantics.MemoryOverlay.byteAt, write, asWrite]
        dsimp only
        split
        · rfl
        · rfl
      rw [lastOverlayByte, List.map_cons, applyWrites_cons, ← ih, ← hwrite]
      cases lastOverlayByte os x with
      | none => rfl
      | some b => rfl

theorem window_part {m' : Nat → UInt8} {size offset len : Nat} (h : ∀ i < size, m (start + i) = m' (start + i)) :
    window m (start + offset) (min len (size - offset)) = window m' (start + offset) (min len (size - offset)) := by
  refine window_congr fun x hlo hhi => ?_
  have hx := h (x - start) (by omega)
  rwa [Nat.add_sub_cancel' (by omega)] at hx

/-- Below the files that are appended only the records change. -/
theorem applyWrites_overlays (hlaid : Laid rs start stop) (hx : x < start) :
    applyWrites m ((rs.flatMap Replacement.overlays).map asWrite) x =
      applyWrites m ((rs.map fun r => (r.place, r.extent)).map fun patch => extentWrite patch.1 patch.2) x := by
  have hbelow : ∀ r ∈ rs, ¬ (asWrite r.appended).covers x := by
    intro r hr hcovers
    have hle := (hlaid.within hr).1
    have : r.offset ≤ x := hcovers.1
    omega
  clear hlaid
  induction rs generalizing m with
  | nil => rfl
  | cons r rs ih =>
      rw [List.flatMap_cons, List.map_append, applyWrites_append, ih fun r hr => hbelow r (List.mem_cons_of_mem _ hr)]
      exact applyWrites_congr (.inr (write_frame (hbelow r List.mem_cons_self)))

/-- What is appended stays as it is. -/
theorem window_appended (hlaid : Laid rs start stop) (hpatches : ∀ r ∈ rs, r.place + 18 ≤ start) {r : Replacement} (hr : r ∈ rs) :
    window (applyWrites m ((rs.flatMap Replacement.overlays).map asWrite)) r.offset r.padded.length = r.padded := by
  induction rs generalizing m start with
  | nil => exact absurd hr List.not_mem_nil
  | cons first rs ih =>
      obtain ⟨hfirst, hrest⟩ := hlaid
      rw [List.flatMap_cons, List.map_append, applyWrites_append]
      rcases List.mem_cons.mp hr with rfl | hr
      · have hlater : ∀ w ∈ (rs.flatMap Replacement.overlays).map asWrite, w.disjointFrom r.offset r.padded.length := by
          intro w hw
          obtain ⟨o, ho, rfl⟩ := List.mem_map.mp hw
          obtain ⟨later, hlater, ho⟩ := List.mem_flatMap.mp ho
          obtain ⟨hlo, -⟩ := hrest.within hlater
          rcases List.mem_cons.mp ho with rfl | ho
          · have := hpatches later (List.mem_cons_of_mem _ hlater)
            right
            rw [Write.stop, asWrite, Replacement.patch, length_extentPatch, hfirst]
            dsimp only
            omega
          · obtain rfl := List.mem_singleton.mp ho
            left
            rw [hfirst]
            exact hlo
        rw [window_applyWrites_disjoint hlater]
        exact window_write_self _ (asWrite r.appended)
      · refine ih hrest (fun r hr => ?_) hr
        have := hpatches r (List.mem_cons_of_mem _ hr)
        omega

end overlays

/-- The virtual device of an image, as the file systems see it. -/
def virtualIso (disk : Nat → UInt8) (config : VirtualDeviceConfig) (extents : List Extent) (os : List MemoryOverlay) :
    BlockIo where
  blockSize := config.blockSize
  totalBlocks := config.blockCount
  bytes := virtualByte disk config extents os
  blockSize_lt := config.blockSize_lt
  totalBlocks_lt := (Nat.div_le_self _ _).trans_lt (Nat.mod_lt _ (Nat.two_pow_pos 64))

def withIsoSize (config : VirtualDeviceConfig) (isoSize : Nat) (h : isoSize < 2 ^ 64) : VirtualDeviceConfig :=
  { config with isoSize := isoSize, isoSize_lt := h }

section device

variable {config : VirtualDeviceConfig} {extents : List Extent} {disk : Nat → UInt8} {os : List MemoryOverlay}
  {io : Virtio.BlockIo.VirtualBlockIo}

theorem blockCount_whole (hblock : config.blockSize = 2048) (hwhole : config.isoSize % 2048 = 0) :
    config.blockCount = config.isoSize / 2048 := by
  have hlt := config.isoSize_lt
  rw [VirtualDeviceConfig.blockCount, hblock, wrappingSub_one_wrappingAdd (by omega), Nat.mod_eq_of_lt (by omega)]
  omega

/-- Overlays inside the device are added to it, and leave its size alone. -/
theorem addMemoryOverlays_inside (h : ∀ o ∈ os, o.virtualOffset + o.data.length ≤ io.config.isoSize) :
    ∃ io', io.addMemoryOverlays os = .ok io' ∧ io'.config = io.config := by
  have hlt := io.config.isoSize_lt
  induction os generalizing io with
  | nil => exact ⟨io, rfl, rfl⟩
  | cons o os ih =>
      have hstop := h o List.mem_cons_self
      have hend : o.end = some (o.virtualOffset + o.data.length) := checkedAdd_eq_some.mpr ⟨by omega, rfl⟩
      have hadd : io.addMemoryOverlay o = .ok { io with memoryOverlays := io.memoryOverlays ++ [o] } := by
        unfold addMemoryOverlay
        split
        · next hnone =>
            rw [hend] at hnone
            cases hnone
        · next stop hsome =>
            cases hend.symm.trans hsome
            rw [if_neg (by omega)]
      obtain ⟨io', hio', hconfig⟩ := @ih { io with memoryOverlays := io.memoryOverlays ++ [o] }
        (fun o ho => h o (List.mem_cons_of_mem _ ho)) hlt
      refine ⟨io', ?_, hconfig⟩
      rw [addMemoryOverlays, List.foldlM_cons, hadd]
      exact hio'

/-- A read of the virtual device gives what the file systems read from it, and fails where theirs fails. -/
theorem readBlocks_virtualIso {reader : PhysicalReader} {lba count : Nat} {buf out : List UInt8}
    (h : Built config extents reader os io) (hblocks : io.config.blockCount = config.blockCount)
    (hblock : 0 < config.blockSize) (hphysical : 0 < config.physicalBlockSize) (hd : ExtentsDisjoint extents)
    (hfit : ∀ e ∈ extents, ExtentFits config.physicalBlockSize e) (hr : Reads disk config.physicalBlockSize reader)
    (hlen : buf.length = count * config.blockSize) (hcount : 0 < count) :
    io.readBlocks io.mediaId lba buf = .ok out ↔
      (virtualIso disk config extents os).readFullBlocks lba buf.length = .ok out := by
  have hpos := Nat.mul_pos hcount hblock
  rw [readBlocks_iff h hblock hphysical hd hfit hr lba count buf out hlen, readFullBlocks_eq_ok, hlen]
  rw [VirtualBlockIo.blockCount, hblocks, virtualIso]
  dsimp only
  rw [Nat.mul_mod_left, Nat.mul_div_cancel _ hblock, ← window]
  constructor
  · rintro ⟨⟨-, hfits⟩, rfl⟩
    exact ⟨by omega, hfits, rfl⟩
  · rintro ⟨-, hfits, rfl⟩
    exact ⟨⟨by omega, hfits⟩, rfl⟩

end device

section files

variable {granted : Nat → Bool} {loadFile : Text → Option (List UInt8)} {fs : Iso9660} {rules : List VentoyConfReplace}
  {rs : List Replacement} {config : VirtualDeviceConfig} {extents : List Extent} {disk : Nat → UInt8}
  {overlays : List MemoryOverlay} {reader : PhysicalReader} {isoSize' place start stop : Nat} {data : List UInt8}

/-- The file that takes a record's place last. -/
def lastData (choices : List (Nat × List UInt8)) (place : Nat) : Option (List UInt8) :=
  (choices.reverse.find? fun choice => choice.1 = place).map Prod.snd

theorem lastExtent_eq : lastExtent (rs.map fun r => (r.place, r.extent)) place =
    (rs.reverse.find? fun r => r.place = place).map Replacement.extent := by
  induction rs using List.reverseRec with
  | nil => rfl
  | append_singleton rs r ih =>
      rw [List.map_append, lastExtent, List.foldl_append, ← lastExtent, List.reverse_append, List.map_singleton,
        List.foldl_cons, List.foldl_nil, List.reverse_singleton, List.singleton_append]
      by_cases hplace : r.place = place
      · rw [List.find?_cons_of_pos (by simpa using hplace), ← hplace, Function.update_self, Option.map_some]
      · rw [List.find?_cons_of_neg (by simpa using hplace), Function.update_of_ne (Ne.symm hplace), ih]

theorem lastData_eq : lastData (rs.map fun r => (r.place, r.data)) place =
    (rs.reverse.find? fun r => r.place = place).map Replacement.data := by
  rw [lastData, ← List.map_reverse, List.find?_map, Option.map_map]
  rfl

theorem Laid.stop_mod (h : Laid rs start stop) (hstart : start % 2048 = 0) : stop % 2048 = 0 := by
  induction rs generalizing start with
  | nil => exact h ▸ hstart
  | cons r rs ih =>
      refine ih h.2 ?_
      rw [r.length_padded]
      omega

/-- What is built: whole files appended behind the image, each with the record it takes the place of. -/
structure Overlaid (granted : Nat → Bool) (loadFile : Text → Option (List UInt8)) (fs : Iso9660)
    (rules : List VentoyConfReplace) (isoSize isoSize' : Nat) (overlays : List MemoryOverlay) (rs : List Replacement) :
    Prop where
  overlays_eq : overlays = rs.flatMap Replacement.overlays
  choices_eq : (rs.map fun r => (r.place, r.data)) = rules.filterMap (chosen granted loadFile fs)
  le : isoSize ≤ isoSize'
  mod : isoSize' % 2048 = 0
  laid : ∃ stop ≤ isoSize', Laid rs isoSize stop

theorem overlaid_of_build {isoSize : Nat} (hwhole : isoSize % 2048 = 0) (hlt : isoSize < 2 ^ 64)
    (h : buildConfReplaceOverlays granted loadFile fs rules isoSize = value (overlays, isoSize')) :
    isoSize' < 2 ^ 64 ∧ ∃ rs, Overlaid granted loadFile fs rules isoSize isoSize' overlays rs := by
  rw [buildConfReplaceOverlays] at h
  by_cases hnone : rules = []
  · rw [if_pos hnone] at h
    cases h
    subst hnone
    exact ⟨hlt, [], rfl, rfl, Nat.le_refl _, hwhole, _, Nat.le_refl _, rfl⟩
  rw [if_neg hnone] at h
  obtain ⟨_, -, hbuild⟩ := bind_eq_value.mp h
  obtain ⟨start, hstart, hrun⟩ := bind_eq_value.mp hbuild
  obtain ⟨⟨out, stop⟩, hloop, hresult⟩ := bind_eq_value.mp hrun
  rw [required_eq_value, Vhd.alignUpU64, if_neg (by decide), iso9660SectorSize, if_pos hwhole] at hstart
  cases hstart
  cases hresult
  obtain ⟨rs, rfl, hlaid, hstop, hrs⟩ := replaceLoop_spec hwhole hloop
  have hend := hlaid.stop_mod hwhole
  have hle := hlaid.le
  have hstopLt := hstop hlt
  rw [List.nil_append]
  refine ⟨?_, rs, rfl, hrs, ?_, ?_, stop, ?_, hlaid⟩
  · split
    · exact hlt
    · exact Nat.max_lt.mpr ⟨hlt, hstopLt⟩
  · split
    · exact Nat.le_refl _
    · exact Nat.le_max_left _ _
  · split
    · exact hwhole
    · rwa [Nat.max_eq_right hle]
  · split
    · next hnil =>
        cases rs with
        | nil => exact Nat.le_of_eq hlaid.symm
        | cons r rs =>
            rw [List.flatMap_cons, Replacement.overlays] at hnil
            cases hnil
    · exact Nat.le_max_right _ _

section served

variable {hlt : isoSize' < 2 ^ 64} (h : Overlaid granted loadFile fs rules config.isoSize isoSize' overlays rs)
  (hblock : config.blockSize = 2048) (hwhole : config.isoSize % 2048 = 0)
  (hio : fs.io = virtualIso disk config extents []) (hlogical : fs.blockSize = 2048)

include h hblock hio hlogical

theorem Overlaid.fileRecord {r : Replacement} (hr : r ∈ rs) : FileRecord fs.io r.place := by
  have hmem : (r.place, r.data) ∈ rs.map fun r => (r.place, r.data) := List.mem_map_of_mem hr
  rw [h.choices_eq] at hmem
  obtain ⟨rule, -, hchosen⟩ := List.mem_filterMap.mp hmem
  have hsize : fs.io.blockSize = 2048 := by
    rw [hio]
    exact hblock
  exact fileRecord_chosen (hlogical.trans hsize.symm) (by omega) hchosen

include hwhole

theorem Overlaid.place_le {r : Replacement} (hr : r ∈ rs) : r.place + 18 ≤ config.isoSize := by
  obtain ⟨lba, offset, hlba, hplace, hoffset⟩ := (h.fileRecord hblock hio hlogical hr).writeFits
  have hsize : fs.io.blockSize = 2048 := by
    rw [hio]
    exact hblock
  have htotal : fs.io.totalBlocks = config.isoSize / 2048 := by
    rw [hio]
    exact blockCount_whole hblock hwhole
  rw [hsize] at hplace hoffset
  omega

/-- The device that is served differs from the image in its records only, as far as the image goes. -/
theorem Overlaid.repointed : Repointed fs.io (virtualIso disk (withIsoSize config isoSize' hlt) extents overlays)
    (lastExtent (rs.map fun r => (r.place, r.extent))) := by
  obtain ⟨stop, hstop, hlaid⟩ := h.laid
  have htotal : fs.io.totalBlocks = config.isoSize / 2048 := by
    rw [hio]
    exact blockCount_whole hblock hwhole
  have htotal' : (withIsoSize config isoSize' hlt).blockCount = isoSize' / 2048 :=
    @blockCount_whole (withIsoSize config isoSize' hlt) hblock h.mod
  have hle := h.le
  refine repointed_writes (by rw [hio]; rfl) ?_ (fun patch hpatch => ?_) (fun x hx => ?_)
  · show fs.io.totalBlocks ≤ (withIsoSize config isoSize' hlt).blockCount
    rw [htotal, htotal']
    exact Nat.div_le_div_right hle
  · obtain ⟨r, hr, rfl⟩ := List.mem_map.mp hpatch
    exact h.fileRecord hblock hio hlogical hr
  · have hsize : fs.io.blockSize = 2048 := by
      rw [hio]
      exact hblock
    rw [htotal, hsize] at hx
    have hbelow : x < config.isoSize := by omega
    have hsame : fileByte disk config.physicalBlockSize extents isoSize' x = fs.io.bytes x := by
      rw [hio]
      show fileByte disk config.physicalBlockSize extents isoSize' x = virtualByte disk config extents [] x
      rw [virtualByte, lastOverlayByte, Option.getD_none, fileByte, fileByte, if_pos (by omega), if_pos hbelow]
    show virtualByte disk (withIsoSize config isoSize' hlt) extents overlays x = _
    rw [virtualByte, lastOverlayByte_getD, h.overlays_eq, applyWrites_overlays hlaid hbelow]
    exact applyWrites_congr (.inr hsame)

/-- The files are served whole where their extents are. -/
theorem Overlaid.appended {r : Replacement} (hr : r ∈ rs) :
    window (virtualByte disk (withIsoSize config isoSize' hlt) extents overlays) r.offset r.padded.length = r.padded := by
  obtain ⟨stop, -, hlaid⟩ := h.laid
  have hall : virtualByte disk (withIsoSize config isoSize' hlt) extents overlays =
      applyWrites (fileByte disk config.physicalBlockSize extents isoSize')
        ((rs.flatMap Replacement.overlays).map asWrite) := by
    funext x
    rw [virtualByte, lastOverlayByte_getD, h.overlays_eq]
    rfl
  rw [hall]
  exact window_appended hlaid (fun r hr => h.place_le hblock hwhole hio hlogical hr) hr

/-- A record that a file takes the place of last leads to that file. -/
theorem Overlaid.readFile {granted' : Nat → Bool} {width : Nat} {info' : DirectoryEntry} {location : RecordLocation}
    (hdata : lastData (rules.filterMap (chosen granted loadFile fs)) location.recordOffset = some data)
    (hgranted : granted' fs.blockSize = true) (hwidth : 32 ≤ width) (hfile : info'.isDir = false)
    (hlocates : Locates (fs.servedFrom (virtualIso disk (withIsoSize config isoSize' hlt) extents overlays)) info'
      (location.repoint (lastExtent (rs.map fun r => (r.place, r.extent))))) :
    info'.size = data.length ∧ ∀ offset len,
      (fs.servedFrom (virtualIso disk (withIsoSize config isoSize' hlt) extents overlays)).readFileIn granted' width info' offset len =
        value ((data.drop offset).take len) := by
  rw [← h.choices_eq, lastData_eq, Option.map_eq_some_iff] at hdata
  obtain ⟨r, hfind, rfl⟩ := hdata
  have hr := List.mem_reverse.mp (List.mem_of_find?_eq_some hfind)
  have hextent : info'.extent = (r.extent.firstSector, r.data.length) := by
    rw [← hlocates.extent_eq, RecordLocation.repoint, lastExtent_eq, hfind, ← r.size_eq]
    rfl
  have hsector : info'.startCluster = r.extent.firstSector := congrArg Prod.fst hextent
  have hsize : info'.size = r.data.length := congrArg Prod.snd hextent
  have hwindow := @Overlaid.appended _ _ _ _ _ _ extents disk _ _ hlt h hblock hwhole hio hlogical r hr
  obtain ⟨stop, hstop, hlaid⟩ := h.laid
  obtain ⟨-, hinside⟩ := hlaid.within hr
  have hoffset : r.offset = r.extent.firstSector * 2048 := rfl
  have hpadded := r.length_padded
  have htotal : (withIsoSize config isoSize' hlt).blockCount = isoSize' / 2048 :=
    @blockCount_whole (withIsoSize config isoSize' hlt) hblock h.mod
  generalize hserved : fs.servedFrom (virtualIso disk (withIsoSize config isoSize' hlt) extents overlays) = served
  have hservedBlock : served.blockSize = 2048 := hserved ▸ hlogical
  have hservedIo : served.io.blockSize = 2048 := hserved ▸ hblock
  have hservedTotal : served.io.totalBlocks = isoSize' / 2048 := hserved ▸ htotal
  have hbytes : window served.io.bytes r.offset r.padded.length = r.padded := hserved ▸ hwindow
  have hdevice : served.FileOnDevice info' := by
    rw [FileOnDevice, hservedBlock, hservedIo, hservedTotal, hsector, hsize]
    refine ⟨by omega, by omega, rfl, fun block hblock => ?_⟩
    omega
  refine ⟨hsize, fun offset len => ?_⟩
  rw [readFileIn_window (hservedBlock.trans hservedIo.symm) hdevice (by rwa [hservedBlock, ← hlogical]) hwidth hfile
    (by rw [hsize, ← r.size_eq]; exact r.extent.size_lt), hservedBlock, hsector, hsize, ← hoffset]
  refine congrArg value ?_
  by_cases hend : r.data.length ≤ offset
  · rw [List.drop_eq_nil_of_le hend, List.take_nil, show min len (r.data.length - offset) = 0 by omega]
    rfl
  · have hslice := slice_window served.io.bytes r.offset
      (show offset + min len (r.data.length - offset) ≤ r.padded.length by omega)
    rw [hbytes, slice_eq_some (by omega), Option.some.injEq, Replacement.padded,
      List.drop_append_of_le_length (by omega), List.take_append_of_le_length (by rw [List.length_drop]; omega)] at hslice
    rw [← hslice, ← List.length_drop]
    exact List.take_eq_take_min.symm

omit hblock hwhole hio hlogical in
/-- A record that no file takes the place of leads where it led. -/
theorem Overlaid.extent_kept {location : RecordLocation}
    (hdata : lastData (rules.filterMap (chosen granted loadFile fs)) location.recordOffset = none) :
    location.repoint (lastExtent (rs.map fun r => (r.place, r.extent))) = location := by
  rw [← h.choices_eq, lastData_eq, Option.map_eq_none_iff] at hdata
  rw [RecordLocation.repoint, lastExtent_eq, hdata]
  rfl

omit hblock hwhole hlogical in
/-- What lies on the image and not in a record that is patched is served as it is there. -/
theorem Overlaid.byte_kept {x : Nat} (hx : x < config.isoSize)
    (hapart : ∀ place data, (place, data) ∈ rules.filterMap (chosen granted loadFile fs) → x < place + 2 ∨ place + 18 ≤ x) :
    virtualByte disk (withIsoSize config isoSize' hlt) extents overlays x = fs.io.bytes x := by
  obtain ⟨stop, -, hlaid⟩ := h.laid
  have hle := h.le
  have hsame : fileByte disk config.physicalBlockSize extents isoSize' x = fs.io.bytes x := by
    rw [hio]
    show fileByte disk config.physicalBlockSize extents isoSize' x = virtualByte disk config extents [] x
    rw [virtualByte, lastOverlayByte, Option.getD_none, fileByte, fileByte, if_pos (by omega), if_pos hx]
  rw [virtualByte, lastOverlayByte_getD, h.overlays_eq, applyWrites_overlays hlaid hx, applyWrites_frame]
  · exact hsame
  · intro w hw hcovers
    obtain ⟨patch, hpatch, rfl⟩ := List.mem_map.mp hw
    obtain ⟨r, hr, rfl⟩ := List.mem_map.mp hpatch
    have hmem : (r.place, r.data) ∈ rules.filterMap (chosen granted loadFile fs) := by
      rw [← h.choices_eq]
      exact List.mem_map_of_mem hr
    have hplace := hapart _ _ hmem
    rw [Write.covers, Write.stop, extentWrite, length_extentPatch] at hcovers
    dsimp only at hcovers
    omega

/-- A file that none takes the place of, and that no patched record lies in, reads as it did. -/
theorem Overlaid.readFile_kept {granted' : Nat → Bool} {width offset len : Nat} {info info' : DirectoryEntry}
    (hgranted : granted' fs.blockSize = true) (hwidth : 32 ≤ width) (hfile : info.isDir = false) (hfile' : info'.isDir = false)
    (hextent : info'.extent = info.extent) (hsize : info.size < 2 ^ 32) (hdevice : fs.FileOnDevice info)
    (hapart : ∀ place data, (place, data) ∈ rules.filterMap (chosen granted loadFile fs) →
      place + 18 ≤ info.startCluster * 2048 ∨ info.startCluster * 2048 + info.size ≤ place + 2) :
    (fs.servedFrom (virtualIso disk (withIsoSize config isoSize' hlt) extents overlays)).readFileIn granted' width info' offset len =
      fs.readFileIn granted' width info offset len := by
  have hstart : info'.startCluster = info.startCluster := congrArg Prod.fst hextent
  have hlength : info'.size = info.size := congrArg Prod.snd hextent
  have hfsIo : fs.io.blockSize = 2048 := by
    rw [hio]
    exact hblock
  have htotal : fs.io.totalBlocks = config.isoSize / 2048 := by
    rw [hio]
    exact blockCount_whole hblock hwhole
  have htotal' : (withIsoSize config isoSize' hlt).blockCount = isoSize' / 2048 :=
    @blockCount_whole (withIsoSize config isoSize' hlt) hblock h.mod
  have hle := Nat.div_le_div_right (c := 2048) h.le
  have hblocks := hdevice.2.2.2
  rw [hlogical, hfsIo, htotal] at hblocks
  have hinside : ∀ i < info.size, info.startCluster * 2048 + i < config.isoSize := by
    intro i hi
    have := hblocks (i / 2048) (by omega)
    omega
  have hkept : ∀ i < info.size, virtualByte disk (withIsoSize config isoSize' hlt) extents overlays
      (info.startCluster * 2048 + i) = fs.io.bytes (info.startCluster * 2048 + i) := by
    intro i hi
    refine h.byte_kept hio (hinside i hi) fun place data hmem => ?_
    have := hapart place data hmem
    omega
  generalize hserved : fs.servedFrom (virtualIso disk (withIsoSize config isoSize' hlt) extents overlays) = served
  have hservedBlock : served.blockSize = 2048 := hserved ▸ hlogical
  have hservedIo : served.io.blockSize = 2048 := hserved ▸ hblock
  have hservedTotal : served.io.totalBlocks = isoSize' / 2048 := hserved ▸ htotal'
  have hbytes : served.io.bytes = virtualByte disk (withIsoSize config isoSize' hlt) extents overlays := by
    rw [← hserved]
    rfl
  have hdevice' : served.FileOnDevice info' := by
    rw [FileOnDevice, hservedBlock, hservedIo, hservedTotal, hstart, hlength]
    refine ⟨by omega, by omega, rfl, fun block hblock => ?_⟩
    have := hblocks block hblock
    omega
  rw [readFileIn_window (hservedBlock.trans hservedIo.symm) hdevice' (by rwa [hservedBlock, ← hlogical]) hwidth hfile'
    (by rwa [hlength]), readFileIn_window (hlogical.trans hfsIo.symm) hdevice hgranted hwidth hfile hsize, hservedBlock,
    hlogical, hstart, hlength, hbytes]
  exact congrArg value (window_part hkept)

end served

end files

def imageConfig : VirtualDeviceConfig := ⟨40960, 2048, 2048, by decide, Words.isoSector_lt_u32, Words.isoSector_lt_u32⟩

/-- The bytes of an image with one file in its root directory. -/
def imageDisk : Nat → UInt8 :=
  (sampleDevice ([sampleRecord 18 [0] (markedUse 2), sampleRecord 18 [1] (markedUse 4),
    (sampleRecord 19 [0x41] []).set 25 0].flatten) []).bytes

def imageVolume : Iso9660 where
  io := virtualIso imageDisk imageConfig [(0, 0, 20)] []
  blockSize := 2048
  rootLba := 18
  rootSize := 2048
  blockSize_lt := Words.isoSector_lt_u16
  rootLba_lt := Words.eighteen_lt_u32
  rootSize_lt := Words.isoSector_lt_u32

def imagePath : Text := ['/', 'a']

def imageRules : List VentoyConfReplace := [⟨imagePath, ['n']⟩, ⟨imagePath, ['m']⟩, ⟨['/', 'b'], ['n']⟩]

def imageFiles (path : Text) : Option (List UInt8) := if path = ['n'] then some [1, 2, 3] else some [4, 5]

theorem openChecked_imageVolume :
    openChecked (fun _ => true) (virtualIso imageDisk imageConfig [(0, 0, 20)] []) = value imageVolume := by
  have hfields : (openChecked (fun _ => true) (virtualIso imageDisk imageConfig [(0, 0, 20)] []) >>= fun fs =>
      value (fs.blockSize, fs.rootLba, fs.rootSize)) = value (2048, 18, 2048) := by decide +kernel
  obtain ⟨⟨io, blockSize, rootLba, rootSize, _, _, _⟩, hopen, hfields⟩ := bind_eq_value.mp hfields
  obtain ⟨rfl, -⟩ := openChecked_io hopen
  cases hfields
  exact hopen

end NextBoot.Boot.ConfReplace
