import NextBoot.Boot.ReplacedFiles
import NextBoot.Fs.Udf.FileReplacement

namespace NextBoot.Boot.ConfReplace

open Words Bytes Strings Results BlockStore
open Fs hiding fileByte
open Fs.Udf
open Virtio.Mapping Virtio.BlockIo Virtio.Translation Virtio.ReadSemantics Virtio.DeviceReads
open Virtio.BlockIo.VirtualBlockIo (fromFileExtents setPhysicalReader addMemoryOverlay addMemoryOverlays)

def asOverlay (w : Write UInt8) : MemoryOverlay := ⟨w.start, w.cells⟩

section build

variable (granted : Nat → Bool) (loadFile : Text → Option (List UInt8)) (fs : Mounted)

/-- The loop over the rules for a UDF image: a rule whose file cannot be replaced is passed over. -/
def udfReplaceLoop : List VentoyConfReplace → List MemoryOverlay → Nat → Except OverlayError (List MemoryOverlay × Nat)
  | [], overlays, nextAppendOffset => pure (overlays, nextAppendOffset)
  | rule :: rules, overlays, nextAppendOffset =>
      match loadFile rule.newPath with
      | none => udfReplaceLoop rules overlays nextAppendOffset
      | some data =>
          if ventoyConfReplaceMaxSize < data.length then udfReplaceLoop rules overlays nextAppendOffset
          else do
            let alignedLen ← someOr (alignUp data.length iso9660SectorSize) .outOfResources
            match fs.fileReplacementPatch granted rule.org (nextAppendOffset / iso9660SectorSize) data.length alignedLen with
            | .error _ => udfReplaceLoop rules overlays nextAppendOffset
            | .ok patch => do
                let stop ← someOr (checkedAdd 64 nextAppendOffset alignedLen) .outOfResources
                udfReplaceLoop rules
                  (overlays ++ patch.writes.map asOverlay ++
                    [⟨nextAppendOffset, data ++ List.replicate (alignedLen - data.length) 0⟩]) stop

/-- `build_conf_replace_overlays` for a UDF image. -/
def buildUdfOverlays (rules : List VentoyConfReplace) (isoSize : Nat) :
    Except OverlayError (List MemoryOverlay × Nat) :=
  if rules = [] then pure ([], isoSize)
  else do
    refuseIf (granted (rules.length * 3) = false) .outOfResources
    let start ← someOr (Vhd.alignUpU64 isoSize iso9660SectorSize) .outOfResources
    let (overlays, stop) ← udfReplaceLoop granted loadFile fs rules [] start
    pure (overlays, if overlays = [] then isoSize else max isoSize stop)

/-- The length of a file with the rest of its last sector. -/
def paddedLength (data : List UInt8) : Nat := (data.length + 2047) / 2048 * 2048

/-- The file entries that the rules come to, with the files that take their places, where the first is appended from
`start` on. -/
def udfChosen : List VentoyConfReplace → Nat → List (Nat × List UInt8)
  | [], _ => []
  | rule :: rules, start =>
      match (loadFile rule.newPath).filter fun data => data.length ≤ ventoyConfReplaceMaxSize with
      | none => udfChosen rules start
      | some data =>
          match fs.findNode granted rule.org with
          | .error _ => udfChosen rules start
          | .ok node =>
              match replaceNode fs.toVolume node (start / 2048) data.length (paddedLength data) with
              | .error _ => udfChosen rules start
              | .ok _ => (node.entryLba, data) :: udfChosen rules (start + paddedLength data)

end build

/-- A file of the image with the one that takes its place. -/
structure UdfReplacement where
  replaced : Replaced
  data : List UInt8

namespace UdfReplacement

def offset (r : UdfReplacement) : Nat := r.replaced.lba * 2048

def padded (r : UdfReplacement) : List UInt8 := r.data ++ List.replicate (paddedLength r.data - r.data.length) 0

def appended (r : UdfReplacement) : Write UInt8 := ⟨r.offset, r.padded⟩

def writes (r : UdfReplacement) : List (Write UInt8) := r.replaced.patch.writes ++ [r.appended]

theorem length_padded (r : UdfReplacement) : r.padded.length = paddedLength r.data := by
  rw [padded, List.length_append, List.length_replicate, paddedLength]
  omega

end UdfReplacement

/-- Files that are appended one behind the other. -/
def UdfLaid : List UdfReplacement → Nat → Nat → Prop
  | [], start, stop => start = stop
  | r :: rs, start, stop => r.offset = start ∧ UdfLaid rs (start + r.padded.length) stop

/-- A replacement that a rule has come to. -/
structure FromRule (granted : Nat → Bool) (fs : Mounted) (r : UdfReplacement) : Prop where
  found : ∃ path, fs.findNode granted path = .ok r.replaced.node
  patched : replaceNode fs.toVolume r.replaced.node r.replaced.lba r.replaced.size r.replaced.allocated = .ok r.replaced.patch
  size_eq : r.replaced.size = r.data.length
  allocated_eq : r.replaced.allocated = r.padded.length
  small : r.data.length ≤ ventoyConfReplaceMaxSize

section loop

variable {granted : Nat → Bool} {loadFile : Text → Option (List UInt8)} {fs : Mounted} {rules : List VentoyConfReplace}
  {overlays out : List MemoryOverlay} {rs : List UdfReplacement} {r : UdfReplacement} {start stop : Nat}

theorem UdfLaid.le (h : UdfLaid rs start stop) : start ≤ stop := by
  induction rs generalizing start with
  | nil => exact Nat.le_of_eq h
  | cons r rs ih => exact (Nat.le_add_right _ _).trans (ih h.2)

theorem UdfLaid.within (h : UdfLaid rs start stop) (hr : r ∈ rs) : start ≤ r.offset ∧ r.offset + r.padded.length ≤ stop := by
  induction rs generalizing start with
  | nil => exact absurd hr List.not_mem_nil
  | cons first rs ih =>
      obtain ⟨hfirst, hrest⟩ := h
      rcases List.mem_cons.mp hr with rfl | hr
      · rw [hfirst]
        exact ⟨Nat.le_refl _, hrest.le⟩
      · obtain ⟨hlo, hhi⟩ := ih hrest hr
        exact ⟨(Nat.le_add_right _ _).trans hlo, hhi⟩

theorem UdfLaid.stop_mod (h : UdfLaid rs start stop) (hstart : start % 2048 = 0) : stop % 2048 = 0 := by
  induction rs generalizing start with
  | nil => exact h ▸ hstart
  | cons r rs ih =>
      refine ih h.2 ?_
      rw [r.length_padded, paddedLength]
      omega

/-- The loop leaves the overlays of the rules that come to something, file behind file. -/
theorem udfReplaceLoop_spec (hstart : start % 2048 = 0)
    (h : udfReplaceLoop granted loadFile fs rules overlays start = .ok (out, stop)) :
    ∃ rs, out = overlays ++ (rs.flatMap UdfReplacement.writes).map asOverlay ∧ UdfLaid rs start stop ∧
      (start < 2 ^ 64 → stop < 2 ^ 64) ∧ (∀ r ∈ rs, FromRule granted fs r) ∧
      (rs.map fun r => (r.replaced.node.entryLba, r.data)) = udfChosen granted loadFile fs rules start := by
  induction rules generalizing overlays start with
  | nil =>
      cases h
      exact ⟨[], (List.append_nil _).symm, rfl, id, fun r hr => absurd hr List.not_mem_nil, rfl⟩
  | cons rule rules ih =>
      rw [udfReplaceLoop] at h
      rw [udfChosen]
      cases hload : loadFile rule.newPath with
      | none =>
          rw [hload] at h
          exact ih hstart h
      | some data =>
          rw [hload] at h
          dsimp only at h
          rw [Option.filter_some]
          by_cases hlarge : ventoyConfReplaceMaxSize < data.length
          · rw [if_pos hlarge] at h
            rw [if_neg (by simpa using hlarge)]
            exact ih hstart h
          rw [if_neg hlarge] at h
          rw [if_pos (by simpa using hlarge)]
          obtain ⟨alignedLen, haligned, h⟩ := bind_eq_ok.mp h
          obtain ⟨sum, hsum, rfl⟩ := Option.map_eq_some_iff.mp (someOr_eq_ok.mp haligned)
          obtain ⟨-, rfl⟩ := checkedAdd_eq_some.mp hsum
          have hround : (data.length + (iso9660SectorSize - 1)) / iso9660SectorSize * iso9660SectorSize = paddedLength data := rfl
          rw [hround, iso9660SectorSize] at h
          dsimp only
          cases hfind : fs.findNode granted rule.org with
          | error e =>
              rw [Mounted.fileReplacementPatch, hfind] at h
              exact ih hstart h
          | ok node =>
              rw [Mounted.fileReplacementPatch, hfind, ok_bind] at h
              dsimp only
              cases hreplace : replaceNode fs.toVolume node (start / 2048) data.length (paddedLength data) with
              | error e =>
                  rw [hreplace] at h
                  exact ih hstart h
              | ok patch =>
                  rw [hreplace] at h
                  dsimp only at h ⊢
                  obtain ⟨next, hnext, h⟩ := bind_eq_ok.mp h
                  obtain ⟨hnextLt, rfl⟩ := checkedAdd_eq_some.mp (someOr_eq_ok.mp hnext)
                  have hpadded : paddedLength data % 2048 = 0 := Nat.mul_mod_left _ _
                  obtain ⟨rs, hout, hlaid, hstop, hrs, hchosen⟩ := ih (by omega) h
                  have hoffset : start / 2048 * 2048 = start := Nat.div_mul_cancel (Nat.dvd_of_mod_eq_zero hstart)
                  let r : UdfReplacement := ⟨⟨node, start / 2048, data.length, paddedLength data, patch⟩, data⟩
                  have hlength : r.padded.length = paddedLength data := r.length_padded
                  refine ⟨r :: rs, ?_, ⟨hoffset, ?_⟩, fun _ => hstop hnextLt, fun s hs => ?_, ?_⟩
                  · rw [hout, List.flatMap_cons, UdfReplacement.writes, UdfReplacement.appended]
                    simp only [r, UdfReplacement.offset, UdfReplacement.padded, hoffset, List.map_append, List.append_assoc]
                    rfl
                  · rw [hlength]
                    exact hlaid
                  · rcases List.mem_cons.mp hs with rfl | hs
                    · exact ⟨⟨rule.org, hfind⟩, hreplace, rfl, hlength.symm, Nat.le_of_not_lt hlarge⟩
                    · exact hrs s hs
                  · rw [List.map_cons, hchosen]

end loop

section overlays

variable {rs : List UdfReplacement} {r : UdfReplacement} {m : Nat → UInt8} {start stop x : Nat} {ws : List (Write UInt8)}

theorem map_asWrite : (ws.map asOverlay).map asWrite = ws := by
  rw [List.map_map]
  exact List.map_id ws

/-- Below the files that are appended only the descriptors change. -/
theorem applyWrites_udf (hlaid : UdfLaid rs start stop) (hx : x < start) :
    applyWrites m (rs.flatMap UdfReplacement.writes) x = applyWrites m (rs.flatMap fun r => r.replaced.patch.writes) x := by
  have hbelow : ∀ r ∈ rs, ¬ r.appended.covers x := by
    intro r hr hcovers
    have hle := (hlaid.within hr).1
    have : r.offset ≤ x := hcovers.1
    omega
  clear hlaid
  induction rs generalizing m with
  | nil => rfl
  | cons r rs ih =>
      rw [List.flatMap_cons, List.flatMap_cons, applyWrites_append, applyWrites_append,
        ih fun r hr => hbelow r (List.mem_cons_of_mem _ hr)]
      refine applyWrites_congr (.inr ?_)
      rw [UdfReplacement.writes, applyWrites_append]
      exact write_frame (hbelow r List.mem_cons_self)

/-- What is appended stays as it is. -/
theorem window_udf (hlaid : UdfLaid rs start stop) (hpatches : ∀ r ∈ rs, ∀ w ∈ r.replaced.patch.writes, w.stop ≤ start)
    (hr : r ∈ rs) : window (applyWrites m (rs.flatMap UdfReplacement.writes)) r.offset r.padded.length = r.padded := by
  induction rs generalizing m start with
  | nil => exact absurd hr List.not_mem_nil
  | cons first rs ih =>
      obtain ⟨hfirst, hrest⟩ := hlaid
      rw [List.flatMap_cons, applyWrites_append]
      rcases List.mem_cons.mp hr with rfl | hr
      · have hlater : ∀ w ∈ rs.flatMap UdfReplacement.writes, w.disjointFrom r.offset r.padded.length := by
          intro w hw
          obtain ⟨later, hlater, hw⟩ := List.mem_flatMap.mp hw
          rcases List.mem_append.mp hw with hw | hw
          · rw [Write.disjointFrom, hfirst]
            exact .inr (hpatches later (List.mem_cons_of_mem _ hlater) w hw)
          · rw [List.mem_singleton.mp hw, Write.disjointFrom, hfirst]
            exact .inl (hrest.within hlater).1
        rw [window_applyWrites_disjoint hlater, UdfReplacement.writes, applyWrites_append]
        exact window_write_self _ r.appended
      · refine ih hrest (fun r hr w hw => ?_) hr
        exact (hpatches r (List.mem_cons_of_mem _ hr) w hw).trans (Nat.le_add_right _ _)

theorem lastWrite_eq_none {start : Nat} : lastWrite ws start = none ↔ ∀ w ∈ ws, w.start ≠ start := by
  rw [lastWrite, Option.map_eq_none_iff, List.find?_eq_none]
  simp

end overlays

section served

variable {granted : Nat → Bool} {loadFile : Text → Option (List UInt8)} {fs : Mounted} {rules : List VentoyConfReplace}
  {rs : List UdfReplacement} {r : UdfReplacement} {start stop place : Nat} {data : List UInt8} {io : Fs.BlockIo}

theorem FromRule.valid (h : FromRule granted fs r) (hopen : openUdf io = .ok fs) : r.replaced.Valid fs.toVolume := by
  obtain ⟨path, hfind⟩ := h.found
  obtain ⟨hinside, hread, hpartRef⟩ := findNode_read hopen hfind
  exact ⟨hinside, hread, hpartRef, h.patched⟩

/-- A file that is appended fills its blocks. -/
theorem FromRule.stop_eq (h : FromRule granted fs r) : r.replaced.stop 2048 * 2048 = r.offset + r.padded.length := by
  have hsmall := h.small
  have hlength := r.length_padded
  rw [ventoyConfReplaceMaxSize] at hsmall
  rw [paddedLength] at hlength
  rw [Replaced.stop, h.allocated_eq, Volume.divRoundUp, if_neg (by decide),
    show saturatingAdd 64 r.padded.length (2048 - 1) = r.padded.length + (2048 - 1) from Nat.min_eq_left (by omega),
    UdfReplacement.offset]
  omega

theorem UdfLaid.stops (hlaid : UdfLaid rs start stop) (hrs : ∀ r ∈ rs, FromRule granted fs r) :
    (rs.map UdfReplacement.replaced).Pairwise fun r s => r.stop 2048 ≤ s.stop 2048 := by
  induction rs generalizing start with
  | nil => exact .nil
  | cons r rs ih =>
      obtain ⟨hfirst, hrest⟩ := hlaid
      refine .cons (fun s hs => ?_) (ih hrest fun s hs => hrs s (List.mem_cons_of_mem _ hs))
      obtain ⟨later, hlater, rfl⟩ := List.mem_map.mp hs
      have hstop := (hrs r List.mem_cons_self).stop_eq
      have hstop' := (hrs later (List.mem_cons_of_mem _ hlater)).stop_eq
      have hwithin := (hrest.within hlater).1
      omega

theorem lastData_udf : lastData (rs.map fun r => (r.replaced.node.entryLba, r.data)) place =
    (rs.reverse.find? fun r => r.replaced.node.entryLba = place).map UdfReplacement.data := by
  rw [lastData, ← List.map_reverse, List.find?_map, Option.map_map]
  rfl

theorem find?_replaced : (rs.map UdfReplacement.replaced).reverse.find? (fun r => r.node.entryLba = place) =
    (rs.reverse.find? fun r => r.replaced.node.entryLba = place).map UdfReplacement.replaced := by
  rw [← List.map_reverse, List.find?_map]
  rfl

/-- What is built: whole files appended behind the image, each with the patch of the file entry that it takes over. -/
structure UdfOverlaid (granted : Nat → Bool) (loadFile : Text → Option (List UInt8)) (fs : Mounted)
    (rules : List VentoyConfReplace) (isoSize isoSize' : Nat) (overlays : List MemoryOverlay) (rs : List UdfReplacement) :
    Prop where
  overlays_eq : overlays = (rs.flatMap UdfReplacement.writes).map asOverlay
  fromRule : ∀ r ∈ rs, FromRule granted fs r
  chosen_eq : (rs.map fun r => (r.replaced.node.entryLba, r.data)) = udfChosen granted loadFile fs rules isoSize
  le : isoSize ≤ isoSize'
  mod : isoSize' % 2048 = 0
  laid : ∃ stop ≤ isoSize', UdfLaid rs isoSize stop

theorem udfOverlaid_of_build {isoSize isoSize' : Nat} {overlays : List MemoryOverlay} (hwhole : isoSize % 2048 = 0)
    (hlt : isoSize < 2 ^ 64) (h : buildUdfOverlays granted loadFile fs rules isoSize = .ok (overlays, isoSize')) :
    isoSize' < 2 ^ 64 ∧ ∃ rs, UdfOverlaid granted loadFile fs rules isoSize isoSize' overlays rs := by
  rw [buildUdfOverlays] at h
  by_cases hnone : rules = []
  · rw [if_pos hnone] at h
    cases h
    subst hnone
    exact ⟨hlt, [], rfl, fun r hr => absurd hr List.not_mem_nil, rfl, Nat.le_refl _, hwhole, _, Nat.le_refl _, rfl⟩
  rw [if_neg hnone] at h
  obtain ⟨_, -, h⟩ := bind_eq_ok.mp h
  obtain ⟨start, hstart, h⟩ := bind_eq_ok.mp h
  obtain ⟨⟨out, stop⟩, hloop, hresult⟩ := bind_eq_ok.mp h
  rw [someOr_eq_ok, Vhd.alignUpU64, if_neg (by decide), iso9660SectorSize, if_pos hwhole] at hstart
  cases hstart
  cases hresult
  obtain ⟨rs, rfl, hlaid, hstop, hrs, hchosen⟩ := udfReplaceLoop_spec hwhole hloop
  have hend := hlaid.stop_mod hwhole
  have hle := hlaid.le
  have hstopLt := hstop hlt
  rw [List.nil_append]
  refine ⟨?_, rs, rfl, hrs, hchosen, ?_, ?_, stop, ?_, hlaid⟩
  · split
    · exact hlt
    · exact Nat.max_lt.mpr ⟨hlt, hstopLt⟩
  · split
    · exact Nat.le_refl _
    · exact Nat.le_max_left _ _
  · split
    · exact hwhole
    · rwa [Nat.max_eq_right hle]
  · split
    · next hnil =>
        cases rs with
        | nil => exact Nat.le_of_eq hlaid.symm
        | cons r rs =>
            rw [List.flatMap_cons, UdfReplacement.writes, List.map_append, List.map_append] at hnil
            simp at hnil
    · exact Nat.le_max_right _ _

end served

section device

variable {granted : Nat → Bool} {loadFile : Text → Option (List UInt8)} {fs fs' : Mounted} {rules : List VentoyConfReplace}
  {rs : List UdfReplacement} {r : UdfReplacement} {config : VirtualDeviceConfig} {extents : List Extent} {disk : Nat → UInt8}
  {overlays : List MemoryOverlay} {isoSize' : Nat} {hlt : isoSize' < 2 ^ 64}
  (h : UdfOverlaid granted loadFile fs rules config.isoSize isoSize' overlays rs)
  (hblock : config.blockSize = 2048) (hwhole : config.isoSize % 2048 = 0)
  (hopen : openUdf (virtualIso disk config extents []) = .ok fs)

include h hblock hwhole hopen

omit h in
theorem mounted_io_eq : fs.io = virtualIso disk config extents [] ∧ fs.io.blockSize = 2048 ∧
    fs.io.totalBlocks * 2048 = config.isoSize := by
  obtain ⟨hio, -⟩ := openUdf_root hopen
  rw [hio]
  refine ⟨rfl, hblock, ?_⟩
  show config.blockCount * 2048 = config.isoSize
  rw [blockCount_whole hblock hwhole]
  omega

theorem UdfOverlaid.patch_le (hr : r ∈ rs) {w : Write UInt8} (hw : w ∈ r.replaced.patch.writes) : w.stop ≤ config.isoSize := by
  obtain ⟨-, hsize, htotal⟩ := mounted_io_eq hblock hwhole hopen
  obtain ⟨lba, hlba, hstart, hlength, -⟩ := ((h.fromRule r hr).valid hopen).writes_blocks (openUdf_described hopen) hw
  rw [hsize] at hstart hlength
  have hle := Nat.mul_le_mul_right 2048 hlba
  rw [Nat.succ_mul] at hle
  rw [Write.stop, hstart, hlength]
  omega

omit hblock in
/-- The device that is served holds the patches, as far as the image goes. -/
theorem UdfOverlaid.bytes {x : Nat} (hx : x < config.isoSize) :
    virtualByte disk (withIsoSize config isoSize' hlt) extents overlays x =
      applyWrites fs.io.bytes ((rs.map UdfReplacement.replaced).flatMap fun r => r.patch.writes) x := by
  obtain ⟨hio, -⟩ := openUdf_root hopen
  obtain ⟨stop, -, hlaid⟩ := h.laid
  have hle := h.le
  have hsame : fileByte disk config.physicalBlockSize extents isoSize' x = fs.io.bytes x := by
    rw [hio]
    show fileByte disk config.physicalBlockSize extents isoSize' x = virtualByte disk config extents [] x
    rw [virtualByte, lastOverlayByte, Option.getD_none, fileByte, fileByte, if_pos (by omega), if_pos hx]
  rw [virtualByte, lastOverlayByte_getD, h.overlays_eq, map_asWrite, applyWrites_udf hlaid hx, List.flatMap_map]
  exact applyWrites_congr (.inr hsame)

/-- The files are served whole where they are appended. -/
theorem UdfOverlaid.appended (hr : r ∈ rs) :
    window (virtualByte disk (withIsoSize config isoSize' hlt) extents overlays) r.offset r.data.length = r.data := by
  obtain ⟨stop, -, hlaid⟩ := h.laid
  have hall : virtualByte disk (withIsoSize config isoSize' hlt) extents overlays =
      applyWrites (fileByte disk config.physicalBlockSize extents isoSize') (rs.flatMap UdfReplacement.writes) := by
    funext x
    rw [virtualByte, lastOverlayByte_getD, h.overlays_eq, map_asWrite]
    rfl
  have hpadded := @window_udf rs r (fileByte disk config.physicalBlockSize extents isoSize') config.isoSize stop hlaid
    (fun r hr w hw => h.patch_le hblock hwhole hopen hr hw) hr
  have hlength := r.length_padded
  rw [paddedLength] at hlength
  have hpart := take_window (applyWrites (fileByte disk config.physicalBlockSize extents isoSize')
    (rs.flatMap UdfReplacement.writes)) r.offset r.padded.length r.data.length
  rw [hpadded, UdfReplacement.padded, List.take_left, Nat.min_eq_left (by
    rw [List.length_append]
    exact Nat.le_add_right _ _)] at hpart
  rw [hall, ← hpart]

end device

def udfConfig : VirtualDeviceConfig := ⟨526336, 2048, 2048, by decide, Words.isoSector_lt_u32, Words.isoSector_lt_u32⟩

def udfDisk : Nat → UInt8 := applyWrites (fun _ => 0) (sampleWrites 2048)

end NextBoot.Boot.ConfReplace
