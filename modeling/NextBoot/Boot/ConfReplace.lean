import NextBoot.Fs.LargeFiles
import NextBoot.Fs.RepointedVolume
import NextBoot.Vhd.Dynamic
import NextBoot.Virtio.DeviceReads

namespace NextBoot.Boot.ConfReplace

open Words Bytes Strings Results Faults Outcome BlockStore
open Fs Fs.Paths Fs.Scan Fs.Iso9660
open Virtio.Mapping Virtio.BlockIo Virtio.Translation Virtio.ReadSemantics Virtio.DeviceReads
open Virtio.BlockIo.VirtualBlockIo (fromFileExtents setPhysicalReader addMemoryOverlay addMemoryOverlays)

/-- A rule of the configuration: the file of the image, and the file of the volume that takes its place. -/
structure VentoyConfReplace where
  org : Text
  newPath : Text
deriving DecidableEq, Repr

inductive OverlayError
  | outOfResources
deriving DecidableEq, Repr

def iso9660SectorSize : Nat := 2048

def ventoyConfReplaceMaxSize : Nat := 1024 * 1024

/-- `align_up` to a power of two. -/
def alignUp (value align : Nat) : Option Nat := (checkedAdd 64 value (align - 1)).map fun sum => sum / align * align

def required (o : Option Nat) : Outcome OverlayError Nat := ofExcept (someOr o .outOfResources)

def u32TryFrom (value : Nat) : Option Nat := if value < 2 ^ 32 then some value else none

section build

variable (granted : Nat → Bool) (loadFile : Text → Option (List UInt8)) (fs : Iso9660)

/-- The loop over the rules: the overlays of the rules before, and where the next file is appended. -/
def replaceLoop : List VentoyConfReplace → List MemoryOverlay → Nat → Outcome OverlayError (List MemoryOverlay × Nat)
  | [], overlays, nextAppendOffset => pure (overlays, nextAppendOffset)
  | rule :: rules, overlays, nextAppendOffset =>
      match directoryRecordLocation granted fs rule.org with
      | fault => fault
      | error _ => replaceLoop rules overlays nextAppendOffset
      | value record =>
          if record.isDir then replaceLoop rules overlays nextAppendOffset
          else
            match loadFile rule.newPath with
            | none => replaceLoop rules overlays nextAppendOffset
            | some data =>
                if ventoyConfReplaceMaxSize < data.length then replaceLoop rules overlays nextAppendOffset
                else do
                  let alignedLen ← required (alignUp data.length iso9660SectorSize)
                  let replacementSize ← required (u32TryFrom data.length)
                  let replacementSector ← required (u32TryFrom (nextAppendOffset / iso9660SectorSize))
                  let patchOffset ← required (checkedAdd 64 record.recordOffset 2)
                  let stop ← required (checkedAdd 64 nextAppendOffset alignedLen)
                  replaceLoop rules
                    (overlays ++ [⟨patchOffset, iso9660FileExtentPatch replacementSector replacementSize⟩,
                      ⟨nextAppendOffset, data ++ List.replicate (alignedLen - data.length) 0⟩]) stop

/-- `build_conf_replace_overlays` for an image that is not UDF. Where there are overlays, the device grows to the end of
the last one. -/
def buildConfReplaceOverlays (rules : List VentoyConfReplace) (isoSize : Nat) :
    Outcome OverlayError (List MemoryOverlay × Nat) :=
  if rules = [] then pure ([], isoSize)
  else do
    let _ ← required (if granted (rules.length * 3) then some 0 else none)
    let start ← required (Vhd.alignUpU64 isoSize iso9660SectorSize)
    let (overlays, stop) ← replaceLoop granted loadFile fs rules [] start
    pure (overlays, if overlays = [] then isoSize else max isoSize stop)

end build

/-- A file of the image that another one takes the place of: the place of its directory record, and the extent that the
other one is appended at. -/
structure Replacement where
  place : Nat
  data : List UInt8
  extent : RecordExtent
  size_eq : extent.size = data.length

namespace Replacement

def offset (r : Replacement) : Nat := r.extent.firstSector * iso9660SectorSize

/-- The file with the rest of its last sector. -/
def padded (r : Replacement) : List UInt8 :=
  r.data ++ List.replicate ((r.data.length + 2047) / 2048 * 2048 - r.data.length) 0

def patch (r : Replacement) : MemoryOverlay := ⟨r.place + 2, iso9660FileExtentPatch r.extent.firstSector r.extent.size⟩

def appended (r : Replacement) : MemoryOverlay := ⟨r.offset, r.padded⟩

def overlays (r : Replacement) : List MemoryOverlay := [r.patch, r.appended]

theorem length_padded (r : Replacement) : r.padded.length = (r.data.length + 2047) / 2048 * 2048 := by
  rw [padded, List.length_append, List.length_replicate]
  omega

end Replacement

/-- Files that are appended one behind the other. -/
def Laid : List Replacement → Nat → Nat → Prop
  | [], start, stop => start = stop
  | r :: rs, start, stop => r.offset = start ∧ Laid rs (start + r.padded.length) stop

/-- The record and the file that a rule comes to, where it comes to anything. -/
def chosen (granted : Nat → Bool) (loadFile : Text → Option (List UInt8)) (fs : Iso9660) (rule : VentoyConfReplace) :
    Option (Nat × List UInt8) :=
  match directoryRecordLocation granted fs rule.org with
  | value record =>
      if record.isDir then none
      else ((loadFile rule.newPath).filter fun data => data.length ≤ ventoyConfReplaceMaxSize).map fun data =>
        (record.recordOffset, data)
  | _ => none

section loop

variable {granted : Nat → Bool} {loadFile : Text → Option (List UInt8)} {fs : Iso9660} {rule : VentoyConfReplace}
  {rules : List VentoyConfReplace} {overlays out : List MemoryOverlay} {rs : List Replacement} {start stop : Nat}

theorem required_eq_value {o : Option Nat} {n : Nat} : required o = value n ↔ o = some n := by
  rw [required, ofExcept_eq_value, someOr_eq_ok]

theorem Laid.le (h : Laid rs start stop) : start ≤ stop := by
  induction rs generalizing start with
  | nil => exact Nat.le_of_eq h
  | cons r rs ih => exact (Nat.le_add_right _ _).trans (ih h.2)

theorem Laid.within (h : Laid rs start stop) {r : Replacement} (hr : r ∈ rs) :
    start ≤ r.offset ∧ r.offset + r.padded.length ≤ stop := by
  induction rs generalizing start with
  | nil => exact absurd hr List.not_mem_nil
  | cons first rs ih =>
      obtain ⟨hfirst, hrest⟩ := h
      rcases List.mem_cons.mp hr with rfl | hr
      · rw [hfirst]
        exact ⟨Nat.le_refl _, hrest.le⟩
      · obtain ⟨hlo, hhi⟩ := ih hrest hr
        exact ⟨(Nat.le_add_right _ _).trans hlo, hhi⟩

/-- The loop leaves the overlays of the rules that come to something, file behind file. -/
theorem replaceLoop_spec (hstart : start % 2048 = 0)
    (h : replaceLoop granted loadFile fs rules overlays start = value (out, stop)) :
    ∃ rs, out = overlays ++ rs.flatMap Replacement.overlays ∧ Laid rs start stop ∧ (start < 2 ^ 64 → stop < 2 ^ 64) ∧
      (rs.map fun r => (r.place, r.data)) = rules.filterMap (chosen granted loadFile fs) := by
  induction rules generalizing overlays start with
  | nil =>
      cases h
      exact ⟨[], (List.append_nil _).symm, rfl, id, rfl⟩
  | cons rule rules ih =>
      -- a rule that comes to nothing is passed over
      have hskip (hnone : chosen granted loadFile fs rule = none)
          (h : replaceLoop granted loadFile fs rules overlays start = value (out, stop)) :
          ∃ rs, out = overlays ++ rs.flatMap Replacement.overlays ∧ Laid rs start stop ∧ (start < 2 ^ 64 → stop < 2 ^ 64) ∧
            (rs.map fun r => (r.place, r.data)) = (rule :: rules).filterMap (chosen granted loadFile fs) := by
        rw [List.filterMap_cons_none hnone]
        exact ih hstart h
      rw [replaceLoop] at h
      cases hlocate : directoryRecordLocation granted fs rule.org with
      | fault =>
          rw [hlocate] at h
          cases h
      | error e =>
          rw [hlocate] at h
          exact hskip (by rw [chosen, hlocate]) h
      | value record =>
          rw [hlocate] at h
          dsimp only at h
          by_cases hdir : record.isDir = true
          · rw [if_pos hdir] at h
            refine hskip ?_ h
            rw [chosen, hlocate]
            exact if_pos hdir
          rw [if_neg hdir] at h
          cases hload : loadFile rule.newPath with
          | none =>
              rw [hload] at h
              refine hskip ?_ h
              rw [chosen, hlocate]
              dsimp only
              rw [if_neg hdir, hload]
              rfl
          | some data =>
              rw [hload] at h
              dsimp only at h
              by_cases hlarge : ventoyConfReplaceMaxSize < data.length
              · rw [if_pos hlarge] at h
                refine hskip ?_ h
                rw [chosen, hlocate]
                dsimp only
                rw [if_neg hdir, hload, Option.filter_some, if_neg (by simpa using hlarge)]
                rfl
              rw [if_neg hlarge] at h
              have hchosen : chosen granted loadFile fs rule = some (record.recordOffset, data) := by
                rw [chosen, hlocate]
                dsimp only
                rw [if_neg hdir, hload, Option.filter_some, if_pos (by simpa using hlarge)]
                rfl
              obtain ⟨alignedLen, haligned, h⟩ := bind_eq_value.mp h
              obtain ⟨replacementSize, hsize, h⟩ := bind_eq_value.mp h
              obtain ⟨replacementSector, hsector, h⟩ := bind_eq_value.mp h
              obtain ⟨patchOffset, hpatch, h⟩ := bind_eq_value.mp h
              obtain ⟨next, hnext, h⟩ := bind_eq_value.mp h
              obtain ⟨sum, hsum, rfl⟩ := Option.map_eq_some_iff.mp (required_eq_value.mp haligned)
              obtain ⟨-, rfl⟩ := checkedAdd_eq_some.mp hsum
              obtain ⟨hsizeLt, hsizeEq⟩ := Option.ite_none_right_eq_some.mp (required_eq_value.mp hsize)
              cases hsizeEq
              obtain ⟨hsectorLt, hsectorEq⟩ := Option.ite_none_right_eq_some.mp (required_eq_value.mp hsector)
              cases hsectorEq
              obtain ⟨-, rfl⟩ := checkedAdd_eq_some.mp (required_eq_value.mp hpatch)
              obtain ⟨hnextLt, rfl⟩ := checkedAdd_eq_some.mp (required_eq_value.mp hnext)
              have hround : (data.length + (iso9660SectorSize - 1)) / iso9660SectorSize * iso9660SectorSize =
                  (data.length + 2047) / 2048 * 2048 := rfl
              rw [hround] at h hnextLt
              obtain ⟨rs, hout, hlaid, hstop, hrs⟩ := ih (by omega) h
              have hoffset : start / iso9660SectorSize * iso9660SectorSize = start := Nat.div_mul_cancel (Nat.dvd_of_mod_eq_zero hstart)
              refine ⟨⟨record.recordOffset, data, ⟨start / iso9660SectorSize, data.length, hsectorLt, hsizeLt⟩, rfl⟩ :: rs, ?_,
                ⟨hoffset, ?_⟩, fun _ => hstop hnextLt, ?_⟩
              · rw [hout, List.flatMap_cons, ← List.append_assoc, Replacement.overlays, Replacement.patch,
                  Replacement.appended, Replacement.offset, Replacement.padded]
                dsimp only
                rw [hoffset]
              · rw [Replacement.length_padded]
                exact hlaid
              · rw [List.filterMap_cons_some hchosen, List.map_cons, hrs]

/-- The rules that come to something are about records of files. -/
theorem fileRecord_chosen (hsame : fs.blockSize = fs.io.blockSize) (hpos : 0 < fs.io.blockSize) {place : Nat} {data : List UInt8}
    (h : chosen granted loadFile fs rule = some (place, data)) : FileRecord fs.io place := by
  rw [chosen] at h
  cases hlocate : directoryRecordLocation granted fs rule.org with
  | fault =>
      rw [hlocate] at h
      cases h
  | error e =>
      rw [hlocate] at h
      cases h
  | value record =>
      rw [hlocate] at h
      dsimp only at h
      by_cases hdir : record.isDir = true
      · rw [if_pos hdir] at h
        cases h
      · rw [if_neg hdir] at h
        obtain ⟨_, -, heq⟩ := Option.map_eq_some_iff.mp h
        cases heq
        rw [directoryRecordLocation] at hlocate
        split at hlocate
        · cases hlocate
        · exact fileRecord_locateFrom hsame hpos hlocate (Bool.eq_false_iff.mpr hdir)

end loop

end NextBoot.Boot.ConfReplace
