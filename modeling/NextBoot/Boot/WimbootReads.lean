import Mathlib.Data.List.Induction
import NextBoot.BlockStore
import NextBoot.Pieces
import NextBoot.Vhdx.FileRanges

namespace NextBoot.Boot.WimbootReads

open Words Results BlockStore Pieces Virtio.Mapping Virtio.BlockIo Virtio.Translation Virtio.ReadSemantics Virtio.DeviceReads
  Vhdx

structure WimbootMappedSegment where
  virtualOffset : Nat
  physicalOffset : Nat
  byteCount : Nat
deriving DecidableEq, Repr

section mapping

/-- The `while cursor < file_end` loop over the extents of the image. -/
def appendLoop (blockSize : Nat) (extents : List Extent) (virtualStart isoFileOffset fileEnd cursor : Nat)
    (segments : List WimbootMappedSegment) : Except Failure (List WimbootMappedSegment) :=
  if cursor < fileEnd then
    match _h : extentAt blockSize cursor extents with
    | .error e => .error e
    | .ok none => .error .deviceError
    | .ok (some (e, extentFileStart, extentFileEnd)) => do
        let overlapEnd := min fileEnd extentFileEnd
        let segmentVirtualStart ← someOr (checkedAdd 64 virtualStart (cursor - isoFileOffset)) .loadError
        let physicalOffset ← someOr ((checkedMul 64 e.2.1 blockSize).bind fun start =>
          checkedAdd 64 start (cursor - extentFileStart)) .loadError
        appendLoop blockSize extents virtualStart isoFileOffset fileEnd overlapEnd
          (segments ++ [⟨segmentVirtualStart, physicalOffset, overlapEnd - cursor⟩])
  else .ok segments
termination_by fileEnd - cursor
decreasing_by
  have := extentAt_spec _h
  omega

/-- The room for a segment is granted. -/
def appendIsoFileRangeToSourceSegments (iso : Vhdx.IsoFile) (segments : List WimbootMappedSegment)
    (virtualStart isoFileOffset byteCount : Nat) : Except Failure (List WimbootMappedSegment) :=
  if byteCount = 0 then .ok segments
  else do
    refuseIf (iso.blockSize = 0) .invalidParameter
    if iso.extents = [] then
      let physicalOffset ← someOr ((checkedMul 64 iso.startLba iso.blockSize).bind fun start =>
        checkedAdd 64 start isoFileOffset) .loadError
      .ok (segments ++ [⟨virtualStart, physicalOffset, byteCount⟩])
    else
      let fileEnd ← someOr (checkedAdd 64 isoFileOffset byteCount) .loadError
      appendLoop iso.blockSize iso.extents virtualStart isoFileOffset fileEnd isoFileOffset segments

/-- One round of the loop over the extents of a file inside the image. -/
def appendExtent (iso : Vhdx.IsoFile) (isoBlockSize fileSize : Nat) (segments : List WimbootMappedSegment) (extent : Extent) :
    Except Failure (List WimbootMappedSegment) := do
  let fileVirtualStart ← someOr (checkedMul 64 extent.1 isoBlockSize) .loadError
  if fileVirtualStart ≥ fileSize then .ok segments
  else
    let extentBytes ← someOr (checkedMul 64 extent.2.2 isoBlockSize) .loadError
    let isoFileOffset ← someOr (checkedMul 64 extent.2.1 isoBlockSize) .loadError
    appendIsoFileRangeToSourceSegments iso segments fileVirtualStart isoFileOffset
      (min extentBytes (fileSize - fileVirtualStart))

def mapIsoFileExtentsToSourceSegments (iso : Vhdx.IsoFile) (isoBlockSize fileSize : Nat) (extents : List Extent) :
    Except Failure (List WimbootMappedSegment) := do
  refuseIf (isoBlockSize = 0) .invalidParameter
  if fileSize = 0 then .ok []
  else
    refuseIf (extents = []) .unsupported
    let segments ← extents.foldlM (appendExtent iso isoBlockSize fileSize) []
    if segments = [] then .error .deviceError else .ok segments

end mapping

section reading

variable (reader : PhysicalReader) (blockSize : Nat)

/-- The loop of `read_physical_bytes`, with the bytes that are still to be copied. -/
def physicalLoop (hpos : 0 < blockSize) (physicalByte remaining : Nat) (scratch copied : List UInt8) : Option (List UInt8) :=
  if 0 < remaining then do
    let copySize := min (blockSize - physicalByte % blockSize) remaining
    let scratch ← (reader.readBlocks (physicalByte / blockSize) scratch).toOption
    let next ← checkedAdd 64 physicalByte copySize
    physicalLoop hpos next (remaining - copySize) scratch
      (copied ++ (scratch.drop (physicalByte % blockSize)).take copySize)
  else some copied
termination_by remaining
decreasing_by
  have hlt := Nat.mod_lt physicalByte hpos
  omega

def readPhysicalBytes (physicalByteStart len : Nat) : Option (List UInt8) :=
  if hpos : 0 < blockSize then
    physicalLoop reader blockSize hpos physicalByteStart len (List.replicate blockSize 0) []
  else none

def segmentAt (segments : List WimbootMappedSegment) (cursor : Nat) : Option WimbootMappedSegment :=
  segments.find? fun s => (checkedAdd 64 s.virtualOffset s.byteCount).any fun segmentEnd =>
    cursor ≥ s.virtualOffset ∧ cursor < segmentEnd

theorem segmentAt_spec {segments : List WimbootMappedSegment} {cursor segmentEnd : Nat} {s : WimbootMappedSegment}
    (h : segmentAt segments cursor = some s) (hend : checkedAdd 64 s.virtualOffset s.byteCount = some segmentEnd) :
    s ∈ segments ∧ s.virtualOffset ≤ cursor ∧ cursor < segmentEnd := by
  have hin := List.find?_some h
  rw [hend, Option.any_some, decide_eq_true_eq] at hin
  exact ⟨List.mem_of_find?_eq_some h, hin⟩

/-- The loop of `read_mapped_byte_range`; the cursor is behind the bytes that have been copied. -/
def mappedLoop (segments : List WimbootMappedSegment) (stop cursor : Nat) (copied : List UInt8) : Option (List UInt8) :=
  if cursor < stop then
    match _h : segmentAt segments cursor with
    | none => none
    | some s =>
        match _hend : checkedAdd 64 s.virtualOffset s.byteCount with
        | none => none
        | some segmentEnd => do
            let readEnd := min stop segmentEnd
            let physicalByte ← checkedAdd 64 s.physicalOffset (cursor - s.virtualOffset)
            let bytes ← readPhysicalBytes reader blockSize physicalByte (readEnd - cursor)
            mappedLoop segments stop readEnd (copied ++ bytes)
  else some copied
termination_by stop - cursor
decreasing_by
  have := segmentAt_spec _h _hend
  omega

def readMappedByteRange (segments : List WimbootMappedSegment) (offset len : Nat) : Option (List UInt8) := do
  let stop ← checkedAdd 64 offset len
  mappedLoop reader blockSize segments stop offset []

end reading

/-- The place on the source volume of a byte of the image; without extents the image is one run. -/
def isoByte (iso : Vhdx.IsoFile) (offset : Nat) : Option Nat :=
  if iso.extents = [] then some (iso.startLba * iso.blockSize + offset) else iso.locate offset

/-- The place of a byte of a file inside the image, through the extents of both. -/
def translated (iso : Vhdx.IsoFile) (file : SourceFile) (offset : Nat) : Option Nat := (file.locate offset).bind (isoByte iso)

section physical

variable {disk : Nat → UInt8} {reader : PhysicalReader} {blockSize physicalByte remaining : Nat} {scratch copied : List UInt8}

theorem physicalLoop_eq (hreader : Reads disk blockSize reader) (hpos : 0 < blockSize)
    (hlt : physicalByte + remaining < 2 ^ 64) (hscratch : scratch.length = blockSize) :
    physicalLoop reader blockSize hpos physicalByte remaining scratch copied =
      some (copied ++ window disk physicalByte remaining) := by
  induction remaining using Nat.strong_induction_on generalizing physicalByte scratch copied with
  | _ remaining ih =>
      rw [physicalLoop]
      split
      · next hremaining =>
          have hmod := Nat.mod_lt physicalByte hpos
          have hblock : physicalByte / blockSize * blockSize + physicalByte % blockSize = physicalByte :=
            Nat.div_add_mod' physicalByte blockSize
          generalize hcopy : min (blockSize - physicalByte % blockSize) remaining = copySize
          have hle : copySize ≤ remaining := by omega
          have hfits : copySize ≤ blockSize - physicalByte % blockSize := by omega
          have hcut : ((window disk (physicalByte / blockSize * blockSize) blockSize).drop (physicalByte % blockSize)).take copySize =
              window disk physicalByte copySize := by
            have hslice := slice_window disk (physicalByte / blockSize * blockSize)
              (show physicalByte % blockSize + copySize ≤ blockSize by omega)
            rw [Bytes.slice_eq_some (by rw [length_window]; omega), hblock] at hslice
            exact Option.some.inj hslice
          have hread : (reader.readBlocks (physicalByte / blockSize) scratch).toOption =
              some (window disk (physicalByte / blockSize * blockSize) blockSize) := by
            rw [hreader _ _ hscratch]
            rfl
          have hnext : checkedAdd 64 physicalByte copySize = some (physicalByte + copySize) :=
            checkedAdd_eq_some.mpr ⟨by omega, rfl⟩
          simp only [hread, hnext, Option.bind_eq_bind, Option.bind_some]
          rw [ih (remaining - copySize) (by omega) (by omega) (length_window disk _ _), hcut, List.append_assoc,
            window_split disk hle]
      · next hdone =>
          rw [Nat.eq_zero_of_not_pos hdone, show window disk physicalByte 0 = [] from rfl, List.append_nil]

/-- A total reader reads any bytes of the volume. -/
theorem readPhysicalBytes_eq (hreader : Reads disk blockSize reader) (hpos : 0 < blockSize)
    (hlt : physicalByte + remaining < 2 ^ 64) :
    readPhysicalBytes reader blockSize physicalByte remaining = some (window disk physicalByte remaining) := by
  rw [readPhysicalBytes, dif_pos hpos, physicalLoop_eq hreader hpos hlt (List.length_replicate ..), List.nil_append]

end physical

def WimbootMappedSegment.piece (s : WimbootMappedSegment) : Piece := ⟨s.virtualOffset, s.physicalOffset, s.byteCount⟩

/-- The places that segments give to the bytes of a file. -/
def Gives (segments : List WimbootMappedSegment) (v p : Nat) : Prop := Sends (segments.map WimbootMappedSegment.piece) v p

/-- A segment that holds something and stays within 64-bit addresses. -/
structure WimbootMappedSegment.Placed (s : WimbootMappedSegment) : Prop where
  pos : 0 < s.byteCount
  virtual_lt : s.virtualOffset + s.byteCount < 2 ^ 64
  physical_lt : s.physicalOffset + s.byteCount < 2 ^ 64

theorem placed_nil : ∀ s ∈ ([] : List WimbootMappedSegment), s.Placed := fun _ h => nomatch h

section segments

variable {disk : Nat → UInt8} {reader : PhysicalReader} {blockSize stop cursor : Nat} {copied : List UInt8}
  {segments : List WimbootMappedSegment} {s : WimbootMappedSegment} {v p : Nat}

theorem gives_iff : Gives segments v p ↔ ∃ s ∈ segments, s.virtualOffset ≤ v ∧ v < s.virtualOffset + s.byteCount ∧
    s.physicalOffset + (v - s.virtualOffset) = p := by
  rw [Gives, sends_map]
  simp only [WimbootMappedSegment.piece, Piece.Holds, Piece.place, and_assoc]

theorem segmentAt_some (hplaced : ∀ s ∈ segments, s.Placed) (h : segmentAt segments cursor = some s) :
    s ∈ segments ∧ s.Placed ∧ checkedAdd 64 s.virtualOffset s.byteCount = some (s.virtualOffset + s.byteCount) ∧
      s.virtualOffset ≤ cursor ∧ cursor < s.virtualOffset + s.byteCount := by
  have hp := hplaced s (List.mem_of_find?_eq_some h)
  have hend : checkedAdd 64 s.virtualOffset s.byteCount = some (s.virtualOffset + s.byteCount) :=
    checkedAdd_eq_some.mpr ⟨hp.virtual_lt, rfl⟩
  obtain ⟨hmem, hin⟩ := segmentAt_spec h hend
  exact ⟨hmem, hp, hend, hin⟩

theorem segmentAt_none (hplaced : ∀ s ∈ segments, s.Placed) (h : segmentAt segments cursor = none) :
    ¬ Gives segments cursor p := by
  rw [gives_iff]
  rintro ⟨s, hs, hlo, hhi, -⟩
  have hend : checkedAdd 64 s.virtualOffset s.byteCount = some (s.virtualOffset + s.byteCount) :=
    checkedAdd_eq_some.mpr ⟨(hplaced s hs).virtual_lt, rfl⟩
  apply List.find?_eq_none.mp h s hs
  rw [hend, Option.any_some, decide_eq_true_eq]
  exact ⟨hlo, hhi⟩

/-- The loop reads each byte from a place that the segments give it, and stops where they give none. -/
theorem mappedLoop_spec (hreader : Reads disk blockSize reader) (hpos : 0 < blockSize)
    (hplaced : ∀ s ∈ segments, s.Placed) :
    (mappedLoop reader blockSize segments stop cursor copied = none ↔
      ∃ v, cursor ≤ v ∧ v < stop ∧ ∀ p, ¬ Gives segments v p) ∧
    ∀ out, mappedLoop reader blockSize segments stop cursor copied = some out →
      ∃ bytes, out = copied ++ bytes ∧ bytes.length = stop - cursor ∧
        ∀ i < stop - cursor, ∃ p, Gives segments (cursor + i) p ∧ bytes[i]? = some (disk p) := by
  induction hn : stop - cursor using Nat.strong_induction_on generalizing cursor copied with
  | _ n ih =>
      rw [mappedLoop]
      split
      · next hlt =>
          split
          · next hnone =>
              refine ⟨iff_of_true rfl ⟨cursor, Nat.le_refl cursor, hlt, fun p => segmentAt_none hplaced hnone⟩, ?_⟩
              intro out hout
              cases hout
          · next s hs =>
              obtain ⟨hmem, hp, hend, hlo, hhi⟩ := segmentAt_some hplaced hs
              split
              · next hnone => cases hend.symm.trans hnone
              · next segmentEnd hsome =>
                  cases hend.symm.trans hsome
                  have hgives : ∀ v, cursor ≤ v → v < s.virtualOffset + s.byteCount →
                      Gives segments v (s.physicalOffset + (cursor - s.virtualOffset) + (v - cursor)) := by
                    intro v hvlo hvhi
                    exact gives_iff.mpr ⟨s, hmem, by omega, hvhi, by omega⟩
                  have hplt := hp.physical_lt
                  have hphysical : checkedAdd 64 s.physicalOffset (cursor - s.virtualOffset) =
                      some (s.physicalOffset + (cursor - s.virtualOffset)) := checkedAdd_eq_some.mpr ⟨by omega, rfl⟩
                  obtain ⟨readEnd, hreadEnd⟩ : ∃ readEnd, readEnd = min stop (s.virtualOffset + s.byteCount) := ⟨_, rfl⟩
                  have hread : readPhysicalBytes reader blockSize (s.physicalOffset + (cursor - s.virtualOffset))
                      (readEnd - cursor) = some (window disk (s.physicalOffset + (cursor - s.virtualOffset)) (readEnd - cursor)) :=
                    readPhysicalBytes_eq hreader hpos (by omega)
                  simp only [hphysical, ← hreadEnd, hread, Option.bind_eq_bind, Option.bind_some]
                  generalize s.physicalOffset + (cursor - s.virtualOffset) = physicalByte at hgives ⊢
                  have hcursor : cursor < readEnd := by omega
                  have hinside : readEnd ≤ s.virtualOffset + s.byteCount := by omega
                  have hsum : readEnd - cursor + (stop - readEnd) = n := by omega
                  have hbehind : ∀ i < n, ¬ i < readEnd - cursor →
                      i - (readEnd - cursor) < stop - readEnd ∧ readEnd + (i - (readEnd - cursor)) = cursor + i := by
                    intro i hi hge
                    omega
                  clear hreadEnd
                  obtain ⟨hnone, hsome⟩ := @ih (stop - readEnd) (by omega) readEnd
                    (copied ++ window disk physicalByte (readEnd - cursor)) rfl
                  refine ⟨hnone.trans ⟨?_, ?_⟩, ?_⟩
                  · rintro ⟨v, hvlo, hvhi, hv⟩
                    exact ⟨v, by omega, hvhi, hv⟩
                  · rintro ⟨v, hvlo, hvhi, hv⟩
                    refine ⟨v, ?_, hvhi, hv⟩
                    by_contra hlow
                    exact hv _ (hgives v hvlo (by omega))
                  · intro out hout
                    obtain ⟨bytes, rfl, hlen, hbytes⟩ := hsome out hout
                    refine ⟨window disk physicalByte (readEnd - cursor) ++ bytes, by rw [List.append_assoc], ?_, ?_⟩
                    · rw [List.length_append, length_window, hlen, hsum]
                    · intro i hi
                      by_cases hfirst : i < readEnd - cursor
                      · refine ⟨_, hgives (cursor + i) (by omega) (by omega), ?_⟩
                        rw [List.getElem?_append_left (by rwa [length_window]), getElem?_window disk _ hfirst,
                          Nat.add_sub_cancel_left]
                      · obtain ⟨hi, hplace⟩ := hbehind i hi hfirst
                        obtain ⟨p, hp, hbyte⟩ := hbytes (i - (readEnd - cursor)) hi
                        rw [hplace] at hp
                        refine ⟨p, hp, ?_⟩
                        rw [List.getElem?_append_right (by rw [length_window]; omega), length_window, hbyte]
      · next hge =>
          refine ⟨iff_of_false nofun ?_, ?_⟩
          · rintro ⟨v, hvlo, hvhi, -⟩
            omega
          · intro out hout
            cases hout
            refine ⟨[], (List.append_nil copied).symm, ?_, fun i hi => ?_⟩
            · rw [List.length_nil]
              omega
            · omega

end segments

section ranges

variable {iso : Vhdx.IsoFile} {blockSize virtualStart isoFileOffset fileEnd cursor byteCount : Nat} {extents : List Extent}
  {segments segments' : List WimbootMappedSegment} {v p : Nat}

/-- The mapping table that has an entry for each segment. -/
def tableOf (segments : List WimbootMappedSegment) : ByteMappingTable :=
  segments.foldl (fun t s => t.addSegment s.virtualOffset s.byteCount s.physicalOffset) ByteMappingTable.empty

theorem tableOf_concat (segments : List WimbootMappedSegment) (s : WimbootMappedSegment) :
    tableOf (segments ++ [s]) = (tableOf segments).addSegment s.virtualOffset s.byteCount s.physicalOffset := by
  rw [tableOf, List.foldl_append]
  rfl

theorem maps_tableOf (hplaced : ∀ s ∈ segments, s.Placed) : Maps (tableOf segments).mappings v p ↔ Gives segments v p := by
  induction segments using List.reverseRecOn with
  | nil => exact iff_of_false (fun ⟨_, hm, _⟩ => nomatch hm) fun ⟨_, hm, _⟩ => nomatch hm
  | append_singleton segments s ih =>
      have hs := hplaced s (List.mem_append_right _ (List.mem_singleton_self s))
      have hrest := ih fun t ht => hplaced t (List.mem_append_left _ ht)
      rw [tableOf_concat, ByteMappingTable.addSegment, if_neg hs.pos.ne', maps_append, hrest, gives_iff, gives_iff]
      simp only [Maps, ByteMapping.new, wrappingAdd_eq hs.virtual_lt, List.mem_append, List.mem_singleton, or_and_right,
        exists_or, exists_eq_left, @eq_comm Nat p]

theorem appendLoop_round (hlt : cursor < fileEnd) :
    appendLoop blockSize extents virtualStart isoFileOffset fileEnd cursor segments =
      extentAt blockSize cursor extents >>= fun found => someOr found .deviceError >>= fun (e, start, stop) =>
        someOr (checkedAdd 64 virtualStart (cursor - isoFileOffset)) .loadError >>= fun segmentStart =>
          someOr ((checkedMul 64 e.2.1 blockSize).bind fun first => checkedAdd 64 first (cursor - start)) .loadError >>=
            fun physicalOffset => appendLoop blockSize extents virtualStart isoFileOffset fileEnd (min fileEnd stop)
              (segments ++ [⟨segmentStart, physicalOffset, min fileEnd stop - cursor⟩]) := by
  rw [appendLoop, if_pos hlt]
  split
  · next he => rw [he]; rfl
  · next he => rw [he]; rfl
  · next he => rw [he]; rfl

/-- The segments are those that the mapping of a file range adds to a table. -/
theorem appendLoop_table : (appendLoop blockSize extents virtualStart isoFileOffset fileEnd cursor segments).map tableOf =
    mapFileRange blockSize extents virtualStart isoFileOffset fileEnd cursor (tableOf segments) := by
  induction hn : fileEnd - cursor using Nat.strong_induction_on generalizing cursor segments with
  | _ n ih =>
      by_cases hlt : cursor < fileEnd
      · rw [appendLoop_round hlt, mapFileRange_round hlt]
        cases hextent : extentAt blockSize cursor extents with
        | error e => rfl
        | ok found =>
            obtain _ | ⟨e, start, stop⟩ := found
            · rfl
            · have hspec := extentAt_spec hextent
              simp only [ok_bind, someOr_some]
              cases hvirtual : checkedAdd 64 virtualStart (cursor - isoFileOffset) with
              | none =>
                  cases (checkedMul 64 e.2.1 blockSize).bind fun first => checkedAdd 64 first (cursor - start) <;> rfl
              | some segmentStart =>
                  cases (checkedMul 64 e.2.1 blockSize).bind fun first => checkedAdd 64 first (cursor - start) with
                  | none => rfl
                  | some physicalOffset =>
                      simp only [someOr_some, ok_bind]
                      rw [ih (fileEnd - min fileEnd stop) (by omega) rfl, tableOf_concat]
      · rw [appendLoop, mapFileRange, if_neg hlt, if_neg hlt]
        rfl

theorem appendLoop_placed (hfits : ∀ e ∈ extents, ExtentFits blockSize e) (hlo : isoFileOffset ≤ cursor)
    (hv : virtualStart + (fileEnd - isoFileOffset) < 2 ^ 64) (hplaced : ∀ s ∈ segments, s.Placed)
    (h : appendLoop blockSize extents virtualStart isoFileOffset fileEnd cursor segments = .ok segments') :
    ∀ s ∈ segments', s.Placed := by
  induction hn : fileEnd - cursor using Nat.strong_induction_on generalizing cursor segments with
  | _ n ih =>
      rw [appendLoop] at h
      split at h
      · next hlt =>
          split at h
          · cases h
          · cases h
          · next e start stop he =>
              obtain ⟨hmem, rfl, rfl, hstart, hstop⟩ := extentAt_spec he
              obtain ⟨segmentVirtualStart, hvirtual, h⟩ := bind_eq_ok.mp h
              obtain ⟨physicalOffset, hphysical, h⟩ := bind_eq_ok.mp h
              obtain ⟨-, rfl⟩ := checkedAdd_eq_some.mp (someOr_eq_ok.mp hvirtual)
              obtain ⟨first, hfirst, hphysical⟩ := Option.bind_eq_some_iff.mp (someOr_eq_ok.mp hphysical)
              obtain ⟨-, rfl⟩ := checkedMul_eq_some.mp hfirst
              obtain ⟨-, rfl⟩ := checkedAdd_eq_some.mp hphysical
              have hfit := (hfits e hmem).2
              rw [Nat.add_mul] at hfit
              refine ih (fileEnd - min fileEnd (e.1 * blockSize + e.2.2 * blockSize)) (by omega) (by omega) ?_ h rfl
              intro s hs
              rcases List.mem_append.mp hs with hs | hs
              · exact hplaced s hs
              · rw [List.mem_singleton.mp hs]
                exact ⟨by simp only; omega, by simp only; omega, by simp only; omega⟩
      · cases h
        exact hplaced

/-- The image places the bytes of the range, and stays within 64-bit addresses. -/
structure Reaches (iso : Vhdx.IsoFile) (isoFileOffset byteCount : Nat) : Prop where
  onDevice : iso.toSourceFile.OnDevice
  offset_lt : isoFileOffset + byteCount < 2 ^ 64
  run_lt : iso.extents = [] → iso.startLba * iso.blockSize + (isoFileOffset + byteCount) < 2 ^ 64

theorem append_table (hbytes : byteCount ≠ 0) :
    (appendIsoFileRangeToSourceSegments iso segments virtualStart isoFileOffset byteCount).map tableOf =
      mapImageFileRangeToPhysical iso (tableOf segments) virtualStart isoFileOffset byteCount := by
  rw [appendIsoFileRangeToSourceSegments, if_neg hbytes, mapImageFileRangeToPhysical, map_bind]
  congr 1
  funext _
  split
  · rw [map_bind]
    congr 1
    funext physicalOffset
    exact congrArg Except.ok (tableOf_concat segments _)
  · rw [map_bind]
    congr 1
    funext fileEnd
    exact appendLoop_table

theorem append_placed (hr : Reaches iso isoFileOffset byteCount) (hv : virtualStart + byteCount < 2 ^ 64)
    (hplaced : ∀ s ∈ segments, s.Placed)
    (h : appendIsoFileRangeToSourceSegments iso segments virtualStart isoFileOffset byteCount = .ok segments') :
    ∀ s ∈ segments', s.Placed := by
  unfold appendIsoFileRangeToSourceSegments at h
  split at h
  · cases h
    exact hplaced
  · next hbytes =>
      obtain ⟨_, -, h⟩ := bind_eq_ok.mp h
      split at h
      · next hextents =>
          obtain ⟨physicalOffset, hphysical, h⟩ := bind_eq_ok.mp h
          obtain ⟨first, hfirst, hphysical⟩ := Option.bind_eq_some_iff.mp (someOr_eq_ok.mp hphysical)
          obtain ⟨-, rfl⟩ := checkedMul_eq_some.mp hfirst
          obtain ⟨-, rfl⟩ := checkedAdd_eq_some.mp hphysical
          cases h
          have hrun := hr.run_lt hextents
          intro s hs
          rcases List.mem_append.mp hs with hs | hs
          · exact hplaced s hs
          · rw [List.mem_singleton.mp hs]
            exact ⟨by simp only; omega, hv, by simp only; omega⟩
      · obtain ⟨fileEnd, hend, h⟩ := bind_eq_ok.mp h
        obtain ⟨-, rfl⟩ := checkedAdd_eq_some.mp (someOr_eq_ok.mp hend)
        exact appendLoop_placed hr.onDevice.fits (Nat.le_refl _) (by rwa [Nat.add_sub_cancel_left]) hplaced h

theorem locate_isSome {file : SourceFile} (h : file.OnDevice) {c : Nat} :
    (file.locate c).isSome ↔ ∃ e ∈ file.extents, Holds file.blockSize e c := by
  rw [Option.isSome_iff_exists]
  constructor
  · rintro ⟨p, hp⟩
    obtain ⟨e, he, hlo, hhi, -⟩ := (assigned_eq_some h.blockSize_pos h.disjoint).mp hp
    exact ⟨e, he, hlo, hhi⟩
  · rintro ⟨e, he, hlo, hhi⟩
    exact ⟨_, (assigned_eq_some h.blockSize_pos h.disjoint).mpr ⟨e, he, hlo, hhi, rfl⟩⟩

/-- A range is appended exactly when the image has a place for each of its bytes. -/
theorem append_ok_iff (hr : Reaches iso isoFileOffset byteCount) (hv : virtualStart + byteCount < 2 ^ 64)
    (segments : List WimbootMappedSegment) :
    (∃ segments', appendIsoFileRangeToSourceSegments iso segments virtualStart isoFileOffset byteCount = .ok segments') ↔
      ∀ c, isoFileOffset ≤ c → c < isoFileOffset + byteCount → (isoByte iso c).isSome := by
  by_cases hbytes : byteCount = 0
  · refine iff_of_true ⟨segments, ?_⟩ fun c hlo hhi => by omega
    rw [appendIsoFileRangeToSourceSegments, if_pos hbytes]
  · rw [← isOk_map, append_table hbytes]
    by_cases hextents : iso.extents = []
    · rw [mapImageFileRange_contiguous hextents]
      have hrun := hr.run_lt hextents
      refine iff_of_true ⟨hr.onDevice.blockSize_pos, by omega⟩ fun c _ _ => ?_
      rw [isoByte, if_pos hextents]
      rfl
    · rw [mapImageFileRange_extents hextents, mapSourceFileRange_ok_iff hr.onDevice.disjoint hv]
      constructor
      · rintro ⟨-, -, hall⟩ c hlo hhi
        rw [isoByte, if_neg hextents, locate_isSome hr.onDevice]
        exact (reachable_iff_held hr.onDevice.fits hlo).mp (hall c hlo hhi)
      · intro hall
        refine ⟨hr.onDevice.blockSize_pos, hr.offset_lt, fun c hlo hhi => ?_⟩
        have hc := hall c hlo hhi
        rw [isoByte, if_neg hextents, locate_isSome hr.onDevice] at hc
        exact (reachable_iff_held hr.onDevice.fits hlo).mpr hc

/-- The bytes of an appended range are given the places that the image has for them. -/
theorem append_gives (hr : Reaches iso isoFileOffset byteCount) (hv : virtualStart + byteCount < 2 ^ 64)
    (hplaced : ∀ s ∈ segments, s.Placed)
    (h : appendIsoFileRangeToSourceSegments iso segments virtualStart isoFileOffset byteCount = .ok segments') :
    Gives segments' v p ↔ Gives segments v p ∨
      virtualStart ≤ v ∧ v < virtualStart + byteCount ∧ isoByte iso (isoFileOffset + (v - virtualStart)) = some p := by
  have hplaced' := append_placed hr hv hplaced h
  by_cases hbytes : byteCount = 0
  · rw [appendIsoFileRangeToSourceSegments, if_pos hbytes] at h
    cases h
    refine ⟨.inl, ?_⟩
    rintro (hgives | ⟨hlo, hhi, -⟩)
    · exact hgives
    · omega
  · have htable : mapImageFileRangeToPhysical iso (tableOf segments) virtualStart isoFileOffset byteCount =
        .ok (tableOf segments') := by
      rw [← append_table hbytes, h]
      rfl
    rw [← maps_tableOf hplaced', ← maps_tableOf hplaced]
    by_cases hextents : iso.extents = []
    · rw [mapImageFileRange_contiguous_maps hextents hv htable, isoByte, if_pos hextents, Option.some.injEq, eq_comm (a := p)]
    · rw [mapImageFileRange_extents hextents] at htable
      rw [mapSourceFileRange_maps hr.onDevice.disjoint hv htable, isoByte, if_neg hextents]

end ranges

section files

variable {iso : Vhdx.IsoFile} {file : SourceFile} {segments segments' : List WimbootMappedSegment} {e : Extent} {v p : Nat}

/-- A file inside an image, both with extents that are apart and within 64-bit addresses. -/
structure Inside (iso : Vhdx.IsoFile) (file : SourceFile) : Prop where
  image : iso.toSourceFile.OnDevice
  inner : file.OnDevice
  run_lt : iso.extents = [] → ∀ e ∈ file.extents, iso.startLba * iso.blockSize + (e.2.1 + e.2.2) * file.blockSize < 2 ^ 64

/-- The bytes of the file that an extent holds below its size. -/
def extentLength (file : SourceFile) (e : Extent) : Nat := min (e.2.2 * file.blockSize) (file.size - e.1 * file.blockSize)

theorem Inside.reaches (h : Inside iso file) (he : e ∈ file.extents) :
    Reaches iso (e.2.1 * file.blockSize) (extentLength file e) := by
  have hfit := (h.inner.fits e he).2
  rw [Nat.add_mul] at hfit
  refine ⟨h.image, ?_, fun hextents => ?_⟩
  · unfold extentLength
    omega
  · have hrun := h.run_lt hextents e he
    rw [Nat.add_mul] at hrun
    unfold extentLength
    omega

theorem appendExtent_eq (h : Inside iso file) (he : e ∈ file.extents) (segments : List WimbootMappedSegment) :
    appendExtent iso file.blockSize file.size segments e =
      if e.1 * file.blockSize ≥ file.size then .ok segments
      else appendIsoFileRangeToSourceSegments iso segments (e.1 * file.blockSize) (e.2.1 * file.blockSize)
        (extentLength file e) := by
  obtain ⟨hvirtual, hphysical⟩ := h.inner.fits e he
  rw [Nat.add_mul] at hvirtual hphysical
  have hstart : checkedMul 64 e.1 file.blockSize = some (e.1 * file.blockSize) := checkedMul_eq_some.mpr ⟨by omega, rfl⟩
  have hbytes : checkedMul 64 e.2.2 file.blockSize = some (e.2.2 * file.blockSize) := checkedMul_eq_some.mpr ⟨by omega, rfl⟩
  have hoffset : checkedMul 64 e.2.1 file.blockSize = some (e.2.1 * file.blockSize) := checkedMul_eq_some.mpr ⟨by omega, rfl⟩
  rw [appendExtent, hstart, hbytes, hoffset]
  rfl

theorem extent_lt (file : SourceFile) (e : Extent) (hlt : ¬ e.1 * file.blockSize ≥ file.size) :
    e.1 * file.blockSize + extentLength file e < 2 ^ 64 := by
  have hsize := file.size_lt
  unfold extentLength
  omega

/-- An extent is mapped exactly when the image has a place for each byte of the file that it holds. -/
theorem appendExtent_ok_iff (h : Inside iso file) (he : e ∈ file.extents) (segments : List WimbootMappedSegment) :
    (∃ segments', appendExtent iso file.blockSize file.size segments e = .ok segments') ↔
      ∀ v, e.1 * file.blockSize ≤ v → v < e.1 * file.blockSize + extentLength file e →
        (isoByte iso (e.2.1 * file.blockSize + (v - e.1 * file.blockSize))).isSome := by
  rw [appendExtent_eq h he]
  split
  · refine iff_of_true ⟨segments, rfl⟩ fun v hlo hhi => ?_
    unfold extentLength at hhi
    omega
  · next hlt =>
      rw [append_ok_iff (h.reaches he) (extent_lt file e hlt)]
      constructor
      · intro hall v hlo hhi
        exact hall _ (Nat.le_add_right _ _) (by omega)
      · intro hall c hlo hhi
        have hc := hall (e.1 * file.blockSize + (c - e.2.1 * file.blockSize)) (Nat.le_add_right _ _) (by omega)
        rwa [Nat.add_sub_cancel_left, Nat.add_sub_cancel' hlo] at hc

theorem appendExtent_spec (h : Inside iso file) (he : e ∈ file.extents) (hplaced : ∀ s ∈ segments, s.Placed)
    (hok : appendExtent iso file.blockSize file.size segments e = .ok segments') :
    (∀ s ∈ segments', s.Placed) ∧ ∀ v p, Gives segments' v p ↔ Gives segments v p ∨
      e.1 * file.blockSize ≤ v ∧ v < e.1 * file.blockSize + extentLength file e ∧
        isoByte iso (e.2.1 * file.blockSize + (v - e.1 * file.blockSize)) = some p := by
  rw [appendExtent_eq h he] at hok
  split at hok
  · cases hok
    refine ⟨hplaced, fun v p => ⟨.inl, ?_⟩⟩
    rintro (hgives | ⟨hlo, hhi, -⟩)
    · exact hgives
    · unfold extentLength at hhi
      omega
  · next hlt =>
      exact ⟨append_placed (h.reaches he) (extent_lt file e hlt) hplaced hok,
        fun v p => append_gives (h.reaches he) (extent_lt file e hlt) hplaced hok⟩

theorem appendExtents_spec (h : Inside iso file) {extents : List Extent} (hsub : ∀ e ∈ extents, e ∈ file.extents)
    (hplaced : ∀ s ∈ segments, s.Placed)
    (hok : extents.foldlM (appendExtent iso file.blockSize file.size) segments = .ok segments') :
    (∀ s ∈ segments', s.Placed) ∧ ∀ v p, Gives segments' v p ↔ Gives segments v p ∨ ∃ e ∈ extents,
      e.1 * file.blockSize ≤ v ∧ v < e.1 * file.blockSize + extentLength file e ∧
        isoByte iso (e.2.1 * file.blockSize + (v - e.1 * file.blockSize)) = some p := by
  induction extents generalizing segments with
  | nil =>
      rw [List.foldlM_nil, pure_eq_ok] at hok
      rw [← hok]
      exact ⟨hplaced, fun v p => by simp⟩
  | cons e extents ih =>
      rw [List.forall_mem_cons] at hsub
      rw [List.foldlM_cons, bind_eq_ok] at hok
      obtain ⟨middle, hmiddle, hok⟩ := hok
      obtain ⟨hplaced', hfirst⟩ := appendExtent_spec h hsub.1 hplaced hmiddle
      obtain ⟨hall, hrest⟩ := ih hsub.2 hplaced' hok
      refine ⟨hall, fun v p => ?_⟩
      rw [hrest, hfirst, or_assoc, List.exists_mem_cons_iff]

/-- The extents of the file hold a byte below its size where it is looked for. -/
theorem locate_eq_some (h : file.OnDevice) {c : Nat} (hv : v < file.size) : file.locate v = some c ↔ ∃ e ∈ file.extents,
    e.1 * file.blockSize ≤ v ∧ v < e.1 * file.blockSize + extentLength file e ∧
      c = e.2.1 * file.blockSize + (v - e.1 * file.blockSize) := by
  rw [SourceFile.locate, assigned_eq_some h.blockSize_pos h.disjoint]
  refine exists_congr fun e => and_congr_right fun _ => and_congr_right fun hlo => and_congr_left fun _ => ?_
  rw [Nat.add_mul, extentLength]
  omega

/-- The segments of a mapped file give each byte below its size its place through both extents, and nothing else. -/
theorem gives_translated (h : Inside iso file)
    (hok : file.extents.foldlM (appendExtent iso file.blockSize file.size) [] = .ok segments) :
    Gives segments v p ↔ v < file.size ∧ translated iso file v = some p := by
  have hnone : ¬ Gives [] v p := fun ⟨_, hm, _⟩ => nomatch hm
  rw [(appendExtents_spec h (fun e he => he) placed_nil hok).2 v p, or_iff_right hnone, translated]
  constructor
  · rintro ⟨e, he, hlo, hhi, hp⟩
    have hv : v < file.size := by
      unfold extentLength at hhi
      omega
    have hlocate := (locate_eq_some h.inner hv).mpr ⟨e, he, hlo, hhi, rfl⟩
    exact ⟨hv, by rw [hlocate, Option.bind_some, hp]⟩
  · rintro ⟨hv, hp⟩
    obtain ⟨c, hlocate, hp⟩ := Option.bind_eq_some_iff.mp hp
    obtain ⟨e, he, hlo, hhi, rfl⟩ := (locate_eq_some h.inner hv).mp hlocate
    exact ⟨e, he, hlo, hhi, hp⟩

/-- No byte that the file has is outside the image. -/
def Contained (iso : Vhdx.IsoFile) (file : SourceFile) : Prop :=
  ∀ v < file.size, (file.locate v).isSome → (translated iso file v).isSome

theorem appendExtents_ok_iff (h : Inside iso file) :
    (∃ segments, file.extents.foldlM (appendExtent iso file.blockSize file.size) [] = .ok segments) ↔ Contained iso file := by
  rw [foldlM_isOk (fun segments e he => appendExtent_ok_iff h he segments)]
  constructor
  · intro hall v hv hsome
    obtain ⟨c, hc⟩ := Option.isSome_iff_exists.mp hsome
    obtain ⟨e, he, hlo, hhi, rfl⟩ := (locate_eq_some h.inner hv).mp hc
    rw [translated, hc]
    exact hall e he v hlo hhi
  · intro hall e he v hlo hhi
    have hv : v < file.size := by
      unfold extentLength at hhi
      omega
    have hc := (locate_eq_some h.inner hv).mpr ⟨e, he, hlo, hhi, rfl⟩
    have hsome := hall v hv (by rw [hc]; rfl)
    rwa [translated, hc] at hsome

/-- Some byte below the size of the file is held by its extents, if it has any. -/
def Held (file : SourceFile) : Prop := 0 < file.size → ∃ v < file.size, (file.locate v).isSome

theorem mapIso_eq (h : Inside iso file) :
    mapIsoFileExtentsToSourceSegments iso file.blockSize file.size file.extents =
      if file.size = 0 then .ok []
      else (refuseIf (file.extents = []) .unsupported >>= fun _ =>
        file.extents.foldlM (appendExtent iso file.blockSize file.size) [] >>= fun segments =>
          if segments = [] then .error .deviceError else .ok segments) := by
  rw [mapIsoFileExtentsToSourceSegments, refuseIf, if_neg h.inner.blockSize_pos.ne', ok_bind]

theorem mapIso_spec (h : Inside iso file)
    (hok : mapIsoFileExtentsToSourceSegments iso file.blockSize file.size file.extents = .ok segments) :
    (∀ s ∈ segments, s.Placed) ∧ Contained iso file ∧ Held file ∧
      ∀ v p, Gives segments v p ↔ v < file.size ∧ translated iso file v = some p := by
  rw [mapIso_eq h] at hok
  split at hok
  · next hzero =>
      cases hok
      refine ⟨placed_nil, fun v hv => by omega, fun hpos => by omega, fun v p => ?_⟩
      refine iff_of_false ?_ (fun hv => by omega)
      rintro ⟨_, hm, -⟩
      cases hm
  · next hsize =>
      obtain ⟨_, -, hok⟩ := bind_eq_ok.mp hok
      obtain ⟨mapped, hmapped, hok⟩ := bind_eq_ok.mp hok
      split at hok
      · cases hok
      · next hne =>
          cases hok
          have hplaced := (appendExtents_spec h (fun e he => he) placed_nil hmapped).1
          have hgives : ∀ v p, Gives segments v p ↔ v < file.size ∧ translated iso file v = some p :=
            fun v p => gives_translated h hmapped
          refine ⟨hplaced, (appendExtents_ok_iff h).mp ⟨segments, hmapped⟩, fun _ => ?_, hgives⟩
          obtain ⟨s, hs⟩ := List.exists_mem_of_ne_nil segments hne
          have hpos := (hplaced s hs).pos
          obtain ⟨hv, htranslated⟩ := (hgives s.virtualOffset _).mp (gives_iff.mpr ⟨s, hs, Nat.le_refl _, by omega, rfl⟩)
          obtain ⟨c, hc, -⟩ := Option.bind_eq_some_iff.mp htranslated
          exact ⟨s.virtualOffset, hv, by rw [hc]; rfl⟩

/-- The mapping succeeds exactly when the image holds all that the file has, and a file with a size has something. -/
theorem mapIso_ok_iff (h : Inside iso file) :
    (∃ segments, mapIsoFileExtentsToSourceSegments iso file.blockSize file.size file.extents = .ok segments) ↔
      Contained iso file ∧ Held file := by
  constructor
  · rintro ⟨segments, hok⟩
    obtain ⟨-, hcontained, hheld, -⟩ := mapIso_spec h hok
    exact ⟨hcontained, hheld⟩
  · rintro ⟨hcontained, hheld⟩
    rw [mapIso_eq h]
    split
    · exact ⟨[], rfl⟩
    · next hsize =>
        obtain ⟨v, hv, hsome⟩ := hheld (Nat.pos_of_ne_zero hsize)
        obtain ⟨segments, hok⟩ := (appendExtents_ok_iff h).mpr hcontained
        obtain ⟨p, hp⟩ := Option.isSome_iff_exists.mp (hcontained v hv hsome)
        have hgives := (gives_translated h hok).mpr ⟨hv, hp⟩
        have hextents : file.extents ≠ [] := by
          intro hnil
          rw [SourceFile.locate, hnil] at hsome
          cases hsome
        have hne : segments ≠ [] := by
          rintro rfl
          obtain ⟨_, hm, _⟩ := hgives
          cases hm
        refine ⟨segments, ?_⟩
        rw [refuseIf, if_neg hextents, ok_bind, hok, ok_bind, if_neg hne]

end files

/-- A file inside an image is mapped exactly when the image holds all that the file has and a file with a size has
something; a range of it is then read byte for byte through the extents of both, unless the file lacks one of its bytes. -/
theorem wimboot_reads (iso : Vhdx.IsoFile) (file : SourceFile) (disk : Nat → UInt8) (reader : PhysicalReader) (blockSize : Nat)
    (h : Inside iso file) (hpos : 0 < blockSize) (hreader : Reads disk blockSize reader) :
    ((∃ segments, mapIsoFileExtentsToSourceSegments iso file.blockSize file.size file.extents = .ok segments) ↔
      Contained iso file ∧ Held file) ∧
    ∀ segments, mapIsoFileExtentsToSourceSegments iso file.blockSize file.size file.extents = .ok segments →
      ∀ offset len, offset + len ≤ file.size →
        (readMappedByteRange reader blockSize segments offset len = none ↔
          ∃ v, offset ≤ v ∧ v < offset + len ∧ file.locate v = none) ∧
        ∀ bytes, readMappedByteRange reader blockSize segments offset len = some bytes →
          bytes.length = len ∧
            ∀ i < len, ∃ p, translated iso file (offset + i) = some p ∧ bytes[i]? = some (disk p) := by
  refine ⟨mapIso_ok_iff h, fun segments hok offset len hrange => ?_⟩
  obtain ⟨hplaced, hcontained, -, hgives⟩ := mapIso_spec h hok
  have hend : checkedAdd 64 offset len = some (offset + len) :=
    checkedAdd_eq_some.mpr ⟨Nat.lt_of_le_of_lt hrange file.size_lt, rfl⟩
  have hread : readMappedByteRange reader blockSize segments offset len =
      mappedLoop reader blockSize segments (offset + len) offset [] := by
    rw [readMappedByteRange, hend]
    rfl
  have hlen : offset + len - offset = len := Nat.add_sub_cancel_left offset len
  obtain ⟨hnone, hsome⟩ := @mappedLoop_spec disk reader blockSize (offset + len) offset [] segments hreader hpos hplaced
  rw [hread]
  constructor
  · rw [hnone]
    refine exists_congr fun v => and_congr_right fun _ => and_congr_right fun hv => ?_
    have hv : v < file.size := Nat.lt_of_lt_of_le hv hrange
    constructor
    · intro hno
      by_contra hlocate
      obtain ⟨p, hp⟩ := Option.isSome_iff_exists.mp (hcontained v hv (Option.isSome_iff_ne_none.mpr hlocate))
      exact hno p ((hgives v p).mpr ⟨hv, hp⟩)
    · intro hlocate p hp
      have htranslated := ((hgives v p).mp hp).2
      rw [translated, hlocate] at htranslated
      cases htranslated
  · intro bytes hbytes
    obtain ⟨out, rfl, hout, hplaces⟩ := hsome bytes hbytes
    rw [hlen] at hout hplaces
    refine ⟨hout, fun i hi => ?_⟩
    obtain ⟨p, hp, hbyte⟩ := hplaces i hi
    exact ⟨p, ((hgives _ _).mp hp).2, hbyte⟩

/-- An image of three blocks of four bytes, in two runs. -/
def sampleImage : Vhdx.IsoFile := ⟨⟨12, 4, [(0, 10, 1), (1, 7, 2)], Words.twelve_lt_u64, Words.four_lt_u32⟩, 0⟩

/-- A file of five bytes, of which the first four go over the end of the first run. -/
def sampleFile : SourceFile := ⟨5, 2, [(0, 1, 2), (2, 4, 1)], Words.five_lt_u64, Words.two_lt_u32⟩

def sampleBytes (p : Nat) : UInt8 := UInt8.ofNat p

theorem sampleFile_inside : Inside sampleImage sampleFile where
  image := by
    refine ⟨by decide, ?_, by decide⟩
    refine List.pairwise_cons.mpr ⟨fun e he block => ?_, List.pairwise_singleton _ _⟩
    rw [List.mem_singleton.mp he]
    simp only
    omega
  inner := by
    refine ⟨by decide, ?_, by decide⟩
    refine List.pairwise_cons.mpr ⟨fun e he block => ?_, List.pairwise_singleton _ _⟩
    rw [List.mem_singleton.mp he]
    simp only
    omega
  run_lt := fun hnil => nomatch hnil

theorem sampleFile_reads : ∃ segments,
    mapIsoFileExtentsToSourceSegments sampleImage sampleFile.blockSize sampleFile.size sampleFile.extents = .ok segments ∧
      ∃ bytes, readMappedByteRange (diskReader sampleBytes) 4 segments 1 4 = some bytes ∧ bytes.length = 4 ∧
        ∀ i < 4, ∃ p, translated sampleImage sampleFile (1 + i) = some p ∧ bytes[i]? = some (sampleBytes p) := by
  obtain ⟨hmap, hread⟩ := wimboot_reads sampleImage sampleFile sampleBytes (diskReader sampleBytes) 4 sampleFile_inside
    (by decide) (diskReader_reads sampleBytes 4)
  have hcontained : Contained sampleImage sampleFile := by
    unfold Contained
    decide
  have hheld : ∀ v < 5, (sampleFile.locate v).isSome := by decide
  obtain ⟨segments, hok⟩ := hmap.mpr ⟨hcontained, fun _ => ⟨0, by decide, hheld 0 (by decide)⟩⟩
  obtain ⟨hnone, hsome⟩ := hread segments hok 1 4 (by decide)
  refine ⟨segments, hok, ?_⟩
  cases hbytes : readMappedByteRange (diskReader sampleBytes) 4 segments 1 4 with
  | none =>
      obtain ⟨v, -, hv, hlocate⟩ := hnone.mp hbytes
      have hheld := hheld v hv
      rw [hlocate] at hheld
      cases hheld
  | some bytes => exact ⟨bytes, rfl, hsome bytes hbytes⟩

/-- A file of four bytes without extents, and one whose extent is behind its size. -/
def emptyFile : SourceFile := ⟨4, 2, [], Words.four_lt_u64, Words.two_lt_u32⟩

def distantFile : SourceFile := ⟨4, 2, [(3, 0, 1)], Words.four_lt_u64, Words.two_lt_u32⟩

/-- Files that have nothing outside the image are refused when they have nothing at all. -/
theorem unheld_files_refused :
    (mapIsoFileExtentsToSourceSegments sampleImage emptyFile.blockSize emptyFile.size emptyFile.extents = .error .unsupported ∧
      Inside sampleImage emptyFile ∧ Contained sampleImage emptyFile) ∧
    mapIsoFileExtentsToSourceSegments sampleImage distantFile.blockSize distantFile.size distantFile.extents =
        .error .deviceError ∧
      Inside sampleImage distantFile ∧ Contained sampleImage distantFile := by
  refine ⟨⟨rfl, ⟨sampleFile_inside.image, ⟨by decide, List.Pairwise.nil, by decide⟩, fun hnil => nomatch hnil⟩, ?_⟩,
    rfl, ⟨sampleFile_inside.image, ⟨by decide, List.pairwise_singleton _ _, by decide⟩, fun hnil => nomatch hnil⟩, ?_⟩
  · unfold Contained
    decide
  · unfold Contained
    decide

end NextBoot.Boot.WimbootReads
