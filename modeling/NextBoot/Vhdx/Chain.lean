import NextBoot.Tiling
import NextBoot.Vhdx.Backing

namespace NextBoot.Vhdx

open Words Bytes Results Virtio.Mapping Virtio.BlockIo Virtio.Translation Virtio.ReadSemantics Virtio.DeviceReads

/-- The table maps what it did before, and the bytes from `lo` up to `hi` to where `source` puts them. -/
structure Extends (t t' : ByteMappingTable) (lo hi : Nat) (source : Nat → Option Nat) : Prop where
  fits : (∀ m ∈ t.mappings, Fits m) → ∀ m ∈ t'.mappings, Fits m
  maps : ∀ v p, Maps t'.mappings v p ↔ Maps t.mappings v p ∨ lo ≤ v ∧ v < hi ∧ source v = some p

variable {t t' t'' : ByteMappingTable} {lo mid hi : Nat} {source source' : Nat → Option Nat}

theorem Extends.hole (h : ∀ v, lo ≤ v → v < hi → source v = none) : Extends t t lo hi source := by
  refine ⟨fun ht => ht, fun v p => ⟨.inl, ?_⟩⟩
  rintro (hm | ⟨hlo, hhi, hs⟩)
  · exact hm
  · cases (h v hlo hhi).symm.trans hs

theorem Extends.trans (h : Extends t t' lo mid source) (h' : Extends t' t'' mid hi source) (hlo : lo ≤ mid)
    (hhi : mid ≤ hi) : Extends t t'' lo hi source := by
  refine ⟨fun ht => h'.fits (h.fits ht), fun v p => ?_⟩
  rw [h'.maps, h.maps]
  constructor
  · rintro ((hm | ⟨hv, hv', hs⟩) | ⟨hv, hv', hs⟩)
    · exact .inl hm
    · exact .inr ⟨hv, by omega, hs⟩
    · exact .inr ⟨by omega, hv', hs⟩
  · rintro (hm | ⟨hv, hv', hs⟩)
    · exact .inl (.inl hm)
    · by_cases hvm : v < mid
      · exact .inl (.inr ⟨hv, hvm, hs⟩)
      · exact .inr ⟨by omega, hv', hs⟩

/-- Nothing is added by an empty range, wherever it is said to lie. -/
theorem Extends.shrink (h : Extends t t' lo hi source) (hge : lo ≥ hi) {cut : Nat} : Extends t t' cut cut source := by
  refine ⟨h.fits, fun v p => (h.maps v p).trans (or_congr_right ?_)⟩
  constructor
  · rintro ⟨hv, hv', _⟩
    omega
  · rintro ⟨hv, hv', _⟩
    omega

theorem Extends.congr (h : Extends t t' lo hi source) (heq : ∀ v, lo ≤ v → v < hi → source v = source' v) :
    Extends t t' lo hi source' := by
  refine ⟨h.fits, fun v p => (h.maps v p).trans (or_congr_right ?_)⟩
  constructor
  · rintro ⟨hlo, hhi, hs⟩
    exact ⟨hlo, hhi, (heq v hlo hhi) ▸ hs⟩
  · rintro ⟨hlo, hhi, hs⟩
    exact ⟨hlo, hhi, (heq v hlo hhi).trans hs⟩

/-- A table over a whole disk, truncated and optimized, still maps each byte to where `source` puts it. -/
theorem Extends.finished {size : Nat} (h : Extends .empty t 0 size source) :
    (t.truncate size).optimize.totalBytes = size ∧ (∀ m ∈ (t.truncate size).optimize.mappings, Fits m) ∧
      ∀ v p, Maps (t.truncate size).optimize.mappings v p ↔ v < size ∧ source v = some p := by
  have hfits := h.fits (by simp [ByteMappingTable.empty])
  obtain ⟨hfits', hmaps⟩ := truncate_spec t size hfits
  obtain ⟨hfits'', hmaps', htotal⟩ := optimize_spec _ hfits'
  refine ⟨htotal, hfits'', fun v p => ?_⟩
  rw [hmaps', hmaps, h.maps]
  simp [Maps, ByteMappingTable.empty]

theorem addSegment_extends (t : ByteMappingTable) {virtualStart byteCount physicalStart : Nat}
    (hv : virtualStart + byteCount < 2 ^ 64) (hp : physicalStart + byteCount < 2 ^ 64) :
    Extends t (t.addSegment virtualStart byteCount physicalStart) virtualStart (virtualStart + byteCount)
      fun v => some (physicalStart + (v - virtualStart)) := by
  unfold ByteMappingTable.addSegment
  split
  · next hzero =>
      refine Extends.hole fun v hlo hhi => ?_
      omega
  · next hpos =>
      simp only [ByteMapping.new, wrappingAdd_eq hv]
      refine ⟨fun ht m hm => ?_, fun v p => ?_⟩
      · rcases List.mem_append.mp hm with hm | hm
        · exact ht m hm
        · rw [List.mem_singleton.mp hm]
          refine ⟨by simp only; omega, hv, ?_⟩
          rw [Nat.add_sub_cancel_left]
          exact hp
      · rw [maps_append]
        refine or_congr_right ?_
        simp [Maps, eq_comm]

/-- The extents of a file share no block and stay within 64-bit byte addresses. -/
structure SourceFile.OnDevice (file : SourceFile) : Prop where
  blockSize_pos : 0 < file.blockSize
  disjoint : ExtentsDisjoint file.extents
  fits : ∀ e ∈ file.extents, ExtentFits file.blockSize e

/-- The physical byte that holds a byte of the file. -/
def SourceFile.locate (file : SourceFile) (offset : Nat) : Option Nat := assigned file.blockSize file.extents offset

/-- An entry of the table that lies within one extent of the file. -/
def InExtent (blockSize : Nat) (extents : List Extent) (virtualStart fileOffset : Nat) (m : ByteMapping) : Prop :=
  ∃ e ∈ extents, e.1 * blockSize ≤ fileOffset + (m.virtualStart - virtualStart) ∧
    fileOffset + (m.virtualEnd - virtualStart) ≤ (e.1 + e.2.2) * blockSize ∧
    m.physicalStart = e.2.1 * blockSize + (fileOffset + (m.virtualStart - virtualStart) - e.1 * blockSize)

def mappedBytes (m : ByteMapping) : Nat := m.virtualEnd - m.virtualStart

/-- The loop appends entries that tile the virtual range, each within one extent. -/
theorem mapFileRange_segments {blockSize : Nat} {extents : List Extent} {virtualStart fileOffset fileEnd cursor : Nat}
    (hlo : fileOffset ≤ cursor) (hhi : cursor ≤ fileEnd) (hv : virtualStart + (fileEnd - fileOffset) < 2 ^ 64)
    (h : mapFileRange blockSize extents virtualStart fileOffset fileEnd cursor t = .ok t') :
    ∃ segments, t'.mappings = t.mappings ++ segments ∧
      Tiling.Tiles ByteMapping.virtualStart mappedBytes segments (virtualStart + (cursor - fileOffset))
        (virtualStart + (fileEnd - fileOffset)) ∧
      ∀ m ∈ segments, InExtent blockSize extents virtualStart fileOffset m := by
  induction hn : fileEnd - cursor using Nat.strong_induction_on generalizing cursor t with
  | _ n ih =>
      rw [mapFileRange] at h
      split at h
      · next hlt =>
          split at h
          · cases h
          · cases h
          · next e start stop hextent =>
              obtain ⟨hmem, hstart, hstop, hcursor, hcursor'⟩ := extentAt_spec hextent
              obtain ⟨physicalStart, hphysical, h⟩ := bind_eq_ok.mp h
              obtain ⟨segmentStart, hsegment, h⟩ := bind_eq_ok.mp h
              obtain ⟨_, rfl⟩ := checkedAdd_eq_some.mp (someOr_eq_ok.mp hsegment)
              obtain ⟨first, hfirst, hphysical⟩ := Option.bind_eq_some_iff.mp (someOr_eq_ok.mp hphysical)
              obtain ⟨_, rfl⟩ := checkedMul_eq_some.mp hfirst
              obtain ⟨_, rfl⟩ := checkedAdd_eq_some.mp hphysical
              obtain ⟨segments, happend, htiles, hin⟩ := ih (fileEnd - min fileEnd stop) (by omega) (by omega) (by omega) h rfl
              have hmid : virtualStart + (min fileEnd stop - fileOffset) =
                  virtualStart + (cursor - fileOffset) + (min fileEnd stop - cursor) := by omega
              have hnew : ByteMapping.new (virtualStart + (cursor - fileOffset)) (min fileEnd stop - cursor)
                  (e.2.1 * blockSize + (cursor - start)) = ⟨virtualStart + (cursor - fileOffset),
                    virtualStart + (min fileEnd stop - fileOffset), e.2.1 * blockSize + (cursor - start)⟩ := by
                rw [ByteMapping.new, wrappingAdd_eq (by omega), hmid]
              refine ⟨⟨virtualStart + (cursor - fileOffset), virtualStart + (min fileEnd stop - fileOffset),
                e.2.1 * blockSize + (cursor - start)⟩ :: segments, ?_, ⟨rfl, ?_, ?_⟩, ?_⟩
              · rw [happend, ByteMappingTable.addSegment, if_neg (by omega), hnew, List.append_assoc]
                rfl
              · simp only [mappedBytes]
                omega
              · simp only [mappedBytes]
                rw [show virtualStart + (cursor - fileOffset) + (virtualStart + (min fileEnd stop - fileOffset) -
                  (virtualStart + (cursor - fileOffset))) = virtualStart + (min fileEnd stop - fileOffset) by omega]
                exact htiles
              · intro m hm
                rcases List.mem_cons.mp hm with rfl | hm
                · refine ⟨e, hmem, ?_, ?_, ?_⟩
                  · dsimp only
                    omega
                  · dsimp only
                    rw [Nat.add_mul]
                    omega
                  · dsimp only
                    rw [show fileOffset + (virtualStart + (cursor - fileOffset) - virtualStart) = cursor by omega, hstart]
                · exact hin m hm
      · next hge =>
          cases h
          refine ⟨[], (List.append_nil _).symm, ?_, by simp⟩
          change _ = _
          omega

variable {blockSize : Nat} {extents : List Extent} {virtualStart fileOffset : Nat} {segments : List ByteMapping}

theorem segments_maps (hpos : 0 < blockSize) (hd : ExtentsDisjoint extents) (hlo : virtualStart ≤ lo)
    (htiles : Tiling.Tiles ByteMapping.virtualStart mappedBytes segments lo hi)
    (hin : ∀ m ∈ segments, InExtent blockSize extents virtualStart fileOffset m) (v p : Nat) :
    Maps segments v p ↔ lo ≤ v ∧ v < hi ∧ assigned blockSize extents (fileOffset + (v - virtualStart)) = some p := by
  have hassigned {m : ByteMapping} (hm : m ∈ segments) (hv : m.virtualStart ≤ v) (hv' : v < m.virtualEnd) :
      assigned blockSize extents (fileOffset + (v - virtualStart)) = some (m.physicalStart + (v - m.virtualStart)) := by
    obtain ⟨e, he, hstart, hstop, hphysical⟩ := hin m hm
    have hle := htiles.ordered.le_start hm
    refine (assigned_eq_some hpos hd).mpr ⟨e, he, by omega, by omega, ?_⟩
    rw [hphysical]
    omega
  constructor
  · rintro ⟨m, hm, hv, hv', rfl⟩
    have hle := htiles.ordered.le_start hm
    have hstop := htiles.stop_le hm
    simp only [mappedBytes] at hstop
    exact ⟨by omega, by omega, hassigned hm hv hv'⟩
  · rintro ⟨hv, hv', hp⟩
    obtain ⟨m, hm, hcover, hcover'⟩ := htiles.exists_covers hv hv'
    simp only [mappedBytes] at hcover'
    exact ⟨m, hm, hcover, by omega, Option.some.inj (hp.symm.trans (hassigned hm hcover (by omega)))⟩

theorem mapFileRange_maps (hpos : 0 < blockSize) (hd : ExtentsDisjoint extents) {fileEnd cursor : Nat}
    (hlo : fileOffset ≤ cursor) (hhi : cursor ≤ fileEnd) (hv : virtualStart + (fileEnd - fileOffset) < 2 ^ 64)
    (h : mapFileRange blockSize extents virtualStart fileOffset fileEnd cursor t = .ok t') (v p : Nat) :
    Maps t'.mappings v p ↔ Maps t.mappings v p ∨ virtualStart + (cursor - fileOffset) ≤ v ∧
      v < virtualStart + (fileEnd - fileOffset) ∧ assigned blockSize extents (fileOffset + (v - virtualStart)) = some p := by
  obtain ⟨segments, happend, htiles, hin⟩ := mapFileRange_segments hlo hhi hv h
  rw [happend, maps_append, segments_maps hpos hd (by omega) htiles hin]

theorem mapFileRange_extends (hpos : 0 < blockSize) (hd : ExtentsDisjoint extents)
    (hfit : ∀ e ∈ extents, ExtentFits blockSize e) {fileEnd cursor : Nat} (hlo : fileOffset ≤ cursor)
    (hhi : cursor ≤ fileEnd) (hv : virtualStart + (fileEnd - fileOffset) < 2 ^ 64)
    (h : mapFileRange blockSize extents virtualStart fileOffset fileEnd cursor t = .ok t') :
    Extends t t' (virtualStart + (cursor - fileOffset)) (virtualStart + (fileEnd - fileOffset))
      fun v => assigned blockSize extents (fileOffset + (v - virtualStart)) := by
  refine ⟨fun ht m hm => ?_, mapFileRange_maps hpos hd hlo hhi hv h⟩
  obtain ⟨segments, happend, htiles, hin⟩ := mapFileRange_segments hlo hhi hv h
  rw [happend] at hm
  rcases List.mem_append.mp hm with hm | hm
  · exact ht m hm
  · obtain ⟨e, he, hstart, hstop, hphysical⟩ := hin m hm
    have hfits := (hfit e he).2
    have hle := htiles.ordered.le_start hm
    have hend := htiles.stop_le hm
    have hlen := htiles.pos hm
    rw [Nat.add_mul] at hfits hstop
    simp only [mappedBytes] at hend hlen
    exact ⟨by omega, by omega, by omega⟩

theorem mapSourceFileRange_extends {file : SourceFile} (hfile : file.OnDevice) {virtualStart fileOffset byteCount : Nat}
    (hv : virtualStart + byteCount < 2 ^ 64)
    (h : mapSourceFileRangeToPhysical t file virtualStart fileOffset byteCount = .ok t') :
    Extends t t' virtualStart (virtualStart + byteCount) fun v => file.locate (fileOffset + (v - virtualStart)) := by
  obtain ⟨_, _, h⟩ := bind_eq_ok.mp h
  obtain ⟨fileEnd, hend, h⟩ := bind_eq_ok.mp h
  obtain ⟨_, rfl⟩ := checkedAdd_eq_some.mp (someOr_eq_ok.mp hend)
  have hrange := mapFileRange_extends hfile.blockSize_pos hfile.disjoint hfile.fits le_rfl (by omega) (by omega) h
  rwa [Nat.sub_self, Nat.add_zero, Nat.add_sub_cancel_left] at hrange

/-- The state of the payload block that holds a virtual byte. -/
def VhdxImage.stateAt (image : VhdxImage) (v : Nat) : Option BatState :=
  (payloadEntry image.metadata image.bat (v / image.metadata.blockSize)).map (·.state)

/-- The bit for the sector of `v` in the sector bitmap of its chunk. -/
def VhdxImage.sectorPresent (disk : Nat → UInt8) (image : VhdxImage) (v : Nat) : Bool :=
  let sector := v / image.metadata.logicalSectorSize % 2 ^ 23
  let entry := image.metadata.chunkRatio.bind fun ratio =>
    (sectorBitmapBatIndex (v / image.metadata.blockSize) ratio).bind (batEntryAt image.bat)
  entry.any fun entry => entry.state = .fullyPresent ∧
    ((image.file.locate (entry.fileOffset + sector / 8)).map disk).any fun byte => byte.toNat.testBit (sector % 8)

/-- One layer of the search for a byte: in this image, or where the images above have it, or nowhere. -/
def searchImage (defers : BatState → Bool) (present : Bool) (image : VhdxImage) (v : Nat) (above : Option Nat) :
    Option Nat :=
  match payloadEntry image.metadata image.bat (v / image.metadata.blockSize) with
  | none => none
  | some entry =>
      match entry.state with
      | .fullyPresent => image.file.locate (entry.fileOffset + v % image.metadata.blockSize)
      | .partiallyPresent =>
          if present then image.file.locate (entry.fileOffset + v % image.metadata.blockSize) else above
      | state => if defers state then above else none

/-- The physical byte for `v` in a chain of images, the child first: the topmost image that has the sector gives it, and
blocks in the states that `defers` selects leave it to the images above. -/
def locate (defers : BatState → Bool) (disk : Nat → UInt8) : List VhdxImage → Nat → Option Nat
  | [], _ => none
  | image :: parents, v =>
      searchImage defers (image.sectorPresent disk v) image v (locate defers disk parents v)

def chainByte (defers : BatState → Bool) (disk : Nat → UInt8) (images : List VhdxImage) (v : Nat) : UInt8 :=
  ((locate defers disk images v).map disk).getD 0

/-- The states in which the loader goes on to the parent. -/
def BatState.defersToParent : BatState → Bool
  | .notPresent | .unmapped => true
  | _ => false

/-- Where the loader finds a byte in the parents: it takes no sector from a partially present block there. -/
def locateInParents : List VhdxImage → Nat → Option Nat
  | [], _ => none
  | image :: parents, v => searchImage BatState.defersToParent false image v (locateInParents parents v)

theorem searchImage_defers {present : Bool} {image : VhdxImage} {v : Nat} {above : Option Nat} {entry : VhdxBatEntry}
    (hentry : payloadEntry image.metadata image.bat (v / image.metadata.blockSize) = some entry)
    (hs : entry.state.defersToParent = true) :
    searchImage BatState.defersToParent present image v above = above := by
  rw [searchImage, hentry]
  cases hstate : entry.state <;> simp_all [BatState.defersToParent]

/-- What opening the parents of an image can return. A parent has the geometry of its child, and eight levels are
followed. -/
inductive Opened : Nat → VhdxImage → List VhdxImage → Prop
  | missing (depth : Nat) (child : VhdxImage) : Opened depth child []
  | found {depth : Nat} {child parent : VhdxImage} {higher : List VhdxImage} (hasParent : child.metadata.hasParent = true)
      (admitted : depth < 8) (virtualDiskSize : parent.metadata.virtualDiskSize = child.metadata.virtualDiskSize)
      (logicalSectorSize : parent.metadata.logicalSectorSize = child.metadata.logicalSectorSize)
      (opened : Opened (depth + 1) parent higher) : Opened depth child (parent :: higher)

/-- What the planner's choice for a block says about its state. -/
theorem payloadSource_cases {m : VhdxMetadata} {payloadIndex : Nat} {entry : VhdxBatEntry} {start : ImageSpanSource}
    (h : payloadSource m (fun _ => .ok false) payloadIndex entry = .ok start) :
    start = .image entry.fileOffset ∧ entry.state = .fullyPresent ∨
      start = .zero ∧ (entry.state = .zero ∨ m.hasParent = false ∧ entry.state.defersToParent = true) ∨
      start = .parent ∧ (entry.state = .partiallyPresent ∨ entry.state.defersToParent = true) := by
  unfold payloadSource at h
  cases hs : entry.state <;> rw [hs] at h
  case fullyPresent =>
    cases h
    exact .inl ⟨rfl, rfl⟩
  case zero =>
    cases h
    exact .inr (.inl ⟨rfl, .inl rfl⟩)
  case undefined => cases h
  case reserved => cases h
  all_goals
    cases hp : m.hasParent <;> simp only [hp] at h <;> cases h
    all_goals simp [BatState.defersToParent]

/-- Where the bytes of a planned source are; `above` is what the images above give. -/
def ImageSpanSource.resolve (file : SourceFile) (above : Option Nat) : ImageSpanSource → Option Nat
  | .image fileOffset => file.locate fileOffset
  | .zero => none
  | .parent => above

theorem locateInParents_of_planned {parent : VhdxImage} {higher : List VhdxImage} {depth : Nat}
    (hopened : Opened depth parent higher) {v : Nat} {source : ImageSpanSource}
    (h : PlannedSource parent.metadata parent.bat (fun _ => .ok false) v source) :
    locateInParents (parent :: higher) v = source.resolve parent.file (locateInParents higher v) := by
  obtain ⟨entry, start, hentry, hstart, rfl⟩ := h
  rw [locateInParents]
  rcases payloadSource_cases hstart with ⟨rfl, hs⟩ | ⟨rfl, hs | ⟨hp, hs⟩⟩ | ⟨rfl, hs | hs⟩
  · simp only [searchImage, hentry, hs, ImageSpanSource.advance, ImageSpanSource.resolve]
  · simp only [searchImage, hentry, hs, ImageSpanSource.advance, ImageSpanSource.resolve]
    rfl
  · have hnone : higher = [] := by
      cases hopened with
      | missing => rfl
      | found hasParent => rw [hp] at hasParent; cases hasParent
    subst hnone
    exact searchImage_defers hentry hs
  · simp only [searchImage, hentry, hs, ImageSpanSource.advance, ImageSpanSource.resolve]
    rfl
  · exact searchImage_defers hentry hs

/-- Every file of the chain lies on the device. -/
def OnDevice (images : List VhdxImage) : Prop := ∀ image ∈ images, image.file.OnDevice

section spans

variable {file : SourceFile} {planned : Nat → ImageSpanSource → Prop} {above : Nat → Option Nat} {virtualStart virtualEnd : Nat}
  {mapNext : ByteMappingTable → Nat → Nat → Except Failure ByteMappingTable}

/-- One span of a parent cut to the range, in the same way for every format; `mapNext` maps a range of the next parent. -/
def mapSpan (file : SourceFile) (mapNext : ByteMappingTable → Nat → Nat → Except Failure ByteMappingTable)
    (virtualStart virtualEnd : Nat) (table : ByteMappingTable) (span : ImageSpan) : Except Failure ByteMappingTable := do
  let spanEnd ← someOr (checkedAdd 64 span.virtualOffset span.byteCount) .loadError
  let overlapStart := max virtualStart span.virtualOffset
  let overlapEnd := min virtualEnd spanEnd
  if overlapStart ≥ overlapEnd then .ok table
  else
    match span.source with
    | .image fileOffset => do
        let parentFileOffset ← someOr (checkedAdd 64 fileOffset (overlapStart - span.virtualOffset)) .loadError
        mapSourceFileRangeToPhysical table file overlapStart parentFileOffset (overlapEnd - overlapStart)
    | .zero => .ok table
    | .parent => mapNext table overlapStart (overlapEnd - overlapStart)

theorem mapSpan_extends (hresolve : ∀ v s, planned v s → source v = s.resolve file (above v)) (hfile : file.OnDevice)
    (hnext : ∀ t t' start count, mapNext t start count = .ok t' → start + count ≤ virtualEnd →
      Extends t t' start (start + count) above)
    (hend : virtualEnd < 2 ^ 64) {span : ImageSpan} (hspan : Describes planned span)
    (h : mapSpan file mapNext virtualStart virtualEnd t span = .ok t') :
    Extends t t' (max virtualStart span.virtualOffset) (min virtualEnd (span.virtualOffset + span.byteCount)) source := by
  obtain ⟨spanEnd, hspanEnd, h⟩ := bind_eq_ok.mp h
  obtain ⟨_, rfl⟩ := checkedAdd_eq_some.mp (someOr_eq_ok.mp hspanEnd)
  generalize hlo : max virtualStart span.virtualOffset = lo at *
  generalize hhi : min virtualEnd (span.virtualOffset + span.byteCount) = hi at *
  by_cases hge : lo ≥ hi
  · rw [if_pos hge] at h
    cases h
    refine Extends.hole fun v hv hv' => ?_
    omega
  · rw [if_neg hge] at h
    have hsource (v : Nat) (hv : lo ≤ v) (hv' : v < hi) :
        source v = (span.source.advance (v - span.virtualOffset)).resolve file (above v) :=
      hresolve v _ (hspan v (by omega) (by omega))
    have hrange : lo + (hi - lo) = hi := by omega
    split at h
    · next fileOffset himage =>
        obtain ⟨parentFileOffset, hoffset, h⟩ := bind_eq_ok.mp h
        obtain ⟨_, rfl⟩ := checkedAdd_eq_some.mp (someOr_eq_ok.mp hoffset)
        have hmap := mapSourceFileRange_extends hfile (by omega) h
        rw [hrange] at hmap
        refine hmap.congr fun v hv hv' => ?_
        rw [hsource v hv hv', himage, ImageSpanSource.advance, ImageSpanSource.resolve]
        congr 1
        omega
    · next hzero =>
        cases h
        refine Extends.hole fun v hv hv' => ?_
        rw [hsource v hv hv', hzero]
        rfl
    · next hparent =>
        have hmap := hnext t t' lo (hi - lo) h (by omega)
        rw [hrange] at hmap
        refine hmap.congr fun v hv hv' => ?_
        rw [hsource v hv hv', hparent]
        rfl

/-- The spans before `lo` have mapped the part of the range that lies before `lo`. -/
theorem mapSpans_extends (hresolve : ∀ v s, planned v s → source v = s.resolve file (above v)) (hfile : file.OnDevice)
    (hnext : ∀ t t' start count, mapNext t start count = .ok t' → start + count ≤ virtualEnd →
      Extends t t' start (start + count) above)
    (hend : virtualEnd < 2 ^ 64) {size : Nat} (hsize : virtualEnd ≤ size) (hrange : virtualStart ≤ virtualEnd)
    {spans : List ImageSpan} (htiles : Tiles spans lo size) (hdescribes : ∀ s ∈ spans, Describes planned s)
    (h : spans.foldlM (mapSpan file mapNext virtualStart virtualEnd) t = .ok t') :
    Extends t t' (max virtualStart (min lo virtualEnd)) virtualEnd source := by
  induction spans generalizing lo t with
  | nil =>
      rw [List.foldlM_nil, pure_eq_ok] at h
      subst h
      have hlo : lo = size := htiles
      refine Extends.hole fun v hv hv' => ?_
      omega
  | cons span spans ih =>
      rw [List.foldlM_cons, bind_eq_ok] at h
      obtain ⟨t₁, hstep, h⟩ := h
      obtain ⟨rfl, htiles⟩ := htiles
      have hrest := ih htiles (fun s hs => hdescribes s (List.mem_cons_of_mem _ hs)) h
      have hspan := mapSpan_extends hresolve hfile hnext hend (hdescribes span List.mem_cons_self) hstep
      generalize hcut : max virtualStart (min (span.virtualOffset + span.byteCount) virtualEnd) = cut at hrest
      by_cases hge : max virtualStart span.virtualOffset ≥ min virtualEnd (span.virtualOffset + span.byteCount)
      · have hsame : max virtualStart (min span.virtualOffset virtualEnd) = cut := by omega
        rw [hsame]
        exact (hspan.shrink hge).trans hrest le_rfl (by omega)
      · have hlo : max virtualStart span.virtualOffset = max virtualStart (min span.virtualOffset virtualEnd) := by omega
        have hhi : min virtualEnd (span.virtualOffset + span.byteCount) = cut := by omega
        rw [hlo, hhi] at hspan
        exact hspan.trans hrest (by omega) (by omega)

end spans

theorem mapParentSpans_extends {parent : VhdxImage} {higher : List VhdxImage} {depth : Nat}
    (hopened : Opened depth parent higher) (hfile : parent.file.OnDevice)
    {mapNext : ByteMappingTable → Nat → Nat → Except Failure ByteMappingTable} {virtualStart byteCount : Nat}
    (hnext : ∀ t t' start count, mapNext t start count = .ok t' → start + count ≤ parent.metadata.virtualDiskSize →
      Extends t t' start (start + count) (locateInParents higher))
    (hend : virtualStart + byteCount ≤ parent.metadata.virtualDiskSize)
    (h : mapParentSpans parent mapNext t virtualStart byteCount = .ok t') :
    Extends t t' virtualStart (virtualStart + byteCount) (locateInParents (parent :: higher)) := by
  have hlt := parent.metadata.virtualDiskSize_lt
  obtain ⟨spans, hspans, h⟩ := bind_eq_ok.mp h
  obtain ⟨virtualEnd, hvirtualEnd, h⟩ := bind_eq_ok.mp h
  obtain ⟨_, rfl⟩ := checkedAdd_eq_some.mp (someOr_eq_ok.mp hvirtualEnd)
  obtain ⟨htiles, hdescribes⟩ := planVhdxSpans_spec (mapError_eq_ok.mp hspans)
  have hrange := mapSpans_extends (fun _ _ hs => locateInParents_of_planned hopened hs) hfile
    (fun t t' start count hmap hle => hnext t t' start count hmap (hle.trans hend)) (by omega) hend (Nat.le_add_right _ _)
    htiles hdescribes h
  rwa [Nat.zero_min, Nat.max_zero] at hrange

theorem mapParentVhdxRange_extends {parent : VhdxImage} {higher : List VhdxImage} {depth : Nat}
    (hopened : Opened depth parent higher) (hfiles : OnDevice (parent :: higher)) {virtualStart byteCount : Nat}
    (hend : virtualStart + byteCount ≤ parent.metadata.virtualDiskSize)
    (h : mapParentVhdxRange parent higher t virtualStart byteCount = .ok t') :
    Extends t t' virtualStart (virtualStart + byteCount) (locateInParents (parent :: higher)) := by
  induction higher generalizing parent depth virtualStart byteCount t t' with
  | nil =>
      refine mapParentSpans_extends hopened (hfiles parent List.mem_cons_self) (fun t t' start count hmap => ?_) hend h
      cases hmap
  | cons nextParent higher ih =>
      refine mapParentSpans_extends hopened (hfiles parent List.mem_cons_self) (fun t t' start count hmap hle => ?_) hend h
      cases hopened with
      | found _ _ hsize _ hopened =>
          exact ih hopened (fun image hi => hfiles image (List.mem_cons_of_mem _ hi)) (hle.trans_eq hsize.symm) hmap

end NextBoot.Vhdx
