import NextBoot.Bytes
import NextBoot.Results
import NextBoot.Words

namespace NextBoot.Vhdx

open Words Bytes Results

/-- The file parameters that pass `parse_vhdx_metadata`. -/
structure VhdxMetadata where
  virtualDiskSize : Nat
  blockSize : Nat
  logicalSectorSize : Nat
  hasParent : Bool
  virtualDiskSize_pos : 0 < virtualDiskSize
  virtualDiskSize_lt : virtualDiskSize < 2 ^ 64
  blockSize_pow : ∃ exponent, blockSize = 2 ^ exponent
  blockSize_range : 2 ^ 20 ≤ blockSize ∧ blockSize ≤ 2 ^ 28
  logicalSectorSize_cases : logicalSectorSize = 512 ∨ logicalSectorSize = 4096

section SmallestDisk

theorem smallestDisk_pos : 0 < 1024 := by decide

theorem largestBlock_pow : ∃ exponent, 2 ^ 28 = 2 ^ exponent := ⟨28, rfl⟩

theorem largestBlock_range : 2 ^ 20 ≤ 2 ^ 28 ∧ 2 ^ 28 ≤ 2 ^ 28 := by decide

theorem sector_cases : 512 = 512 ∨ 512 = 4096 := .inl rfl

end SmallestDisk

def VhdxMetadata.chunkRatio (m : VhdxMetadata) : Option Nat := do
  let chunkBytes ← checkedMul 64 (2 ^ 23) m.logicalSectorSize
  if m.blockSize = 0 ∨ chunkBytes % m.blockSize ≠ 0 then none
  else if chunkBytes / m.blockSize = 0 then none
  else some (chunkBytes / m.blockSize)

def payloadBlockCount (virtualDiskSize blockSize : Nat) : Option Nat := divRoundUp 64 virtualDiskSize blockSize

def batEntryCount (payloadBlocks chunkRatio : Nat) : Option Nat :=
  if payloadBlocks = 0 ∨ chunkRatio = 0 then none
  else do
    let chunks ← divRoundUp 64 payloadBlocks chunkRatio
    let perChunk ← checkedAdd 64 chunkRatio 1
    checkedMul 64 chunks perChunk

def payloadBatIndex (payloadBlockIndex chunkRatio : Nat) : Option Nat :=
  if chunkRatio = 0 then none else checkedAdd 64 payloadBlockIndex (payloadBlockIndex / chunkRatio)

def sectorBitmapBatIndex (payloadBlockIndex chunkRatio : Nat) : Option Nat :=
  if chunkRatio = 0 then none
  else do
    let perChunk ← checkedAdd 64 chunkRatio 1
    let chunkStart ← checkedMul 64 (payloadBlockIndex / chunkRatio) perChunk
    checkedAdd 64 chunkStart chunkRatio

inductive BatState
  | notPresent
  | undefined
  | zero
  | unmapped
  | fullyPresent
  | partiallyPresent
  | reserved
deriving DecidableEq, Repr

def BatState.ofRaw : Nat → BatState
  | 0 => .notPresent
  | 1 => .undefined
  | 2 => .zero
  | 3 => .unmapped
  | 6 => .fullyPresent
  | 7 => .partiallyPresent
  | _ => .reserved

structure VhdxBatEntry where
  state : BatState
  fileOffset : Nat
deriving DecidableEq, Repr

def parseBatEntry (raw : Nat) : VhdxBatEntry := ⟨.ofRaw (raw % 8), raw / 2 ^ 20 * 2 ^ 20⟩

/-- The entry at an index of the table; the index times eight must not overflow. -/
def batEntryAt (bat : List UInt8) (batIndex : Nat) : Option VhdxBatEntry := do
  let batOffset ← checkedMul 64 batIndex 8
  let raw ← readLe 8 bat batOffset
  return parseBatEntry raw

inductive ImageSpanSource
  | image (fileOffset : Nat)
  | parent
  | zero
deriving DecidableEq, Repr

structure ImageSpan where
  virtualOffset : Nat
  byteCount : Nat
  source : ImageSpanSource
deriving DecidableEq, Repr

inductive ImagePlanError
  | invalid
  | unsupported
deriving DecidableEq, Repr

def readPayloadEntry (bat : List UInt8) (payloadIndex chunkRatio : Nat) : Except ImagePlanError VhdxBatEntry :=
  someOr ((payloadBatIndex payloadIndex chunkRatio).bind (batEntryAt bat)) .invalid

def sameMergeSource : ImageSpanSource → ImageSpanSource → Bool
  | .parent, .parent => true
  | .zero, .zero => true
  | _, _ => false

def pushSpan (spans : List ImageSpan) (virtualOffset byteCount : Nat) (source : ImageSpanSource) :
    Except ImagePlanError (List ImageSpan) :=
  if byteCount = 0 then .ok spans
  else
    match spans.getLast? with
    | none => .ok (spans ++ [⟨virtualOffset, byteCount, source⟩])
    | some last => do
        let lastEnd ← someOr (checkedAdd 64 last.virtualOffset last.byteCount) .invalid
        if lastEnd = virtualOffset ∧ sameMergeSource last.source source then
          let merged ← someOr (checkedAdd 64 last.byteCount byteCount) .invalid
          .ok (spans.dropLast ++ [{ last with byteCount := merged }])
        else .ok (spans ++ [⟨virtualOffset, byteCount, source⟩])

/-- Where the planner looks for the bytes of one payload block. -/
def payloadSource (m : VhdxMetadata) (partialBlockIsSelfContained : Nat → Except ImagePlanError Bool) (payloadIndex : Nat)
    (entry : VhdxBatEntry) : Except ImagePlanError ImageSpanSource :=
  match entry.state with
  | .fullyPresent => .ok (.image entry.fileOffset)
  | .partiallyPresent => do
      if ← partialBlockIsSelfContained payloadIndex then .ok (.image entry.fileOffset)
      else if m.hasParent then .ok .parent
      else .error .unsupported
  | .zero => .ok .zero
  | .notPresent | .unmapped => if m.hasParent then .ok .parent else .ok .zero
  | .undefined => .error .unsupported
  | .reserved => .error .invalid

def planBlock (m : VhdxMetadata) (bat : List UInt8) (partialBlockIsSelfContained : Nat → Except ImagePlanError Bool)
    (chunkRatio : Nat) (spans : List ImageSpan) (payloadIndex : Nat) : Except ImagePlanError (List ImageSpan) := do
  let entry ← readPayloadEntry bat payloadIndex chunkRatio
  let virtualOffset ← someOr (checkedMul 64 payloadIndex m.blockSize) .invalid
  let byteCount := min m.blockSize (m.virtualDiskSize - virtualOffset)
  let source ← payloadSource m partialBlockIsSelfContained payloadIndex entry
  pushSpan spans virtualOffset byteCount source

def planVhdxSpans (m : VhdxMetadata) (bat : List UInt8)
    (partialBlockIsSelfContained : Nat → Except ImagePlanError Bool) : Except ImagePlanError (List ImageSpan) := do
  let payloadBlocks ← someOr (payloadBlockCount m.virtualDiskSize m.blockSize) .invalid
  let chunkRatio ← someOr m.chunkRatio .invalid
  let batEntries ← someOr (batEntryCount payloadBlocks chunkRatio) .invalid
  let batBytes ← someOr (checkedMul 64 batEntries 8) .invalid
  refuseIf (bat.length < batBytes) .invalid
  (List.range payloadBlocks).foldlM (planBlock m bat partialBlockIsSelfContained chunkRatio) []

/-- The entry of a payload block in the table of an image. -/
def payloadEntry (m : VhdxMetadata) (bat : List UInt8) (payloadIndex : Nat) : Option VhdxBatEntry := do
  let chunkRatio ← m.chunkRatio
  let batIndex ← payloadBatIndex payloadIndex chunkRatio
  batEntryAt bat batIndex

/-- The source `count` bytes further on. -/
def ImageSpanSource.advance : ImageSpanSource → Nat → ImageSpanSource
  | .image fileOffset, count => .image (fileOffset + count)
  | .parent, _ => .parent
  | .zero, _ => .zero

/-- The spans lie one behind the other from `lo` to `hi`. -/
def Tiles : List ImageSpan → Nat → Nat → Prop
  | [], lo, hi => lo = hi
  | s :: spans, lo, hi => s.virtualOffset = lo ∧ Tiles spans (lo + s.byteCount) hi

theorem tiles_append {spans more : List ImageSpan} {lo hi : Nat} :
    Tiles (spans ++ more) lo hi ↔ ∃ mid, Tiles spans lo mid ∧ Tiles more mid hi := by
  induction spans generalizing lo with
  | nil => simp [Tiles]
  | cons s spans ih => simp [Tiles, ih, and_assoc]

/-- Every byte of the span has the source the span gives it. -/
def Describes (sourceAt : Nat → ImageSpanSource → Prop) (s : ImageSpan) : Prop :=
  ∀ v, s.virtualOffset ≤ v → v < s.virtualOffset + s.byteCount → sourceAt v (s.source.advance (v - s.virtualOffset))

theorem describes_merge {sourceAt : Nat → ImageSpanSource → Prop} {last : ImageSpan} {byteCount : Nat}
    {source : ImageSpanSource} (hsame : sameMergeSource last.source source) (hlast : Describes sourceAt last)
    (hnew : Describes sourceAt ⟨last.virtualOffset + last.byteCount, byteCount, source⟩) :
    Describes sourceAt { last with byteCount := last.byteCount + byteCount } := by
  intro v hlo hhi
  by_cases hv : v < last.virtualOffset + last.byteCount
  · exact hlast v hlo hv
  · have hsource := hnew v (by simpa using hv) (by simpa [Nat.add_assoc] using hhi)
    obtain ⟨virtualOffset, count, lastSource⟩ := last
    cases lastSource <;> cases source <;> first | exact hsource | cases hsame

theorem pushSpan_spec {sourceAt : Nat → ImageSpanSource → Prop} {spans spans' : List ImageSpan}
    {virtualOffset byteCount : Nat} {source : ImageSpanSource}
    (h : pushSpan spans virtualOffset byteCount source = .ok spans') (htiles : Tiles spans 0 virtualOffset)
    (hspans : ∀ s ∈ spans, Describes sourceAt s) (hnew : Describes sourceAt ⟨virtualOffset, byteCount, source⟩) :
    Tiles spans' 0 (virtualOffset + byteCount) ∧ ∀ s ∈ spans', Describes sourceAt s := by
  have happend : Tiles (spans ++ [⟨virtualOffset, byteCount, source⟩]) 0 (virtualOffset + byteCount) ∧
      ∀ s ∈ spans ++ [⟨virtualOffset, byteCount, source⟩], Describes sourceAt s := by
    refine ⟨tiles_append.mpr ⟨virtualOffset, htiles, rfl, rfl⟩, fun s hs => ?_⟩
    rcases List.mem_append.mp hs with hs | hs
    · exact hspans s hs
    · rw [List.mem_singleton.mp hs]
      exact hnew
  unfold pushSpan at h
  split at h
  · next hzero =>
      cases h
      rw [hzero, Nat.add_zero]
      exact ⟨htiles, hspans⟩
  · split at h
    · cases h
      exact happend
    · next last hlast =>
        obtain ⟨lastEnd, hend, h⟩ := bind_eq_ok.mp h
        obtain ⟨_, rfl⟩ := checkedAdd_eq_some.mp (someOr_eq_ok.mp hend)
        split at h
        · next hmerge =>
            obtain ⟨merged, hm, h⟩ := bind_eq_ok.mp h
            obtain ⟨_, rfl⟩ := checkedAdd_eq_some.mp (someOr_eq_ok.mp hm)
            cases h
            obtain ⟨rfl, hsame⟩ := hmerge
            have hsplit : spans = spans.dropLast ++ [last] := (List.dropLast_append_getLast? last hlast).symm
            rw [hsplit] at htiles hspans
            obtain ⟨mid, hbefore, hmid, hstop⟩ := tiles_append.mp htiles
            refine ⟨tiles_append.mpr ⟨mid, hbefore, hmid, ?_⟩, fun s hs => ?_⟩
            · change mid + (last.byteCount + byteCount) = _
              rw [← hmid]
              omega
            · rcases List.mem_append.mp hs with hs | hs
              · exact hspans s (List.mem_append_left _ hs)
              · rw [List.mem_singleton.mp hs]
                exact describes_merge hsame (hspans last (by simp)) hnew
        · cases h
          exact happend

/-- What the planner must find for the byte at `v`. -/
def PlannedSource (m : VhdxMetadata) (bat : List UInt8) (partialBlockIsSelfContained : Nat → Except ImagePlanError Bool)
    (v : Nat) (source : ImageSpanSource) : Prop :=
  ∃ entry start, payloadEntry m bat (v / m.blockSize) = some entry ∧
    payloadSource m partialBlockIsSelfContained (v / m.blockSize) entry = .ok start ∧
    source = start.advance (v % m.blockSize)

theorem payloadBlockCount_spec {m : VhdxMetadata} {payloadBlocks : Nat}
    (h : payloadBlockCount m.virtualDiskSize m.blockSize = some payloadBlocks) :
    (∀ k, k < payloadBlocks → k * m.blockSize < m.virtualDiskSize) ∧
      m.virtualDiskSize ≤ payloadBlocks * m.blockSize := by
  obtain ⟨hpos, _, rfl⟩ := divRoundUp_eq_some.mp h
  have hb : 0 < m.blockSize := Nat.pos_of_ne_zero hpos
  refine ⟨fun k hk => ?_, ?_⟩
  · have := (Nat.le_div_iff_mul_le hb).mp (Nat.succ_le_of_lt hk)
    rw [Nat.succ_mul] at this
    omega
  · have hlt := Nat.lt_mul_div_succ (m.virtualDiskSize + (m.blockSize - 1)) hb
    rw [Nat.mul_add, Nat.mul_one, Nat.mul_comm] at hlt
    omega

theorem block_offset {blockSize k v : Nat} (hlo : k * blockSize ≤ v) (hhi : v < k * blockSize + blockSize) :
    v / blockSize = k ∧ v - k * blockSize = v % blockSize := by
  have hblock : v / blockSize = k := by
    refine Nat.div_eq_of_lt_le hlo ?_
    rwa [Nat.succ_mul]
  have hsplit := Nat.div_add_mod v blockSize
  rw [hblock, Nat.mul_comm] at hsplit
  exact ⟨hblock, by omega⟩

/-- The spans cover the virtual disk, each byte with the source its payload block gives it. -/
theorem planVhdxSpans_spec {m : VhdxMetadata} {bat : List UInt8}
    {partialBlockIsSelfContained : Nat → Except ImagePlanError Bool} {spans : List ImageSpan}
    (h : planVhdxSpans m bat partialBlockIsSelfContained = .ok spans) :
    Tiles spans 0 m.virtualDiskSize ∧
      ∀ s ∈ spans, Describes (PlannedSource m bat partialBlockIsSelfContained) s := by
  obtain ⟨payloadBlocks, hblocks, h⟩ := bind_eq_ok.mp h
  obtain ⟨chunkRatio, hratio, h⟩ := bind_eq_ok.mp h
  obtain ⟨_, _, h⟩ := bind_eq_ok.mp h
  obtain ⟨_, _, h⟩ := bind_eq_ok.mp h
  obtain ⟨_, _, h⟩ := bind_eq_ok.mp h
  obtain ⟨hinside, hall⟩ := payloadBlockCount_spec (someOr_eq_ok.mp hblocks)
  have hb : 0 < m.blockSize := by
    have := m.blockSize_range.1
    omega
  have hloop := foldlM_range_ok (P := fun k spans => Tiles spans 0 (min (k * m.blockSize) m.virtualDiskSize) ∧
    ∀ s ∈ spans, Describes (PlannedSource m bat partialBlockIsSelfContained) s) (fun k spans spans' hk hstep hP => ?_) h
    ⟨by simp [Tiles], by simp⟩
  · rwa [Nat.min_eq_right hall] at hloop
  · obtain ⟨entry, hentry, hstep⟩ := bind_eq_ok.mp hstep
    obtain ⟨virtualOffset, hoffset, hstep⟩ := bind_eq_ok.mp hstep
    obtain ⟨source, hsource, hstep⟩ := bind_eq_ok.mp hstep
    obtain ⟨_, rfl⟩ := checkedMul_eq_some.mp (someOr_eq_ok.mp hoffset)
    have hstart := hinside k hk
    rw [Nat.min_eq_left hstart.le] at hP
    have hdescribes : Describes (PlannedSource m bat partialBlockIsSelfContained)
        ⟨k * m.blockSize, min m.blockSize (m.virtualDiskSize - k * m.blockSize), source⟩ := by
      intro v hlo hhi
      simp only at hlo hhi
      obtain ⟨hblock, hmod⟩ := block_offset hlo (by omega)
      refine ⟨entry, source, ?_, ?_, ?_⟩
      · rw [hblock, payloadEntry, someOr_eq_ok.mp hratio]
        exact someOr_eq_ok.mp hentry
      · rw [hblock]
        exact hsource
      · simp only [hmod]
    obtain ⟨htiles, hspans⟩ := pushSpan_spec hstep hP.1 hP.2 hdescribes
    refine ⟨?_, hspans⟩
    have hend : min ((k + 1) * m.blockSize) m.virtualDiskSize =
        k * m.blockSize + min m.blockSize (m.virtualDiskSize - k * m.blockSize) := by
      rw [Nat.succ_mul]
      omega
    rwa [hend]

end NextBoot.Vhdx
