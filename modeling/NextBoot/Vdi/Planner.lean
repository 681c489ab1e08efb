import NextBoot.Tiling
import NextBoot.Vdi.Format
import NextBoot.Vhdx.Format

namespace NextBoot.Vhdx

open Results

theorem pushSpan_pos {spans spans' : List ImageSpan} {virtualOffset byteCount : Nat} {source : ImageSpanSource}
    (h : pushSpan spans virtualOffset byteCount source = .ok spans') (hpos : ∀ s ∈ spans, 0 < s.byteCount) :
    ∀ s ∈ spans', 0 < s.byteCount := by
  have happend (hcount : byteCount ≠ 0) : ∀ s ∈ spans ++ [⟨virtualOffset, byteCount, source⟩], 0 < s.byteCount := by
    intro s hs
    rcases List.mem_append.mp hs with hs | hs
    · exact hpos s hs
    · rw [List.mem_singleton.mp hs]
      exact Nat.pos_of_ne_zero hcount
  unfold pushSpan at h
  split at h
  · cases h
    exact hpos
  · next hcount =>
      split at h
      · cases h
        exact happend hcount
      · obtain ⟨lastEnd, hend, h⟩ := bind_eq_ok.mp h
        split at h
        · obtain ⟨merged, hm, h⟩ := bind_eq_ok.mp h
          obtain ⟨_, rfl⟩ := Words.checkedAdd_eq_some.mp (someOr_eq_ok.mp hm)
          cases h
          intro s hs
          rcases List.mem_append.mp hs with hs | hs
          · exact hpos s ((List.dropLast_sublist spans).subset hs)
          · rw [List.mem_singleton.mp hs]
            exact Nat.add_pos_right _ (Nat.pos_of_ne_zero hcount)
        · cases h
          exact happend hcount

theorem Tiles.tiling {spans : List ImageSpan} {lo hi : Nat} (h : Tiles spans lo hi) (hpos : ∀ s ∈ spans, 0 < s.byteCount) :
    Tiling.Tiles ImageSpan.virtualOffset ImageSpan.byteCount spans lo hi := by
  induction spans generalizing lo with
  | nil => exact h
  | cons s spans ih => exact ⟨h.1, hpos s List.mem_cons_self, ih h.2 fun s' hs => hpos s' (List.mem_cons_of_mem _ hs)⟩

theorem tiles_of_tiling {spans : List ImageSpan} {lo hi : Nat}
    (h : Tiling.Tiles ImageSpan.virtualOffset ImageSpan.byteCount spans lo hi) : Tiles spans lo hi := by
  induction spans generalizing lo with
  | nil => exact h
  | cons s spans ih =>
      obtain ⟨hstart, -, hrest⟩ := h
      exact ⟨hstart, ih hrest⟩

/-- The spans partition a disk, and every byte of them has the source that `sourceAt` gives it. -/
structure Partitions (size : Nat) (sourceAt : Nat → ImageSpanSource → Prop) (spans : List ImageSpan) : Prop where
  tiles : Tiling.Tiles ImageSpan.virtualOffset ImageSpan.byteCount spans 0 size
  describes : ∀ s ∈ spans, Describes sourceAt s

theorem planVhdxSpans_pos {m : VhdxMetadata} {bat : List UInt8}
    {partialBlockIsSelfContained : Nat → Except ImagePlanError Bool} {spans : List ImageSpan}
    (h : planVhdxSpans m bat partialBlockIsSelfContained = .ok spans) : ∀ s ∈ spans, 0 < s.byteCount := by
  obtain ⟨payloadBlocks, -, h⟩ := bind_eq_ok.mp h
  obtain ⟨chunkRatio, -, h⟩ := bind_eq_ok.mp h
  obtain ⟨_, -, h⟩ := bind_eq_ok.mp h
  obtain ⟨_, -, h⟩ := bind_eq_ok.mp h
  obtain ⟨_, -, h⟩ := bind_eq_ok.mp h
  refine foldlM_ok_invariant (P := fun spans => ∀ s ∈ spans, 0 < s.byteCount) (fun spans k spans' _ hstep hpos => ?_) h
    (by simp)
  obtain ⟨entry, -, hstep⟩ := bind_eq_ok.mp hstep
  obtain ⟨virtualOffset, -, hstep⟩ := bind_eq_ok.mp hstep
  obtain ⟨source, -, hstep⟩ := bind_eq_ok.mp hstep
  exact pushSpan_pos hstep hpos

theorem planVhdxSpans_partitions {m : VhdxMetadata} {bat : List UInt8}
    {partialBlockIsSelfContained : Nat → Except ImagePlanError Bool} {spans : List ImageSpan}
    (h : planVhdxSpans m bat partialBlockIsSelfContained = .ok spans) :
    Partitions m.virtualDiskSize (PlannedSource m bat partialBlockIsSelfContained) spans := by
  obtain ⟨htiles, hdescribes⟩ := planVhdxSpans_spec h
  exact ⟨htiles.tiling (planVhdxSpans_pos h), hdescribes⟩

end NextBoot.Vhdx

namespace NextBoot.Vdi

open Words Bytes Results Vhdx

variable {ε σ : Type}

/-- The blocks of the virtual disk in their order, each with its first byte and its length; the loop breaks at the first
block behind the end of the disk. -/
def forBlocks (m : VdiMetadata) (overflow : ε) (body : σ → Nat → Nat → Nat → Except ε σ) (blockIndex : Nat) (state : σ) :
    Except ε σ :=
  if blockIndex < m.blockCount then do
    let virtualOffset ← someOr (checkedMul 64 blockIndex m.blockSize) overflow
    if virtualOffset ≥ m.virtualDiskSize then .ok state
    else
      let state ← body state blockIndex virtualOffset (min m.blockSize (m.virtualDiskSize - virtualOffset))
      forBlocks m overflow body (blockIndex + 1) state
  else .ok state
termination_by m.blockCount - blockIndex

/-- What every block takes from its first byte to its last, or to the end of the disk, the loop takes to that end. -/
theorem forBlocks_ok {m : VdiMetadata} {overflow : ε} {body : σ → Nat → Nat → Nat → Except ε σ} {P : Nat → σ → Prop}
    (hstep : ∀ k state state', k * m.blockSize < m.virtualDiskSize → P (k * m.blockSize) state →
      body state k (k * m.blockSize) (min m.blockSize (m.virtualDiskSize - k * m.blockSize)) = .ok state' →
      P (min ((k + 1) * m.blockSize) m.virtualDiskSize) state')
    {blockIndex : Nat} {state state' : σ} (hP : P (min (blockIndex * m.blockSize) m.virtualDiskSize) state)
    (h : forBlocks m overflow body blockIndex state = .ok state') : P m.virtualDiskSize state' := by
  fun_induction forBlocks m overflow body blockIndex state with
  | case1 blockIndex state hlt ih =>
      obtain ⟨virtualOffset, hoffset, h⟩ := bind_eq_ok.mp h
      obtain ⟨_, rfl⟩ := checkedMul_eq_some.mp (someOr_eq_ok.mp hoffset)
      split at h
      · next hpast =>
          cases h
          rwa [Nat.min_eq_right hpast] at hP
      · next hinside =>
          obtain ⟨next, hbody, h⟩ := bind_eq_ok.mp h
          rw [Nat.min_eq_left (by omega)] at hP
          exact ih (blockIndex * m.blockSize) next (hstep blockIndex state next (by omega) hP hbody) h
  | case2 blockIndex state hge =>
      cases h
      have hall : m.blockCount * m.blockSize ≤ blockIndex * m.blockSize := Nat.mul_le_mul_right _ (by omega)
      rwa [Nat.min_eq_right (m.virtualDiskSize_le.trans hall)] at hP

/-- A loop whose every block goes through comes to its end. -/
theorem forBlocks_total {m : VdiMetadata} {overflow : ε} {body : σ → Nat → Nat → Nat → Except ε σ} {P : Nat → σ → Prop}
    (hstep : ∀ k state, k * m.blockSize < m.virtualDiskSize → P (k * m.blockSize) state →
      ∃ state', body state k (k * m.blockSize) (min m.blockSize (m.virtualDiskSize - k * m.blockSize)) = .ok state' ∧
        P (min ((k + 1) * m.blockSize) m.virtualDiskSize) state')
    {blockIndex : Nat} {state : σ} (hP : P (min (blockIndex * m.blockSize) m.virtualDiskSize) state) :
    ∃ state', forBlocks m overflow body blockIndex state = .ok state' := by
  fun_induction forBlocks m overflow body blockIndex state with
  | case1 blockIndex state hlt ih =>
      have hbound : blockIndex * m.blockSize < 2 ^ 64 := by
        refine Nat.lt_of_lt_of_le ((Nat.mul_lt_mul_right m.blockSize_pos).mpr (hlt.trans m.blockCount_lt)) ?_
        exact (Nat.mul_le_mul_left _ m.blockSize_lt.le).trans (by decide)
      rw [checkedMul_eq_some.mpr ⟨hbound, rfl⟩]
      simp only [someOr, bind, Except.bind]
      split
      · exact ⟨state, rfl⟩
      · next hinside =>
          rw [Nat.min_eq_left (by omega)] at hP
          obtain ⟨next, hbody, hP⟩ := hstep blockIndex state (by omega) hP
          rw [hbody]
          exact ih (blockIndex * m.blockSize) next hP
  | case2 blockIndex state hge => exact ⟨state, rfl⟩

/-- Where the planner looks for the bytes of one block. -/
def blockSource (m : VdiMetadata) (mapEntry : Nat) : Except ImagePlanError ImageSpanSource :=
  if isAllocatedBlock mapEntry then do
    refuseIf (mapEntry ≥ m.blocksAllocated) .invalid
    let blockOffset ← someOr (checkedMul 64 mapEntry m.blockSize) .invalid
    let fileOffset ← someOr (checkedAdd 64 m.offsetData blockOffset) .invalid
    .ok (.image fileOffset)
  else if m.isDifferencing then .ok .parent
  else .ok .zero

def planBlock (m : VdiMetadata) (blockMap : List UInt8) (spans : List ImageSpan) (blockIndex virtualOffset byteCount : Nat) :
    Except ImagePlanError (List ImageSpan) := do
  let mapEntry ← someOr (readBlockMapEntry blockMap blockIndex) .invalid
  let source ← blockSource m mapEntry
  pushSpan spans virtualOffset byteCount source

/-- Both planners merge their spans in the same way. -/
def planVdiSpans (m : VdiMetadata) (blockMap : List UInt8) : Except ImagePlanError (List ImageSpan) := do
  let mapBytes ← someOr (blockMapBytes m.blockCount) .invalid
  refuseIf (blockMap.length < mapBytes) .invalid
  forBlocks m .invalid (planBlock m blockMap) 0 []

/-- What the planner must find for the byte at `v`: the entry of its own block decides. -/
def PlannedSource (m : VdiMetadata) (blockMap : List UInt8) (v : Nat) (source : ImageSpanSource) : Prop :=
  ∃ mapEntry start, readBlockMapEntry blockMap (v / m.blockSize) = some mapEntry ∧ blockSource m mapEntry = .ok start ∧
    source = start.advance (v % m.blockSize)

theorem block_end {blockSize size k : Nat} (h : k * blockSize < size) :
    min ((k + 1) * blockSize) size = k * blockSize + min blockSize (size - k * blockSize) := by
  rw [Nat.succ_mul]
  omega

theorem planVdiSpans_partitions {m : VdiMetadata} {blockMap : List UInt8} {spans : List ImageSpan}
    (h : planVdiSpans m blockMap = .ok spans) : Partitions m.virtualDiskSize (PlannedSource m blockMap) spans := by
  obtain ⟨_, -, h⟩ := bind_eq_ok.mp h
  obtain ⟨_, -, h⟩ := bind_eq_ok.mp h
  have hloop := forBlocks_ok (P := fun stop spans => Vhdx.Tiles spans 0 stop ∧ (∀ s ∈ spans, 0 < s.byteCount) ∧
    ∀ s ∈ spans, Describes (PlannedSource m blockMap) s) (fun k spans spans' hk hP hstep => ?_)
    (by simp [Vhdx.Tiles]) h
  · exact ⟨hloop.1.tiling hloop.2.1, hloop.2.2⟩
  · obtain ⟨mapEntry, hentry, hstep⟩ := bind_eq_ok.mp hstep
    obtain ⟨source, hsource, hstep⟩ := bind_eq_ok.mp hstep
    obtain ⟨htiles, hpos, hspans⟩ := hP
    have hdescribes : Describes (PlannedSource m blockMap)
        ⟨k * m.blockSize, min m.blockSize (m.virtualDiskSize - k * m.blockSize), source⟩ := by
      intro v hlo hhi
      simp only at hlo hhi
      obtain ⟨hblock, hmod⟩ := block_offset hlo (by omega)
      refine ⟨mapEntry, source, ?_, hsource, by simp only [hmod]⟩
      rw [hblock]
      exact someOr_eq_ok.mp hentry
    obtain ⟨htiles, hspans⟩ := pushSpan_spec hstep htiles hspans hdescribes
    rw [block_end hk]
    exact ⟨htiles, pushSpan_pos hstep hpos, hspans⟩

/-- The spans of an accepted table partition the virtual disk, none of them is empty, and the table entry of a byte's own
block gives the source of the byte. -/
theorem planned_spans (m : VhdxMetadata) (bat : List UInt8) (partialBlockIsSelfContained : Nat → Except ImagePlanError Bool)
    (d : VdiMetadata) (blockMap : List UInt8) (spans : List ImageSpan) :
    (planVhdxSpans m bat partialBlockIsSelfContained = .ok spans →
      Partitions m.virtualDiskSize (Vhdx.PlannedSource m bat partialBlockIsSelfContained) spans) ∧
    (planVdiSpans d blockMap = .ok spans → Partitions d.virtualDiskSize (PlannedSource d blockMap) spans) :=
  ⟨planVhdxSpans_partitions, planVdiSpans_partitions⟩

/-- Four blocks of 512 bytes, the disk ends in the third one. -/
def sampleMetadata (imageType : VdiType) : VdiMetadata where
  imageType := imageType
  virtualDiskSize := 1200
  blockSize := 512
  blockExtraSize := 0
  blockCount := 4
  blocksAllocated := 2
  offsetBlocks := 512
  offsetData := 1024
  sectorSize := 512
  createUuid := List.replicate 16 0
  modifyUuid := List.replicate 16 0
  linkageUuid := List.replicate 16 0
  parentModifyUuid := List.replicate 16 0
  virtualDiskSize_pos := by decide
  virtualDiskSize_lt := by decide
  virtualDiskSize_le := by decide
  blockSize_pow := ⟨9, rfl⟩
  blockSize_lt := Words.sector_lt_u32
  blockCount_lt := Words.four_lt_u32
  sectorSize_eq := rfl
  offsetData_lt := by decide
  blockMap_le := by decide

def sampleBlockMap (first second third : Nat) : List UInt8 :=
  toLeBytes 4 first ++ toLeBytes 4 second ++ toLeBytes 4 third ++ toLeBytes 4 7

/-- A VHDX of two sectors whose only payload block is present. -/
def presentMetadata : VhdxMetadata := 
  ⟨1024, 2 ^ 28, 512, false, Vhdx.smallestDisk_pos, Words.kilo_lt_u64, Vhdx.largestBlock_pow, Vhdx.largestBlock_range,
    Vhdx.sector_cases⟩

def presentBat : List UInt8 := toLeBytes 8 (2 ^ 21 + 6) ++ List.replicate 128 0

theorem samples_planned :
    (planVhdxSpans presentMetadata presentBat (fun _ => .ok false) = .ok [⟨0, 1024, .image (2 ^ 21)⟩] ∧
      Partitions 1024 (Vhdx.PlannedSource presentMetadata presentBat fun _ => .ok false) [⟨0, 1024, .image (2 ^ 21)⟩]) ∧
    (planVdiSpans (sampleMetadata .dynamic) (sampleBlockMap 1 0xffffffff 0xfffffffe) =
        .ok [⟨0, 512, .image 1536⟩, ⟨512, 688, .zero⟩] ∧
      Partitions 1200 (PlannedSource (sampleMetadata .dynamic) (sampleBlockMap 1 0xffffffff 0xfffffffe))
        [⟨0, 512, .image 1536⟩, ⟨512, 688, .zero⟩]) := by
  have hvhdx : planVhdxSpans presentMetadata presentBat (fun _ => .ok false) = .ok [⟨0, 1024, .image (2 ^ 21)⟩] := by
    decide +kernel
  have hvdi : planVdiSpans (sampleMetadata .dynamic) (sampleBlockMap 1 0xffffffff 0xfffffffe) =
      .ok [⟨0, 512, .image 1536⟩, ⟨512, 688, .zero⟩] := by
    decide +kernel
  exact ⟨⟨hvhdx, (planned_spans presentMetadata presentBat _ (sampleMetadata .dynamic) [] _).1 hvhdx⟩,
    ⟨hvdi, (planned_spans presentMetadata presentBat (fun _ => .ok false) (sampleMetadata .dynamic) _ _).2 hvdi⟩⟩

end NextBoot.Vdi
