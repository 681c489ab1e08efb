import NextBoot.Results
import NextBoot.Virtio.ReadSemantics

namespace NextBoot.Virtio.DeviceReads

open Words Bytes Results Mapping BlockIo Translation ReadSemantics VirtualBlockIo

variable {config : VirtualDeviceConfig} {extents : List Extent} {reader : PhysicalReader}
  {os : List MemoryOverlay} {io io' : VirtualBlockIo} {disk : Nat → UInt8}

/-- What every successful run of overlay additions keeps of the device it started from. -/
structure Built (config : VirtualDeviceConfig) (extents : List Extent) (reader : PhysicalReader)
    (os : List MemoryOverlay) (io : VirtualBlockIo) : Prop where
  blockSize : io.config.blockSize = config.blockSize
  physicalBlockSize : io.config.physicalBlockSize = config.physicalBlockSize
  mappings : io.byteMapping.mappings =
    (ByteMappingTable.fromFileExtents extents config.isoSize config.physicalBlockSize).optimize.mappings
  total : io.byteMapping.totalBytes = io.config.isoSize
  grown : config.isoSize ≤ io.config.isoSize
  overlays : io.memoryOverlays = os
  inside : ∀ o ∈ os, o.virtualOffset + o.data.length ≤ io.config.isoSize
  physicalRead : io.physicalRead = some reader

theorem built_fromFileExtents (config : VirtualDeviceConfig) (extents : List Extent) (reader : PhysicalReader)
    (hpos : 0 < config.physicalBlockSize) (hfit : ∀ e ∈ extents, ExtentFits config.physicalBlockSize e) :
    Built config extents reader [] ((fromFileExtents config extents).setPhysicalReader reader) where
  blockSize := rfl
  physicalBlockSize := rfl
  mappings := rfl
  total := (fromFileExtents_spec hpos extents hfit config.isoSize).2.2
  grown := le_rfl
  overlays := rfl
  inside := by simp
  physicalRead := rfl

theorem built_addMemoryOverlay (h : Built config extents reader os io) {o : MemoryOverlay}
    (ho : io.addMemoryOverlay o = .ok io') : Built config extents reader (os ++ [o]) io' := by
  unfold addMemoryOverlay at ho
  split at ho
  · cases ho
  · next stop hend =>
      obtain ⟨_, rfl⟩ := checkedAdd_eq_some.mp hend
      split at ho
      · next hgt =>
          cases ho
          refine ⟨h.blockSize, h.physicalBlockSize, h.mappings, rfl, ?_, ?_, ?_, h.physicalRead⟩
          · have := h.grown
            simp only
            omega
          · simp only [h.overlays]
          · intro x hx
            rcases List.mem_append.mp hx with hx | hx
            · have := h.inside x hx
              simp only
              omega
            · obtain rfl := List.mem_singleton.mp hx
              simp only [le_refl]
      · next hle =>
          cases ho
          refine ⟨h.blockSize, h.physicalBlockSize, h.mappings, h.total, h.grown, ?_, ?_, h.physicalRead⟩
          · simp only [h.overlays]
          · intro x hx
            rcases List.mem_append.mp hx with hx | hx
            · exact h.inside x hx
            · obtain rfl := List.mem_singleton.mp hx
              simp only
              omega

theorem built_run (more : List MemoryOverlay) (h : Built config extents reader os io)
    (hrun : io.addMemoryOverlays more = .ok io') : Built config extents reader (os ++ more) io' := by
  induction more generalizing os io with
  | nil =>
      cases hrun
      simpa using h
  | cons o more ih =>
      rw [addMemoryOverlays, List.foldlM_cons] at hrun
      cases ho : io.addMemoryOverlay o with
      | error e =>
          rw [ho] at hrun
          cases hrun
      | ok mid =>
          rw [ho] at hrun
          simpa using ih (built_addMemoryOverlay h ho) hrun

theorem lastOverlayByte_none (os : List MemoryOverlay) {v : Nat}
    (h : ∀ o ∈ os, o.virtualOffset + o.data.length ≤ v) : lastOverlayByte os v = none := by
  induction os with
  | nil => rfl
  | cons o os ih =>
      rw [lastOverlayByte, ih (fun x hx => h x (by simp [hx])), Option.none_or]
      cases hb : ReadSemantics.MemoryOverlay.byteAt o v with
      | none => rfl
      | some b =>
          have := byteAt_isSome hb
          have := h o (by simp)
          omega

theorem virtualByte_past_end (h : Built config extents reader os io) {v : Nat} (hv : io.config.isoSize ≤ v) :
    virtualByte disk config extents os v = 0 := by
  have hnone := lastOverlayByte_none os (fun o ho => (h.inside o ho).trans hv)
  have hfile := h.grown.trans hv
  rw [virtualByte, hnone, Option.getD_none, fileByte, if_neg (by omega)]

/-- What a read returns when `base` holds the mapped bytes of the disk, and zero in the holes. -/
theorem readVirtualBytes_mapped (base : Nat → UInt8) (hfits : ∀ m ∈ io.byteMapping.mappings, Fits m)
    (hfun : Functional (Maps io.byteMapping.mappings)) (htotal : io.byteMapping.totalBytes = io.config.isoSize)
    (hinside : ∀ o ∈ io.memoryOverlays, o.virtualOffset + o.data.length ≤ io.config.isoSize)
    (hpos : 0 < io.config.physicalBlockSize) (hr : Reads disk io.config.physicalBlockSize reader)
    (hmapped : ∀ v p, Maps io.byteMapping.mappings v p → base v = disk p)
    (hhole : ∀ v, (∀ p, ¬ Maps io.byteMapping.mappings v p) → base v = 0) (off : Nat) (buf : List UInt8) :
    io.readVirtualBytes reader off buf = .ok ((List.range buf.length).map fun i =>
      if off + i < io.config.isoSize then (lastOverlayByte io.memoryOverlays (off + i)).getD (base (off + i)) else 0) := by
  have hlt := io.config.isoSize_lt
  unfold readVirtualBytes
  simp only [List.length_replicate]
  split
  · next hge =>
      congr 1
      apply List.ext_getElem (by simp)
      intro i hi _
      simp only [List.getElem_replicate, List.getElem_map, List.getElem_range]
      rw [if_neg (by omega)]
  · next hin =>
      generalize hread : min (io.config.isoSize - off) buf.length = readable
      obtain ⟨ranges, hranges, hpieces, hcov⟩ := translateRangeSparse_spec io.byteMapping hfits hfun off readable
        (by rw [htotal]; omega) (by rw [htotal]; exact hlt)
      have hfun' : Functional (Covers ranges) := fun i p q hp hq =>
        hfun _ _ _ ((hcov i p).mp hp).2 ((hcov i q).mp hq).2
      obtain ⟨mid, hmid, hlen, hmidcov, hmidun⟩ := copyPieces_spec hpos hr ranges hfun' readable hpieces
        (List.replicate io.config.physicalBlockSize 0) (List.replicate buf.length 0) (by simp) (by simp; omega)
      rw [List.length_replicate] at hlen
      obtain ⟨out, hout, hlen', hget⟩ := overlays_spec off readable io.memoryOverlays
        (fun o ho => (hinside o ho).trans_lt hlt) mid (by omega)
      rw [hranges]
      simp only [hmid]
      change io.applyMemoryOverlays off readable mid = _
      rw [applyMemoryOverlays, checkedAdd_eq_some.mpr ⟨by omega, rfl⟩]
      refine hout.trans (congrArg Except.ok ?_)
      apply List.ext_getElem?
      intro i
      by_cases hi : i < buf.length
      · have hzero : (∀ p, ¬ Covers ranges i p) → mid[i]? = some 0 := by
          intro hun
          rw [hmidun i hun, List.getElem?_replicate, if_pos hi]
        rw [hget, List.getElem?_map, List.getElem?_range hi, Option.map_some]
        by_cases hir : i < readable
        · have hfile : mid[i]? = some (base (off + i)) := by
            by_cases hm : ∃ p, Maps io.byteMapping.mappings (off + i) p
            · obtain ⟨p, hp⟩ := hm
              rw [hmapped _ _ hp]
              exact hmidcov i p ((hcov i p).mpr ⟨hir, hp⟩)
            · have hnone := not_exists.mp hm
              rw [hhole _ hnone]
              exact hzero fun p hp => hnone p ((hcov i p).mp hp).2
          rw [if_pos hir, hfile, if_pos (by omega)]
          cases lastOverlayByte io.memoryOverlays (off + i) <;> rfl
        · rw [if_neg hir, hzero fun p hp => hir ((hcov i p).mp hp).1, if_neg (by omega)]
      · rw [List.getElem?_eq_none (by omega), List.getElem?_eq_none (by simp; omega)]

/-- A read that reaches the mapping returns the virtual bytes of its whole range. -/
theorem readVirtualBytes_spec (h : Built config extents reader os io) (hpos : 0 < config.physicalBlockSize)
    (hd : ExtentsDisjoint extents) (hfit : ∀ e ∈ extents, ExtentFits config.physicalBlockSize e)
    (hr : Reads disk config.physicalBlockSize reader) (off : Nat) (buf : List UInt8) :
    io.readVirtualBytes reader off buf =
      .ok ((List.range buf.length).map fun i => virtualByte disk config extents os (off + i)) := by
  obtain ⟨hfits, hmaps, -⟩ := fromFileExtents_spec hpos extents hfit config.isoSize
  rw [← h.mappings] at hfits hmaps
  have hfun : Functional (Maps io.byteMapping.mappings) := fun v p q hp hq =>
    assigns_functional hpos hd v p q ((hmaps v p).mp hp).2 ((hmaps v q).mp hq).2
  have hmapped : ∀ v p, Maps io.byteMapping.mappings v p →
      fileByte disk config.physicalBlockSize extents config.isoSize v = disk p := by
    intro v p hp
    obtain ⟨hv, ha⟩ := (hmaps v p).mp hp
    rw [fileByte, if_pos hv, (assigned_eq_some hpos hd).mpr ha]
    rfl
  have hhole : ∀ v, (∀ p, ¬ Maps io.byteMapping.mappings v p) →
      fileByte disk config.physicalBlockSize extents config.isoSize v = 0 := by
    intro v hnone
    rw [fileByte]
    split
    · next hv =>
        cases ha : assigned config.physicalBlockSize extents v with
        | none => rfl
        | some p => exact absurd ((hmaps v p).mpr ⟨hv, (assigned_eq_some hpos hd).mp ha⟩) (hnone p)
    · rfl
  rw [readVirtualBytes_mapped _ hfits hfun h.total (by rw [h.overlays]; exact h.inside)
    (h.physicalBlockSize ▸ hpos) (h.physicalBlockSize ▸ hr) hmapped hhole off buf, h.overlays]
  refine congrArg Except.ok (List.map_congr_left fun i _ => ?_)
  split
  · rfl
  · exact (virtualByte_past_end h (by omega)).symm

theorem readBytes_iff (h : Built config extents reader os io) (hpos : 0 < config.physicalBlockSize)
    (hd : ExtentsDisjoint extents) (hfit : ∀ e ∈ extents, ExtentFits config.physicalBlockSize e)
    (hr : Reads disk config.physicalBlockSize reader) (off : Nat) (buf out : List UInt8) (hne : buf ≠ []) :
    io.readBytes io.mediaId off buf = .ok out ↔ off + buf.length ≤ io.config.isoSize ∧
      out = (List.range buf.length).map fun i => virtualByte disk config extents os (off + i) := by
  have hlt := io.config.isoSize_lt
  rw [readBytes, if_neg (by simp), if_neg hne]
  by_cases hle : off + buf.length ≤ io.config.isoSize
  · rw [checkedAdd_eq_some.mpr ⟨by omega, rfl⟩]
    simp only [h.physicalRead, readVirtualBytes_spec h hpos hd hfit hr]
    rw [if_neg (by omega)]
    simp [hle, eq_comm]
  · cases hs : checkedAdd 64 off buf.length with
    | none => simp [hle]
    | some stop =>
        have hstop := (checkedAdd_eq_some.mp hs).2
        simp only
        rw [if_pos (by omega)]
        simp [hle]

/-- A device whose table maps each byte to where `locate` finds it serves that byte, or zero where it finds none. -/
theorem readBytes_located {locate : Nat → Option Nat} (hoverlays : io.memoryOverlays = [])
    (htotal : io.byteMapping.totalBytes = io.config.isoSize) (hfits : ∀ m ∈ io.byteMapping.mappings, Fits m)
    (hmaps : ∀ v p, Maps io.byteMapping.mappings v p ↔ v < io.config.isoSize ∧ locate v = some p)
    (hpos : 0 < io.config.physicalBlockSize) (hr : Reads disk io.config.physicalBlockSize reader) {off : Nat}
    {buf : List UInt8} (hin : off + buf.length ≤ io.config.isoSize) :
    (io.setPhysicalReader reader).readBytes io.mediaId off buf =
      .ok ((List.range buf.length).map fun i => ((locate (off + i)).map disk).getD 0) := by
  have hlt := io.config.isoSize_lt
  by_cases hempty : buf = []
  · subst hempty
    rw [readBytes, if_neg (fun hne => hne rfl), if_pos rfl]
    rfl
  · have hfun : Functional (Maps io.byteMapping.mappings) := fun v p q hp hq =>
      Option.some.inj (((hmaps v p).mp hp).2.symm.trans ((hmaps v q).mp hq).2)
    have hread := readVirtualBytes_mapped (fun v => if v < io.config.isoSize then ((locate v).map disk).getD 0 else 0)
      hfits hfun htotal (by rw [hoverlays]; simp) hpos hr ?_ ?_ off buf
    · have hnot : ¬ off + buf.length > (io.setPhysicalReader reader).config.isoSize := by
        change ¬ off + buf.length > io.config.isoSize
        omega
      rw [readBytes, if_neg (fun hne => hne rfl), if_neg hempty, checkedAdd_eq_some.mpr ⟨by omega, rfl⟩]
      simp only [hnot, if_false]
      change io.readVirtualBytes reader off buf = _
      rw [hread]
      refine congrArg Except.ok (List.map_congr_left fun i hi => ?_)
      have hi' := List.mem_range.mp hi
      rw [hoverlays, if_pos (by omega), lastOverlayByte, Option.getD_none, if_pos (by omega)]
    · intro v p hp
      obtain ⟨hv, hloc⟩ := (hmaps v p).mp hp
      simp [hv, hloc]
    · intro v hnone
      by_cases hv : v < io.config.isoSize
      · cases hloc : locate v with
        | none => simp
        | some p => exact absurd ((hmaps v p).mpr ⟨hv, hloc⟩) (hnone p)
      · simp [hv]

theorem length_copied {xs src ys : List UInt8} {offset : Nat} (h : copyFromSlice xs offset src = some ys) :
    ys.length = xs.length := by
  obtain ⟨hle, rfl⟩ := copyFromSlice_eq_some.mp h
  exact length_splice xs offset src hle

theorem copyLoop_length {physicalBlockSize : Nat} (hpos : 0 < physicalBlockSize) (dst copied remaining physicalByte : Nat)
    (scratch buf : List UInt8) {out : List UInt8 × List UInt8}
    (h : copyLoop reader physicalBlockSize hpos dst copied remaining physicalByte scratch buf = .ok out) :
    out.2.length = buf.length := by
  induction remaining using Nat.strong_induction_on generalizing copied physicalByte scratch buf with
  | _ remaining ih =>
      rw [copyLoop] at h
      split at h
      · dsimp only at h
        split at h
        · cases h
        · split at h
          · cases h
          · next hcopy =>
              obtain ⟨src, -, hcopy⟩ := Option.bind_eq_some_iff.mp hcopy
              have hmod := Nat.mod_lt physicalByte hpos
              rw [ih _ (by omega) _ _ _ _ h, length_copied hcopy]
      · cases h
        rfl

theorem copyPieces_length {physicalBlockSize : Nat} (hpos : 0 < physicalBlockSize) {pieces : List ByteMappingTable.Piece}
    {scratch buf out : List UInt8} (h : copyPieces reader physicalBlockSize hpos pieces scratch buf = .ok out) :
    out.length = buf.length := by
  induction pieces generalizing scratch buf with
  | nil =>
      cases h
      rfl
  | cons piece pieces ih =>
      obtain ⟨_, hloop, h⟩ := bind_eq_ok.mp h
      rw [ih h, copyLoop_length hpos _ _ _ _ _ _ hloop]

theorem applyOverlay_length {virtualOffset readEnd : Nat} {buf out : List UInt8} {o : MemoryOverlay}
    (h : applyOverlay virtualOffset readEnd buf o = .ok out) : out.length = buf.length := by
  unfold applyOverlay at h
  split at h
  · cases h
  · dsimp only at h
    split at h
    · cases h
      rfl
    · split at h
      · cases h
      · next hcopy =>
          cases h
          obtain ⟨src, -, hcopy⟩ := Option.bind_eq_some_iff.mp hcopy
          exact length_copied hcopy

theorem readBytes_length {mediaId off : Nat} {buf out : List UInt8} (h : io.readBytes mediaId off buf = .ok out) :
    out.length = buf.length := by
  unfold readBytes at h
  split at h
  · cases h
  · split at h
    · cases h
      rfl
    · split at h
      · cases h
      · split at h
        · cases h
        · split at h
          · cases h
          · unfold readVirtualBytes at h
            dsimp only at h
            split at h
            · cases h
              exact List.length_replicate
            · split at h
              · cases h
              · split at h
                · obtain ⟨copied, hcopy, h⟩ := bind_eq_ok.mp h
                  unfold applyMemoryOverlays at h
                  split at h
                  · cases h
                  · have hlen : copied.length = buf.length := by
                      rw [copyPieces_length _ hcopy, List.length_replicate]
                    exact foldlM_ok_invariant (P := fun bytes => bytes.length = buf.length)
                      (fun _ _ _ _ hstep hP => (applyOverlay_length hstep).trans hP) h hlen
                · cases h

theorem blockCount_mul_lt (c : VirtualDeviceConfig) (hb : 0 < c.blockSize) :
    c.blockCount * c.blockSize < 2 ^ 64 := by
  rw [VirtualDeviceConfig.blockCount, wrappingSub_one_wrappingAdd (Nat.add_pos_right _ hb)]
  exact (Nat.div_mul_le_self _ _).trans_lt (Nat.mod_lt _ (Nat.two_pow_pos 64))

theorem readBlocks_iff (h : Built config extents reader os io) (hbs : 0 < config.blockSize)
    (hpos : 0 < config.physicalBlockSize) (hd : ExtentsDisjoint extents)
    (hfit : ∀ e ∈ extents, ExtentFits config.physicalBlockSize e)
    (hr : Reads disk config.physicalBlockSize reader) (lba count : Nat) (buf out : List UInt8)
    (hlen : buf.length = count * config.blockSize) :
    io.readBlocks io.mediaId lba buf = .ok out ↔ (lba < io.blockCount ∧ lba + count ≤ io.blockCount) ∧
      out = (List.range buf.length).map fun i => virtualByte disk config extents os (lba * config.blockSize + i) := by
  have hmul := blockCount_mul_lt io.config (h.blockSize ▸ hbs)
  rw [h.blockSize] at hmul
  rw [readBlocks, VirtualBlockIo.blockCount]
  generalize io.config.blockCount = blocks at hmul ⊢
  rw [if_neg (by simp), h.blockSize, if_neg (by omega), if_neg (by simp [hlen]), hlen,
    Nat.mul_div_cancel _ hbs, h.physicalRead]
  by_cases hlba : lba < blocks
  · have hoff : lba * config.blockSize < 2 ^ 64 :=
      (Nat.mul_le_mul_right config.blockSize (Nat.le_of_lt hlba)).trans_lt hmul
    have hcount : blocks ≤ blocks * config.blockSize := Nat.le_mul_of_pos_right _ hbs
    rw [if_neg (by omega)]
    by_cases hle : lba + count ≤ blocks
    · have hadd : checkedAdd 64 lba count = some (lba + count) := checkedAdd_eq_some.mpr ⟨by omega, rfl⟩
      have hmul' : checkedMul 64 lba config.blockSize = some (lba * config.blockSize) :=
        checkedMul_eq_some.mpr ⟨hoff, rfl⟩
      rw [hadd, hmul', Option.all_some, if_neg (by simpa using hle)]
      simp only [readVirtualBytes_spec h hpos hd hfit hr]
      rw [hlen]
      simp [hlba, hle, eq_comm]
    · have hall : ((checkedAdd 64 lba count).all fun stop => decide (stop > blocks)) = true := by
        cases hs : checkedAdd 64 lba count with
        | none => rfl
        | some stop =>
            have hstop := (checkedAdd_eq_some.mp hs).2
            rw [Option.all_some, decide_eq_true_eq]
            omega
      rw [if_pos hall]
      simp [hle]
  · rw [if_pos (by omega)]
    simp [hlba]

/-- Reads of a file-backed device after any run of overlay additions. -/
theorem read_semantics (config : VirtualDeviceConfig) (extents : List Extent) (reader : PhysicalReader)
    (disk : Nat → UInt8) (os : List MemoryOverlay) (io : VirtualBlockIo) (hbs : 0 < config.blockSize)
    (hpos : 0 < config.physicalBlockSize) (hd : ExtentsDisjoint extents)
    (hfit : ∀ e ∈ extents, ExtentFits config.physicalBlockSize e)
    (hr : Reads disk config.physicalBlockSize reader)
    (hadd : ((fromFileExtents config extents).setPhysicalReader reader).addMemoryOverlays os = .ok io) :
    (∀ off buf, buf ≠ [] →
      ((∃ out, io.readBytes io.mediaId off buf = .ok out) ↔ off + buf.length ≤ io.config.isoSize)) ∧
    (∀ lba count buf, buf.length = count * config.blockSize →
      ((∃ out, io.readBlocks io.mediaId lba buf = .ok out) ↔
        lba < io.blockCount ∧ lba + count ≤ io.blockCount)) ∧
    (∀ off buf out, io.readBytes io.mediaId off buf = .ok out →
      out = (List.range buf.length).map fun i => virtualByte disk config extents os (off + i)) ∧
    (∀ lba count buf out, buf.length = count * config.blockSize → io.readBlocks io.mediaId lba buf = .ok out →
      out = (List.range buf.length).map fun i => virtualByte disk config extents os (lba * config.blockSize + i)) ∧
    (∀ v, io.config.isoSize ≤ v → virtualByte disk config extents os v = 0) ∧
    (∀ off buf out lba count buf' out', io.readBytes io.mediaId off buf = .ok out →
      buf'.length = count * config.blockSize → io.readBlocks io.mediaId lba buf' = .ok out' →
      ∀ v, off ≤ v → v < off + buf.length → lba * config.blockSize ≤ v →
        v < lba * config.blockSize + buf'.length → out[v - off]? = out'[v - lba * config.blockSize]?) := by
  have h : Built config extents reader os io := by
    simpa using built_run os (built_fromFileExtents config extents reader hpos hfit) hadd
  have hbytes (off : Nat) (buf out : List UInt8) (ho : io.readBytes io.mediaId off buf = .ok out) :
      out = (List.range buf.length).map fun i => virtualByte disk config extents os (off + i) := by
    by_cases hne : buf = []
    · subst hne
      rw [readBytes, if_neg (by simp), if_pos rfl] at ho
      cases ho
      rfl
    · exact ((readBytes_iff h hpos hd hfit hr off buf out hne).mp ho).2
  have hblocks (lba count : Nat) (buf out : List UInt8) (hl : buf.length = count * config.blockSize)
      (ho : io.readBlocks io.mediaId lba buf = .ok out) :=
    ((readBlocks_iff h hbs hpos hd hfit hr lba count buf out hl).mp ho).2
  refine ⟨fun off buf hne => ?_, fun lba count buf hl => ?_, hbytes, hblocks,
    fun v hv => virtualByte_past_end h hv, ?_⟩
  · simp [readBytes_iff h hpos hd hfit hr off buf _ hne]
  · simp [readBlocks_iff h hbs hpos hd hfit hr lba count buf _ hl]
  · intro off buf out lba count buf' out' ho hl ho' v hlo hhi hlo' hhi'
    rw [hbytes off buf out ho, hblocks lba count buf' out' hl ho', List.getElem?_map, List.getElem?_map,
      List.getElem?_range (by omega), List.getElem?_range (by omega), Option.map_some, Option.map_some,
      Nat.add_sub_cancel' hlo, Nat.add_sub_cancel' hlo']

/-- A reader that serves the bytes of `disk` in whole buffers. -/
def diskReader (disk : Nat → UInt8) : PhysicalReader :=
  ⟨fun lba buf => .ok ((List.range buf.length).map fun i => disk (lba * buf.length + i))⟩

theorem diskReader_reads (disk : Nat → UInt8) (physicalBlockSize : Nat) :
    Reads disk physicalBlockSize (diskReader disk) := by
  intro lba buf hl
  subst hl
  rfl

def smallConfig : VirtualDeviceConfig := ⟨4, 2, 2, Words.four_lt_u64, Words.two_lt_u32, Words.two_lt_u32⟩

theorem read_semantics_small :
    ∃ io, ((fromFileExtents smallConfig [(0, 7, 1), (1, 3, 1)]).setPhysicalReader
        (diskReader fun p => UInt8.ofNat p)).addMemoryOverlays [⟨1, [200]⟩, ⟨5, [201]⟩] = .ok io ∧
      (∃ out, io.readBytes io.mediaId 0 [0, 0, 0, 0] = .ok out) ∧
      (∃ out, io.readBlocks io.mediaId 2 [0, 0] = .ok out) := by
  refine ⟨_, rfl, ?_, ?_⟩
  · exact ((read_semantics smallConfig [(0, 7, 1), (1, 3, 1)] (diskReader fun p => UInt8.ofNat p) _
      [⟨1, [200]⟩, ⟨5, [201]⟩] _ (by decide) (by decide) (by simp [ExtentsDisjoint])
      (by decide) (diskReader_reads _ _) rfl).1 0 [0, 0, 0, 0] (by simp)).mpr (by decide)
  · exact ((read_semantics smallConfig [(0, 7, 1), (1, 3, 1)] (diskReader fun p => UInt8.ofNat p) _
      [⟨1, [200]⟩, ⟨5, [201]⟩] _ (by decide) (by decide) (by simp [ExtentsDisjoint])
      (by decide) (diskReader_reads _ _) rfl).2.1 2 1 [0, 0] rfl).mpr (by decide)

def wideConfig : VirtualDeviceConfig := ⟨2 ^ 63 + 1, 512, 512, by decide, Words.sector_lt_u32, Words.sector_lt_u32⟩

/-- An empty block read at the block count is refused, and an extent whose products fit but whose
end wraps leaves its bytes unmapped. -/
theorem read_refused_or_unmapped :
    ((fromFileExtents smallConfig [(0, 7, 2)]).setPhysicalReader (diskReader fun _ => 7)).blockCount = 2 ∧
    ((fromFileExtents smallConfig [(0, 7, 2)]).setPhysicalReader (diskReader fun _ => 7)).readBlocks
      0x4E425453 2 [] = .error (.error .outOfBounds) ∧
    (2 ^ 54 * 512 < 2 ^ 64 ∧ 10 * 512 < 2 ^ 64) ∧
    ((fromFileExtents wideConfig [(2 ^ 54, 10, 2 ^ 54)]).setPhysicalReader (diskReader fun _ => 7)).readBytes
      0x4E425453 (2 ^ 63) [0] = .ok [0] ∧
    virtualByte (fun _ => 7) wideConfig [(2 ^ 54, 10, 2 ^ 54)] [] (2 ^ 63) = 7 := by
  refine ⟨by decide, by decide, by decide, ?_, by decide⟩
  have hmap : (ByteMappingTable.fromFileExtents [(2 ^ 54, 10, 2 ^ 54)] (2 ^ 63 + 1) 512).optimize =
      ⟨[⟨2 ^ 63, 0, 5120⟩], 2 ^ 63 + 1⟩ := by decide
  have hranges : ByteMappingTable.translateRangeSparse ⟨[⟨2 ^ 63, 0, 5120⟩], 2 ^ 63 + 1⟩ (2 ^ 63) 1 = some [] := by
    rw [ByteMappingTable.translateRangeSparse, show checkedAdd 64 (2 ^ 63) 1 = some (2 ^ 63 + 1) by decide]
    simp only [Option.bind_eq_bind, Option.bind_some]
    rw [if_neg (by decide), sparseLoop_hole _ _ (by decide) (by decide)]
    exact sparseLoop_done _ _ _ _
  have hread : ((fromFileExtents wideConfig [(2 ^ 54, 10, 2 ^ 54)]).setPhysicalReader
      (diskReader fun _ => 7)).readVirtualBytes (diskReader fun _ => 7) (2 ^ 63) [0] = .ok [0] := by
    unfold readVirtualBytes
    rw [if_neg (by decide)]
    simp only [setPhysicalReader, fromFileExtents, withByteMapping, wideConfig, hmap]
    rw [show min (2 ^ 63 + 1 - 2 ^ 63) (List.replicate [(0 : UInt8)].length (0 : UInt8)).length = 1 by decide, hranges]
    rfl
  rw [readBytes, if_neg (by decide), if_neg (by decide),
    show checkedAdd 64 (2 ^ 63) [(0 : UInt8)].length = some (2 ^ 63 + 1) by decide]
  simp only
  rw [if_neg (by decide)]
  exact hread

end NextBoot.Virtio.DeviceReads
