import NextBoot.BlockStore
import NextBoot.Virtio.BlockIo
import NextBoot.Virtio.Translation

namespace NextBoot.Virtio.ReadSemantics

open Words Bytes BlockStore Mapping BlockIo Translation
open VirtualBlockIo (copyLoop copyPieces applyOverlay)

/-- The reader never fails and serves the bytes of `disk`. -/
def Reads (disk : Nat → UInt8) (physicalBlockSize : Nat) (reader : PhysicalReader) : Prop :=
  ∀ lba buf, buf.length = physicalBlockSize →
    reader.readBlocks lba buf = .ok ((List.range physicalBlockSize).map fun i => disk (lba * physicalBlockSize + i))

def MemoryOverlay.byteAt (o : MemoryOverlay) (v : Nat) : Option UInt8 :=
  if o.virtualOffset ≤ v then o.data[v - o.virtualOffset]? else none

/-- The byte of the last-added overlay that covers `v`. -/
def lastOverlayByte : List MemoryOverlay → Nat → Option UInt8
  | [], _ => none
  | o :: os, v => (lastOverlayByte os v).or (MemoryOverlay.byteAt o v)

/-- The physical byte the extents assign to file byte `v`. -/
def assigned (physicalBlockSize : Nat) (extents : List Extent) (v : Nat) : Option Nat :=
  extents.findSome? fun e =>
    if e.1 * physicalBlockSize ≤ v ∧ v < (e.1 + e.2.2) * physicalBlockSize then
      some (e.2.1 * physicalBlockSize + (v - e.1 * physicalBlockSize))
    else none

def fileByte (disk : Nat → UInt8) (physicalBlockSize : Nat) (extents : List Extent) (fileSize v : Nat) : UInt8 :=
  if v < fileSize then ((assigned physicalBlockSize extents v).map disk).getD 0 else 0

/-- What the virtual medium holds at `v`: the latest overlay, else the file, else zero. -/
def virtualByte (disk : Nat → UInt8) (config : VirtualDeviceConfig) (extents : List Extent)
    (os : List MemoryOverlay) (v : Nat) : UInt8 :=
  (lastOverlayByte os v).getD (fileByte disk config.physicalBlockSize extents config.isoSize v)

theorem assigned_eq_some {physicalBlockSize : Nat} (hpos : 0 < physicalBlockSize) {extents : List Extent}
    (hd : ExtentsDisjoint extents) {v p : Nat} :
    assigned physicalBlockSize extents v = some p ↔ Assigns physicalBlockSize extents v p := by
  have hsound (p : Nat) (h : assigned physicalBlockSize extents v = some p) :
      Assigns physicalBlockSize extents v p := by
    obtain ⟨e, he, hp⟩ := List.exists_of_findSome?_eq_some h
    split at hp
    · next hin =>
        obtain rfl := Option.some.inj hp
        exact ⟨e, he, hin.1, hin.2, rfl⟩
    · cases hp
  constructor
  · exact hsound p
  · intro h
    cases ha : assigned physicalBlockSize extents v with
    | none =>
        obtain ⟨e, he, hlo, hhi, rfl⟩ := h
        have hn := List.findSome?_eq_none_iff.mp ha e he
        rw [if_pos ⟨hlo, hhi⟩] at hn
        cases hn
    | some q => rw [assigns_functional hpos hd v q p (hsound q ha) h]

variable {disk : Nat → UInt8} {physicalBlockSize : Nat} {reader : PhysicalReader}

/-- The block loop copies exactly the physical bytes of its piece. -/
theorem copyLoop_spec (hpos : 0 < physicalBlockSize) (hr : Reads disk physicalBlockSize reader) (dst copied remaining physicalByte : Nat)
    (scratch buf : List UInt8) (hs : scratch.length = physicalBlockSize)
    (hroom : dst + copied + remaining ≤ buf.length) (hfit : physicalByte + remaining < 2 ^ 64) :
    ∃ scratch', scratch'.length = physicalBlockSize ∧
      copyLoop reader physicalBlockSize hpos dst copied remaining physicalByte scratch buf =
        .ok (scratch', splice buf (dst + copied) (window disk physicalByte remaining)) := by
  induction hn : remaining using Nat.strong_induction_on generalizing copied remaining physicalByte scratch buf with
  | _ n ih =>
  subst hn
  rw [copyLoop]
  by_cases hz : remaining > 0
  · have hmod := Nat.mod_lt physicalByte hpos
    have hdiv := Nat.div_add_mod' physicalByte physicalBlockSize
    rw [dif_pos hz]
    simp only [hr _ _ hs]
    generalize hc : min (physicalBlockSize - physicalByte % physicalBlockSize) remaining = copySize
    have hslice := slice_window disk (physicalByte / physicalBlockSize * physicalBlockSize)
      (show physicalByte % physicalBlockSize + copySize ≤ physicalBlockSize by omega)
    rw [hdiv] at hslice
    simp only [window] at hslice
    rw [hslice, Option.bind_some, copyFromSlice_eq_some.mpr ⟨by simp; omega, rfl⟩]
    simp only
    rw [← window]
    have hlen : (splice buf (dst + copied) (window disk physicalByte copySize)).length = buf.length :=
      length_splice _ _ _ (by simp; omega)
    obtain ⟨scratch', hs', hrun⟩ := ih (remaining - copySize) (by omega) (copied + copySize) (remaining - copySize)
      (physicalByte + copySize)
      ((List.range physicalBlockSize).map fun i => disk (physicalByte / physicalBlockSize * physicalBlockSize + i))
      (splice buf (dst + copied) (window disk physicalByte copySize)) (by simp) (by omega) (by omega) rfl
    refine ⟨scratch', hs', ?_⟩
    rw [wrappingAdd_eq (by omega)]
    refine hrun.trans ?_
    have happ := window_add disk physicalByte copySize (remaining - copySize)
    rw [show copySize + (remaining - copySize) = remaining by omega] at happ
    have hlen' : dst + copied + (window disk physicalByte copySize ++
        window disk (physicalByte + copySize) (remaining - copySize)).length ≤ buf.length := by
      simp
      omega
    have hsplice := splice_append hlen'
    rw [length_window] at hsplice
    rw [happ, ← hsplice, Nat.add_assoc]
  · obtain rfl : remaining = 0 := by omega
    rw [dif_neg hz]
    exact ⟨scratch, hs, by simp [window, splice]⟩

theorem copyPieces_spec (hpos : 0 < physicalBlockSize) (hr : Reads disk physicalBlockSize reader) (pieces : List ByteMappingTable.Piece)
    (hfun : Functional (Covers pieces)) (bound : Nat) (hp : ∀ q ∈ pieces, PieceFits bound q)
    (scratch buf : List UInt8) (hs : scratch.length = physicalBlockSize) (hb : bound ≤ buf.length) :
    ∃ out, copyPieces reader physicalBlockSize hpos pieces scratch buf = .ok out ∧ out.length = buf.length ∧
      (∀ i p, Covers pieces i p → out[i]? = some (disk p)) ∧
      ∀ i, (∀ p, ¬ Covers pieces i p) → out[i]? = buf[i]? := by
  induction pieces generalizing scratch buf with
  | nil => exact ⟨buf, rfl, rfl, by simp [Covers], fun _ _ => rfl⟩
  | cons q pieces ih =>
      obtain ⟨dst, physical, count⟩ := q
      have hq := hp (dst, physical, count) (by simp)
      simp only [PieceFits] at hq
      obtain ⟨scratch', hs', hcopy⟩ := copyLoop_spec hpos hr dst 0 count physical scratch buf hs
        (by omega) (by omega)
      rw [Nat.add_zero] at hcopy
      have hlen := length_splice buf dst (window disk physical count) (by simp; omega)
      have hget := getElem?_splice buf dst (window disk physical count) (by simp; omega)
      rw [length_window] at hget
      have hcons {i p : Nat} : Covers ((dst, physical, count) :: pieces) i p ↔
          (dst ≤ i ∧ i < dst + count ∧ p = physical + (i - dst)) ∨ Covers pieces i p := covers_cons
      obtain ⟨out, hout, hl, hcov, hun⟩ := ih (fun i p q' h h' => hfun i p q' (hcons.mpr (.inr h)) (hcons.mpr (.inr h')))
        (fun x hx => hp x (by simp [hx])) scratch' (splice buf dst (window disk physical count)) hs' (by omega)
      refine ⟨out, ?_, by omega, fun i p h => ?_, fun i h => ?_⟩
      · simp only [copyPieces, hcopy]
        exact hout
      · by_cases hrest : ∃ p', Covers pieces i p'
        · obtain ⟨p', h'⟩ := hrest
          rw [hfun i p p' h (hcons.mpr (.inr h'))]
          exact hcov i p' h'
        · rcases hcons.mp h with ⟨hlo, hhi, rfl⟩ | h
          · rw [hun i (fun p' h' => hrest ⟨p', h'⟩), hget, if_pos ⟨hlo, hhi⟩, getElem?_window disk physical (by omega)]
          · exact absurd ⟨p, h⟩ hrest
      · rw [hun i (fun p hp' => h p (hcons.mpr (.inr hp'))), hget, if_neg]
        rintro ⟨hlo, hhi⟩
        exact h _ (hcons.mpr (.inl ⟨hlo, hhi, rfl⟩))

theorem byteAt_isSome {o : MemoryOverlay} {v : Nat} {b : UInt8} (h : MemoryOverlay.byteAt o v = some b) :
    o.virtualOffset ≤ v ∧ v < o.virtualOffset + o.data.length := by
  unfold MemoryOverlay.byteAt at h
  split at h
  · next hle =>
      have := (List.getElem?_eq_some_iff.mp h).1
      omega
  · cases h

theorem applyOverlay_spec (virtualOffset readable : Nat) (buf : List UInt8) (o : MemoryOverlay)
    (ho : o.virtualOffset + o.data.length < 2 ^ 64) (hb : readable ≤ buf.length) :
    ∃ out, applyOverlay virtualOffset (virtualOffset + readable) buf o = .ok out ∧ out.length = buf.length ∧
      ∀ i, out[i]? = if i < readable then (MemoryOverlay.byteAt o (virtualOffset + i)).or buf[i]? else buf[i]? := by
  rw [applyOverlay, MemoryOverlay.end, checkedAdd_eq_some.mpr ⟨ho, rfl⟩]
  simp only
  split
  · next hge =>
      refine ⟨buf, rfl, rfl, fun i => ?_⟩
      split
      · next hi =>
          cases hby : MemoryOverlay.byteAt o (virtualOffset + i) with
          | none => rfl
          | some b =>
              have := byteAt_isSome hby
              omega
      · rfl
  · next hlt =>
      generalize hstart : max virtualOffset o.virtualOffset = start at hlt ⊢
      generalize hstop : min (virtualOffset + readable) (o.virtualOffset + o.data.length) = stop at hlt ⊢
      obtain ⟨src, hsrc⟩ : ∃ src, slice o.data (start - o.virtualOffset) (stop - start) = some src :=
        ⟨_, slice_eq_some (by omega)⟩
      have hl := slice_length hsrc
      rw [hsrc, Option.bind_some, copyFromSlice_eq_some.mpr ⟨by omega, rfl⟩]
      refine ⟨_, rfl, length_splice _ _ _ (by omega), fun i => ?_⟩
      rw [getElem?_splice _ _ _ (by omega)]
      by_cases hin : start - virtualOffset ≤ i ∧ i < start - virtualOffset + src.length
      · rw [if_pos hin, if_pos (by omega), slice_getElem? hsrc (by omega), MemoryOverlay.byteAt, if_pos (by omega),
          show start - o.virtualOffset + (i - (start - virtualOffset)) = virtualOffset + i - o.virtualOffset by omega,
          List.getElem?_eq_getElem (show virtualOffset + i - o.virtualOffset < o.data.length by omega), Option.some_or]
      · rw [if_neg hin]
        split
        · next hi =>
            cases hby : MemoryOverlay.byteAt o (virtualOffset + i) with
            | none => rfl
            | some b =>
                have := byteAt_isSome hby
                omega
        · rfl

theorem overlays_spec (virtualOffset readable : Nat) (os : List MemoryOverlay)
    (hos : ∀ o ∈ os, o.virtualOffset + o.data.length < 2 ^ 64) (buf : List UInt8) (hb : readable ≤ buf.length) :
    ∃ out, os.foldlM (applyOverlay virtualOffset (virtualOffset + readable)) buf = .ok out ∧
      out.length = buf.length ∧
      ∀ i, out[i]? = if i < readable then (lastOverlayByte os (virtualOffset + i)).or buf[i]? else buf[i]? := by
  induction os generalizing buf with
  | nil => exact ⟨buf, rfl, rfl, fun i => by simp [lastOverlayByte]⟩
  | cons o os ih =>
      obtain ⟨mid, hmid, hl, hget⟩ := applyOverlay_spec virtualOffset readable buf o (hos o (by simp)) hb
      obtain ⟨out, hout, hl', hget'⟩ := ih (fun x hx => hos x (by simp [hx])) mid (by omega)
      refine ⟨out, ?_, by omega, fun i => ?_⟩
      · rw [List.foldlM_cons, hmid]
        exact hout
      · rw [hget', hget]
        split
        · rw [lastOverlayByte, Option.or_assoc]
        · rfl

end NextBoot.Virtio.ReadSemantics
