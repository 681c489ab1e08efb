import NextBoot.Vhdx.Chain

namespace NextBoot.Vhdx

open Words Results Virtio.Mapping Virtio.BlockIo Virtio.Translation Virtio.ReadSemantics

/-- The file bytes of an extent. -/
def Holds (blockSize : Nat) (e : Extent) (c : Nat) : Prop := e.1 * blockSize ≤ c ∧ c < (e.1 + e.2.2) * blockSize

/-- An extent holds the byte at `c`; neither it nor an extent before it ends past 64 bits, and the first byte of the range
from `fileOffset` on that it holds has a 64-bit address. -/
def Reachable (blockSize : Nat) (extents : List Extent) (fileOffset c : Nat) : Prop :=
  ∃ before e after, extents = before ++ e :: after ∧ (∀ x ∈ before ++ [e], (x.1 + x.2.2) * blockSize < 2 ^ 64) ∧
    Holds blockSize e c ∧ e.2.1 * blockSize + (max fileOffset (e.1 * blockSize) - e.1 * blockSize) < 2 ^ 64

variable {blockSize cursor : Nat} {extents : List Extent} {e : Extent}

theorem extentAt_cons (hfit : (e.1 + e.2.2) * blockSize < 2 ^ 64) : extentAt blockSize cursor (e :: extents) =
    if cursor < e.1 * blockSize ∨ cursor ≥ e.1 * blockSize + e.2.2 * blockSize then extentAt blockSize cursor extents
    else .ok (some (e, e.1 * blockSize, e.1 * blockSize + e.2.2 * blockSize)) := by
  rw [Nat.add_mul] at hfit
  rw [extentAt, checkedMul_eq_some.mpr ⟨by omega, rfl⟩, checkedMul_eq_some.mpr ⟨by omega, rfl⟩]
  simp only [someOr, bind, Except.bind]
  rw [checkedAdd_eq_some.mpr ⟨hfit, rfl⟩]

theorem extentAt_fits {r : Option (Extent × Nat × Nat)} (h : extentAt blockSize cursor (e :: extents) = .ok r) :
    (e.1 + e.2.2) * blockSize < 2 ^ 64 := by
  obtain ⟨start, hstart, h⟩ := bind_eq_ok.mp h
  obtain ⟨bytes, hbytes, h⟩ := bind_eq_ok.mp h
  obtain ⟨stop, hstop, h⟩ := bind_eq_ok.mp h
  obtain ⟨_, rfl⟩ := checkedMul_eq_some.mp (someOr_eq_ok.mp hstart)
  obtain ⟨_, rfl⟩ := checkedMul_eq_some.mp (someOr_eq_ok.mp hbytes)
  rw [Nat.add_mul]
  exact (checkedAdd_eq_some.mp (someOr_eq_ok.mp hstop)).1

/-- The scan finds the first extent that holds the byte, if no address before it overflows. -/
theorem extentAt_found {before after : List Extent} (hfits : ∀ x ∈ before ++ [e], (x.1 + x.2.2) * blockSize < 2 ^ 64)
    (hbefore : ∀ x ∈ before, ¬ Holds blockSize x cursor) (hholds : Holds blockSize e cursor) :
    extentAt blockSize cursor (before ++ e :: after) =
      .ok (some (e, e.1 * blockSize, e.1 * blockSize + e.2.2 * blockSize)) := by
  induction before with
  | nil =>
      obtain ⟨hlo, hhi⟩ := hholds
      rw [Nat.add_mul] at hhi
      rw [List.nil_append, extentAt_cons (hfits e (by simp)), if_neg (by omega)]
  | cons x before ih =>
      have hx := hbefore x List.mem_cons_self
      rw [Holds, Nat.add_mul] at hx
      rw [List.cons_append, extentAt_cons (hfits x (by simp)), if_pos (by omega)]
      exact ih (fun y hy => hfits y (List.mem_cons_of_mem _ hy)) fun y hy => hbefore y (List.mem_cons_of_mem _ hy)

theorem extentAt_split {start stop : Nat} (h : extentAt blockSize cursor extents = .ok (some (e, start, stop))) :
    ∃ before after, extents = before ++ e :: after ∧ ∀ x ∈ before ++ [e], (x.1 + x.2.2) * blockSize < 2 ^ 64 := by
  induction extents with
  | nil => cases h
  | cons x extents ih =>
      have hfit := extentAt_fits h
      rw [extentAt_cons hfit] at h
      split at h
      · obtain ⟨before, after, rfl, hfits⟩ := ih h
        refine ⟨x :: before, after, rfl, fun y hy => ?_⟩
        rcases List.mem_cons.mp hy with rfl | hy
        · exact hfit
        · exact hfits y hy
      · cases h
        exact ⟨[], extents, rfl, fun y hy => by rwa [List.mem_singleton.mp hy]⟩

theorem disjoint_not_holds {a b : Extent} (hpos : 0 < blockSize)
    (hd : ∀ block, ¬ ((a.1 ≤ block ∧ block < a.1 + a.2.2) ∧ (b.1 ≤ block ∧ block < b.1 + b.2.2))) {c : Nat}
    (hb : Holds blockSize b c) : ¬ Holds blockSize a c := by
  intro ha
  refine hd (c / blockSize) ⟨⟨?_, ?_⟩, ⟨?_, ?_⟩⟩
  · exact (Nat.le_div_iff_mul_le hpos).mpr ha.1
  · exact (Nat.div_lt_iff_lt_mul hpos).mpr ha.2
  · exact (Nat.le_div_iff_mul_le hpos).mpr hb.1
  · exact (Nat.div_lt_iff_lt_mul hpos).mpr hb.2

/-- Two extents that hold one byte are one. -/
theorem holder_unique {a b : Extent} (hpos : 0 < blockSize) (hd : ExtentsDisjoint extents) (ha : a ∈ extents)
    (hb : b ∈ extents) {c : Nat} (hac : Holds blockSize a c) (hbc : Holds blockSize b c) : a = b := by
  by_contra hne
  have hsym : Std.Symm fun a b : Extent => ∀ block,
      ¬ ((a.1 ≤ block ∧ block < a.1 + a.2.2) ∧ (b.1 ≤ block ∧ block < b.1 + b.2.2)) :=
    ⟨fun x y h block hxy => h block ⟨hxy.2, hxy.1⟩⟩
  exact disjoint_not_holds hpos (List.Pairwise.forall hd ha hb hne) hbc hac

/-- An extent that holds the byte behind another one starts there. -/
theorem holder_starts (hpos : 0 < blockSize) (hd : ExtentsDisjoint extents) (he : e ∈ extents) (hholds : Holds blockSize e cursor)
    {x : Extent} (hx : x ∈ extents) (hnext : Holds blockSize x ((e.1 + e.2.2) * blockSize)) :
    x.1 * blockSize = (e.1 + e.2.2) * blockSize := by
  obtain ⟨hlo, hhi⟩ := hholds
  obtain ⟨hxlo, hxhi⟩ := hnext
  by_contra hne
  have hsame := @holder_unique _ _ x e hpos hd hx he ((e.1 + e.2.2) * blockSize - 1) ⟨by omega, by omega⟩
    ⟨by omega, by omega⟩
  rw [hsame] at hxhi
  omega

variable {virtualStart fileOffset fileEnd : Nat}

theorem mapFileRange_round (hlt : cursor < fileEnd) {t : ByteMappingTable} :
    mapFileRange blockSize extents virtualStart fileOffset fileEnd cursor t =
      extentAt blockSize cursor extents >>= fun found => someOr found .deviceError >>= fun (e, start, stop) =>
        someOr ((checkedMul 64 e.2.1 blockSize).bind fun first => checkedAdd 64 first (cursor - start)) .loadError >>=
          fun physicalStart => someOr (checkedAdd 64 virtualStart (cursor - fileOffset)) .loadError >>= fun segmentStart =>
            mapFileRange blockSize extents virtualStart fileOffset fileEnd (min fileEnd stop)
              (t.addSegment segmentStart (min fileEnd stop - cursor) physicalStart) := by
  rw [mapFileRange, if_pos hlt]
  split
  · next he => rw [he]; rfl
  · next he => rw [he]; rfl
  · next he => rw [he]; rfl

theorem mapFileRange_step {start stop : Nat} (hlt : cursor < fileEnd)
    (hextent : extentAt blockSize cursor extents = .ok (some (e, start, stop)))
    (hphysical : e.2.1 * blockSize + (cursor - start) < 2 ^ 64) (hv : virtualStart + (cursor - fileOffset) < 2 ^ 64)
    (t : ByteMappingTable) :
    mapFileRange blockSize extents virtualStart fileOffset fileEnd cursor t =
      mapFileRange blockSize extents virtualStart fileOffset fileEnd (min fileEnd stop)
        (t.addSegment (virtualStart + (cursor - fileOffset)) (min fileEnd stop - cursor)
          (e.2.1 * blockSize + (cursor - start))) := by
  rw [mapFileRange_round hlt, hextent, ok_bind, someOr_some, ok_bind]
  dsimp only
  rw [checkedMul_eq_some.mpr ⟨by omega, rfl⟩, Option.bind_some, checkedAdd_eq_some.mpr ⟨hphysical, rfl⟩,
    checkedAdd_eq_some.mpr ⟨hv, rfl⟩]
  rfl

/-- The loop succeeds exactly when every byte that is left is reached. Its cursor is always the first byte of the range that
the next extent holds. -/
theorem mapFileRange_ok_iff (hpos : 0 < blockSize) (hd : ExtentsDisjoint extents) (hlo : fileOffset ≤ cursor)
    (hhi : cursor ≤ fileEnd) (hv : virtualStart + (fileEnd - fileOffset) < 2 ^ 64)
    (hcut : ∀ x ∈ extents, Holds blockSize x cursor → max fileOffset (x.1 * blockSize) = cursor) (t : ByteMappingTable) :
    (∃ t', mapFileRange blockSize extents virtualStart fileOffset fileEnd cursor t = .ok t') ↔
      ∀ c, cursor ≤ c → c < fileEnd → Reachable blockSize extents fileOffset c := by
  induction hn : fileEnd - cursor using Nat.strong_induction_on generalizing cursor t with
  | _ n ih =>
      by_cases hlt : cursor < fileEnd
      · -- one round takes the cursor to the end of the extent that holds it
        have hround {e : Extent} (hmem : e ∈ extents) (hholds : Holds blockSize e cursor) (t : ByteMappingTable) :
            (∃ t', mapFileRange blockSize extents virtualStart fileOffset fileEnd
              (min fileEnd (e.1 * blockSize + e.2.2 * blockSize)) t = .ok t') ↔
              ∀ c, min fileEnd (e.1 * blockSize + e.2.2 * blockSize) ≤ c → c < fileEnd →
                Reachable blockSize extents fileOffset c := by
          have hend := hholds.2
          rw [Nat.add_mul] at hend
          rcases Nat.lt_or_ge (e.1 * blockSize + e.2.2 * blockSize) fileEnd with hin | hpast
          · rw [Nat.min_eq_right hin.le]
            refine ih (fileEnd - (e.1 * blockSize + e.2.2 * blockSize)) (by omega) (by omega) (by omega) ?_ t rfl
            intro x hx hxholds
            rw [← Nat.add_mul] at hxholds
            have hstart := holder_starts hpos hd hmem hholds hx hxholds
            rw [Nat.add_mul] at hstart
            omega
          · rw [Nat.min_eq_left hpast]
            refine ⟨fun _ c hc hc' => by omega, fun _ => ⟨t, ?_⟩⟩
            rw [mapFileRange, if_neg (Nat.lt_irrefl _)]
        constructor
        · rintro ⟨t', h⟩ c hc hc'
          have hbody := h
          rw [mapFileRange, if_pos hlt] at hbody
          split at hbody
          · cases hbody
          · cases hbody
          · next e start stop hextent =>
              obtain ⟨hmem, rfl, rfl, hcursor, hcursor'⟩ := extentAt_spec hextent
              obtain ⟨physicalStart, hphysical, hbody⟩ := bind_eq_ok.mp hbody
              obtain ⟨segmentStart, hsegment, hbody⟩ := bind_eq_ok.mp hbody
              obtain ⟨first, hfirst, hphysical⟩ := Option.bind_eq_some_iff.mp (someOr_eq_ok.mp hphysical)
              obtain ⟨_, rfl⟩ := checkedMul_eq_some.mp hfirst
              obtain ⟨hbound, rfl⟩ := checkedAdd_eq_some.mp hphysical
              have hholds : Holds blockSize e cursor := ⟨hcursor, by rw [Nat.add_mul]; exact hcursor'⟩
              by_cases hinside : c < e.1 * blockSize + e.2.2 * blockSize
              · obtain ⟨before, after, hsplit, hfits⟩ := extentAt_split hextent
                refine ⟨before, e, after, hsplit, hfits, ⟨by omega, by rw [Nat.add_mul]; exact hinside⟩, ?_⟩
                rw [hcut e hmem hholds]
                exact hbound
              · exact (hround hmem hholds _).mp ⟨t', hbody⟩ c (by omega) hc'
        · intro hall
          obtain ⟨before, e, after, rfl, hfits, hholds, hphysical⟩ := hall cursor (Nat.le_refl _) hlt
          have hmem : e ∈ before ++ e :: after := by simp
          have hbefore : ∀ x ∈ before, ¬ Holds blockSize x cursor := fun x hx =>
            disjoint_not_holds hpos ((List.pairwise_append.mp hd).2.2 x hx e List.mem_cons_self) hholds
          rw [hcut e hmem hholds] at hphysical
          rw [mapFileRange_step hlt (extentAt_found hfits hbefore hholds) hphysical (by omega)]
          exact (hround hmem hholds _).mpr fun c hc hc' =>
            hall c (by have := hholds.2; rw [Nat.add_mul] at this; omega) hc'
      · refine ⟨fun _ c hc hc' => by omega, fun _ => ⟨t, ?_⟩⟩
        rw [mapFileRange, if_neg hlt]

/-- Within 64-bit addresses, the bytes that are reached are those that the extents hold. -/
theorem reachable_iff_held (hfits : ∀ x ∈ extents, ExtentFits blockSize x) {c : Nat} (hc : fileOffset ≤ c) :
    Reachable blockSize extents fileOffset c ↔ ∃ x ∈ extents, Holds blockSize x c := by
  constructor
  · rintro ⟨before, e, after, rfl, -, hholds, -⟩
    exact ⟨e, by simp, hholds⟩
  · rintro ⟨e, he, hholds⟩
    have hphysical := (hfits e he).2
    obtain ⟨before, after, rfl⟩ := List.append_of_mem he
    refine ⟨before, e, after, rfl, fun x hx => (hfits x ?_).1, hholds, ?_⟩
    · rcases List.mem_append.mp hx with hx | hx
      · exact List.mem_append_left _ hx
      · rw [List.mem_singleton.mp hx]
        exact he
    · obtain ⟨hlo, hhi⟩ := hholds
      rw [Nat.add_mul] at hhi hphysical
      omega

variable {byteCount : Nat} {t t' : ByteMappingTable}

theorem holds_cut (blockSize fileOffset : Nat) (extents : List Extent) :
    ∀ x ∈ extents, Holds blockSize x fileOffset → max fileOffset (x.1 * blockSize) = fileOffset :=
  fun _ _ hx => Nat.max_eq_left hx.1

theorem mapSourceFileRange_ok_iff {file : SourceFile} (hd : ExtentsDisjoint file.extents)
    (hv : virtualStart + byteCount < 2 ^ 64) (t : ByteMappingTable) :
    (∃ t', mapSourceFileRangeToPhysical t file virtualStart fileOffset byteCount = .ok t') ↔
      0 < file.blockSize ∧ fileOffset + byteCount < 2 ^ 64 ∧
        ∀ c, fileOffset ≤ c → c < fileOffset + byteCount → Reachable file.blockSize file.extents fileOffset c := by
  have hloop (hpos : 0 < file.blockSize) := mapFileRange_ok_iff hpos hd (Nat.le_refl fileOffset)
    (Nat.le_add_right fileOffset byteCount) (by rwa [Nat.add_sub_cancel_left]) (holds_cut _ _ _) t
  constructor
  · rintro ⟨t', h⟩
    obtain ⟨_, hzero, h⟩ := bind_eq_ok.mp h
    obtain ⟨fileEnd, hend, h⟩ := bind_eq_ok.mp h
    obtain ⟨hlt, rfl⟩ := checkedAdd_eq_some.mp (someOr_eq_ok.mp hend)
    have hpos : 0 < file.blockSize := Nat.pos_of_ne_zero (refuseIf_eq_ok.mp hzero)
    exact ⟨hpos, hlt, (hloop hpos).mp ⟨t', h⟩⟩
  · rintro ⟨hpos, hlt, hall⟩
    obtain ⟨t', h⟩ := (hloop hpos).mpr hall
    refine ⟨t', ?_⟩
    rw [mapSourceFileRangeToPhysical, refuseIf, if_neg (Nat.ne_of_gt hpos), checkedAdd_eq_some.mpr ⟨hlt, rfl⟩]
    exact h

theorem mapSourceFileRange_maps {file : SourceFile} (hd : ExtentsDisjoint file.extents)
    (hv : virtualStart + byteCount < 2 ^ 64)
    (h : mapSourceFileRangeToPhysical t file virtualStart fileOffset byteCount = .ok t') (v p : Nat) :
    Maps t'.mappings v p ↔ Maps t.mappings v p ∨
      virtualStart ≤ v ∧ v < virtualStart + byteCount ∧ file.locate (fileOffset + (v - virtualStart)) = some p := by
  obtain ⟨_, hzero, h⟩ := bind_eq_ok.mp h
  obtain ⟨fileEnd, hend, h⟩ := bind_eq_ok.mp h
  obtain ⟨hlt, rfl⟩ := checkedAdd_eq_some.mp (someOr_eq_ok.mp hend)
  have hmaps := mapFileRange_maps (Nat.pos_of_ne_zero (refuseIf_eq_ok.mp hzero)) hd (Nat.le_refl fileOffset)
    (Nat.le_add_right fileOffset byteCount) (by rwa [Nat.add_sub_cancel_left]) h v p
  rwa [Nat.sub_self, Nat.add_zero, Nat.add_sub_cancel_left] at hmaps

/-- An image with extents is mapped as any other file. -/
theorem mapImageFileRange_extents {iso : IsoFile} (hextents : iso.extents ≠ []) (t : ByteMappingTable) :
    mapImageFileRangeToPhysical iso t virtualStart fileOffset byteCount =
      mapSourceFileRangeToPhysical t iso.toSourceFile virtualStart fileOffset byteCount := by
  simp only [mapImageFileRangeToPhysical, mapSourceFileRangeToPhysical, if_neg hextents]

theorem mapImageFileRange_contiguous {iso : IsoFile} (hextents : iso.extents = []) (t : ByteMappingTable) :
    (∃ t', mapImageFileRangeToPhysical iso t virtualStart fileOffset byteCount = .ok t') ↔
      0 < iso.blockSize ∧ iso.startLba * iso.blockSize + fileOffset < 2 ^ 64 := by
  constructor
  · rintro ⟨t', h⟩
    obtain ⟨_, hzero, h⟩ := bind_eq_ok.mp h
    rw [if_pos hextents] at h
    obtain ⟨physicalStart, hphysical, -⟩ := bind_eq_ok.mp h
    obtain ⟨first, hfirst, hphysical⟩ := Option.bind_eq_some_iff.mp (someOr_eq_ok.mp hphysical)
    obtain ⟨_, rfl⟩ := checkedMul_eq_some.mp hfirst
    exact ⟨Nat.pos_of_ne_zero (refuseIf_eq_ok.mp hzero), (checkedAdd_eq_some.mp hphysical).1⟩
  · rintro ⟨hpos, hlt⟩
    refine ⟨t.addSegment virtualStart byteCount (iso.startLba * iso.blockSize + fileOffset), ?_⟩
    rw [mapImageFileRangeToPhysical, refuseIf, if_neg (Nat.ne_of_gt hpos), if_pos hextents,
      checkedMul_eq_some.mpr ⟨by omega, rfl⟩, Option.bind_some, checkedAdd_eq_some.mpr ⟨hlt, rfl⟩]
    rfl

theorem mapImageFileRange_contiguous_maps {iso : IsoFile} (hextents : iso.extents = [])
    (hv : virtualStart + byteCount < 2 ^ 64)
    (h : mapImageFileRangeToPhysical iso t virtualStart fileOffset byteCount = .ok t') (v p : Nat) :
    Maps t'.mappings v p ↔ Maps t.mappings v p ∨ virtualStart ≤ v ∧ v < virtualStart + byteCount ∧
      p = iso.startLba * iso.blockSize + (fileOffset + (v - virtualStart)) := by
  obtain ⟨_, -, h⟩ := bind_eq_ok.mp h
  rw [if_pos hextents] at h
  obtain ⟨physicalStart, hphysical, h⟩ := bind_eq_ok.mp h
  obtain ⟨first, hfirst, hphysical⟩ := Option.bind_eq_some_iff.mp (someOr_eq_ok.mp hphysical)
  obtain ⟨_, rfl⟩ := checkedMul_eq_some.mp hfirst
  obtain ⟨_, rfl⟩ := checkedAdd_eq_some.mp hphysical
  cases h
  unfold ByteMappingTable.addSegment
  split
  · next hzero =>
      refine ⟨.inl, ?_⟩
      rintro (hm | ⟨hlo, hhi, -⟩)
      · exact hm
      · omega
  · rw [maps_append, ByteMapping.new, wrappingAdd_eq hv]
    refine or_congr_right ?_
    simp [Maps, Nat.add_assoc]

end NextBoot.Vhdx
