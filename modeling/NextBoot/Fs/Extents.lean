import NextBoot.Tiling
import NextBoot.Fs.Device

namespace NextBoot.Fs

open Words BlockStore Tiling

structure FileExtent where
  virtualBlockStart : Nat
  physicalLba : Nat
  blockCount : Nat
deriving DecidableEq, Repr

namespace FileExtent

def virtualBlockEnd (e : FileExtent) : Nat := wrappingAdd 64 e.virtualBlockStart e.blockCount

def physicalLbaEnd (e : FileExtent) : Nat := wrappingAdd 64 e.physicalLba e.blockCount

def place (e : FileExtent) (block : Nat) : Nat := wrappingAdd 64 e.physicalLba (block - e.virtualBlockStart)

end FileExtent

def pushExtent (extents : List FileExtent) (virtualBlockStart physicalLba blockCount : Nat) : List FileExtent :=
  if blockCount = 0 then extents
  else
    match extents.getLast? with
    | some last =>
        if last.virtualBlockEnd = virtualBlockStart ∧ last.physicalLbaEnd = physicalLba then
          extents.dropLast ++ [{ last with blockCount := wrappingAdd 64 last.blockCount blockCount }]
        else extents ++ [⟨virtualBlockStart, physicalLba, blockCount⟩]
    | none => extents ++ [⟨virtualBlockStart, physicalLba, blockCount⟩]

abbrev TilesFile : List FileExtent → Nat → Nat → Prop := Tiles FileExtent.virtualBlockStart FileExtent.blockCount

abbrev extentOf : List FileExtent → Nat → Option FileExtent :=
  locate FileExtent.virtualBlockStart FileExtent.blockCount

/-- The device block behind a block of the file. -/
def translate (extents : List FileExtent) (block : Nat) : Option Nat :=
  (extentOf extents block).map fun e => e.place block

/-- The byte at a position of the file, read through its extents; a position outside them is a hole. -/
def fileByte (io : BlockIo) (extents : List FileExtent) (i : Nat) : UInt8 :=
  match translate extents (i / io.blockSize) with
  | some block => io.bytes (block * io.blockSize + i % io.blockSize)
  | none => 0

/-- A file is read as its extents place it: they tile its blocks, and every read returns the bytes behind them. -/
structure ReadsAsPlaced (io : BlockIo) (fileSize : Nat) (E : List FileExtent)
    (readFile : Nat → Nat → Option (Except FsError (List UInt8))) : Prop where
  tiles : TilesFile E 0 ((fileSize + (io.blockSize - 1)) / io.blockSize)
  reads : ∀ offset len, offset < 2 ^ 64 → len < 2 ^ 64 →
    readFile offset len = some (.ok (window (fileByte io E) offset (min len (fileSize - offset))))

variable {extents : List FileExtent} {e : FileExtent} {virtualBlockStart physicalLba blockCount k : Nat}

theorem pushExtent_zero : pushExtent extents virtualBlockStart physicalLba 0 = extents := if_pos rfl

theorem pushExtent_nil (h : blockCount ≠ 0) : pushExtent [] virtualBlockStart physicalLba blockCount =
    [⟨virtualBlockStart, physicalLba, blockCount⟩] := by
  simp [pushExtent, h]

theorem pushExtent_snoc (h : blockCount ≠ 0) : pushExtent (extents ++ [e]) virtualBlockStart physicalLba blockCount =
    if e.virtualBlockEnd = virtualBlockStart ∧ e.physicalLbaEnd = physicalLba then
      extents ++ [{ e with blockCount := wrappingAdd 64 e.blockCount blockCount }]
    else extents ++ [e] ++ [⟨virtualBlockStart, physicalLba, blockCount⟩] := by
  simp [pushExtent, h]

theorem translate_of_mem {lo : Nat} (h : Ordered FileExtent.virtualBlockStart FileExtent.blockCount extents lo)
    (he : e ∈ extents) (hk : Covers FileExtent.virtualBlockStart FileExtent.blockCount e k) :
    translate extents k = some (e.place k) := by
  rw [translate, extentOf, h.locate_eq_some he hk, Option.map_some]

theorem translate_lt {lo hi p : Nat} (h : TilesFile extents lo hi) (hk : translate extents k = some p) : k < hi := by
  obtain ⟨e, he, -⟩ := Option.map_eq_some_iff.mp hk
  obtain ⟨hmem, hcovers⟩ := locate_mem he
  exact Nat.lt_of_lt_of_le hcovers.2 (h.stop_le hmem)

theorem append_extent_tiles {vb : Nat} (h : TilesFile extents 0 vb) (hcount : 0 < blockCount) :
    TilesFile (extents ++ [⟨vb, physicalLba, blockCount⟩]) 0 (vb + blockCount) ∧
      (∀ k < vb, translate (extents ++ [⟨vb, physicalLba, blockCount⟩]) k = translate extents k) ∧
      ∀ j < blockCount, translate (extents ++ [⟨vb, physicalLba, blockCount⟩]) (vb + j) =
        some (wrappingAdd 64 physicalLba j) := by
  have htiles : TilesFile (extents ++ [⟨vb, physicalLba, blockCount⟩]) 0 (vb + blockCount) :=
    tiles_snoc.mpr ⟨h, hcount, rfl⟩
  refine ⟨htiles, fun k hk => ?_, fun j hj => ?_⟩
  · obtain ⟨y, hy, hc⟩ := h.exists_covers (Nat.zero_le k) hk
    rw [translate_of_mem h.ordered hy hc, translate_of_mem htiles.ordered (by simp [hy]) hc]
  · rw [translate_of_mem htiles.ordered (e := ⟨vb, physicalLba, blockCount⟩) (by simp) ⟨by simp, by simpa using hj⟩]
    simp [FileExtent.place]

theorem grow_extent_tiles {vb : Nat} (h : TilesFile (extents ++ [e]) 0 vb) (hfits : vb + blockCount < 2 ^ 64)
    (hlba : e.physicalLbaEnd = physicalLba) :
    TilesFile (extents ++ [{ e with blockCount := wrappingAdd 64 e.blockCount blockCount }]) 0 (vb + blockCount) ∧
      (∀ k < vb, translate (extents ++ [{ e with blockCount := wrappingAdd 64 e.blockCount blockCount }]) k =
        translate (extents ++ [e]) k) ∧
      ∀ j < blockCount, translate (extents ++ [{ e with blockCount := wrappingAdd 64 e.blockCount blockCount }])
        (vb + j) = some (wrappingAdd 64 physicalLba j) := by
  obtain ⟨hinit, hpos, hend⟩ := tiles_snoc.mp h
  have hsum : wrappingAdd 64 e.blockCount blockCount = e.blockCount + blockCount := wrappingAdd_eq (by omega)
  rw [hsum]
  have htiles : TilesFile (extents ++ [{ e with blockCount := e.blockCount + blockCount }]) 0 (vb + blockCount) :=
    tiles_snoc.mpr ⟨hinit, by simp; omega, by simp; omega⟩
  refine ⟨htiles, fun k hk => ?_, fun j hj => ?_⟩
  · obtain ⟨y, hy, hc⟩ := h.exists_covers (Nat.zero_le k) hk
    rw [translate_of_mem h.ordered hy hc]
    rcases List.mem_append.mp hy with hy | hy
    · exact translate_of_mem htiles.ordered (by simp [hy]) hc
    · obtain rfl := List.mem_singleton.mp hy
      have hc' : Covers FileExtent.virtualBlockStart FileExtent.blockCount
          { y with blockCount := y.blockCount + blockCount } k := ⟨hc.1, by have := hc.2; simp only; omega⟩
      rw [translate_of_mem htiles.ordered (by simp) hc']
      rfl
  · have hc' : Covers FileExtent.virtualBlockStart FileExtent.blockCount
        { e with blockCount := e.blockCount + blockCount } (vb + j) := ⟨by simp only; omega, by simp only; omega⟩
    rw [translate_of_mem htiles.ordered (by simp) hc', ← hlba]
    have hplace : e.physicalLba + (vb + j - e.virtualBlockStart) = e.physicalLba + e.blockCount + j := by omega
    simp only [FileExtent.place, FileExtent.physicalLbaEnd, wrappingAdd, Nat.mod_add_mod, hplace]

/-- Inside one block, the bytes of the file are those of the device block behind it. -/
theorem window_block {io : BlockIo} {block o len : Nat} (h : translate extents k = some block)
    (hlen : o + len ≤ io.blockSize) :
    window (fileByte io extents) (k * io.blockSize + o) len = window io.bytes (block * io.blockSize + o) len := by
  apply List.map_congr_left
  intro i hi
  rw [List.mem_range] at hi
  have hlt : o + i < io.blockSize := by omega
  have hdiv : (k * io.blockSize + (o + i)) / io.blockSize = k := by
    rw [Nat.add_comm, Nat.add_mul_div_right _ _ (by omega), Nat.div_eq_of_lt hlt, Nat.zero_add]
  have hmod : (k * io.blockSize + (o + i)) % io.blockSize = o + i := by
    rw [Nat.add_comm, Nat.add_mul_mod_self_right, Nat.mod_eq_of_lt hlt]
  rw [Nat.add_assoc, Nat.add_assoc, fileByte, hdiv, hmod, h]

/-- Pushing a run at the end of a tiled list keeps it tiled, keeps the places of the earlier blocks and gives the new
ones the run's places, whether or not the run is merged into the last extent. -/
theorem pushExtent_tiles {vb : Nat} (h : TilesFile extents 0 vb) (hcount : 0 < blockCount)
    (hfits : vb + blockCount < 2 ^ 64) :
    TilesFile (pushExtent extents vb physicalLba blockCount) 0 (vb + blockCount) ∧
      (∀ k < vb, translate (pushExtent extents vb physicalLba blockCount) k = translate extents k) ∧
      ∀ j < blockCount, translate (pushExtent extents vb physicalLba blockCount) (vb + j) =
        some (wrappingAdd 64 physicalLba j) := by
  have hne : blockCount ≠ 0 := by omega
  rcases List.eq_nil_or_concat extents with rfl | ⟨init, e, rfl⟩
  · rw [pushExtent_nil hne]
    exact append_extent_tiles h hcount
  · rw [List.concat_eq_append] at h ⊢
    rw [pushExtent_snoc hne]
    split
    · next hmerge => exact grow_extent_tiles h hfits hmerge.2
    · exact append_extent_tiles h hcount

end NextBoot.Fs
