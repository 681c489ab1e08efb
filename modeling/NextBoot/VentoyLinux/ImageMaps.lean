import NextBoot.Pieces
import NextBoot.VentoyLinux.Initrd

namespace NextBoot.VentoyLinux

open Pieces Results Words

inductive VentoyParamError where
  | pathTooLong
  | invalidSectorSize
  | unalignedExtent
  | valueOutOfRange
  | outputTooLarge
  | outputReserveFailed
deriving DecidableEq, Repr

structure VentoyExtent where
  virtualBlockStart : UInt64
  physicalLba : UInt64
  blockCount : UInt64
deriving DecidableEq, Repr

structure VentoyImageRegion where
  imageSectorCount : UInt32
  imageStartSector : UInt32
  diskStartSector : UInt64
deriving DecidableEq, Repr

def u32TryFrom (value : Nat) : Option UInt32 := if value < 2 ^ 32 then some (UInt32.ofNat value) else none

section Builders

variable (extents : List VentoyExtent) (sourceBlockSize imageSectorSize : UInt32)

def imageMapChunk (extent : VentoyExtent) : Except VentoyLinuxInitrdError VentoyImageMapChunk := do
  let imageStartBytes ← someOr (checkedMul 64 extent.virtualBlockStart.toNat sourceBlockSize.toNat) .valueOutOfRange
  let imageBytes ← someOr (checkedMul 64 extent.blockCount.toNat sourceBlockSize.toNat) .valueOutOfRange
  refuseIf (imageStartBytes % imageSectorSize.toNat ≠ 0 ∨ imageBytes % imageSectorSize.toNat ≠ 0) .unalignedExtent
  let imageStartSector := imageStartBytes / imageSectorSize.toNat
  let imageSectorCount := imageBytes / imageSectorSize.toNat
  let imageEndSector ← someOr
    ((checkedAdd 64 imageStartSector imageSectorCount).bind fun value => checkedSub value 1) .valueOutOfRange
  let diskEndSector ← someOr
    ((checkedAdd 64 extent.physicalLba.toNat extent.blockCount.toNat).bind fun value => checkedSub value 1) .valueOutOfRange
  let imgStartSector ← someOr (u32TryFrom imageStartSector) .valueOutOfRange
  let imgEndSector ← someOr (u32TryFrom imageEndSector) .valueOutOfRange
  pure ⟨imgStartSector, imgEndSector, extent.physicalLba, UInt64.ofNat diskEndSector⟩

def pushChunk (chunks : List VentoyImageMapChunk) (extent : VentoyExtent) :
    Except VentoyLinuxInitrdError (List VentoyImageMapChunk) :=
  if extent.blockCount = 0 then pure chunks
  else do
    let chunk ← imageMapChunk sourceBlockSize imageSectorSize extent
    pure (chunks ++ [chunk])

def buildImageMapChunks : Except VentoyLinuxInitrdError (List VentoyImageMapChunk) := do
  refuseIf (sourceBlockSize = 0 ∨ imageSectorSize = 0) .invalidSectorSize
  refuseIf (isizeMax < extents.length * 24) .outputReserveFailed
  extents.foldlM (pushChunk sourceBlockSize imageSectorSize) []

def imageRegion (extent : VentoyExtent) : Except VentoyParamError VentoyImageRegion := do
  let imageStartBytes ← someOr (checkedMul 64 extent.virtualBlockStart.toNat sourceBlockSize.toNat) .valueOutOfRange
  let imageBytes ← someOr (checkedMul 64 extent.blockCount.toNat sourceBlockSize.toNat) .valueOutOfRange
  refuseIf (imageStartBytes % imageSectorSize.toNat ≠ 0 ∨ imageBytes % imageSectorSize.toNat ≠ 0) .unalignedExtent
  let imageStartSector := imageStartBytes / imageSectorSize.toNat
  let imageSectorCount := imageBytes / imageSectorSize.toNat
  let imageSectorCount ← someOr (u32TryFrom imageSectorCount) .valueOutOfRange
  let imageStartSector ← someOr (u32TryFrom imageStartSector) .valueOutOfRange
  pure ⟨imageSectorCount, imageStartSector, extent.physicalLba⟩

def pushRegion (regions : List VentoyImageRegion) (extent : VentoyExtent) :
    Except VentoyParamError (List VentoyImageRegion) := do
  let region ← imageRegion sourceBlockSize imageSectorSize extent
  pure (regions ++ [region])

def buildVentoyImageRegions : Except VentoyParamError (List VentoyImageRegion) := do
  refuseIf (sourceBlockSize = 0 ∨ imageSectorSize = 0) .invalidSectorSize
  refuseIf (isizeMax < extents.length * 16) .outputReserveFailed
  extents.foldlM (pushRegion sourceBlockSize imageSectorSize) []

end Builders

variable (sourceBlockSize imageSectorSize : UInt32)

def VentoyExtent.CoversBlock (extent : VentoyExtent) (block : Nat) : Prop :=
  extent.virtualBlockStart.toNat ≤ block ∧ block < extent.virtualBlockStart.toNat + extent.blockCount.toNat

def VentoyExtent.CoversDisk (extent : VentoyExtent) (sector : Nat) : Prop :=
  extent.physicalLba.toNat ≤ sector ∧ sector < extent.physicalLba.toNat + extent.blockCount.toNat

def VentoyExtent.CoversByte (extent : VentoyExtent) (v : Nat) : Prop := extent.CoversBlock (v / sourceBlockSize.toNat)

/-- The place on the disk of a byte of the image, whose disk sectors are the blocks of the source. -/
def VentoyExtent.diskByte (extent : VentoyExtent) (v : Nat) : Nat :=
  (extent.physicalLba.toNat + (v / sourceBlockSize.toNat - extent.virtualBlockStart.toNat)) * sourceBlockSize.toNat +
    v % sourceBlockSize.toNat

def Assigns (extents : List VentoyExtent) (v d : Nat) : Prop :=
  ∃ extent ∈ extents, extent.CoversByte sourceBlockSize v ∧ extent.diskByte sourceBlockSize v = d

/-- The sectors of a chunk, where both ends are among them. -/
def VentoyImageMapChunk.CoversImage (chunk : VentoyImageMapChunk) (sector : Nat) : Prop :=
  chunk.imgStartSector.toNat ≤ sector ∧ sector ≤ chunk.imgEndSector.toNat

def VentoyImageMapChunk.CoversDisk (chunk : VentoyImageMapChunk) (sector : Nat) : Prop :=
  chunk.diskStartSector.toNat ≤ sector ∧ sector ≤ chunk.diskEndSector.toNat

def VentoyImageMapChunk.diskByte (chunk : VentoyImageMapChunk) (sector byte : Nat) : Nat :=
  chunk.diskStartSector.toNat * sourceBlockSize.toNat +
    ((sector - chunk.imgStartSector.toNat) * imageSectorSize.toNat + byte)

def VentoyImageRegion.CoversImage (region : VentoyImageRegion) (sector : Nat) : Prop :=
  region.imageStartSector.toNat ≤ sector ∧ sector < region.imageStartSector.toNat + region.imageSectorCount.toNat

def VentoyImageRegion.diskByte (region : VentoyImageRegion) (sector byte : Nat) : Nat :=
  region.diskStartSector.toNat * sourceBlockSize.toNat +
    ((sector - region.imageStartSector.toNat) * imageSectorSize.toNat + byte)

/-- A region does not say which disk sectors it has: they are those that its bytes are sent to. -/
def VentoyImageRegion.CoversDisk (region : VentoyImageRegion) (diskSector : Nat) : Prop :=
  ∃ sector byte, byte < imageSectorSize.toNat ∧ region.CoversImage sector ∧
    region.diskByte sourceBlockSize imageSectorSize sector byte / sourceBlockSize.toNat = diskSector

def ChunksSend (chunks : List VentoyImageMapChunk) (sector byte d : Nat) : Prop :=
  ∃ chunk ∈ chunks, chunk.CoversImage sector ∧ chunk.diskByte sourceBlockSize imageSectorSize sector byte = d

def RegionsSend (regions : List VentoyImageRegion) (sector byte d : Nat) : Prop :=
  ∃ region ∈ regions, region.CoversImage sector ∧ region.diskByte sourceBlockSize imageSectorSize sector byte = d

/-- The maps cover what the extents cover, and send it where the extents do. -/
structure MapsAgree (extents : List VentoyExtent) (chunks : List VentoyImageMapChunk) (regions : List VentoyImageRegion) :
    Prop where
  sectors : ∀ sector, (∃ chunk ∈ chunks, chunk.CoversImage sector) ↔
    ∃ region ∈ regions, region.CoversImage sector
  bytes : ∀ sector byte, byte < imageSectorSize.toNat → ((∃ chunk ∈ chunks, chunk.CoversImage sector) ↔
    ∃ extent ∈ extents, extent.CoversByte sourceBlockSize (sector * imageSectorSize.toNat + byte))
  chunkBytes : ∀ sector byte d, byte < imageSectorSize.toNat →
    (ChunksSend sourceBlockSize imageSectorSize chunks sector byte d ↔
      Assigns sourceBlockSize extents (sector * imageSectorSize.toNat + byte) d)
  regionBytes : ∀ sector byte d, byte < imageSectorSize.toNat →
    (RegionsSend sourceBlockSize imageSectorSize regions sector byte d ↔
      Assigns sourceBlockSize extents (sector * imageSectorSize.toNat + byte) d)
  unique : extents.Pairwise (Apart VentoyExtent.CoversBlock) →
    ∀ v d d', Assigns sourceBlockSize extents v d → Assigns sourceBlockSize extents v d' → d = d'
  once : extents.Pairwise (Apart VentoyExtent.CoversBlock) →
    chunks.Pairwise (Apart VentoyImageMapChunk.CoversImage) ∧ regions.Pairwise (Apart VentoyImageRegion.CoversImage)
  onceOnDisk : extents.Pairwise (Apart VentoyExtent.CoversDisk) →
    chunks.Pairwise (Apart VentoyImageMapChunk.CoversDisk) ∧
      regions.Pairwise (Apart (VentoyImageRegion.CoversDisk sourceBlockSize imageSectorSize))

/-- An extent as a piece of bytes. -/
def VentoyExtent.piece (extent : VentoyExtent) : Piece :=
  ⟨extent.virtualBlockStart.toNat * sourceBlockSize.toNat, extent.physicalLba.toNat * sourceBlockSize.toNat,
    extent.blockCount.toNat * sourceBlockSize.toNat⟩

def VentoyImageMapChunk.piece (chunk : VentoyImageMapChunk) : Piece :=
  ⟨chunk.imgStartSector.toNat * imageSectorSize.toNat, chunk.diskStartSector.toNat * sourceBlockSize.toNat,
    (chunk.imgEndSector.toNat + 1 - chunk.imgStartSector.toNat) * imageSectorSize.toNat⟩

def VentoyImageRegion.piece (region : VentoyImageRegion) : Piece :=
  ⟨region.imageStartSector.toNat * imageSectorSize.toNat, region.diskStartSector.toNat * sourceBlockSize.toNat,
    region.imageSectorCount.toNat * imageSectorSize.toNat⟩

/-- Both ends of a chunk leave room for the same number of bytes. -/
def VentoyImageMapChunk.Balanced (chunk : VentoyImageMapChunk) : Prop :=
  (chunk.piece sourceBlockSize imageSectorSize).length =
    (chunk.diskEndSector.toNat + 1 - chunk.diskStartSector.toNat) * sourceBlockSize.toNat

variable {sourceBlockSize imageSectorSize} {extents : List VentoyExtent} {chunks : List VentoyImageMapChunk}
  {regions : List VentoyImageRegion} {extent : VentoyExtent} {chunk : VentoyImageMapChunk} {region : VentoyImageRegion}
  {v sector byte d : Nat}

theorem u32TryFrom_eq_some {value : Nat} {word : UInt32} : u32TryFrom value = some word ↔ word.toNat = value := by
  rw [u32TryFrom]
  constructor
  · intro h
    split at h
    · next hlt =>
        cases h
        exact UInt32.toNat_ofNat_of_lt' hlt
    · cases h
  · rintro rfl
    rw [if_pos word.toNat_lt, UInt32.ofNat_toNat]

theorem imageMapChunk_piece (h : imageMapChunk sourceBlockSize imageSectorSize extent = .ok chunk) :
    chunk.piece sourceBlockSize imageSectorSize = extent.piece sourceBlockSize ∧
      chunk.Balanced sourceBlockSize imageSectorSize := by
  obtain ⟨imageStartBytes, hstart, h⟩ := bind_eq_ok.mp h
  obtain ⟨imageBytes, hbytes, h⟩ := bind_eq_ok.mp h
  obtain ⟨_, haligned, h⟩ := bind_eq_ok.mp h
  obtain ⟨imageEndSector, himage, h⟩ := bind_eq_ok.mp h
  obtain ⟨diskEndSector, hdisk, h⟩ := bind_eq_ok.mp h
  obtain ⟨imgStartSector, hstart32, h⟩ := bind_eq_ok.mp h
  obtain ⟨imgEndSector, hend32, h⟩ := bind_eq_ok.mp h
  obtain rfl := pure_eq_ok.mp h
  obtain ⟨-, rfl⟩ := checkedMul_eq_some.mp (someOr_eq_ok.mp hstart)
  obtain ⟨-, rfl⟩ := checkedMul_eq_some.mp (someOr_eq_ok.mp hbytes)
  rw [refuseIf_eq_ok, not_or, not_not, not_not] at haligned
  obtain ⟨imageStop, himageStop, himage⟩ := Option.bind_eq_some_iff.mp (someOr_eq_ok.mp himage)
  obtain ⟨-, rfl⟩ := checkedAdd_eq_some.mp himageStop
  obtain ⟨himagePos, rfl⟩ := checkedSub_eq_some.mp himage
  obtain ⟨diskStop, hdiskStop, hdisk⟩ := Option.bind_eq_some_iff.mp (someOr_eq_ok.mp hdisk)
  obtain ⟨hdiskLt, rfl⟩ := checkedAdd_eq_some.mp hdiskStop
  obtain ⟨hdiskPos, rfl⟩ := checkedSub_eq_some.mp hdisk
  have himgStart := u32TryFrom_eq_some.mp (someOr_eq_ok.mp hstart32)
  have himgEnd := u32TryFrom_eq_some.mp (someOr_eq_ok.mp hend32)
  have hdiskEnd : (UInt64.ofNat (extent.physicalLba.toNat + extent.blockCount.toNat - 1)).toNat =
      extent.physicalLba.toNat + extent.blockCount.toNat - 1 := 
    UInt64.toNat_ofNat_of_lt' (lt_of_le_of_lt (Nat.sub_le _ _) hdiskLt)
  have hlength : (imgEndSector.toNat + 1 - imgStartSector.toNat) * imageSectorSize.toNat =
      extent.blockCount.toNat * sourceBlockSize.toNat := by
    rw [himgStart, himgEnd, Nat.sub_add_cancel himagePos, Nat.add_sub_cancel_left]
    exact Nat.div_mul_cancel (Nat.dvd_of_mod_eq_zero haligned.2)
  constructor
  · rw [VentoyImageMapChunk.piece, VentoyExtent.piece, hlength, himgStart,
      Nat.div_mul_cancel (Nat.dvd_of_mod_eq_zero haligned.1)]
  · rw [VentoyImageMapChunk.Balanced, VentoyImageMapChunk.piece, hdiskEnd, Nat.sub_add_cancel hdiskPos,
      Nat.add_sub_cancel_left]
    exact hlength

theorem imageRegion_piece (h : imageRegion sourceBlockSize imageSectorSize extent = .ok region) :
    region.piece sourceBlockSize imageSectorSize = extent.piece sourceBlockSize := by
  obtain ⟨imageStartBytes, hstart, h⟩ := bind_eq_ok.mp h
  obtain ⟨imageBytes, hbytes, h⟩ := bind_eq_ok.mp h
  obtain ⟨_, haligned, h⟩ := bind_eq_ok.mp h
  obtain ⟨imageSectorCount, hcount32, h⟩ := bind_eq_ok.mp h
  obtain ⟨imageStartSector, hstart32, h⟩ := bind_eq_ok.mp h
  obtain rfl := pure_eq_ok.mp h
  obtain ⟨-, rfl⟩ := checkedMul_eq_some.mp (someOr_eq_ok.mp hstart)
  obtain ⟨-, rfl⟩ := checkedMul_eq_some.mp (someOr_eq_ok.mp hbytes)
  rw [refuseIf_eq_ok, not_or, not_not, not_not] at haligned
  rw [VentoyImageRegion.piece, VentoyExtent.piece, u32TryFrom_eq_some.mp (someOr_eq_ok.mp hcount32),
    u32TryFrom_eq_some.mp (someOr_eq_ok.mp hstart32), Nat.div_mul_cancel (Nat.dvd_of_mod_eq_zero haligned.1),
    Nat.div_mul_cancel (Nat.dvd_of_mod_eq_zero haligned.2)]

theorem sizes_of_chunks (h : buildImageMapChunks extents sourceBlockSize imageSectorSize = .ok chunks) :
    0 < sourceBlockSize.toNat ∧ 0 < imageSectorSize.toNat := by
  obtain ⟨_, hsizes, -⟩ := bind_eq_ok.mp h
  rw [refuseIf_eq_ok, not_or] at hsizes
  exact ⟨Nat.pos_of_ne_zero fun h0 => hsizes.1 (UInt32.toNat_inj.mp h0),
    Nat.pos_of_ne_zero fun h0 => hsizes.2 (UInt32.toNat_inj.mp h0)⟩

/-- The chunks are the extents that hold something. -/
theorem buildImageMapChunks_pieces (h : buildImageMapChunks extents sourceBlockSize imageSectorSize = .ok chunks) :
    chunks.map (VentoyImageMapChunk.piece sourceBlockSize imageSectorSize) =
        (extents.map (VentoyExtent.piece sourceBlockSize)).filter (fun p => 0 < p.length) ∧
      ∀ chunk ∈ chunks, chunk.Balanced sourceBlockSize imageSectorSize := by
  have hsize := (sizes_of_chunks h).1
  obtain ⟨_, -, h⟩ := bind_eq_ok.mp h
  obtain ⟨_, -, h⟩ := bind_eq_ok.mp h
  refine foldlM_ok_done (P := fun done chunks => chunks.map (VentoyImageMapChunk.piece sourceBlockSize imageSectorSize) =
      (done.map (VentoyExtent.piece sourceBlockSize)).filter (fun p => 0 < p.length) ∧
        ∀ chunk ∈ chunks, chunk.Balanced sourceBlockSize imageSectorSize) ?_ h ⟨rfl, fun _ h => nomatch h⟩
  rintro done chunks extent chunks' hpush ⟨hpieces, hbalanced⟩
  rw [List.map_append, List.filter_append, ← hpieces]
  rw [pushChunk] at hpush
  split at hpush
  · next hzero =>
      obtain rfl := pure_eq_ok.mp hpush
      have hlength : (extent.piece sourceBlockSize).length = 0 := by
        rw [VentoyExtent.piece, hzero]
        exact Nat.zero_mul _
      refine ⟨?_, hbalanced⟩
      simp [hlength]
  · next hcount =>
      obtain ⟨chunk, hchunk, hpush⟩ := bind_eq_ok.mp hpush
      obtain rfl := pure_eq_ok.mp hpush
      obtain ⟨hpiece, hbalance⟩ := imageMapChunk_piece hchunk
      have hlength : 0 < (extent.piece sourceBlockSize).length :=
        Nat.mul_pos (Nat.pos_of_ne_zero fun h0 => hcount (UInt64.toNat_inj.mp h0)) hsize
      constructor
      · simp [hpiece, hlength]
      · intro other hother
        rcases List.mem_append.mp hother with hother | hother
        · exact hbalanced other hother
        · rwa [List.mem_singleton.mp hother]

theorem buildVentoyImageRegions_pieces
    (h : buildVentoyImageRegions extents sourceBlockSize imageSectorSize = .ok regions) :
    regions.map (VentoyImageRegion.piece sourceBlockSize imageSectorSize) =
      extents.map (VentoyExtent.piece sourceBlockSize) := by
  obtain ⟨_, -, h⟩ := bind_eq_ok.mp h
  obtain ⟨_, -, h⟩ := bind_eq_ok.mp h
  refine foldlM_ok_done (P := fun done regions => regions.map (VentoyImageRegion.piece sourceBlockSize imageSectorSize) =
    done.map (VentoyExtent.piece sourceBlockSize)) ?_ h rfl
  intro done regions extent regions' hpush hpieces
  obtain ⟨region, hregion, hpush⟩ := bind_eq_ok.mp hpush
  obtain rfl := pure_eq_ok.mp hpush
  rw [List.map_append, List.map_append, hpieces, List.map_singleton, List.map_singleton, imageRegion_piece hregion]

theorem extent_holds_iff (hsize : 0 < sourceBlockSize.toNat) :
    (extent.piece sourceBlockSize).Holds v ↔ extent.CoversByte sourceBlockSize v :=
  range_scaled hsize

theorem extent_place (h : extent.CoversByte sourceBlockSize v) :
    (extent.piece sourceBlockSize).place v = extent.diskByte sourceBlockSize v := by
  have hblock := @scaled_sub _ (v % sourceBlockSize.toNat) sourceBlockSize.toNat _ h.1
  rw [Nat.div_add_mod'] at hblock
  rw [Piece.place, VentoyExtent.diskByte, VentoyExtent.piece, hblock, Nat.add_mul, Nat.add_assoc]

theorem assigns_iff (hsize : 0 < sourceBlockSize.toNat) :
    Assigns sourceBlockSize extents v d ↔ Sends (extents.map (VentoyExtent.piece sourceBlockSize)) v d := by
  rw [sends_map, Assigns]
  refine exists_congr fun extent => and_congr_right fun _ => ?_
  rw [extent_holds_iff hsize]
  refine and_congr_right fun hcovers => ?_
  rw [extent_place hcovers]

theorem chunk_holds_iff (hsector : 0 < imageSectorSize.toNat) :
    (chunk.piece sourceBlockSize imageSectorSize).Holds v ↔ chunk.CoversImage (v / imageSectorSize.toNat) := by
  rw [Piece.Holds, VentoyImageMapChunk.piece, range_scaled hsector, VentoyImageMapChunk.CoversImage]
  omega

theorem chunksSend_iff (hbyte : byte < imageSectorSize.toNat) :
    ChunksSend sourceBlockSize imageSectorSize chunks sector byte d ↔
      Sends (chunks.map (VentoyImageMapChunk.piece sourceBlockSize imageSectorSize))
        (sector * imageSectorSize.toNat + byte) d := by
  rw [sends_map, ChunksSend]
  refine exists_congr fun chunk => and_congr_right fun _ => ?_
  rw [chunk_holds_iff (Nat.zero_lt_of_lt hbyte), unit_of_scaled hbyte]
  refine and_congr_right fun hcovers => ?_
  rw [Piece.place, VentoyImageMapChunk.piece, scaled_sub hcovers.1, VentoyImageMapChunk.diskByte]

theorem region_holds_iff (hsector : 0 < imageSectorSize.toNat) :
    (region.piece sourceBlockSize imageSectorSize).Holds v ↔ region.CoversImage (v / imageSectorSize.toNat) := by
  rw [Piece.Holds, VentoyImageRegion.piece, range_scaled hsector, VentoyImageRegion.CoversImage]

theorem region_place (h : region.CoversImage sector) :
    (region.piece sourceBlockSize imageSectorSize).place (sector * imageSectorSize.toNat + byte) =
      region.diskByte sourceBlockSize imageSectorSize sector byte := by
  rw [Piece.place, VentoyImageRegion.piece, scaled_sub h.1, VentoyImageRegion.diskByte]

theorem regionsSend_iff (hbyte : byte < imageSectorSize.toNat) :
    RegionsSend sourceBlockSize imageSectorSize regions sector byte d ↔
      Sends (regions.map (VentoyImageRegion.piece sourceBlockSize imageSectorSize))
        (sector * imageSectorSize.toNat + byte) d := by
  rw [sends_map, RegionsSend]
  refine exists_congr fun region => and_congr_right fun _ => ?_
  rw [region_holds_iff (Nat.zero_lt_of_lt hbyte), unit_of_scaled hbyte]
  refine and_congr_right fun hcovers => ?_
  rw [region_place hcovers]

theorem extent_touches_iff (hsize : 0 < sourceBlockSize.toNat) :
    (extent.piece sourceBlockSize).Touches sourceBlockSize.toNat d ↔ extent.CoversDisk d :=
  touches_iff hsize rfl rfl

theorem chunk_touches_iff (hsize : 0 < sourceBlockSize.toNat) (h : chunk.Balanced sourceBlockSize imageSectorSize) :
    (chunk.piece sourceBlockSize imageSectorSize).Touches sourceBlockSize.toNat d ↔ chunk.CoversDisk d := by
  rw [touches_iff hsize rfl h, VentoyImageMapChunk.CoversDisk]
  omega

theorem region_touches_iff (hsector : 0 < imageSectorSize.toNat) :
    (region.piece sourceBlockSize imageSectorSize).Touches sourceBlockSize.toNat d ↔
      region.CoversDisk sourceBlockSize imageSectorSize d := by
  constructor
  · rintro ⟨a, hholds, hd⟩
    have hbyte := Nat.mod_lt a hsector
    rw [← Nat.div_add_mod' a imageSectorSize.toNat] at hholds hd
    rw [region_holds_iff hsector, unit_of_scaled hbyte] at hholds
    rw [region_place hholds] at hd
    exact ⟨_, _, hbyte, hholds, hd⟩
  · rintro ⟨sector, byte, hbyte, hcovers, hd⟩
    refine ⟨sector * imageSectorSize.toNat + byte, ?_, by rw [region_place hcovers, hd]⟩
    rwa [region_holds_iff hsector, unit_of_scaled hbyte]

theorem exists_assigns : (∃ d, Assigns sourceBlockSize extents v d) ↔
    ∃ extent ∈ extents, extent.CoversByte sourceBlockSize v := by
  constructor
  · rintro ⟨d, extent, hextent, hcovers, -⟩
    exact ⟨extent, hextent, hcovers⟩
  · rintro ⟨extent, hextent, hcovers⟩
    exact ⟨_, extent, hextent, hcovers, rfl⟩

theorem exists_chunksSend (byte : Nat) : (∃ d, ChunksSend sourceBlockSize imageSectorSize chunks sector byte d) ↔
    ∃ chunk ∈ chunks, chunk.CoversImage sector := by
  constructor
  · rintro ⟨d, chunk, hchunk, hcovers, -⟩
    exact ⟨chunk, hchunk, hcovers⟩
  · rintro ⟨chunk, hchunk, hcovers⟩
    exact ⟨_, chunk, hchunk, hcovers, rfl⟩

theorem exists_regionsSend (byte : Nat) : (∃ d, RegionsSend sourceBlockSize imageSectorSize regions sector byte d) ↔
    ∃ region ∈ regions, region.CoversImage sector := by
  constructor
  · rintro ⟨d, region, hregion, hcovers, -⟩
    exact ⟨region, hregion, hcovers⟩
  · rintro ⟨region, hregion, hcovers⟩
    exact ⟨_, region, hregion, hcovers, rfl⟩

theorem imageMaps_agree (hchunks : buildImageMapChunks extents sourceBlockSize imageSectorSize = .ok chunks)
    (hregions : buildVentoyImageRegions extents sourceBlockSize imageSectorSize = .ok regions) :
    MapsAgree sourceBlockSize imageSectorSize extents chunks regions := by
  obtain ⟨hsize, hsector⟩ := sizes_of_chunks hchunks
  obtain ⟨hchunkPieces, hbalanced⟩ := buildImageMapChunks_pieces hchunks
  have hregionPieces := buildVentoyImageRegions_pieces hregions
  have hchunkBytes : ∀ sector byte d, byte < imageSectorSize.toNat →
      (ChunksSend sourceBlockSize imageSectorSize chunks sector byte d ↔
        Assigns sourceBlockSize extents (sector * imageSectorSize.toNat + byte) d) := by
    intro sector byte d hbyte
    rw [chunksSend_iff hbyte, assigns_iff hsize, hchunkPieces]
    exact sends_filter fun p _ hp => decide_eq_true hp
  have hregionBytes : ∀ sector byte d, byte < imageSectorSize.toNat →
      (RegionsSend sourceBlockSize imageSectorSize regions sector byte d ↔
        Assigns sourceBlockSize extents (sector * imageSectorSize.toNat + byte) d) := by
    intro sector byte d hbyte
    rw [regionsSend_iff hbyte, assigns_iff hsize, hregionPieces]
  have hblocks : extents.Pairwise (Apart VentoyExtent.CoversBlock) →
      (extents.map (VentoyExtent.piece sourceBlockSize)).Pairwise (Apart Piece.Holds) := by
    intro h
    exact List.pairwise_map.mpr (h.imp
      (apart_of_scaled hsize (fun _ => extent_holds_iff hsize) fun _ => extent_holds_iff hsize).mpr)
  refine ⟨?_, ?_, hchunkBytes, hregionBytes, ?_, ?_, ?_⟩
  · intro sector
    rw [← exists_chunksSend 0, ← exists_regionsSend 0]
    exact exists_congr fun d => (hchunkBytes sector 0 d hsector).trans (hregionBytes sector 0 d hsector).symm
  · intro sector byte hbyte
    rw [← exists_chunksSend byte, ← exists_assigns]
    exact exists_congr fun d => hchunkBytes sector byte d hbyte
  · intro hapart v d d' h h'
    exact ((assigns_iff hsize).mp h).unique (hblocks hapart) ((assigns_iff hsize).mp h')
  · intro hapart
    have hchunkApart := (hblocks hapart).filter fun p => decide (0 < p.length)
    have hregionApart := hblocks hapart
    rw [← hchunkPieces, List.pairwise_map] at hchunkApart
    rw [← hregionPieces, List.pairwise_map] at hregionApart
    constructor
    · exact hchunkApart.imp
        (apart_of_scaled hsector (fun _ => chunk_holds_iff hsector) fun _ => chunk_holds_iff hsector).mp
    · exact hregionApart.imp
        (apart_of_scaled hsector (fun _ => region_holds_iff hsector) fun _ => region_holds_iff hsector).mp
  · intro hapart
    have hpieces : (extents.map (VentoyExtent.piece sourceBlockSize)).Pairwise
        (Apart (Piece.Touches sourceBlockSize.toNat)) :=
      List.pairwise_map.mpr (hapart.imp
        (apart_congr (fun _ => extent_touches_iff hsize) fun _ => extent_touches_iff hsize).mpr)
    have hchunkApart := hpieces.filter fun p => decide (0 < p.length)
    rw [← hchunkPieces, List.pairwise_map] at hchunkApart
    rw [← hregionPieces, List.pairwise_map] at hpieces
    constructor
    · refine hchunkApart.imp_of_mem fun hchunk hother h => ?_
      exact (apart_congr (fun _ => chunk_touches_iff hsize (hbalanced _ hchunk))
        fun _ => chunk_touches_iff hsize (hbalanced _ hother)).mp h
    · exact hpieces.imp (apart_congr (fun _ => region_touches_iff hsector) fun _ => region_touches_iff hsector).mp

/-- Two extents of an image with sectors of four blocks, and an empty one. -/
def sampleExtents : List VentoyExtent := [⟨0, 100, 8⟩, ⟨4, 7, 0⟩, ⟨8, 240, 4⟩]

theorem sampleExtents_agree :
    buildImageMapChunks sampleExtents 512 2048 = .ok [⟨0, 1, 100, 107⟩, ⟨2, 2, 240, 243⟩] ∧
      MapsAgree 512 2048 sampleExtents [⟨0, 1, 100, 107⟩, ⟨2, 2, 240, 243⟩]
        [⟨2, 0, 100⟩, ⟨0, 1, 7⟩, ⟨1, 2, 240⟩] := by
  have hchunks : buildImageMapChunks sampleExtents 512 2048 = .ok [⟨0, 1, 100, 107⟩, ⟨2, 2, 240, 243⟩] := by decide
  exact ⟨hchunks, imageMaps_agree hchunks (by decide)⟩

end NextBoot.VentoyLinux
