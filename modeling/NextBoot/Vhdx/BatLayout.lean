import NextBoot.Vhdx.Device

namespace NextBoot.Vhdx

open Words

variable {ratio : Nat}

/-- The number of payload blocks of a disk, whether or not the code can compute it in 64 bits. -/
def VhdxMetadata.payloadBlocks (m : VhdxMetadata) : Nat := (m.virtualDiskSize + (m.blockSize - 1)) / m.blockSize

/-- A block at an index keeps its chunk and its place in the chunk when the bitmap entries are laid between the chunks. -/
theorem interleaved_eq (ratio i : Nat) : i + i / ratio = i % ratio + (ratio + 1) * (i / ratio) := by
  have hi := Nat.mod_add_div i ratio
  rw [Nat.add_mul, Nat.one_mul, ← Nat.add_assoc, hi]

theorem interleaved_mod (hr : 0 < ratio) (i : Nat) : (i + i / ratio) % (ratio + 1) = i % ratio := by
  have hlt := Nat.mod_lt i hr
  rw [interleaved_eq, Nat.add_mul_mod_self_left, Nat.mod_eq_of_lt (Nat.lt_succ_of_lt hlt)]

theorem interleaved_div (hr : 0 < ratio) (i : Nat) : (i + i / ratio) / (ratio + 1) = i / ratio := by
  have hlt := Nat.mod_lt i hr
  rw [interleaved_eq, Nat.add_mul_div_left _ _ (Nat.succ_pos ratio), Nat.div_eq_of_lt (Nat.lt_succ_of_lt hlt),
    Nat.zero_add]

theorem interleaved_injective (hr : 0 < ratio) {i j : Nat} (h : i + i / ratio = j + j / ratio) : i = j := by
  have hmod := congrArg (· % (ratio + 1)) h
  have hdiv := congrArg (· / (ratio + 1)) h
  simp only [interleaved_mod hr, interleaved_div hr] at hmod hdiv
  rw [← Nat.mod_add_div i ratio, ← Nat.mod_add_div j ratio, hmod, hdiv]

/-- The last entry of a chunk, its bitmap, is no payload entry. -/
theorem interleaved_ne_bitmap (hr : 0 < ratio) (i chunk : Nat) : i + i / ratio ≠ chunk * (ratio + 1) + ratio := by
  intro h
  have hmod := congrArg (· % (ratio + 1)) h
  simp only [interleaved_mod hr] at hmod
  rw [Nat.add_comm, Nat.add_mul_mod_self_right, Nat.mod_eq_of_lt (Nat.lt_succ_self ratio)] at hmod
  have hlt := Nat.mod_lt i hr
  omega

theorem chunk_lt (hr : 0 < ratio) {i blocks : Nat} (hi : i < blocks) : i / ratio < (blocks + (ratio - 1)) / ratio := by
  apply (Nat.le_div_iff_mul_le hr).mpr
  have hle := Nat.div_mul_le_self i ratio
  rw [Nat.succ_mul]
  omega

theorem entry_lt {chunk chunks rest : Nat} (hc : chunk < chunks) (hrest : rest ≤ ratio) :
    chunk * (ratio + 1) + rest < chunks * (ratio + 1) := by
  calc chunk * (ratio + 1) + rest < (chunk + 1) * (ratio + 1) := by rw [Nat.succ_mul]; omega
    _ ≤ chunks * (ratio + 1) := Nat.mul_le_mul_right _ hc

theorem chunkRatio_exists (m : VhdxMetadata) : ∃ ratio, m.chunkRatio = some ratio ∧ 0 < ratio ∧ ratio ≤ 2 ^ 15 := by
  obtain ⟨exponent, hpow⟩ := m.blockSize_pow
  obtain ⟨hlo, hhi⟩ := m.blockSize_range
  have hlow : 20 ≤ exponent := (Nat.pow_le_pow_iff_right (by decide)).mp (hpow ▸ hlo)
  have hhigh : exponent ≤ 28 := (Nat.pow_le_pow_iff_right (by decide)).mp (hpow ▸ hhi)
  obtain ⟨total, hchunk, h28, h35⟩ : ∃ total, 2 ^ 23 * m.logicalSectorSize = 2 ^ total ∧ 28 < total ∧ total ≤ 35 := by
    rcases m.logicalSectorSize_cases with h | h <;> rw [h]
    · exact ⟨32, rfl, by omega, by omega⟩
    · exact ⟨35, rfl, by omega, by omega⟩
  have hdiv : 2 ^ total / 2 ^ exponent = 2 ^ (total - exponent) := Nat.pow_div (by omega) (by decide)
  have hmod : 2 ^ total % 2 ^ exponent = 0 := Nat.mod_eq_zero_of_dvd (Nat.pow_dvd_pow 2 (by omega))
  have hpos := Nat.two_pow_pos (total - exponent)
  have hsmall : 2 ^ total < 2 ^ 64 := Nat.pow_lt_pow_right (by decide) (by omega)
  refine ⟨2 ^ (total - exponent), ?_, hpos, Nat.pow_le_pow_right (by decide) (by omega)⟩
  unfold VhdxMetadata.chunkRatio
  rw [checkedMul_eq_some.mpr ⟨hchunk ▸ hsmall, rfl⟩, hchunk, hpow]
  change (if _ then none else if _ then none else _) = _
  rw [hdiv, hmod, if_neg (by have := Nat.two_pow_pos exponent; omega), if_neg (by omega)]

theorem payloadBlocks_le (m : VhdxMetadata) : 0 < m.payloadBlocks ∧ m.payloadBlocks ≤ 2 ^ 44 := by
  have hsize := m.virtualDiskSize_pos
  have hlt := m.virtualDiskSize_lt
  obtain ⟨hlo, hhi⟩ := m.blockSize_range
  constructor
  · exact Nat.div_pos (by omega) (by omega)
  · apply Nat.le_of_lt_succ
    apply (Nat.div_lt_iff_lt_mul (by omega)).mpr
    calc m.virtualDiskSize + (m.blockSize - 1) < 2 ^ 44 * 2 ^ 20 + m.blockSize := by omega
      _ ≤ 2 ^ 44 * m.blockSize + m.blockSize := Nat.add_le_add_right (Nat.mul_le_mul_left _ hlo) _
      _ = (2 ^ 44 + 1) * m.blockSize := (Nat.succ_mul _ _).symm

theorem batEntryCount_eq {blocks : Nat} (hb : 0 < blocks) (hle : blocks ≤ 2 ^ 44) (hr : 0 < ratio) (hsmall : ratio ≤ 2 ^ 15) :
    batEntryCount blocks ratio = some ((blocks + (ratio - 1)) / ratio * (ratio + 1)) := by
  have hchunks : (blocks + (ratio - 1)) / ratio ≤ blocks + (ratio - 1) := Nat.div_le_self _ _
  have hcount : divRoundUp 64 blocks ratio = some ((blocks + (ratio - 1)) / ratio) :=
    divRoundUp_eq_some.mpr ⟨by omega, by omega, rfl⟩
  have hper : checkedAdd 64 ratio 1 = some (ratio + 1) := checkedAdd_eq_some.mpr ⟨by omega, rfl⟩
  have hprod : (blocks + (ratio - 1)) / ratio * (ratio + 1) < 2 ^ 64 := by
    calc (blocks + (ratio - 1)) / ratio * (ratio + 1) ≤ 2 ^ 45 * 2 ^ 16 := Nat.mul_le_mul (by omega) (by omega)
      _ < 2 ^ 64 := by omega
  rw [batEntryCount, if_neg (by omega), hcount, hper]
  exact checkedMul_eq_some.mpr ⟨hprod, rfl⟩

theorem payloadBatIndex_eq (hr : 0 < ratio) {i : Nat} (h : i + i / ratio < 2 ^ 64) :
    payloadBatIndex i ratio = some (i + i / ratio) := by
  rw [payloadBatIndex, if_neg (by omega)]
  exact checkedAdd_eq_some.mpr ⟨h, rfl⟩

theorem sectorBitmapBatIndex_eq_some {i index : Nat} (h : sectorBitmapBatIndex i ratio = some index) :
    index = i / ratio * (ratio + 1) + ratio := by
  unfold sectorBitmapBatIndex at h
  split at h
  · cases h
  · obtain ⟨perChunk, hper, h⟩ := Option.bind_eq_some_iff.mp h
    obtain ⟨chunkStart, hstart, h⟩ := Option.bind_eq_some_iff.mp h
    obtain ⟨_, rfl⟩ := checkedAdd_eq_some.mp hper
    obtain ⟨_, rfl⟩ := checkedMul_eq_some.mp hstart
    exact (checkedAdd_eq_some.mp h).2

theorem sectorBitmapBatIndex_eq (hr : 0 < ratio) {i : Nat} (h : i / ratio * (ratio + 1) + ratio < 2 ^ 64)
    (hsmall : ratio ≤ 2 ^ 15) : sectorBitmapBatIndex i ratio = some (i / ratio * (ratio + 1) + ratio) := by
  have hper : checkedAdd 64 ratio 1 = some (ratio + 1) := checkedAdd_eq_some.mpr ⟨by omega, rfl⟩
  have hstart : checkedMul 64 (i / ratio) (ratio + 1) = some (i / ratio * (ratio + 1)) :=
    checkedMul_eq_some.mpr ⟨by omega, rfl⟩
  rw [sectorBitmapBatIndex, if_neg (by omega), hper, Option.bind_eq_bind, Option.bind_some, hstart]
  exact checkedAdd_eq_some.mpr ⟨h, rfl⟩

/-- The table of a disk: every payload block and every chunk has an entry of its own. -/
theorem bat_layout (m : VhdxMetadata) :
    (∀ count, payloadBlockCount m.virtualDiskSize m.blockSize = some count → count = m.payloadBlocks) ∧
    ∃ ratio entries, m.chunkRatio = some ratio ∧ batEntryCount m.payloadBlocks ratio = some entries ∧
      (∀ i < m.payloadBlocks, ∃ index < entries, payloadBatIndex i ratio = some index) ∧
      (∀ i < m.payloadBlocks, ∀ j < m.payloadBlocks, payloadBatIndex i ratio = payloadBatIndex j ratio → i = j) ∧
      (∀ i < m.payloadBlocks, ∀ j, payloadBatIndex i ratio ≠ sectorBitmapBatIndex j ratio) ∧
      (∀ i < m.payloadBlocks, ∃ index < entries, sectorBitmapBatIndex i ratio = some index) ∧
      ∀ i j, i / ratio = j / ratio → sectorBitmapBatIndex i ratio = sectorBitmapBatIndex j ratio := by
  obtain ⟨ratio, hratio, hr, hsmall⟩ := chunkRatio_exists m
  obtain ⟨hpos, hle⟩ := payloadBlocks_le m
  have hentries := batEntryCount_eq hpos hle hr hsmall
  obtain ⟨chunks, hchunks⟩ : ∃ chunks, (m.payloadBlocks + (ratio - 1)) / ratio = chunks := ⟨_, rfl⟩
  rw [hchunks] at hentries
  have hmax : chunks * (ratio + 1) < 2 ^ 64 := by
    have hchunk : chunks ≤ m.payloadBlocks + (ratio - 1) := hchunks ▸ Nat.div_le_self _ _
    calc chunks * (ratio + 1) ≤ 2 ^ 45 * 2 ^ 16 := Nat.mul_le_mul (by omega) (by omega)
      _ < 2 ^ 64 := by omega
  have hpayload : ∀ i < m.payloadBlocks, i + i / ratio < chunks * (ratio + 1) := by
    intro i hi
    rw [interleaved_eq, Nat.add_comm, Nat.mul_comm]
    exact entry_lt (hchunks ▸ chunk_lt hr hi) (Nat.mod_lt i hr).le
  have hbitmap : ∀ i < m.payloadBlocks, i / ratio * (ratio + 1) + ratio < chunks * (ratio + 1) := by
    intro i hi
    exact entry_lt (hchunks ▸ chunk_lt hr hi) (Nat.le_refl ratio)
  refine ⟨fun count hcount => (divRoundUp_eq_some.mp hcount).2.2, ratio, _, hratio, hentries, ?_, ?_, ?_, ?_, ?_⟩
  · intro i hi
    exact ⟨_, hpayload i hi, payloadBatIndex_eq hr ((hpayload i hi).trans hmax)⟩
  · intro i hi j hj he
    rw [payloadBatIndex_eq hr ((hpayload i hi).trans hmax), payloadBatIndex_eq hr ((hpayload j hj).trans hmax)] at he
    exact interleaved_injective hr (Option.some.inj he)
  · intro i hi j he
    rw [payloadBatIndex_eq hr ((hpayload i hi).trans hmax)] at he
    exact interleaved_ne_bitmap hr i (j / ratio) (sectorBitmapBatIndex_eq_some he.symm)
  · intro i hi
    exact ⟨_, hbitmap i hi, sectorBitmapBatIndex_eq hr ((hbitmap i hi).trans hmax) hsmall⟩
  · intro i j he
    rw [sectorBitmapBatIndex, sectorBitmapBatIndex, he]

end NextBoot.Vhdx
