import NextBoot.Faults
import NextBoot.Strings
import NextBoot.Fs.ClusterChain

namespace NextBoot.Fs

open Words Bytes Strings Results Faults Outcome

/-- An entry of a directory listing: what `stat` reports of the file, with its name and its attribute bits. -/
structure DirectoryEntry extends FileInfo where
  name : Text
  attributes : Nat
deriving DecidableEq, Repr

/-- `alloc_buffer`: the allocator grants some sizes and refuses the others. -/
def allocBuffer (granted : Nat → Bool) (size : Nat) : Outcome FsError Unit :=
  if granted size then value () else error .outOfMemory

/-- `get_next_cluster` before the entry is masked, in checked arithmetic. -/
def readFatEntryChecked (granted : Nat → Bool) (io : BlockIo) (fatStart cluster : Nat) : Outcome FsError Nat := do
  let fatOffset ← ofOption (checkedMul 64 cluster 4)
  let fatSector ← ofOption (checkedAdd 64 fatStart (fatOffset / io.blockSize))
  allocBuffer granted io.blockSize
  let sector ← ofExcept (io.readFullBlocks fatSector io.blockSize)
  if sector.length < fatOffset % io.blockSize + 4 then error .corrupted
  else ofOption (readLe 4 sector (fatOffset % io.blockSize))

variable {granted : Nat → Bool} {io : BlockIo} {fatStart cluster entry : Nat}

@[simp] theorem noFault_allocBuffer {size : Nat} : (allocBuffer granted size).NoFault := by
  unfold allocBuffer
  split <;> trivial

theorem allocBuffer_eq_value {size : Nat} {u : Unit} : allocBuffer granted size = value u ↔ granted size = true := by
  unfold allocBuffer
  split <;> simp [*]

theorem noFault_readFatEntryChecked (hcluster : cluster < 2 ^ 32) (hstart : fatStart < 2 ^ 33) :
    (readFatEntryChecked granted io fatStart cluster).NoFault := by
  have hdiv := Nat.div_le_self (cluster * 4) io.blockSize
  refine noFault_ofOption_bind.mpr ⟨cluster * 4, checkedMul_eq_some.mpr ⟨by omega, rfl⟩, ?_⟩
  refine noFault_ofOption_bind.mpr ⟨_, checkedAdd_eq_some.mpr ⟨by omega, rfl⟩, ?_⟩
  rw [noFault_bind]
  refine ⟨noFault_allocBuffer, fun _ _ => noFault_ofExcept_bind.mpr fun sector _ => ?_⟩
  split
  · exact noFault_error _
  · exact noFault_ofOption.mpr (Option.isSome_iff_exists.mpr (readLe_isSome (by omega)))

/-- Where nothing faults and memory is granted, the checked read is the plain one. -/
theorem readFatEntryChecked_eq_value (h : readFatEntryChecked granted io fatStart cluster = value entry) :
    readFatEntry io fatStart cluster = .ok entry := by
  obtain ⟨_, hoffset, h₁⟩ := bind_eq_value.mp h
  obtain ⟨-, rfl⟩ := checkedMul_eq_some.mp (ofOption_eq_value.mp hoffset)
  obtain ⟨_, hsector, h₂⟩ := bind_eq_value.mp h₁
  obtain ⟨hfits, rfl⟩ := checkedAdd_eq_some.mp (ofOption_eq_value.mp hsector)
  obtain ⟨_, -, h₃⟩ := bind_eq_value.mp h₂
  obtain ⟨sector, hread, h₄⟩ := bind_eq_value.mp h₃
  by_cases hshort : sector.length < cluster * 4 % io.blockSize + 4
  · rw [if_pos hshort] at h₄
    cases h₄
  · rw [if_neg hshort] at h₄
    rw [readFatEntry, wrappingAdd_eq hfits]
    exact bind_eq_ok.mpr ⟨sector, ofExcept_eq_value.mp hread, someOr_eq_ok.mpr (ofOption_eq_value.mp h₄)⟩

end NextBoot.Fs
