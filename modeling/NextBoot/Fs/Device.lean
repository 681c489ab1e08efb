import NextBoot.Bytes
import NextBoot.Words
import NextBoot.BlockStore
import NextBoot.Results

namespace NextBoot.Fs

open Words BlockStore Results

inductive FsError where
  | invalidSignature
  | blockSizeMismatch
  | fileNotFound
  | readError
  | outOfMemory
  | invalidPath
  | unsupportedFs
  | invalidArgument
  | directoryNotFound
  | notDirectory
  | notFile
  | fileTooLarge
  | corrupted
deriving DecidableEq, Repr

/-- A device the file systems read from: its geometry and its bytes. -/
structure BlockIo where
  blockSize : Nat
  totalBlocks : Nat
  bytes : Nat → UInt8
  blockSize_lt : blockSize < 2 ^ 32
  totalBlocks_lt : totalBlocks < 2 ^ 64

/-- `read_full_blocks` into a buffer of `len` bytes. -/
def BlockIo.readFullBlocks (io : BlockIo) (lba len : Nat) : Except FsError (List UInt8) := do
  refuseIf (io.blockSize = 0 ∨ len = 0 ∨ len % io.blockSize ≠ 0) .invalidArgument
  let stop ← someOr (checkedAdd 64 lba (len / io.blockSize)) .readError
  refuseIf (io.totalBlocks < stop) .readError
  pure (window io.bytes (lba * io.blockSize) len)

/-- `read_blocks` into a buffer of one block. -/
def BlockIo.readBlock (io : BlockIo) (lba : Nat) : Except FsError (List UInt8) :=
  if lba < io.totalBlocks then .ok (window io.bytes (lba * io.blockSize) io.blockSize) else .error .readError

variable {io : BlockIo} {lba len count : Nat} {bytes : List UInt8}

theorem readFullBlocks_eq_ok : io.readFullBlocks lba len = .ok bytes ↔
    ¬ (io.blockSize = 0 ∨ len = 0 ∨ len % io.blockSize ≠ 0) ∧ lba + len / io.blockSize ≤ io.totalBlocks ∧
      window io.bytes (lba * io.blockSize) len = bytes := by
  have htotal := io.totalBlocks_lt
  simp only [BlockIo.readFullBlocks, bind_eq_ok, refuseIf_eq_ok, someOr_eq_ok, checkedAdd_eq_some, pure_eq_ok]
  constructor
  · rintro ⟨_, hargs, stop, ⟨-, rfl⟩, _, hfits, hbytes⟩
    exact ⟨hargs, by omega, hbytes⟩
  · rintro ⟨hargs, hfits, hbytes⟩
    exact ⟨(), hargs, _, ⟨by omega, rfl⟩, (), by omega, hbytes⟩

/-- A run of whole blocks inside the device reads as its bytes. -/
theorem readFullBlocks_blocks (hbs : 0 < io.blockSize) (hcount : 0 < count) (h : lba + count ≤ io.totalBlocks) :
    io.readFullBlocks lba (io.blockSize * count) =
      .ok (window io.bytes (lba * io.blockSize) (io.blockSize * count)) := by
  refine readFullBlocks_eq_ok.mpr ⟨?_, ?_, rfl⟩
  · have hpos := Nat.mul_pos hbs hcount
    rw [Nat.mul_mod_right]
    omega
  · rwa [Nat.mul_div_cancel_left _ hbs]

theorem readFullBlocks_block (hbs : 0 < io.blockSize) (h : lba < io.totalBlocks) :
    io.readFullBlocks lba io.blockSize = .ok (window io.bytes (lba * io.blockSize) io.blockSize) := by
  have hone := readFullBlocks_blocks hbs Nat.one_pos h
  rwa [Nat.mul_one] at hone

/-- The block of a byte of a file is one of the file's blocks. -/
theorem block_lt_blocks {fileSize blockSize i : Nat} (hi : i < fileSize) (hpos : 0 < blockSize) :
    i / blockSize < (fileSize + (blockSize - 1)) / blockSize := by
  have hle : (i + blockSize) / blockSize ≤ (fileSize + (blockSize - 1)) / blockSize :=
    Nat.div_le_div_right (by omega)
  rw [Nat.add_div_right _ hpos] at hle
  omega

/-- What `stat` reports of a file, less its name and attributes. -/
structure FileInfo where
  size : Nat
  isDir : Bool
  startCluster : Nat
  contiguous : Bool
deriving DecidableEq, Repr

end NextBoot.Fs
