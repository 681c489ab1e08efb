import NextBoot.Fs.LargeFiles

namespace NextBoot.Fs.Iso9660

open Words Bytes Results Faults Outcome BlockStore

variable {granted : Nat → Bool} {fs : Iso9660} {info : DirectoryEntry} {offset toRead currentBlock bytesRead fuel len width : Nat}

/-- The loop copies what the file holds from where it has got to. -/
theorem fileLoop_window (hsame : fs.blockSize = fs.io.blockSize) (hdevice : fs.FileOnDevice info)
    (hstop : offset + toRead ≤ info.size) (hfuel : toRead - bytesRead ≤ fuel)
    (hfirst : bytesRead = 0 → currentBlock = offset / fs.blockSize)
    (hlater : bytesRead ≠ 0 → bytesRead < toRead → currentBlock * fs.blockSize = offset + bytesRead) :
    fs.fileLoop info.startCluster toRead (offset % fs.blockSize) fuel currentBlock bytesRead =
      value (window fs.io.bytes (info.startCluster * fs.blockSize + (offset + bytesRead)) (toRead - bytesRead)) := by
  obtain ⟨hio, hblock, hmod, hblocks⟩ := hdevice
  induction fuel generalizing currentBlock bytesRead with
  | zero =>
      rw [show toRead - bytesRead = 0 by omega]
      rfl
  | succ fuel ih =>
      rw [fileLoop]
      by_cases hdone : toRead ≤ bytesRead
      · rw [if_pos hdone, show toRead - bytesRead = 0 by omega]
        rfl
      have hplace : currentBlock * fs.blockSize + (if bytesRead = 0 then offset % fs.blockSize else 0) = offset + bytesRead ∧
          (if bytesRead = 0 then offset % fs.blockSize else 0) < fs.blockSize := by
        by_cases hzero : bytesRead = 0
        · rw [if_pos hzero, hfirst hzero, hzero, Nat.mul_comm]
          exact ⟨Nat.div_add_mod offset fs.blockSize, Nat.mod_lt _ hblock⟩
        · rw [if_neg hzero]
          exact ⟨hlater hzero (by omega), hblock⟩
      generalize (if bytesRead = 0 then offset % fs.blockSize else 0) = srcOffset at hplace ⊢
      obtain ⟨hplace, hsrc⟩ := hplace
      have hroom := hblocks currentBlock (by omega)
      have htotal := fs.io.totalBlocks_lt
      have hadd : checkedAdd 64 info.startCluster currentBlock = some (info.startCluster + currentBlock) := by
        rw [checkedAdd_eq_some]
        exact ⟨((Nat.le_add_right _ _).trans hroom).trans_lt htotal, rfl⟩
      have hread : fs.io.readFullBlocks (info.startCluster + currentBlock) fs.blockSize =
          .ok (window fs.io.bytes ((info.startCluster + currentBlock) * fs.io.blockSize) fs.blockSize) := by
        rw [readFullBlocks_eq_ok]
        exact ⟨by omega, hroom, rfl⟩
      have hsub : checkedSub fs.blockSize srcOffset = some (fs.blockSize - srcOffset) :=
        checkedSub_eq_some.mpr ⟨Nat.le_of_lt hsrc, rfl⟩
      rw [if_neg hdone, hadd, ofOption_some, value_bind, hread, ofExcept_ok, value_bind]
      dsimp only
      rw [length_window, hsub, ofOption_some, value_bind]
      generalize hcopy : min (fs.blockSize - srcOffset) (toRead - bytesRead) = copySize
      have hpiece := slice_window fs.io.bytes ((info.startCluster + currentBlock) * fs.io.blockSize)
        (show srcOffset + copySize ≤ fs.blockSize by omega)
      have hnext : currentBlock * fs.blockSize + fs.blockSize = (currentBlock + 1) * fs.blockSize := (Nat.succ_mul _ _).symm
      rw [hpiece, ofOption_some, value_bind, ih (by omega) (by omega) (by omega), value_bind]
      have hstart : (info.startCluster + currentBlock) * fs.io.blockSize + srcOffset =
          info.startCluster * fs.blockSize + (offset + bytesRead) := by
        rw [← hsame, Nat.add_mul]
        omega
      rw [hstart, show toRead - bytesRead = copySize + (toRead - (bytesRead + copySize)) by omega, window_add,
        Nat.add_assoc (info.startCluster * fs.blockSize), Nat.add_assoc offset]
      rfl

/-- Reading a file that lies on the device gives what the device holds from the start of its extent on. -/
theorem readFileIn_window (hsame : fs.blockSize = fs.io.blockSize) (hdevice : fs.FileOnDevice info)
    (hgranted : granted fs.blockSize = true) (hwidth : 32 ≤ width) (hfile : info.isDir = false) (hsize : info.size < 2 ^ 32) :
    fs.readFileIn granted width info offset len =
      value (window fs.io.bytes (info.startCluster * fs.blockSize + offset) (min len (info.size - offset))) := by
  rw [readFileIn, if_neg (by simp [hfile])]
  by_cases hoffset : info.size ≤ offset
  · rw [if_pos hoffset, show min len (info.size - offset) = 0 by omega]
    rfl
  have hpow : 2 ^ 32 ≤ 2 ^ width := Nat.pow_le_pow_right (by omega) hwidth
  have husize : asUsize width (info.size - offset) = info.size - offset := Nat.mod_eq_of_lt (by omega)
  have hdiv : checkedDiv offset fs.blockSize = some (offset / fs.blockSize) := if_neg (Nat.ne_of_gt hdevice.2.1)
  rw [if_neg hoffset, husize]
  dsimp only
  rw [hdiv, ofOption_some, value_bind, allocBuffer, if_pos hgranted, value_bind,
    fileLoop_window hsame hdevice (by omega) (by omega) (fun _ => rfl) (fun h => absurd rfl h), Nat.sub_zero, Nat.add_zero]

end NextBoot.Fs.Iso9660
