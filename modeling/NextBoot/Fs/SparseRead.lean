import NextBoot.Fs.Extents

namespace NextBoot.Fs

open Words BlockStore Tiling Bytes Results

/-- The parts in which the reading loops of ext4 and XFS differ: how a block is read, whether the loop over the blocks
of an extent stops at a number of copied bytes, and how the end of an extent is computed. -/
structure NodeReader where
  blockSize : Nat
  readBlock : Nat → Except FsError (List UInt8)
  full : Nat → Nat → Bool
  extentEnd : Nat → Nat → Nat

namespace NodeReader

/-- The blocks of an extent from `index` on, as far as `count` blocks; the piece of a block that the range from
`readStart` to `readEnd` meets is copied. -/
def readBlocks (r : NodeReader) (readable extentStart physicalBlock readStart readEnd : Nat) :
    Nat → Nat → Nat → Except FsError (List UInt8)
  | 0, _, _ => pure []
  | count + 1, index, copied =>
      if r.full readable copied then pure []
      else do
        let block ← r.readBlock (wrappingAdd 64 physicalBlock index)
        let blockFileOffset := extentStart + index * r.blockSize
        let start := max readStart blockFileOffset - blockFileOffset
        let stop := min readEnd (blockFileOffset + r.blockSize) - blockFileOffset
        let rest ← r.readBlocks readable extentStart physicalBlock readStart readEnd count (index + 1)
          (copied + (stop - start))
        pure ((block.drop start).take (stop - start) ++ rest)

/-- The loop of `read_node_data` over the extents. -/
def readExtents (r : NodeReader) (offset readable : Nat) : List FileExtent → Nat → Except FsError (List UInt8)
  | [], _ => pure []
  | extent :: extents, copied => do
      let extentStart := wrappingMul 64 extent.virtualBlockStart r.blockSize
      let extentEnd := r.extentEnd extentStart (wrappingMul 64 extent.blockCount r.blockSize)
      if extentEnd ≤ offset ∨ offset + readable ≤ extentStart then r.readExtents offset readable extents copied
      else do
        let readStart := max offset extentStart
        let readEnd := min (offset + readable) extentEnd
        let first := (readStart - extentStart) / r.blockSize
        let last := (readEnd - extentStart + (r.blockSize - 1)) / r.blockSize
        let bytes ← r.readBlocks readable extentStart extent.physicalLba readStart readEnd (last - first) first copied
        let rest ← r.readExtents offset readable extents (copied + bytes.length)
        pure (bytes ++ rest)

/-- The reader works on the blocks of `io`: a block reads if it lies on the device, a loop is not stopped before the
readable bytes are copied, and ends that fit into 64 bits are exact. -/
structure Faithful (r : NodeReader) (io : BlockIo) : Prop where
  blockSize_eq : r.blockSize = io.blockSize
  blockSize_pos : 0 < io.blockSize
  readBlock_iff : ∀ p bytes, r.readBlock p = .ok bytes ↔
    p < io.totalBlocks ∧ bytes = window io.bytes (p * io.blockSize) io.blockSize
  not_full : ∀ readable copied, copied < readable → r.full readable copied = false
  extentEnd_eq : ∀ start len, start + len < 2 ^ 64 → r.extentEnd start len = start + len

/-- An extent list as the file systems write it: in order, without overlap or empty extents, with byte positions of
64 bits. -/
structure SoundExtents (blockSize : Nat) (E : List FileExtent) : Prop where
  ordered : Ordered FileExtent.virtualBlockStart FileExtent.blockCount E 0
  count_pos : ∀ e ∈ E, 0 < e.blockCount
  bytes_lt : ∀ e ∈ E, (e.virtualBlockStart + e.blockCount) * blockSize < 2 ^ 64

def byteStart (blockSize : Nat) (e : FileExtent) : Nat := e.virtualBlockStart * blockSize

def byteLen (blockSize : Nat) (e : FileExtent) : Nat := e.blockCount * blockSize

variable {r : NodeReader} {io : BlockIo} {E es : List FileExtent} {e : FileExtent} {bytes : List UInt8}
variable {blockSize lo i offset readable copied readStart readEnd count index : Nat}

theorem ordered_bytes (h : Ordered FileExtent.virtualBlockStart FileExtent.blockCount es lo) :
    Ordered (byteStart blockSize) (byteLen blockSize) es (lo * blockSize) := by
  induction es generalizing lo with
  | nil => trivial
  | cons e es ih =>
      obtain ⟨hle, h⟩ := h
      refine ⟨Nat.mul_le_mul_right _ hle, ?_⟩
      rw [byteStart, byteLen, ← Nat.add_mul]
      exact ih h

theorem covers_bytes_iff (hbs : 0 < blockSize) : Covers (byteStart blockSize) (byteLen blockSize) e i ↔
    Covers FileExtent.virtualBlockStart FileExtent.blockCount e (i / blockSize) := by
  rw [Covers, Covers, Nat.le_div_iff_mul_le hbs, Nat.div_lt_iff_lt_mul hbs, byteStart, byteLen, Nat.add_mul]

/-- The piece of one block that the range meets. -/
theorem drop_take_block {p k start stop : Nat} (hplace : translate E k = some p) (hle : start ≤ stop)
    (hstop : stop ≤ io.blockSize) :
    ((window io.bytes (p * io.blockSize) io.blockSize).drop start).take (stop - start) =
      window (fileByte io E) (k * io.blockSize + start) (stop - start) := by
  rw [(slice_isSome_iff.mp (slice_window io.bytes _ (show start + (stop - start) ≤ _ by omega))).2,
    window_block hplace (by omega)]

theorem div_eq_of_block {k : Nat} (hlo : k * blockSize ≤ i) (hhi : i < k * blockSize + blockSize) : i / blockSize = k := by
  rw [← Nat.succ_mul] at hhi
  exact Nat.div_eq_of_lt_le hlo hhi

/-- Reading the rest of an extent succeeds exactly when the blocks behind it are on the device, and then returns the
bytes of the file. -/
theorem readBlocks_eq_ok (hr : r.Faithful io) (hE : Ordered FileExtent.virtualBlockStart FileExtent.blockCount E lo)
    (he : e ∈ E) (hlt : readStart < readEnd)
    (hend : readEnd ≤ (e.virtualBlockStart + e.blockCount) * io.blockSize)
    (hindex : readStart < (e.virtualBlockStart + index) * io.blockSize + io.blockSize)
    (hcount : index + count = (readEnd - e.virtualBlockStart * io.blockSize + (io.blockSize - 1)) / io.blockSize)
    (hroom : copied + (readEnd - max readStart ((e.virtualBlockStart + index) * io.blockSize)) ≤ readable) :
    r.readBlocks readable (e.virtualBlockStart * io.blockSize) e.physicalLba readStart readEnd count index copied =
        .ok bytes ↔
      (∀ i, max readStart ((e.virtualBlockStart + index) * io.blockSize) ≤ i → i < readEnd →
          e.place (i / io.blockSize) < io.totalBlocks) ∧
        bytes = window (fileByte io E) (max readStart ((e.virtualBlockStart + index) * io.blockSize))
          (readEnd - max readStart ((e.virtualBlockStart + index) * io.blockSize)) := by
  have hbs := hr.blockSize_pos
  induction count generalizing index copied bytes with
  | zero =>
      have hpast : readEnd ≤ (e.virtualBlockStart + index) * io.blockSize := by
        have hlast := Nat.lt_mul_div_succ (readEnd - e.virtualBlockStart * io.blockSize + (io.blockSize - 1)) hbs
        rw [← hcount, Nat.add_zero, Nat.mul_succ, Nat.mul_comm _ index] at hlast
        rw [Nat.add_mul]
        omega
      rw [readBlocks, pure_eq_ok, Nat.sub_eq_zero_of_le (by omega)]
      constructor
      · rintro rfl
        exact ⟨fun i hlo hhi => absurd hhi (by omega), rfl⟩
      · exact fun h => h.2.symm
  | succ count ih =>
      have hinside : (e.virtualBlockStart + index) * io.blockSize < readEnd := by
        have hlast := Nat.div_mul_le_self (readEnd - e.virtualBlockStart * io.blockSize + (io.blockSize - 1))
          io.blockSize
        have hle := Nat.mul_le_mul_right io.blockSize (Nat.le_add_right index count)
        rw [← hcount, ← Nat.add_assoc, Nat.succ_mul] at hlast
        rw [Nat.add_mul]
        omega
      have hk : index < e.blockCount := by
        have hmul := Nat.lt_of_lt_of_le hinside hend
        have hlt := Nat.lt_of_mul_lt_mul_right hmul
        omega
      have hplace : translate E (e.virtualBlockStart + index) = some (wrappingAdd 64 e.physicalLba index) := by
        rw [translate_of_mem hE he ⟨Nat.le_add_right _ _, by omega⟩, FileExtent.place, Nat.add_sub_cancel_left]
      have hnext : (e.virtualBlockStart + (index + 1)) * io.blockSize =
          (e.virtualBlockStart + index) * io.blockSize + io.blockSize := by
        rw [← Nat.add_assoc, Nat.succ_mul]
      have hkept : ∀ n rest, n ≤ min readEnd ((e.virtualBlockStart + index) * io.blockSize + io.blockSize) -
            max readStart ((e.virtualBlockStart + index) * io.blockSize) →
          (r.readBlocks readable (e.virtualBlockStart * io.blockSize) e.physicalLba readStart readEnd count (index + 1)
              (copied + n) = .ok rest ↔
            (∀ i, (e.virtualBlockStart + index) * io.blockSize + io.blockSize ≤ i → i < readEnd →
                e.place (i / io.blockSize) < io.totalBlocks) ∧
              rest = window (fileByte io E) ((e.virtualBlockStart + index) * io.blockSize + io.blockSize)
                (readEnd - ((e.virtualBlockStart + index) * io.blockSize + io.blockSize))) := fun n rest hn => by
        have h := @ih rest (copied + n) (index + 1) (by omega) (by omega) (by rw [hnext]; omega)
        rwa [hnext, Nat.max_eq_right (Nat.le_of_lt hindex)] at h
      rw [readBlocks, if_neg (by rw [hr.not_full _ _ (by omega)]; exact Bool.false_ne_true), hr.blockSize_eq,
        ← Nat.add_mul]
      generalize hB : (e.virtualBlockStart + index) * io.blockSize = B at *
      simp only [bind_eq_ok, hr.readBlock_iff, pure_eq_ok]
      have hpiece := @drop_take_block io E _ _ (max readStart B - B) (min readEnd (B + io.blockSize) - B) hplace (by omega) (by omega)
      rw [hB, show B + (max readStart B - B) = max readStart B by omega] at hpiece
      have hlen : min readEnd (B + io.blockSize) - B - (max readStart B - B) =
          min readEnd (B + io.blockSize) - max readStart B := by omega
      rw [hlen] at hpiece
      rw [hlen]
      have hblock : ∀ i, B ≤ i → i < B + io.blockSize → e.place (i / io.blockSize) = wrappingAdd 64 e.physicalLba index :=
        fun i hlo hhi => by
          rw [@div_eq_of_block _ _ (e.virtualBlockStart + index) (by omega) (by omega), FileExtent.place,
            Nat.add_sub_cancel_left]
      have hjoin := @window_cut _ (fileByte io E) _ readEnd _ (show max readStart B ≤ B + io.blockSize by omega)
      constructor
      · rintro ⟨block, ⟨hdevice, rfl⟩, rest, hrest, rfl⟩
        obtain ⟨hlater, rfl⟩ := (hkept _ _ (Nat.le_refl _)).mp hrest
        refine ⟨fun i hlo hhi => ?_, ?_⟩
        · by_cases hi : i < B + io.blockSize
          · rw [hblock i (by omega) hi]
            exact hdevice
          · exact hlater i (by omega) hhi
        · rw [hpiece, hjoin]
      · rintro ⟨hdevice, rfl⟩
        refine ⟨_, ⟨?_, rfl⟩, _, (hkept _ _ (Nat.le_refl _)).mpr ⟨fun i hlo hhi => hdevice i (by omega) hhi, rfl⟩, ?_⟩
        · rw [← hblock (max readStart B) (by omega) (by omega)]
          exact hdevice _ (Nat.le_refl _) (by omega)
        · rw [hpiece, hjoin]

/-- One extent that meets the range. -/
theorem readExtent_eq_ok (hr : r.Faithful io) (hE : SoundExtents io.blockSize E) (he : e ∈ E)
    (hlo : offset < (e.virtualBlockStart + e.blockCount) * io.blockSize)
    (hhi : e.virtualBlockStart * io.blockSize < offset + readable) (hreadable : 0 < readable)
    (hstart : readStart = max offset (e.virtualBlockStart * io.blockSize))
    (hend : readEnd = min (offset + readable) ((e.virtualBlockStart + e.blockCount) * io.blockSize))
    (hroom : copied + (readEnd - readStart) ≤ readable) :
    r.readBlocks readable (e.virtualBlockStart * io.blockSize) e.physicalLba readStart readEnd
        ((readEnd - e.virtualBlockStart * io.blockSize + (io.blockSize - 1)) / io.blockSize -
          (readStart - e.virtualBlockStart * io.blockSize) / io.blockSize)
        ((readStart - e.virtualBlockStart * io.blockSize) / io.blockSize) copied = .ok bytes ↔
      (∀ i, readStart ≤ i → i < readEnd → e.place (i / io.blockSize) < io.totalBlocks) ∧
        bytes = window (fileByte io E) readStart (readEnd - readStart) := by
  have hbs := hr.blockSize_pos
  have hsize := Nat.add_mul e.virtualBlockStart e.blockCount io.blockSize
  have hpos := Nat.mul_pos (hE.count_pos e he) hbs
  have hlt : readStart < readEnd := by omega
  have hfirst := Nat.div_mul_le_self (readStart - e.virtualBlockStart * io.blockSize) io.blockSize
  have hnext : readStart - e.virtualBlockStart * io.blockSize < _ := Nat.lt_div_mul_add hbs
  have hmono : (readStart - e.virtualBlockStart * io.blockSize) / io.blockSize ≤
      (readEnd - e.virtualBlockStart * io.blockSize + (io.blockSize - 1)) / io.blockSize :=
    Nat.div_le_div_right (by omega)
  generalize (readStart - e.virtualBlockStart * io.blockSize) / io.blockSize = first at *
  have hfirstBlock := Nat.add_mul e.virtualBlockStart first io.blockSize
  have hmax : max readStart ((e.virtualBlockStart + first) * io.blockSize) = readStart := by omega
  have h := @readBlocks_eq_ok r io E e bytes _ readable copied readStart readEnd _ first hr hE.ordered he hlt (by omega)
    (by omega) (Nat.add_sub_cancel' hmono) (by rw [hmax]; exact hroom)
  rwa [hmax] at h

/-- Reading through the extents succeeds exactly when all the blocks that it meets are on the device, and returns what
the extents hold of the range with the holes left out. -/
theorem readExtents_eq_ok (hr : r.Faithful io) (hE : SoundExtents io.blockSize E) (hes : ∀ e ∈ es, e ∈ E)
    (hordered : Ordered FileExtent.virtualBlockStart FileExtent.blockCount es lo) (hreadable : 0 < readable)
    (hroom : copied + (offset + readable - max offset (lo * io.blockSize)) ≤ readable) :
    r.readExtents offset readable es copied = .ok bytes ↔
      (∀ e ∈ es, ∀ i, offset ≤ i → i < offset + readable →
          Covers (byteStart io.blockSize) (byteLen io.blockSize) e i → e.place (i / io.blockSize) < io.totalBlocks) ∧
        bytes = gather (byteStart io.blockSize) (byteLen io.blockSize) (fileByte io E) offset (offset + readable)
          es := by
  induction es generalizing lo copied bytes with
  | nil =>
      rw [readExtents, pure_eq_ok]
      simp [gather, eq_comm]
  | cons e es ih =>
      have hbs := hr.blockSize_pos
      have he := hes e (by simp)
      have hlt := hE.bytes_lt e he
      have hpos := Nat.mul_pos (hE.count_pos e he) hbs
      obtain ⟨hlo, hordered⟩ := hordered
      have hloBytes := Nat.mul_le_mul_right io.blockSize hlo
      have hsize := Nat.add_mul e.virtualBlockStart e.blockCount io.blockSize
      have hes' : ∀ x ∈ es, x ∈ E := fun x hx => hes x (List.mem_cons_of_mem _ hx)
      rw [readExtents, hr.blockSize_eq, wrappingMul_eq (by omega), wrappingMul_eq (by omega),
        hr.extentEnd_eq _ _ (by omega), ← hsize]
      dsimp only
      rw [gather]
      simp only [List.forall_mem_cons]
      split
      · next hskip =>
          have hempty : min (offset + readable) (byteStart io.blockSize e + byteLen io.blockSize e) -
              max offset (byteStart io.blockSize e) = 0 := by
            rw [byteStart, byteLen]
            omega
          rw [hempty, ih hes' hordered (by omega)]
          refine and_congr_left fun _ => (and_iff_right fun i hoff hi hc => ?_).symm
          obtain ⟨h₁, h₂⟩ := hc
          rw [byteStart, byteLen] at h₂
          rw [byteStart] at h₁
          omega
      · next hmeets =>
          generalize hstart : max offset (e.virtualBlockStart * io.blockSize) = readStart
          generalize hend : min (offset + readable) ((e.virtualBlockStart + e.blockCount) * io.blockSize) = readEnd
          have hpiece : ∀ piece, _ ↔ _ := fun piece => @readExtent_eq_ok r io E e piece offset readable copied readStart
            readEnd hr hE he (by omega) (by omega) hreadable hstart.symm hend.symm (by omega)
          have hhead : window (fileByte io E) (max offset (byteStart io.blockSize e))
              (min (offset + readable) (byteStart io.blockSize e + byteLen io.blockSize e) -
                max offset (byteStart io.blockSize e)) = window (fileByte io E) readStart (readEnd - readStart) := by
            rw [byteStart, byteLen, ← hsize, hstart, hend]
          have hmeet : (∀ i, offset ≤ i → i < offset + readable →
                Covers (byteStart io.blockSize) (byteLen io.blockSize) e i →
                  e.place (i / io.blockSize) < io.totalBlocks) ↔
              ∀ i, readStart ≤ i → i < readEnd → e.place (i / io.blockSize) < io.totalBlocks := by
            have hcovers : ∀ i, Covers (byteStart io.blockSize) (byteLen io.blockSize) e i ↔
                e.virtualBlockStart * io.blockSize ≤ i ∧ i < (e.virtualBlockStart + e.blockCount) * io.blockSize :=
              fun i => by rw [Covers, byteStart, byteLen, ← hsize]
            exact ⟨fun h i h₁ h₂ => h i (by omega) (by omega) ((hcovers i).mpr (by omega)),
              fun h i h₁ h₂ hc => h i (by have := (hcovers i).mp hc; omega) (by have := (hcovers i).mp hc; omega)⟩
          rw [hhead, hmeet]
          simp only [bind_eq_ok, pure_eq_ok, hpiece]
          constructor
          · rintro ⟨piece, ⟨hdevice, rfl⟩, rest, hrest, rfl⟩
            rw [length_window, ih hes' hordered (by omega)] at hrest
            exact ⟨⟨hdevice, hrest.1⟩, by rw [hrest.2]⟩
          · rintro ⟨⟨hdevice, hlater⟩, rfl⟩
            refine ⟨_, ⟨hdevice, rfl⟩, _, ?_, rfl⟩
            rw [length_window, ih hes' hordered (by omega)]
            exact ⟨hlater, rfl⟩

/-- Every byte of the range lies in an extent, in a block of the device. -/
def Backed (io : BlockIo) (E : List FileExtent) (offset readable : Nat) : Prop :=
  ∀ i, offset ≤ i → i < offset + readable → ∃ p, translate E (i / io.blockSize) = some p ∧ p < io.totalBlocks

theorem exists_covers_of_translate {k p : Nat} (h : translate E k = some p) :
    ∃ e ∈ E, Covers FileExtent.virtualBlockStart FileExtent.blockCount e k := by
  obtain ⟨e, he, -⟩ := Option.map_eq_some_iff.mp h
  exact ⟨e, locate_mem he⟩

theorem readExtents_of_backed (hr : r.Faithful io) (hE : SoundExtents io.blockSize E) (hreadable : 0 < readable)
    (h : Backed io E offset readable) :
    r.readExtents offset readable E 0 = .ok (window (fileByte io E) offset readable) := by
  have hbs := hr.blockSize_pos
  refine (readExtents_eq_ok hr hE (fun e he => he) hE.ordered hreadable (by omega)).mpr ⟨fun e he i hlo hhi hc => ?_, ?_⟩
  · obtain ⟨p, hp, hdevice⟩ := h i hlo hhi
    rw [translate_of_mem hE.ordered he ((covers_bytes_iff hbs).mp hc), Option.some.injEq] at hp
    rwa [hp]
  · rw [gather_covered (ordered_bytes hE.ordered), Nat.zero_mul, Nat.max_eq_left (Nat.zero_le _),
      Nat.add_sub_cancel_left]
    intro i hlo hhi
    obtain ⟨p, hp, -⟩ := h i (by omega) hhi
    obtain ⟨e, he, hc⟩ := exists_covers_of_translate hp
    exact ⟨e, he, (covers_bytes_iff hbs).mpr hc⟩

/-- A position inside one extent is that in its blocks. -/
theorem fileByte_inside (hpos : 0 < io.blockSize) (hE : Ordered FileExtent.virtualBlockStart FileExtent.blockCount E 0)
    (he : e ∈ E) (hfits : e.physicalLba + e.blockCount ≤ 2 ^ 64) (hlo : e.virtualBlockStart * io.blockSize ≤ i)
    (hhi : i < (e.virtualBlockStart + e.blockCount) * io.blockSize) :
    translate E (i / io.blockSize) = some (e.physicalLba + (i / io.blockSize - e.virtualBlockStart)) ∧
      i / io.blockSize - e.virtualBlockStart < e.blockCount ∧
      fileByte io E i = io.bytes (e.physicalLba * io.blockSize + (i - e.virtualBlockStart * io.blockSize)) := by
  have hfirst : e.virtualBlockStart ≤ i / io.blockSize := (Nat.le_div_iff_mul_le hpos).mpr hlo
  have hlast : i / io.blockSize < e.virtualBlockStart + e.blockCount := (Nat.div_lt_iff_lt_mul hpos).mpr hhi
  have htranslate : translate E (i / io.blockSize) = some (e.physicalLba + (i / io.blockSize - e.virtualBlockStart)) := by
    rw [translate_of_mem hE he ⟨hfirst, hlast⟩, FileExtent.place, wrappingAdd_eq (by omega)]
  refine ⟨htranslate, by omega, ?_⟩
  rw [fileByte, htranslate]
  refine congrArg io.bytes ?_
  have hsplit := Nat.div_add_mod i io.blockSize
  generalize i / io.blockSize = k at *
  obtain ⟨j, rfl⟩ := Nat.exists_eq_add_of_le hfirst
  rw [Nat.mul_comm, Nat.add_mul] at hsplit
  rw [Nat.add_sub_cancel_left, Nat.add_mul]
  omega

/-- A range inside one extent is that of its blocks. -/
theorem window_fileByte_inside (hpos : 0 < io.blockSize) (hE : Ordered FileExtent.virtualBlockStart FileExtent.blockCount E 0)
    (he : e ∈ E) (hdevice : e.physicalLba + e.blockCount ≤ io.totalBlocks) (hlo : e.virtualBlockStart * io.blockSize ≤ offset)
    (hhi : offset + readable ≤ (e.virtualBlockStart + e.blockCount) * io.blockSize) :
    Backed io E offset readable ∧ window (fileByte io E) offset readable =
      window io.bytes (e.physicalLba * io.blockSize + (offset - e.virtualBlockStart * io.blockSize)) readable := by
  have htotal := io.totalBlocks_lt
  refine ⟨fun i hi hi' => ?_, List.map_congr_left fun i hi => ?_⟩
  · obtain ⟨htranslate, hinside, -⟩ := @fileByte_inside io E e i hpos hE he (by omega) (by omega) (by omega)
    exact ⟨_, htranslate, by omega⟩
  · rw [List.mem_range] at hi
    obtain ⟨-, -, hbyte⟩ := @fileByte_inside io E e (offset + i) hpos hE he (by omega) (by omega) (by omega)
    rw [hbyte]
    congr 1
    omega

/-- A read that returns as many bytes as it should has met no hole. -/
theorem backed_of_readExtents (hr : r.Faithful io) (hE : SoundExtents io.blockSize E) (hreadable : 0 < readable)
    (h : r.readExtents offset readable E 0 = .ok bytes) (hlength : bytes.length = readable) :
    Backed io E offset readable := by
  have hbs := hr.blockSize_pos
  obtain ⟨hdevice, rfl⟩ := (readExtents_eq_ok hr hE (fun e he => he) hE.ordered hreadable (by omega)).mp h
  intro i hlo hhi
  by_cases hcovered : ∃ e ∈ E, Covers (byteStart io.blockSize) (byteLen io.blockSize) e i
  · obtain ⟨e, he, hc⟩ := hcovered
    exact ⟨_, translate_of_mem hE.ordered he ((covers_bytes_iff hbs).mp hc), hdevice e he i hlo hhi hc⟩
  · have hgap : ∀ e ∈ E, ¬ Covers (byteStart io.blockSize) (byteLen io.blockSize) e i :=
      fun e he hc => hcovered ⟨e, he, hc⟩
    have hlt := length_gather_lt (f := fileByte io E) (a := offset) (ordered_bytes hE.ordered) (by omega) hhi hgap
    omega

end NodeReader

end NextBoot.Fs
