import NextBoot.Fs.Device

namespace NextBoot.Fs.Ntfs

open Words Bytes Results

def readU16 (data : List UInt8) (offset : Nat) : Except FsError Nat := someOr (readLe 2 data offset) .corrupted

/-- The round of the loop of `apply_update_sequence` for one sector. -/
def applySector (sectorSize usaOffset sequence : Nat) (data : List UInt8) (sector : Nat) : Except FsError (List UInt8) := do
  let tail ← someOr ((checkedMul 64 (sector + 1) sectorSize).bind fun value => checkedSub value 2) .corrupted
  let word ← readU16 data tail
  refuseIf (word ≠ sequence) .corrupted
  let replacement ← readU16 data (usaOffset + 2 * (sector + 1))
  pure (splice data tail (toLeBytes 2 replacement))

def applyUpdateSequence (data : List UInt8) (sectorSize : Nat) : Except FsError (List UInt8) := do
  refuseIf (sectorSize = 0 ∨ data.length < sectorSize) .corrupted
  let usaOffset ← readU16 data 4
  let usaCount ← readU16 data 6
  refuseIf (usaCount = 0 ∨ data.length < usaOffset + usaCount * 2) .corrupted
  let sequence ← readU16 data usaOffset
  let sectorCount := data.length / sectorSize
  refuseIf (usaCount ≠ sectorCount + 1) .corrupted
  (List.range sectorCount).foldlM (applySector sectorSize usaOffset sequence) data

/-- The last two bytes of a sector. -/
def tailOf (sectorSize sector : Nat) : Nat := (sector + 1) * sectorSize - 2

/-- The word of the update sequence array that stands in for the last two bytes of a sector. -/
def wordOf (usaOffset sector : Nat) : Nat := usaOffset + 2 * (sector + 1)

/-- A record of whole sectors with room for an update sequence array away from all their last two bytes. -/
structure Protectable (record : List UInt8) (sectorSize usaOffset sectorCount : Nat) : Prop where
  length_eq : record.length = sectorCount * sectorSize
  length_lt : record.length < 2 ^ 64
  inside : usaOffset + 2 * (sectorCount + 1) ≤ record.length
  apart : ∀ sector < sectorCount, tailOf sectorSize sector + 2 ≤ usaOffset ∨
    usaOffset + 2 * (sectorCount + 1) ≤ tailOf sectorSize sector

/-- The bytes that end a sector, as the array keeps them. -/
def savedWord (record : List UInt8) (sectorSize sector : Nat) : List UInt8 :=
  (record.drop (tailOf sectorSize sector)).take 2

/-- The array is filled with the sequence number and the last two bytes of every sector. -/
def fillArray (record : List UInt8) (sectorSize usaOffset sectorCount : Nat)
    (sequence : UInt16) : List UInt8 :=
  patch record ((usaOffset, toLeBytes 2 sequence.toNat) ::
    (List.range sectorCount).map fun sector => (wordOf usaOffset sector, savedWord record sectorSize sector))

/-- The record as it is written: every sector ends with the sequence number. -/
def protect (record : List UInt8) (sectorSize usaOffset sectorCount : Nat)
    (sequence : UInt16) : List UInt8 :=
  patch (fillArray record sectorSize usaOffset sectorCount sequence)
    ((List.range sectorCount).map fun sector => (tailOf sectorSize sector, toLeBytes 2 sequence.toNat))

variable {record data out : List UInt8} {sectorSize usaOffset sectorCount sequence sector : Nat} {sectors : List Nat}

theorem applySector_eq_ok : applySector sectorSize usaOffset sequence data sector = .ok out ↔
    2 ≤ (sector + 1) * sectorSize ∧ (sector + 1) * sectorSize < 2 ^ 64 ∧
      readLe 2 data (tailOf sectorSize sector) = some sequence ∧
      ∃ replacement, readLe 2 data (wordOf usaOffset sector) = some replacement ∧
        out = splice data (tailOf sectorSize sector) (toLeBytes 2 replacement) := by
  simp only [applySector, readU16, bind_eq_ok, someOr_eq_ok, Option.bind_eq_some_iff, checkedMul_eq_some,
    checkedSub_eq_some, refuseIf_eq_ok, pure_eq_ok, not_not]
  constructor
  · rintro ⟨tail, ⟨value, ⟨hlt, rfl⟩, hle, rfl⟩, word, hword, -, rfl, replacement, hreplacement, rfl⟩
    exact ⟨hle, hlt, hword, replacement, hreplacement, rfl⟩
  · rintro ⟨hle, hlt, hword, replacement, hreplacement, rfl⟩
    exact ⟨_, ⟨_, ⟨hlt, rfl⟩, hle, rfl⟩, sequence, hword, (), rfl, replacement, hreplacement, rfl⟩

theorem tailOf_lt {i j : Nat} (hsize : 2 ≤ sectorSize) (h : i < j) : tailOf sectorSize i + 2 ≤ tailOf sectorSize j := by
  have hle := Nat.mul_le_mul_right sectorSize (show i + 2 ≤ j + 1 by omega)
  have hi := Nat.mul_le_mul_right sectorSize (show 1 ≤ i + 1 by omega)
  rw [show i + 2 = i + 1 + 1 from rfl, Nat.succ_mul (i + 1)] at hle
  unfold tailOf
  omega

/-- The loop only goes through sectors that end with the sequence number. -/
theorem applySectors_match (hsize : 2 ≤ sectorSize) (hsorted : sectors.Pairwise (· < ·))
    (h : sectors.foldlM (applySector sectorSize usaOffset sequence) data = .ok out) :
    ∀ sector ∈ sectors, readLe 2 data (tailOf sectorSize sector) = some sequence := by
  induction sectors generalizing data with
  | nil => exact nofun
  | cons first sectors ih =>
      obtain ⟨hfirst, hsorted⟩ := List.pairwise_cons.1 hsorted
      rw [List.foldlM_cons, bind_eq_ok] at h
      obtain ⟨next, hnext, hrest⟩ := h
      obtain ⟨-, -, hword, replacement, -, rfl⟩ := applySector_eq_ok.1 hnext
      obtain ⟨bytes, hslice, -⟩ := Option.map_eq_some_iff.1 hword
      have hroom := (slice_isSome_iff.1 hslice).1
      intro sector hsector
      rcases List.mem_cons.1 hsector with rfl | hlater
      · exact hword
      · have hread := ih hsorted hrest sector hlater
        have hapart := tailOf_lt hsize (hfirst sector hlater)
        rw [readLe_splice_disjoint (by rw [length_toLeBytes]; exact hroom) (.inr (by rw [length_toLeBytes]; exact hapart))]
          at hread
        exact hread

theorem two_le_of_applied (hcount : 0 < sectorCount)
    (h : (List.range sectorCount).foldlM (applySector sectorSize usaOffset sequence) data = .ok out) : 2 ≤ sectorSize := by
  obtain ⟨count, rfl⟩ : ∃ count, sectorCount = count + 1 := ⟨sectorCount - 1, by omega⟩
  rw [List.range_succ_eq_map, List.foldlM_cons, bind_eq_ok] at h
  obtain ⟨next, hnext, -⟩ := h
  have hfirst := (applySector_eq_ok.1 hnext).1
  omega

/-- Where every sector ends with the sequence number and the array stays away from these ends, the loop writes the
words of the array over them. -/
theorem applySectors_patch (hsize : 2 ≤ sectorSize) (hsorted : sectors.Pairwise (· < ·))
    (hfits : ∀ i ∈ sectors, (i + 1) * sectorSize ≤ data.length) (hlt : data.length < 2 ^ 64)
    (hmatch : ∀ i ∈ sectors, readLe 2 data (tailOf sectorSize i) = some sequence) (saved : Nat → List UInt8)
    (hsaved : ∀ i ∈ sectors, slice data (wordOf usaOffset i) 2 = some (saved i))
    (hapart : ∀ i ∈ sectors, ∀ j ∈ sectors,
      tailOf sectorSize i + 2 ≤ wordOf usaOffset j ∨ wordOf usaOffset j + 2 ≤ tailOf sectorSize i) :
    sectors.foldlM (applySector sectorSize usaOffset sequence) data =
      .ok (patch data (sectors.map fun i => (tailOf sectorSize i, saved i))) := by
  induction sectors generalizing data with
  | nil => rfl
  | cons first sectors ih =>
      obtain ⟨hfirst, hsorted⟩ := List.pairwise_cons.1 hsorted
      have hword := hsaved first List.mem_cons_self
      have hlen := slice_length hword
      have hroom := hfits first List.mem_cons_self
      have hone := Nat.mul_le_mul_right sectorSize (show 1 ≤ first + 1 by omega)
      have htail : tailOf sectorSize first + (saved first).length ≤ data.length := by
        unfold tailOf
        omega
      have hbytes : toLeBytes 2 (fromLeBytes (saved first)) = saved first := by
        rw [← hlen, toLeBytes_fromLeBytes]
      have hstep : applySector sectorSize usaOffset sequence data first =
          .ok (splice data (tailOf sectorSize first) (saved first)) := by
        refine applySector_eq_ok.2 ⟨by omega, by omega, hmatch first List.mem_cons_self, fromLeBytes (saved first), ?_, ?_⟩
        · rw [readLe, hword, Option.map_some]
        · rw [hbytes]
      have hlength := length_splice data (tailOf sectorSize first) (saved first) htail
      rw [List.foldlM_cons, hstep, ok_bind, List.map_cons, patch_cons]
      apply ih hsorted
      · exact fun i hi => hlength ▸ hfits i (List.mem_cons_of_mem _ hi)
      · rw [hlength]
        exact hlt
      · intro i hi
        rw [readLe_splice_disjoint htail (.inr (by rw [hlen]; exact tailOf_lt hsize (hfirst i hi)))]
        exact hmatch i (List.mem_cons_of_mem _ hi)
      · intro i hi
        have hdisjoint := hapart first List.mem_cons_self i (List.mem_cons_of_mem _ hi)
        rw [slice_splice_disjoint htail (by rw [hlen]; omega)]
        exact hsaved i (List.mem_cons_of_mem _ hi)
      · exact fun i hi j hj => hapart i (List.mem_cons_of_mem _ hi) j (List.mem_cons_of_mem _ hj)

namespace Protectable

variable {seq : UInt16} (hr : Protectable record sectorSize usaOffset sectorCount)
include hr

theorem two_le_sectorSize : 2 ≤ sectorSize := by
  have hinside := hr.inside
  rw [hr.length_eq] at hinside
  by_contra hsmall
  have hle := Nat.mul_le_mul_left sectorCount (show sectorSize ≤ 1 by omega)
  omega

theorem tail_le {i : Nat} (hi : i < sectorCount) : tailOf sectorSize i + 2 ≤ record.length := by
  have hsize := hr.two_le_sectorSize
  have hle := Nat.mul_le_mul_right sectorSize (show i + 1 ≤ sectorCount by omega)
  have hone := Nat.mul_le_mul_right sectorSize (show 1 ≤ i + 1 by omega)
  rw [hr.length_eq]
  unfold tailOf
  omega

theorem slice_tail {i : Nat} (hi : i < sectorCount) :
    slice record (tailOf sectorSize i) 2 = some (savedWord record sectorSize i) := slice_eq_some (hr.tail_le hi)

theorem length_savedWord {i : Nat} (hi : i < sectorCount) : (savedWord record sectorSize i).length = 2 :=
  slice_length (hr.slice_tail hi)

theorem word_apart {i j : Nat} (hi : i < sectorCount) (hj : j < sectorCount) :
    tailOf sectorSize i + 2 ≤ wordOf usaOffset j ∨ wordOf usaOffset j + 2 ≤ tailOf sectorSize i := by
  have hapart := hr.apart i hi
  unfold wordOf
  omega

/-- The writes that fill the array are inside it. -/
theorem fill_inside {p : Nat × List UInt8} (hp : p ∈ (usaOffset, toLeBytes 2 seq.toNat) ::
      (List.range sectorCount).map fun sector => (wordOf usaOffset sector, savedWord record sectorSize sector)) :
    usaOffset ≤ p.1 ∧ p.1 + p.2.length ≤ usaOffset + 2 * (sectorCount + 1) := by
  rcases List.mem_cons.1 hp with rfl | hword
  · rw [length_toLeBytes]
    omega
  · obtain ⟨i, hi, rfl⟩ := List.mem_map.1 hword
    rw [List.mem_range] at hi
    rw [hr.length_savedWord hi]
    unfold wordOf
    omega

theorem fill_fits : ∀ p ∈ (usaOffset, toLeBytes 2 seq.toNat) ::
      (List.range sectorCount).map (fun sector => (wordOf usaOffset sector, savedWord record sectorSize sector)),
    p.1 + p.2.length ≤ record.length := by
  intro p hp
  have hin := hr.fill_inside hp
  have hinside := hr.inside
  omega

theorem fill_pairwise : ((usaOffset, toLeBytes 2 seq.toNat) ::
      (List.range sectorCount).map fun sector => (wordOf usaOffset sector, savedWord record sectorSize sector)).Pairwise
    fun q r => q.1 + q.2.length ≤ r.1 ∨ r.1 + r.2.length ≤ q.1 := by
  refine List.pairwise_cons.2 ⟨fun p hp => .inl ?_, ?_⟩
  · obtain ⟨i, hi, rfl⟩ := List.mem_map.1 hp
    rw [length_toLeBytes]
    unfold wordOf
    omega
  · rw [List.pairwise_map]
    refine List.pairwise_lt_range.imp_of_mem fun {i j} hi _ hij => .inl ?_
    rw [hr.length_savedWord (List.mem_range.1 hi)]
    unfold wordOf
    omega

theorem length_fillArray : (fillArray record sectorSize usaOffset sectorCount seq).length = record.length :=
  length_patch hr.fill_fits

theorem getElem?_fillArray {i : Nat} (hi : i < usaOffset ∨ usaOffset + 2 * (sectorCount + 1) ≤ i) :
    (fillArray record sectorSize usaOffset sectorCount seq)[i]? = record[i]? :=
  getElem?_patch_disjoint hr.fill_fits fun p hp => by have hin := hr.fill_inside hp; omega

theorem fillArray_word {i : Nat} (hi : i < sectorCount) :
    slice (fillArray record sectorSize usaOffset sectorCount seq) (wordOf usaOffset i) 2 =
      some (savedWord record sectorSize i) := by
  have hmem : (wordOf usaOffset i, savedWord record sectorSize i) ∈ (usaOffset, toLeBytes 2 seq.toNat) ::
      (List.range sectorCount).map fun sector => (wordOf usaOffset sector, savedWord record sectorSize sector) :=
    List.mem_cons_of_mem _ (List.mem_map.2 ⟨i, List.mem_range.2 hi, rfl⟩)
  have hslice := slice_patch_mem hr.fill_fits
    hr.fill_pairwise hmem
  rw [hr.length_savedWord hi] at hslice
  exact hslice

theorem fillArray_tail {i : Nat} (hi : i < sectorCount) :
    slice (fillArray record sectorSize usaOffset sectorCount seq) (tailOf sectorSize i) 2 =
      some (savedWord record sectorSize i) := by
  have hapart := hr.apart i hi
  rw [fillArray, slice_patch_disjoint hr.fill_fits (fun p hp => by have hin := hr.fill_inside hp; omega)]
  exact hr.slice_tail hi

theorem fillArray_sequence :
    readLe 2 (fillArray record sectorSize usaOffset sectorCount seq) usaOffset = some seq.toNat :=
  readLe_patch_mem hr.fill_fits hr.fill_pairwise List.mem_cons_self seq.toNat_lt

theorem ends_inside : ∀ p ∈ (List.range sectorCount).map fun sector => (tailOf sectorSize sector, toLeBytes 2 seq.toNat),
    p.1 + p.2.length ≤ (fillArray record sectorSize usaOffset sectorCount seq).length := by
  intro p hp
  obtain ⟨i, hi, rfl⟩ := List.mem_map.1 hp
  rw [length_toLeBytes, hr.length_fillArray]
  exact hr.tail_le (List.mem_range.1 hi)

theorem ends_pairwise : ((List.range sectorCount).map fun sector => (tailOf sectorSize sector, toLeBytes 2 seq.toNat)).Pairwise
    fun q r => q.1 + q.2.length ≤ r.1 ∨ r.1 + r.2.length ≤ q.1 := by
  rw [List.pairwise_map]
  refine List.pairwise_lt_range.imp fun {i j} hij => .inl ?_
  rw [length_toLeBytes]
  exact tailOf_lt hr.two_le_sectorSize hij

theorem length_protect : (protect record sectorSize usaOffset sectorCount seq).length = record.length := by
  rw [protect, length_patch hr.ends_inside, hr.length_fillArray]

theorem protect_word {i : Nat} (hi : i < sectorCount) :
    slice (protect record sectorSize usaOffset sectorCount seq) (wordOf usaOffset i) 2 =
      some (savedWord record sectorSize i) := by
  rw [protect, slice_patch_disjoint hr.ends_inside, hr.fillArray_word hi]
  intro p hp
  obtain ⟨j, hj, rfl⟩ := List.mem_map.1 hp
  have hapart := hr.word_apart (List.mem_range.1 hj) hi
  rw [length_toLeBytes]
  omega

theorem protect_sequence :
    readLe 2 (protect record sectorSize usaOffset sectorCount seq) usaOffset = some seq.toNat := by
  rw [protect, readLe_patch_disjoint hr.ends_inside, hr.fillArray_sequence]
  intro p hp
  obtain ⟨j, hj, rfl⟩ := List.mem_map.1 hp
  have hapart := hr.apart j (List.mem_range.1 hj)
  rw [length_toLeBytes]
  omega

theorem protect_tail {i : Nat} (hi : i < sectorCount) :
    readLe 2 (protect record sectorSize usaOffset sectorCount seq) (tailOf sectorSize i) = some seq.toNat :=
  readLe_patch_mem hr.ends_inside hr.ends_pairwise (List.mem_map.2 ⟨i, List.mem_range.2 hi, rfl⟩) seq.toNat_lt

/-- The ends of the sectors are put back. -/
theorem restore : patch (protect record sectorSize usaOffset sectorCount seq)
      ((List.range sectorCount).map fun i => (tailOf sectorSize i, savedWord record sectorSize i)) =
    fillArray record sectorSize usaOffset sectorCount seq := by
  apply patch_undo hr.ends_inside
  · intro q hq
    obtain ⟨i, hi, rfl⟩ := List.mem_map.1 hq
    rw [List.mem_range] at hi
    rw [hr.length_savedWord hi]
    exact hr.fillArray_tail hi
  · rw [List.pairwise_map]
    refine List.pairwise_lt_range.imp_of_mem fun {i j} hi _ hij => .inl ?_
    rw [hr.length_savedWord (List.mem_range.1 hi)]
    exact tailOf_lt hr.two_le_sectorSize hij
  · intro p hp
    obtain ⟨i, hi, rfl⟩ := List.mem_map.1 hp
    refine ⟨_, List.mem_map.2 ⟨i, hi, rfl⟩, Nat.le_refl _, ?_⟩
    rw [length_toLeBytes, hr.length_savedWord (List.mem_range.1 hi)]

end Protectable

/-- A protected record is restored, and one with a torn sector is refused. -/
theorem update_sequence (record : List UInt8) (sectorSize usaOffset sectorCount : Nat) (sequence : UInt16)
    (hr : Protectable record sectorSize usaOffset sectorCount)
    (hoffset : readLe 2 (protect record sectorSize usaOffset sectorCount sequence) 4 = some usaOffset)
    (hcount : readLe 2 (protect record sectorSize usaOffset sectorCount sequence) 6 = some (sectorCount + 1)) :
    applyUpdateSequence (protect record sectorSize usaOffset sectorCount sequence) sectorSize =
      .ok (fillArray record sectorSize usaOffset sectorCount sequence) ∧
    (∀ i, i < usaOffset ∨ usaOffset + 2 * (sectorCount + 1) ≤ i →
      (fillArray record sectorSize usaOffset sectorCount sequence)[i]? = record[i]?) ∧
    ∀ (data : List UInt8) (size sector : Nat), sector < data.length / size →
      readLe 2 data (tailOf size sector) ≠ (readLe 2 data 4).bind (readLe 2 data) →
        ∃ error, applyUpdateSequence data size = .error error := by
  refine ⟨?_, fun i hi => hr.getElem?_fillArray hi, fun data size sector hsector hdiffers => ?_⟩
  · have hsize := hr.two_le_sectorSize
    have hinside := hr.inside
    have hcountpos : 0 < sectorCount := by
      rcases Nat.eq_zero_or_pos sectorCount with rfl | hpos
      · rw [hr.length_eq, Nat.zero_mul] at hinside
        omega
      · exact hpos
    have hsectors : record.length / sectorSize = sectorCount := by
      rw [hr.length_eq, Nat.mul_div_cancel _ (by omega)]
    have hone := Nat.mul_le_mul_right sectorSize hcountpos
    rw [Nat.succ_mul, Nat.zero_mul, Nat.zero_add, ← hr.length_eq] at hone
    rw [applyUpdateSequence, hr.length_protect, refuseIf, if_neg (by omega), ok_bind, readU16, hoffset, someOr_some, ok_bind,
      readU16, hcount, someOr_some, ok_bind, refuseIf, if_neg (by omega), ok_bind, readU16, hr.protect_sequence,
      someOr_some, ok_bind, hsectors]
    dsimp only
    rw [refuseIf, if_neg (by omega), ok_bind,
      applySectors_patch hsize List.pairwise_lt_range _ _ _ (savedWord record sectorSize) _ _, hr.restore]
    · intro i hi
      rw [hr.length_protect, hr.length_eq]
      exact Nat.mul_le_mul_right _ (List.mem_range.1 hi)
    · rw [hr.length_protect]
      exact hr.length_lt
    · exact fun i hi => hr.protect_tail (List.mem_range.1 hi)
    · exact fun i hi => hr.protect_word (List.mem_range.1 hi)
    · exact fun i hi j hj => hr.word_apart (List.mem_range.1 hi) (List.mem_range.1 hj)
  · cases happly : applyUpdateSequence data size with
    | error error => exact ⟨error, rfl⟩
    | ok out =>
        simp only [applyUpdateSequence, readU16, bind_eq_ok, someOr_eq_ok, refuseIf_eq_ok] at happly
        obtain ⟨-, -, offset, hoffset', count, -, -, -, word, hword, -, -, hloop⟩ := happly
        have hmatch := applySectors_match (two_le_of_applied (by omega) hloop) List.pairwise_lt_range hloop sector (List.mem_range.2 hsector)
        rw [hoffset', Option.bind_some, hword] at hdiffers
        exact absurd hmatch hdiffers

/-- Two sectors of sixteen bytes, with the array behind the fields that name it. -/
def sampleRecord : List UInt8 :=
  [0x46, 0x49, 0x4C, 0x45, 8, 0, 3, 0, 0, 0, 0, 0, 0, 0, 0x11, 0x22,
    1, 2, 3, 4, 5, 6, 7, 8, 9, 10, 11, 12, 13, 14, 0x33, 0x44]

theorem sampleRecord_restored :
    protect sampleRecord 16 8 2 0xABCD ≠ fillArray sampleRecord 16 8 2 0xABCD ∧
    applyUpdateSequence (protect sampleRecord 16 8 2 0xABCD) 16 = .ok (fillArray sampleRecord 16 8 2 0xABCD) :=
  ⟨by decide, (update_sequence sampleRecord 16 8 2 0xABCD ⟨rfl, by decide, by decide, by decide⟩ (by decide)
    (by decide)).1⟩

end NextBoot.Fs.Ntfs
