import Mathlib.Logic.Relation
import NextBoot.Fs.RecordLocation

namespace NextBoot.Fs.Iso9660

open Words Bytes Strings Results Faults Outcome BlockStore Paths Scan

/-- `iso9660_file_extent_patch`: the extent of a directory record, each number in both byte orders. -/
def iso9660FileExtentPatch (firstSector size : Nat) : List UInt8 :=
  toLeBytes 4 firstSector ++ (toLeBytes 4 firstSector).reverse ++ (toLeBytes 4 size ++ (toLeBytes 4 size).reverse)

@[simp] theorem length_extentPatch (firstSector size : Nat) : (iso9660FileExtentPatch firstSector size).length = 16 := by
  simp [iso9660FileExtentPatch]

/-- An extent that a directory record can be given. -/
structure RecordExtent where
  firstSector : Nat
  size : Nat
  firstSector_lt : firstSector < 2 ^ 32
  size_lt : size < 2 ^ 32

/-- From one record of a block to the one behind it. -/
def NextRecord (data : List UInt8) (offset next : Nat) : Prop :=
  ∃ length : UInt8, data[offset]? = some length ∧ length ≠ 0 ∧ offset + length.toNat ≤ data.length ∧
    next = offset + length.toNat

/-- The positions in a block where a record begins. -/
def Reaches (data : List UInt8) (offset : Nat) : Prop := Relation.ReflTransGen (NextRecord data) 0 offset

section blocks

variable {data data' record : List UInt8} {offset next r q firstSector size fuel blockSize lba place : Nat}
  {rlen qlen : UInt8} {name : Text} {info : DirectoryEntry} {extent : RecordExtent} {extents : Nat → Option RecordExtent}

theorem NextRecord.lt (h : NextRecord data offset next) : offset < next := by
  obtain ⟨length, -, hne, -, rfl⟩ := h
  have : length.toNat ≠ 0 := fun hzero => hne (UInt8.toNat_inj.mp hzero)
  omega

theorem le_of_reaches (h : Relation.ReflTransGen (NextRecord data) offset next) : offset ≤ next := by
  induction h with
  | refl => exact Nat.le_refl _
  | tail _ hstep ih => exact ih.trans hstep.lt.le

/-- Records of a block do not overlap. -/
theorem Reaches.apart (hr : Reaches data r) (hq : Reaches data q) (hlen : data[q]? = some qlen) (hlt : q < r) :
    q + qlen.toNat ≤ r := by
  have hunique : Relator.RightUnique (NextRecord data) := by
    rintro a b c ⟨length, hget, -, -, rfl⟩ ⟨length', hget', -, -, rfl⟩
    cases hget.symm.trans hget'
    rfl
  rcases Relation.ReflTransGen.total_of_right_unique hunique hq hr with h | h
  · rcases h.cases_head with rfl | ⟨next, ⟨length, hget, -, -, rfl⟩, hrest⟩
    · exact absurd hlt (Nat.lt_irrefl _)
    · cases hlen.symm.trans hget
      exact le_of_reaches hrest
  · exact absurd (le_of_reaches h) (Nat.not_le_of_lt hlt)

theorem readLe_patched (hlong : 18 ≤ record.length) (hsector : firstSector < 2 ^ 32) (hsize : size < 2 ^ 32) :
    readLe 4 (splice record 2 (iso9660FileExtentPatch firstSector size)) 2 = some firstSector ∧
      readLe 4 (splice record 2 (iso9660FileExtentPatch firstSector size)) 10 = some size := by
  have hroom : 2 + (iso9660FileExtentPatch firstSector size).length ≤ record.length := by
    rw [length_extentPatch]
    omega
  have hfirst : readLe 4 (iso9660FileExtentPatch firstSector size) 0 = some firstSector := by
    rw [iso9660FileExtentPatch, List.append_assoc]
    exact @readLe_append 4 firstSector 0 [] _ rfl hsector
  have hsecond : readLe 4 (iso9660FileExtentPatch firstSector size) 8 = some size :=
    readLe_append (by simp) hsize
  exact ⟨readLe_splice_inside hroom hfirst, readLe_splice_inside hroom hsecond⟩

theorem length_of_recordEntry (h : recordEntry record = some info) : 33 ≤ record.length := by
  have hparse := (@parseDirectoryRecord_eq record).trans (congrArg value h)
  rw [parseDirectoryRecord] at hparse
  by_contra hshort
  rw [if_pos (by omega)] at hparse
  cases hparse

theorem length_of_listedEntry (h : listedEntry record = some info) : 33 ≤ record.length := by
  obtain ⟨hrecord, -⟩ := Option.filter_eq_some_iff.mp h
  exact length_of_recordEntry hrecord

theorem recordName_congr {other raw : List UInt8} {length nameLength : Nat} (hlen : record.length = other.length)
    (h : ∀ i, 18 ≤ i → record[i]? = other[i]?) :
    recordName record length nameLength raw = recordName other length nameLength raw := by
  have hslice : ∀ gap count, slice record (33 + nameLength + gap) count = slice other (33 + nameLength + gap) count :=
    fun gap count => slice_congr hlen fun i hi _ => h i (by omega)
  simp only [recordName, hslice]

/-- A record with another extent stands for the same entry with another extent. -/
theorem recordEntry_patched (hsector : firstSector < 2 ^ 32) (hsize : size < 2 ^ 32)
    (hentry : recordEntry record = some info) :
    recordEntry (splice record 2 (iso9660FileExtentPatch firstSector size)) =
      some { info with startCluster := firstSector, size := size } := by
  have hparse := (@parseDirectoryRecord_eq record).trans (congrArg value hentry)
  have hparse' := @parseDirectoryRecord_eq (splice record 2 (iso9660FileExtentPatch firstSector size))
  rw [parseDirectoryRecord] at hparse hparse'
  have hlong := length_of_recordEntry hentry
  have hshort : ¬ record.length < 33 := by omega
  rw [if_neg hshort] at hparse
  have hroom : 2 + (iso9660FileExtentPatch firstSector size).length ≤ record.length := by
    rw [length_extentPatch]
    omega
  have hlen := length_splice record 2 _ hroom
  have hget : ∀ i, i < 2 ∨ 18 ≤ i →
      (splice record 2 (iso9660FileExtentPatch firstSector size))[i]? = record[i]? := by
    intro i hi
    rw [getElem?_splice _ _ _ hroom, length_extentPatch, if_neg (by omega)]
  obtain ⟨hread, hread'⟩ := @readLe_patched record firstSector size (by omega) hsector hsize
  rw [hlen, if_neg hshort, hget 0 (.inl (by omega)), hread, hread', hget 25 (.inr (by omega)),
    hget 32 (.inr (by omega))] at hparse'
  obtain ⟨length, hlength, hparse⟩ := bind_eq_value.mp hparse
  rw [hlength, value_bind] at hparse'
  by_cases hbad : length.toNat < 33 ∨ record.length < length.toNat
  · rw [if_pos hbad] at hparse
    cases hparse
  rw [if_neg hbad] at hparse hparse'
  obtain ⟨_, -, hparse⟩ := bind_eq_value.mp hparse
  obtain ⟨_, -, hparse⟩ := bind_eq_value.mp hparse
  obtain ⟨flags, hflags, hparse⟩ := bind_eq_value.mp hparse
  obtain ⟨nameLength, hname, hparse⟩ := bind_eq_value.mp hparse
  rw [ofOption_some, value_bind, ofOption_some, value_bind, hflags, value_bind, hname, value_bind] at hparse'
  by_cases hnone : nameLength = 0 ∨ record.length < 33 + nameLength.toNat
  · rw [if_pos hnone] at hparse
    cases hparse
  rw [if_neg hnone] at hparse hparse'
  obtain ⟨raw, hraw, hparse⟩ := bind_eq_value.mp hparse
  obtain ⟨entryName, hrecordName, hparse⟩ := bind_eq_value.mp hparse
  rw [slice_congr hlen (fun i hi _ => hget i (.inr (by omega))), hraw, value_bind,
    recordName_congr hlen (fun i hi => hget i (.inr hi)), hrecordName, value_bind] at hparse'
  by_cases hhidden : flags &&& 0x01 ≠ 0
  · rw [if_pos hhidden] at hparse
    cases hparse
  rw [if_neg hhidden] at hparse hparse'
  cases hparse
  exact (value.inj hparse').symm

theorem listedEntry_patched (hsector : firstSector < 2 ^ 32) (hsize : size < 2 ^ 32) (hentry : listedEntry record = some info) :
    listedEntry (splice record 2 (iso9660FileExtentPatch firstSector size)) =
      some { info with startCluster := firstSector, size := size } := by
  obtain ⟨hrecord, hkept⟩ := Option.filter_eq_some_iff.mp hentry
  rw [listedEntry, recordEntry_patched hsector hsize hrecord]
  exact Option.filter_eq_some_iff.mpr ⟨rfl, hkept⟩

/-- The entry of a record at a place, with the extent that the record there has been given. -/
def repointEntry (extents : Nat → Option RecordExtent) (place : Nat) (info : DirectoryEntry) : DirectoryEntry :=
  (extents place).elim info fun extent => { info with startCluster := extent.firstSector, size := extent.size }

@[simp] theorem repointEntry_none (info : DirectoryEntry) : repointEntry (fun _ => none) place info = info := rfl

@[simp] theorem repointEntry_name : (repointEntry extents place info).name = info.name := by
  rw [repointEntry]
  cases extents place with
  | none => rfl
  | some extent => rfl

@[simp] theorem repointEntry_isDir : (repointEntry extents place info).isDir = info.isDir := by
  rw [repointEntry]
  cases extents place with
  | none => rfl
  | some extent => rfl

/-- A block in which records have been given other extents, and nothing else has changed. -/
structure BlockPatched (blockSize lba : Nat) (extents : Nat → Option RecordExtent) (data data' : List UInt8) : Prop where
  length_eq : data'.length = data.length
  head_eq : ∀ q, Reaches data q → data'[q]? = data[q]?
  entry_eq : ∀ (q : Nat) (length : UInt8), Reaches data q → data[q]? = some length → q + length.toNat ≤ data.length →
    listedEntry ((data'.drop q).take length.toNat) =
      (listedEntry ((data.drop q).take length.toNat)).map (repointEntry extents (lba * blockSize + q))

theorem blockPatched_refl : BlockPatched blockSize lba (fun _ => none) data data where
  length_eq := rfl
  head_eq _ _ := rfl
  entry_eq _ _ _ _ _ := Option.map_id'.symm

/-- A record outside a block does not matter to it. -/
theorem BlockPatched.elsewhere (h : BlockPatched blockSize lba extents data data')
    (hplace : ∀ q < data.length, lba * blockSize + q ≠ place) :
    BlockPatched blockSize lba (Function.update extents place (some extent)) data data' where
  length_eq := h.length_eq
  head_eq := h.head_eq
  entry_eq q length hq hlength hfits := by
    obtain ⟨hlt, -⟩ := List.getElem?_eq_some_iff.mp hlength
    rw [h.entry_eq q length hq hlength hfits]
    refine congrArg (Option.map · _) (funext fun info => ?_)
    rw [repointEntry, repointEntry, Function.update_of_ne (hplace q hlt)]

/-- Giving one more record of a block another extent. -/
theorem BlockPatched.splice (h : BlockPatched blockSize lba extents data data') (hr : Reaches data r)
    (hlen : data[r]? = some rlen) (hfits : r + rlen.toNat ≤ data.length)
    (hentry : listedEntry ((data.drop r).take rlen.toNat) = some info) :
    BlockPatched blockSize lba (Function.update extents (lba * blockSize + r) (some extent)) data
      (Bytes.splice data' (r + 2) (iso9660FileExtentPatch extent.firstSector extent.size)) := by
  have hlong := length_of_listedEntry hentry
  rw [List.length_take, List.length_drop, Nat.min_eq_left (by omega)] at hlong
  have hlength := h.length_eq
  have hroom : r + 2 + (iso9660FileExtentPatch extent.firstSector extent.size).length ≤ data'.length := by
    rw [length_extentPatch]
    omega
  have hget := getElem?_splice data' (r + 2) _ hroom
  rw [length_extentPatch] at hget
  refine ⟨(length_splice _ _ _ hroom).trans hlength, fun q hq => ?_, fun q length hq hhead hinside => ?_⟩
  · rw [hget, if_neg, h.head_eq q hq]
    rcases Nat.lt_trichotomy q r with hlt | rfl | hlt
    · omega
    · omega
    · have := hq.apart hr hlen hlt
      omega
  · by_cases hsame : q = r
    · subst hsame
      cases hlen.symm.trans hhead
      have hentry' := h.entry_eq q rlen hq hlen hfits
      rw [hentry, Option.map_some] at hentry'
      have hslice : slice data' q rlen.toNat = some ((data'.drop q).take rlen.toNat) := slice_eq_some (by omega)
      have hinner := @slice_splice_inside _ data' _ (iso9660FileExtentPatch extent.firstSector extent.size) q _ 2 hslice
        (by rw [length_extentPatch]; omega)
      rw [slice_eq_some (by rw [length_splice _ _ _ hroom]; omega), Option.some.injEq] at hinner
      rw [hinner, hentry, listedEntry_patched extent.firstSector_lt extent.size_lt hentry', Option.map_some]
      simp only [repointEntry, Function.update_self, Option.elim_some]
      cases extents (lba * blockSize + q) with
      | none => rfl
      | some _ => rfl
    · have hrecords : ((Bytes.splice data' (r + 2) (iso9660FileExtentPatch extent.firstSector extent.size)).drop q).take
          length.toNat = (data'.drop q).take length.toNat := by
        have hslices := @slice_splice_disjoint _ data' (iso9660FileExtentPatch extent.firstSector extent.size) q (r + 2)
          length.toNat hroom (by
            rw [length_extentPatch]
            rcases Nat.lt_or_gt_of_ne hsame with hlt | hlt
            · have := hr.apart hq hhead hlt
              omega
            · have := hq.apart hr hlen hlt
              omega)
        rw [slice_eq_some (by rw [length_splice _ _ _ hroom]; omega), slice_eq_some (by omega),
          Option.some.injEq] at hslices
        exact hslices
      rw [hrecords, h.entry_eq q length hq hhead hinside]
      have hplace : lba * blockSize + q ≠ lba * blockSize + r := by omega
      refine congrArg (Option.map · _) (funext fun info => ?_)
      rw [repointEntry, repointEntry, Function.update_of_ne hplace]

/-- Records begin where they began. -/
theorem BlockPatched.reaches (h : BlockPatched blockSize lba extents data data') (hq : Reaches data q) : Reaches data' q := by
  induction hq with
  | refl => exact .refl
  | tail hfront hstep ih =>
      obtain ⟨length, hlength, hne, hfits, hnext⟩ := hstep
      exact ih.tail ⟨length, (h.head_eq _ hfront).trans hlength, hne, h.length_eq ▸ hfits, hnext⟩

/-- A location with the extent that the record there has been given. -/
def RecordLocation.repoint (extents : Nat → Option RecordExtent) (location : RecordLocation) : RecordLocation :=
  (extents location.recordOffset).elim location fun extent =>
    ⟨location.recordOffset, extent.firstSector, extent.size, location.isDir, extent.firstSector_lt⟩

@[simp] theorem repoint_isDir {location : RecordLocation} : (location.repoint extents).isDir = location.isDir := by
  rw [RecordLocation.repoint]
  cases extents location.recordOffset with
  | none => rfl
  | some extent => rfl

/-- The search of a patched block finds the same record, with its extent as it is now. -/
theorem findInRecords_patched {fs : Iso9660} (hblock : BlockPatched fs.blockSize lba extents data data') (hlba : lba < 2 ^ 32)
    (hdata : data.length = fs.blockSize) (hq : Reaches data q) :
    findInRecords fs.blockSize lba data' name fuel q = findInRecords fs.blockSize lba data name fuel q >>= fun found =>
      value (found.map (RecordLocation.repoint extents)) := by
  induction fuel generalizing q with
  | zero => rfl
  | succ fuel ih =>
      rw [findInRecords, findInRecords, hblock.length_eq, hblock.head_eq q hq]
      by_cases hend : data.length ≤ q
      · rw [if_pos hend, if_pos hend]
        rfl
      · have hhead := List.getElem?_eq_getElem (show q < data.length by omega)
        rw [if_neg hend, if_neg hend, hhead, ofOption_some, value_bind, value_bind]
        generalize data[q] = length at hhead
        by_cases hzero : length = 0
        · rw [if_pos hzero, if_pos hzero]
          rfl
        by_cases hlong : data.length < q + length.toNat
        · rw [if_neg hzero, if_pos hlong, if_neg hzero, if_pos hlong]
          rfl
        have hentry := hblock.entry_eq q length hq hhead (by omega)
        rw [if_neg hzero, if_neg hlong, if_neg hzero, if_neg hlong, slice_eq_some (by rw [hblock.length_eq]; omega),
          slice_eq_some (by omega), ofOption_some, value_bind, ofOption_some, value_bind, parseDirectoryRecord_eq, value_bind,
          parseDirectoryRecord_eq, value_bind]
        rw [listedEntry, listedEntry] at hentry
        rw [hentry]
        cases hfound : (recordEntry ((data.drop q).take length.toNat)).filter fun info =>
            info.name ≠ selfName ∧ info.name ≠ parentName with
        | none => exact ih (hq.tail ⟨length, hhead, hzero, by omega, rfl⟩)
        | some info =>
            obtain ⟨hcluster, hsize⟩ := extent_lt_of_listedEntry hfound
            rw [Option.map_some, Option.filter_some, Option.filter_some, repointEntry_name]
            by_cases hname : eqIgnoreAsciiCase info.name name = true
            · rw [if_pos hname, if_pos hname]
              dsimp only
              rw [@recordOffset_eq fs lba q hlba (by omega), ofExcept_ok, value_bind, value_bind]
              refine congrArg (fun location => value (some location)) ?_
              rw [RecordLocation.repoint, RecordLocation.mk.injEq]
              simp only [repointEntry]
              cases extents (lba * fs.blockSize + q) with
              | none => exact ⟨rfl, rfl, rfl, rfl⟩
              | some extent => exact ⟨rfl, Nat.mod_eq_of_lt extent.firstSector_lt, Nat.mod_eq_of_lt extent.size_lt, rfl⟩
            · rw [if_neg hname, if_neg hname]
              exact ih (hq.tail ⟨length, hhead, hzero, by omega, rfl⟩)

end blocks

end NextBoot.Fs.Iso9660
