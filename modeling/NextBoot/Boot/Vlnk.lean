import NextBoot.Bytes
import NextBoot.Results
import NextBoot.ShiftRegisters

namespace NextBoot.Vlnk

open Bytes Results ShiftRegisters

def vlnkFileLen : Nat := 32 * 1024

def vlnkRecordLen : Nat := 512

def vlnkNameMax : Nat := 384

def vlnkGuid : List UInt8 :=
  [0x20, 0x20, 0x77, 0x77, 0x77, 0x2e, 0x76, 0x65, 0x6e, 0x74, 0x6f, 0x79, 0x2e, 0x6e, 0x65, 0x74]

def vlnkCrcOffset : Nat := 16

def vlnkDiskSignatureOffset : Nat := 20

def vlnkPartOffsetOffset : Nat := 24

def vlnkFilepathOffset : Nat := 32

structure VentoyVlnk where
  diskSignature : List UInt8
  partOffsetBytes : UInt64
  filepath : String
deriving DecidableEq, Repr

inductive VentoyVlnkError where
  | invalidSize
  | invalidGuid
  | invalidCrc
  | invalidPath
deriving DecidableEq, Repr

def crcBit (crc : UInt32) : UInt32 :=
  let mask := 0 - (crc &&& 1)
  (crc >>> 1) ^^^ (0x82f63b78 &&& mask)

def crcByte (crc : UInt32) (byte : UInt8) : UInt32 := crcBit^[8] (crc ^^^ byte.toUInt32)

def crc32c (crc : UInt32) (data : List UInt8) : UInt32 := data.foldl crcByte (crc ^^^ 0xffffffff) ^^^ 0xffffffff

def readU32 (data : List UInt8) (offset : Nat) : Option UInt32 := (readLe 4 data offset).map UInt32.ofNat

def readU64 (data : List UInt8) (offset : Nat) : Option UInt64 := (readLe 8 data offset).map UInt64.ofNat

def asBytes (text : String) : List UInt8 := text.toByteArray.data.toList

/-- `core::str::from_utf8`. -/
def fromUtf8 (bytes : List UInt8) : Option String := String.fromUTF8? bytes.toByteArray

def readCString (data : List UInt8) : Except VentoyVlnkError String := do
  let stop := data.findIdx (· = 0)
  refuseIf (stop = 0) .invalidPath
  someOr (fromUtf8 (data.take stop)) .invalidPath

def parseVlnk (data : List UInt8) : Except VentoyVlnkError VentoyVlnk := do
  refuseIf (data.length ≠ vlnkFileLen) .invalidSize
  let record ← someOr (slice data 0 vlnkRecordLen) .invalidSize
  refuseIf (slice record 0 vlnkGuid.length ≠ some vlnkGuid) .invalidGuid
  let readCrc ← someOr (readU32 record vlnkCrcOffset) .invalidSize
  let crcRecord := splice record vlnkCrcOffset (List.replicate 4 0)
  refuseIf (readCrc ≠ crc32c 0 crcRecord) .invalidCrc
  let diskSignature ← someOr (slice record vlnkDiskSignatureOffset 4) .invalidSize
  let partOffsetBytes ← someOr (readU64 record vlnkPartOffsetOffset) .invalidSize
  let field ← someOr (slice record vlnkFilepathOffset vlnkNameMax) .invalidSize
  let filepath ← readCString field
  pure ⟨diskSignature, partOffsetBytes, filepath⟩

def buildVlnkForTest (diskSignature : Vector UInt8 4) (partOffsetBytes : UInt64) (filepath : String) : List UInt8 :=
  let pathBytes := asBytes filepath
  let copyLen := min pathBytes.length (vlnkNameMax - 1)
  let data := patch (List.replicate vlnkFileLen 0)
    [(0, vlnkGuid), (vlnkDiskSignatureOffset, diskSignature.toList),
      (vlnkPartOffsetOffset, toLeBytes 8 partOffsetBytes.toNat), (vlnkFilepathOffset, pathBytes.take copyLen)]
  let crc := crc32c 0 (data.take vlnkRecordLen)
  splice data vlnkCrcOffset (toLeBytes 4 crc.toNat)

/-- Every change of a file is in the record, in a window of four bytes, and not in the checksum. -/
def Burst (data data' : List UInt8) : Prop :=
  ∃ i, ∀ j, data'[j]? ≠ data[j]? → i ≤ j ∧ j < i + 4 ∧ j < vlnkRecordLen ∧ (j < vlnkCrcOffset ∨ vlnkCrcOffset + 4 ≤ j)

/-- Every change of a file is in the checksum of its record. -/
def InCrc (data data' : List UInt8) : Prop :=
  ∀ j, data'[j]? ≠ data[j]? → vlnkCrcOffset ≤ j ∧ j < vlnkCrcOffset + 4

variable {data data' record record' : List UInt8} {v : VentoyVlnk} {crc : UInt32} {byte : UInt8}

theorem crcBit_toBitVec : (crcBit crc).toBitVec = shift 0x82f63b78#32 crc.toBitVec := by
  have hlow : (crc &&& 1).toBitVec = BitVec.setWidth 32 (BitVec.ofBool (crc.toBitVec.getLsbD 0)) :=
    BitVec.and_one_eq_setWidth_ofBool_getLsbD
  simp only [crcBit, shift, UInt32.toBitVec_xor, UInt32.toBitVec_and, UInt32.toBitVec_sub, hlow]
  congr 1
  cases crc.toBitVec.getLsbD 0 <;> decide

theorem crcByte_toBitVec : (crcByte crc byte).toBitVec = step 0x82f63b78#32 crc.toBitVec byte := by
  have hbits : ∀ n (crc : UInt32), (crcBit^[n] crc).toBitVec = (shift 0x82f63b78#32)^[n] crc.toBitVec := by
    intro n
    induction n with
    | zero => exact fun _ => rfl
    | succ n ih =>
        intro crc
        rw [Function.iterate_succ_apply, Function.iterate_succ_apply, ih, crcBit_toBitVec]
  rw [crcByte, hbits]
  rfl

theorem crcBytes_toBitVec : (record.foldl crcByte crc).toBitVec = run 0x82f63b78#32 crc.toBitVec record := by
  induction record generalizing crc with
  | nil => rfl
  | cons byte record ih => rw [List.foldl_cons, ih, crcByte_toBitVec]; rfl

theorem crc32c_injective (hlength : record.length = record'.length) {i : Nat}
    (hburst : ∀ j, j < i ∨ i + 4 ≤ j → record[j]? = record'[j]?) (h : crc32c crc record = crc32c crc record') :
    record = record' := by
  have hrun : record.foldl crcByte (crc ^^^ 0xffffffff) = record'.foldl crcByte (crc ^^^ 0xffffffff) :=
    (UInt32.xor_left_inj _).mp h
  have hregister := congrArg UInt32.toBitVec hrun
  rw [crcBytes_toBitVec, crcBytes_toBitVec] at hregister
  exact @eq_of_burst 32 _ _ _ _ i 4 (by decide) (by decide) (by decide) hlength hburst hregister

/-- The record of a file with its checksum cleared. -/
def crcRecord (data : List UInt8) : List UInt8 := splice (data.take vlnkRecordLen) vlnkCrcOffset (List.replicate 4 0)

/-- What a file has that is accepted. -/
structure Accepted (data : List UInt8) (v : VentoyVlnk) : Prop where
  length : data.length = vlnkFileLen
  guid : slice (data.take vlnkRecordLen) 0 vlnkGuid.length = some vlnkGuid
  crc : readU32 (data.take vlnkRecordLen) vlnkCrcOffset = some (crc32c 0 (crcRecord data))
  diskSignature : slice (data.take vlnkRecordLen) vlnkDiskSignatureOffset 4 = some v.diskSignature
  partOffsetBytes : readU64 (data.take vlnkRecordLen) vlnkPartOffsetOffset = some v.partOffsetBytes
  filepath : ∃ field, slice (data.take vlnkRecordLen) vlnkFilepathOffset vlnkNameMax = some field ∧
    readCString field = .ok v.filepath

theorem slice_record (hlength : data.length = vlnkFileLen) :
    slice data 0 vlnkRecordLen = some (data.take vlnkRecordLen) :=
  slice_eq_some (by rw [hlength]; decide)

theorem parseVlnk_eq_ok : parseVlnk data = .ok v ↔ Accepted data v := by
  constructor
  · intro h
    obtain ⟨_, hlength, h⟩ := bind_eq_ok.mp h
    rw [refuseIf_eq_ok, not_not] at hlength
    obtain ⟨record, hrecord, h⟩ := bind_eq_ok.mp h
    rw [slice_record hlength] at hrecord
    obtain rfl := Option.some.inj (someOr_eq_ok.mp hrecord)
    obtain ⟨_, hguid, h⟩ := bind_eq_ok.mp h
    rw [refuseIf_eq_ok, not_not] at hguid
    obtain ⟨readCrc, hread, h⟩ := bind_eq_ok.mp h
    obtain ⟨_, hcrc, h⟩ := bind_eq_ok.mp h
    rw [refuseIf_eq_ok, not_not] at hcrc
    obtain ⟨diskSignature, hsignature, h⟩ := bind_eq_ok.mp h
    obtain ⟨partOffsetBytes, hoffset, h⟩ := bind_eq_ok.mp h
    obtain ⟨field, hfield, h⟩ := bind_eq_ok.mp h
    obtain ⟨filepath, hpath, h⟩ := bind_eq_ok.mp h
    obtain rfl := pure_eq_ok.mp h
    exact ⟨hlength, hguid, hcrc ▸ someOr_eq_ok.mp hread, someOr_eq_ok.mp hsignature, someOr_eq_ok.mp hoffset, field,
      someOr_eq_ok.mp hfield, hpath⟩
  · rintro ⟨hlength, hguid, hcrc, hsignature, hoffset, field, hfield, hpath⟩
    have hcrc' : readU32 (data.take vlnkRecordLen) vlnkCrcOffset =
        some (crc32c 0 (splice (data.take vlnkRecordLen) vlnkCrcOffset (List.replicate 4 0))) := hcrc
    simp only [parseVlnk, slice_record hlength, hguid, hcrc', hsignature, hoffset, hfield, hpath, hlength, refuseIf,
      someOr_some, ok_bind, ne_eq, not_true_eq_false, if_false]
    rfl

theorem readU32_eq_some {offset : Nat} (h : readU32 data offset = some crc) :
    ∃ field, slice data offset 4 = some field ∧ fromLeBytes field = crc.toNat := by
  obtain ⟨value, hvalue, rfl⟩ := Option.map_eq_some_iff.mp h
  obtain ⟨field, hfield, rfl⟩ := Option.map_eq_some_iff.mp hvalue
  have hlt := fromLeBytes_lt field
  rw [slice_length hfield] at hlt
  exact ⟨field, hfield, (UInt32.toNat_ofNat_of_lt' hlt).symm⟩

theorem fromLeBytes_injective {field field' : List UInt8} (hlength : field.length = field'.length)
    (h : fromLeBytes field = fromLeBytes field') : field = field' := by
  rw [← toLeBytes_fromLeBytes field, ← toLeBytes_fromLeBytes field', hlength, h]

section Tampering

theorem length_record (hlength : data.length = vlnkFileLen) : (data.take vlnkRecordLen).length = vlnkRecordLen := by
  rw [List.length_take, hlength]
  decide

theorem length_crcRecord (hlength : data.length = vlnkFileLen) : (crcRecord data).length = vlnkRecordLen := by
  rw [crcRecord, length_splice _ _ _ (by rw [length_record hlength]; decide), length_record hlength]

theorem getElem?_crcRecord (hlength : data.length = vlnkFileLen) (j : Nat) : (crcRecord data)[j]? =
    if vlnkCrcOffset ≤ j ∧ j < vlnkCrcOffset + 4 then (List.replicate 4 (0 : UInt8))[j - vlnkCrcOffset]?
    else (data.take vlnkRecordLen)[j]? :=
  getElem?_splice _ _ _ (by rw [length_record hlength]; decide) j

theorem crcRecord_congr (hlength : data.length = vlnkFileLen) (hlength' : data'.length = vlnkFileLen) {j : Nat}
    (hsame : ¬ (vlnkCrcOffset ≤ j ∧ j < vlnkCrcOffset + 4) → data'[j]? = data[j]?) :
    (crcRecord data')[j]? = (crcRecord data)[j]? := by
  rw [getElem?_crcRecord hlength, getElem?_crcRecord hlength']
  split
  · rfl
  · next hj => rw [List.getElem?_take, List.getElem?_take, hsame hj]

theorem crc32c_of_accepted {v' : VentoyVlnk} (h : Accepted data v) (h' : Accepted data' v')
    (hcrc : ∀ j, vlnkCrcOffset ≤ j → j < vlnkCrcOffset + 4 → data'[j]? = data[j]?) :
    crc32c 0 (crcRecord data') = crc32c 0 (crcRecord data) := by
  have hslice : slice (data'.take vlnkRecordLen) vlnkCrcOffset 4 = slice (data.take vlnkRecordLen) vlnkCrcOffset 4 := by
    apply slice_congr
    · rw [length_record h.length, length_record h'.length]
    · intro j hlow hhigh
      rw [List.getElem?_take, List.getElem?_take, hcrc j hlow hhigh]
  have hread := h'.crc
  rw [readU32, readLe, hslice, ← readLe, ← readU32, h.crc] at hread
  exact (Option.some.inj hread).symm

/-- A file whose checksum holds is not accepted any more after a burst of changes. -/
theorem eq_of_burst_accepted {v' : VentoyVlnk} (h : Accepted data v) (h' : Accepted data' v') (hburst : Burst data data') :
    data' = data := by
  obtain ⟨i, hburst⟩ := hburst
  have hoff : ∀ j, ¬ (i ≤ j ∧ j < i + 4 ∧ j < vlnkRecordLen ∧ (j < vlnkCrcOffset ∨ vlnkCrcOffset + 4 ≤ j)) →
      data'[j]? = data[j]? := fun j hj => not_not.mp (mt (hburst j) hj)
  have hrecord : crcRecord data' = crcRecord data := by
    apply @crc32c_injective _ _ 0 _ i
    · intro j hj
      exact crcRecord_congr h.length h'.length fun _ => hoff j (by omega)
    · exact crc32c_of_accepted h h' fun j hlow hhigh => hoff j (by omega)
    · rw [length_crcRecord h.length, length_crcRecord h'.length]
  apply List.ext_getElem?
  intro j
  by_contra hne
  obtain ⟨-, -, hinside, hapart⟩ := hburst j hne
  have hj := congrArg (·[j]?) hrecord
  rw [getElem?_crcRecord h.length, getElem?_crcRecord h'.length, if_neg (by omega), if_neg (by omega),
    List.getElem?_take_of_lt hinside, List.getElem?_take_of_lt hinside] at hj
  exact hne hj

theorem eq_of_crc_accepted {v' : VentoyVlnk} (h : Accepted data v) (h' : Accepted data' v') (hcrc : InCrc data data') :
    data' = data := by
  have hrecord : crcRecord data' = crcRecord data := by
    apply List.ext_getElem?
    intro j
    exact crcRecord_congr h.length h'.length fun hj => not_not.mp (mt (hcrc j) hj)
  have hread := h'.crc
  rw [hrecord] at hread
  obtain ⟨field, hfield, hvalue⟩ := readU32_eq_some h.crc
  obtain ⟨field', hfield', hvalue'⟩ := readU32_eq_some hread
  have hsame : field' = field :=
    fromLeBytes_injective ((slice_length hfield').trans (slice_length hfield).symm) (hvalue'.trans hvalue.symm)
  apply List.ext_getElem?
  intro j
  by_contra hne
  obtain ⟨hlow, hhigh⟩ := hcrc j hne
  have hj := slice_getElem? hfield (i := j - vlnkCrcOffset) (by omega)
  have hj' := slice_getElem? hfield' (i := j - vlnkCrcOffset) (by omega)
  rw [Nat.add_sub_cancel' hlow, List.getElem?_take_of_lt (lt_trans hhigh (by decide))] at hj hj'
  rw [← hj, ← hj', hsame] at hne
  exact hne rfl

end Tampering

section RoundTrip

variable (diskSignature : Vector UInt8 4) (partOffsetBytes : UInt64) (filepath : String)

def vlnkFields : List (Nat × List UInt8) :=
  [(0, vlnkGuid), (vlnkDiskSignatureOffset, diskSignature.toList), (vlnkPartOffsetOffset, toLeBytes 8 partOffsetBytes.toNat),
    (vlnkFilepathOffset, asBytes filepath)]

/-- The file of a record before its checksum is written. -/
def vlnkData : List UInt8 := patch (List.replicate vlnkFileLen 0) (vlnkFields diskSignature partOffsetBytes filepath)

variable {diskSignature partOffsetBytes filepath}

theorem asBytes_eq_nil : asBytes filepath = [] ↔ filepath = "" := by
  rw [asBytes, Array.toList_eq_nil_iff, ← String.toByteArray_inj]
  exact ByteArray.ext_iff.symm

theorem fromUtf8_asBytes : fromUtf8 (asBytes filepath) = some filepath := by
  have hbytes : (asBytes filepath).toByteArray = filepath.toByteArray := by
    apply ByteArray.ext
    rw [List.data_toByteArray, asBytes, Array.toArray_toList]
  rw [fromUtf8, hbytes, String.fromUTF8?, dif_pos filepath.isValidUTF8]
  rfl

theorem readCString_append {path rest : List UInt8} {text : String} (hpath : path ≠ []) (hnul : 0 ∉ path)
    (htext : fromUtf8 path = some text) : readCString (path ++ 0 :: rest) = .ok text := by
  have hstop : (path ++ 0 :: rest).findIdx (· = 0) = path.length := by
    rw [List.findIdx_append, if_neg, List.findIdx_cons]
    · simp
    · simpa using hnul
  rw [readCString]
  simp only [hstop, List.take_left, htext]
  rw [refuseIf, if_neg (mt List.length_eq_zero_iff.mp hpath)]
  rfl

theorem vlnkFields_inside (hlength : (asBytes filepath).length ≤ vlnkNameMax - 1) :
    ∀ p ∈ vlnkFields diskSignature partOffsetBytes filepath,
      p.1 + p.2.length ≤ (List.replicate vlnkFileLen (0 : UInt8)).length := by
  simp only [vlnkNameMax] at hlength
  simp only [vlnkFields, List.forall_mem_cons, List.length_replicate, Vector.length_toList, length_toLeBytes]
  simp [vlnkGuid, vlnkFileLen, vlnkDiskSignatureOffset, vlnkPartOffsetOffset, vlnkFilepathOffset]
  omega

theorem vlnkFields_apart : (vlnkFields diskSignature partOffsetBytes filepath).Pairwise fun q r =>
    q.1 + q.2.length ≤ r.1 ∨ r.1 + r.2.length ≤ q.1 := by
  simp [vlnkFields, vlnkGuid, vlnkDiskSignatureOffset, vlnkPartOffsetOffset, vlnkFilepathOffset]

theorem length_vlnkData (hlength : (asBytes filepath).length ≤ vlnkNameMax - 1) :
    (vlnkData diskSignature partOffsetBytes filepath).length = vlnkFileLen := by
  rw [vlnkData, length_patch (vlnkFields_inside hlength), List.length_replicate]

theorem slice_vlnkData (hlength : (asBytes filepath).length ≤ vlnkNameMax - 1) {p : Nat × List UInt8}
    (hp : p ∈ vlnkFields diskSignature partOffsetBytes filepath) :
    slice (vlnkData diskSignature partOffsetBytes filepath) p.1 p.2.length = some p.2 :=
  slice_patch_mem (vlnkFields_inside hlength) vlnkFields_apart hp

theorem vlnkData_zero (hlength : (asBytes filepath).length ≤ vlnkNameMax - 1) {i : Nat} (hi : i < vlnkFileLen)
    (hapart : ∀ p ∈ vlnkFields diskSignature partOffsetBytes filepath, i < p.1 ∨ p.1 + p.2.length ≤ i) :
    (vlnkData diskSignature partOffsetBytes filepath)[i]? = some 0 := by
  rw [vlnkData, getElem?_patch_disjoint (vlnkFields_inside hlength) hapart, List.getElem?_replicate, if_pos hi]

theorem buildVlnkForTest_eq (hlength : (asBytes filepath).length ≤ vlnkNameMax - 1) :
    buildVlnkForTest diskSignature partOffsetBytes filepath =
      splice (vlnkData diskSignature partOffsetBytes filepath) vlnkCrcOffset
        (toLeBytes 4 (crc32c 0 ((vlnkData diskSignature partOffsetBytes filepath).take vlnkRecordLen)).toNat) := by
  simp only [buildVlnkForTest, Nat.min_eq_left hlength, List.take_length]
  rfl

/-- The path field is the path and a zero behind it. -/
theorem slice_filepath (hlength : (asBytes filepath).length ≤ vlnkNameMax - 1) :
    ∃ rest, slice (vlnkData diskSignature partOffsetBytes filepath) vlnkFilepathOffset vlnkNameMax =
      some (asBytes filepath ++ 0 :: rest) := by
  have hlen := @length_vlnkData diskSignature partOffsetBytes filepath hlength
  have hbytes := @slice_vlnkData diskSignature partOffsetBytes filepath hlength (vlnkFilepathOffset, asBytes filepath)
    (by simp [vlnkFields])
  have hnul : (vlnkData diskSignature partOffsetBytes filepath)[vlnkFilepathOffset + (asBytes filepath).length]? =
      some 0 := by
    apply vlnkData_zero hlength
    · simp only [vlnkNameMax] at hlength
      simp only [vlnkFilepathOffset, vlnkFileLen]
      omega
    · simp only [vlnkFields, List.forall_mem_cons, Vector.length_toList, length_toLeBytes]
      simp [vlnkGuid, vlnkDiskSignatureOffset, vlnkPartOffsetOffset, vlnkFilepathOffset]
      omega
  obtain ⟨hle, hbytes⟩ := slice_isSome_iff.mp hbytes
  obtain ⟨hlt, hget⟩ := List.getElem?_eq_some_iff.mp hnul
  obtain ⟨n, hn⟩ : ∃ n, vlnkNameMax = (asBytes filepath).length + (n + 1) := by
    refine ⟨vlnkNameMax - 1 - (asBytes filepath).length, ?_⟩
    simp only [vlnkNameMax] at hlength ⊢
    omega
  refine ⟨((vlnkData diskSignature partOffsetBytes filepath).drop
    (vlnkFilepathOffset + (asBytes filepath).length + 1)).take n, ?_⟩
  rw [slice_eq_some (by rw [hlen]; decide), hn, List.take_add, hbytes, List.drop_drop, List.drop_eq_getElem_cons hlt, hget,
    List.take_succ_cons]

/-- A record is accepted whose checksum is that of the record before it was written. -/
theorem accepted_of_clear {clear field : List UInt8} (hlength : clear.length = vlnkFileLen)
    (hdata : data.length = vlnkFileLen)
    (hrecord : data.take vlnkRecordLen = (splice clear vlnkCrcOffset
      (toLeBytes 4 (crc32c 0 (clear.take vlnkRecordLen)).toNat)).take vlnkRecordLen)
    (hguid : slice clear 0 vlnkGuid.length = some vlnkGuid)
    (hzero : ∀ j, vlnkCrcOffset ≤ j ∧ j < vlnkCrcOffset + 4 → clear[j]? = some 0)
    (hsignature : slice clear vlnkDiskSignatureOffset 4 = some v.diskSignature)
    (hoffset : slice clear vlnkPartOffsetOffset 8 = some (toLeBytes 8 v.partOffsetBytes.toNat))
    (hfield : slice clear vlnkFilepathOffset vlnkNameMax = some field) (hpath : readCString field = .ok v.filepath) :
    Accepted data v := by
  generalize hcrc : crc32c 0 (clear.take vlnkRecordLen) = crc at hrecord
  have hwrite : vlnkCrcOffset + (toLeBytes 4 crc.toNat).length ≤ clear.length := by
    rw [length_toLeBytes, hlength]
    decide
  have hsplice : vlnkRecordLen ≤ (splice clear vlnkCrcOffset (toLeBytes 4 crc.toNat)).length := by
    rw [length_splice _ _ _ hwrite, hlength]
    decide
  have hslice : ∀ offset len, offset + len ≤ vlnkRecordLen →
      (offset + len ≤ vlnkCrcOffset ∨ vlnkCrcOffset + 4 ≤ offset) →
      slice (data.take vlnkRecordLen) offset len = slice clear offset len := by
    intro offset len hinside hapart
    rw [hrecord, slice_take hinside hsplice, slice_splice_disjoint hwrite (by rwa [length_toLeBytes])]
  have hclear : crcRecord data = clear.take vlnkRecordLen := by
    apply List.ext_getElem?
    intro j
    rw [getElem?_crcRecord hdata]
    split
    · next hj =>
        rw [List.getElem?_replicate, if_pos (by omega), List.getElem?_take_of_lt (lt_trans hj.2 (by decide)), hzero j hj]
    · next hj =>
        rw [hrecord, List.getElem?_take, List.getElem?_take, getElem?_splice _ _ _ hwrite, length_toLeBytes, if_neg hj]
  have hvalue : crc.toNat < 256 ^ 4 := crc.toNat_lt
  refine ⟨hdata, ?_, ?_, ?_, ?_, field, ?_, hpath⟩
  · rw [hslice _ _ (by decide) (.inl (by decide)), hguid]
  · rw [hclear, hcrc, hrecord, readU32, readLe, slice_take (by decide) hsplice, ← readLe,
      readLe_splice_self (by rwa [length_toLeBytes] at hwrite) hvalue, Option.map_some, UInt32.ofNat_toNat]
  · rw [hslice _ _ (by decide) (.inr (by decide)), hsignature]
  · have hbytes : fromLeBytes (toLeBytes 8 v.partOffsetBytes.toNat) = v.partOffsetBytes.toNat := by
      rw [fromLeBytes_toLeBytes]
      exact Nat.mod_eq_of_lt v.partOffsetBytes.toNat_lt
    rw [readU64, readLe, hslice _ _ (by decide) (.inr (by decide)), hoffset, Option.map_some, hbytes, Option.map_some,
      UInt64.ofNat_toNat]
  · rw [hslice _ _ (by decide) (.inr (by decide)), hfield]

theorem accepted_of_record (hlength : (asBytes filepath).length ≤ vlnkNameMax - 1) (hpath : filepath ≠ "")
    (hnul : 0 ∉ asBytes filepath) (hdata : data.length = vlnkFileLen)
    (hrecord : data.take vlnkRecordLen =
      (buildVlnkForTest diskSignature partOffsetBytes filepath).take vlnkRecordLen) :
    Accepted data ⟨diskSignature.toList, partOffsetBytes, filepath⟩ := by
  obtain ⟨rest, hfield⟩ := @slice_filepath diskSignature partOffsetBytes filepath hlength
  rw [buildVlnkForTest_eq hlength] at hrecord
  refine accepted_of_clear (length_vlnkData hlength) hdata hrecord ?_ ?_ ?_ ?_ hfield ?_
  · exact slice_vlnkData hlength (p := (0, vlnkGuid)) (by simp [vlnkFields])
  · rintro j ⟨hlow, hhigh⟩
    refine vlnkData_zero hlength (lt_trans hhigh (by decide)) ?_
    simp only [vlnkFields, List.forall_mem_cons, Vector.length_toList, length_toLeBytes]
    simp only [vlnkCrcOffset] at hlow hhigh
    simp [vlnkGuid, vlnkDiskSignatureOffset, vlnkPartOffsetOffset, vlnkFilepathOffset]
    omega
  · have hsignature := @slice_vlnkData diskSignature partOffsetBytes filepath hlength
      (vlnkDiskSignatureOffset, diskSignature.toList) (by simp [vlnkFields])
    rwa [Vector.length_toList] at hsignature
  · have hoffset := @slice_vlnkData diskSignature partOffsetBytes filepath hlength
      (vlnkPartOffsetOffset, toLeBytes 8 partOffsetBytes.toNat) (by simp [vlnkFields])
    rwa [length_toLeBytes] at hoffset
  · refine readCString_append ?_ hnul fromUtf8_asBytes
    exact mt asBytes_eq_nil.mp hpath

theorem length_buildVlnkForTest (hlength : (asBytes filepath).length ≤ vlnkNameMax - 1) :
    (buildVlnkForTest diskSignature partOffsetBytes filepath).length = vlnkFileLen := by
  have hlen := @length_vlnkData diskSignature partOffsetBytes filepath hlength
  rw [buildVlnkForTest_eq hlength, length_splice, hlen]
  rw [length_toLeBytes, hlen]
  decide

end RoundTrip

theorem vlnk_records :
    (∀ (diskSignature : Vector UInt8 4) (partOffsetBytes : UInt64) (filepath : String) (data : List UInt8),
      filepath ≠ "" → (asBytes filepath).length ≤ 383 → 0 ∉ asBytes filepath → data.length = vlnkFileLen →
      data.take vlnkRecordLen = (buildVlnkForTest diskSignature partOffsetBytes filepath).take vlnkRecordLen →
      parseVlnk data = .ok ⟨diskSignature.toList, partOffsetBytes, filepath⟩) ∧
    ∀ data data' v, parseVlnk data = .ok v → data' ≠ data → Burst data data' ∨ InCrc data data' →
      ∃ error, parseVlnk data' = .error error := by
  constructor
  · intro diskSignature partOffsetBytes filepath data hpath hlength hnul hdata hrecord
    exact parseVlnk_eq_ok.mpr (accepted_of_record hlength hpath hnul hdata hrecord)
  · intro data data' v h hne hchange
    cases h' : parseVlnk data' with
    | error error => exact ⟨error, rfl⟩
    | ok v' =>
        rcases hchange with hburst | hcrc
        · exact absurd (eq_of_burst_accepted (parseVlnk_eq_ok.mp h) (parseVlnk_eq_ok.mp h') hburst) hne
        · exact absurd (eq_of_crc_accepted (parseVlnk_eq_ok.mp h) (parseVlnk_eq_ok.mp h') hcrc) hne

def sampleVlnk : List UInt8 := buildVlnkForTest #v[1, 2, 3, 4] 4096 "/a.iso"

theorem sampleVlnk_parsed :
    parseVlnk sampleVlnk = .ok ⟨[1, 2, 3, 4], 4096, "/a.iso"⟩ ∧
      ∃ error, parseVlnk (sampleVlnk.set vlnkFilepathOffset 98) = .error error := by
  have hparsed := vlnk_records.1 #v[1, 2, 3, 4] 4096 "/a.iso" sampleVlnk (by decide) (by decide) (by decide)
    (length_buildVlnkForTest (by decide)) rfl
  have hchanged : sampleVlnk[vlnkFilepathOffset]? ≠ some 98 := by decide +kernel
  refine ⟨hparsed, vlnk_records.2 _ _ _ hparsed ?_ (.inl ⟨vlnkFilepathOffset, ?_⟩)⟩
  · intro heq
    apply hchanged
    rw [← heq, List.getElem?_set_self]
    rw [sampleVlnk, length_buildVlnkForTest (by decide)]
    decide
  · intro j hj
    obtain rfl : vlnkFilepathOffset = j := by
      by_contra hne
      exact hj (List.getElem?_set_ne hne)
    decide

end NextBoot.Vlnk
