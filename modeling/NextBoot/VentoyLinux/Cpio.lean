import NextBoot.Newc
import NextBoot.Results
import NextBoot.Strings
import NextBoot.Words

namespace NextBoot.VentoyLinux

open Bytes Newc Results Strings Words

inductive VentoyLinuxInitrdError where
  | invalidArchive
  | invalidSectorSize
  | unalignedExtent
  | valueOutOfRange
  | nameTooLong
  | fileTooLarge
  | outputReserveFailed
deriving DecidableEq, Repr

def cpioMagicNewc : List UInt8 := ascii "070701"

def cpioHeaderLen : Nat := 110

def cpioFileMode : UInt32 := 0o100777

def cpioTrailer : Text := "TRAILER!!!".toList

def cpioFinalAlignment : Nat := 512

/-- The most bytes that a vector holds. -/
def isizeMax : Nat := 2 ^ 63 - 1

def utf8 (text : Text) : List UInt8 := text.flatMap String.utf8EncodeChar

def IsUtf8 (bytes : List UInt8) : Prop := bytes.toByteArray.IsValidUTF8

instance (bytes : List UInt8) : Decidable (IsUtf8 bytes) := inferInstanceAs (Decidable (ByteArray.IsValidUTF8 _))

def alignUp (value align : Nat) : Option Nat :=
  if align = 0 then none else (checkedAdd 64 value (align - 1)).map fun sum => sum / align * align

def alignVec (data : List UInt8) (align : Nat) : List UInt8 :=
  match alignUp data.length align with
  | some next => data ++ List.replicate (next - data.length) 0
  | none => data

def hex : List UInt8 := ascii "0123456789abcdef"

def pushHexField (value : UInt32) : List UInt8 :=
  (List.range 8).reverse.map fun shift => hex.getD (value.toNat / 16 ^ shift % 16) 0

def parseHexField (header : List UInt8) (offset : Nat) : Except VentoyLinuxInitrdError Nat := do
  let field ← someOr (slice header offset 8) .invalidArchive
  field.foldlM (fun value byte => do
    let digit ← someOr (hexDigit byte) .invalidArchive
    let base ← someOr (checkedMul 32 value 16) .invalidArchive
    someOr (checkedAdd 32 base digit) .invalidArchive) 0

structure ParsedEntry where
  name : List UInt8
  nextOffset : Nat
deriving DecidableEq, Repr

def parseEntry (archive : List UInt8) (offset : Nat) : Except VentoyLinuxInitrdError ParsedEntry := do
  let header ← someOr (slice archive offset cpioHeaderLen) .invalidArchive
  refuseIf (header.take cpioMagicNewc.length ≠ cpioMagicNewc) .invalidArchive
  let fileSize ← parseHexField header 54
  let nameSize ← parseHexField header 94
  refuseIf (nameSize = 0) .invalidArchive
  let nameStart ← someOr (checkedAdd 64 offset cpioHeaderLen) .invalidArchive
  let nameEnd ← someOr (checkedAdd 64 nameStart nameSize) .invalidArchive
  let nameBytes ← someOr (slice archive nameStart nameSize) .invalidArchive
  refuseIf (nameBytes.getLast? ≠ some 0) .invalidArchive
  refuseIf (¬ IsUtf8 nameBytes.dropLast) .invalidArchive
  let dataStart ← someOr (alignUp nameEnd 4) .invalidArchive
  let dataEnd ← someOr (checkedAdd 64 dataStart fileSize) .invalidArchive
  let nextOffset ← someOr (alignUp dataEnd 4) .invalidArchive
  refuseIf (archive.length < nextOffset) .invalidArchive
  pure ⟨nameBytes.dropLast, nextOffset⟩

/-- The loop of `archive_payload_end`. Each round moves on by at least a header. -/
def payloadEndFrom (archive : List UInt8) : Nat → Nat → Except VentoyLinuxInitrdError Nat
  | 0, _ => .error .invalidArchive
  | rounds + 1, offset => do
      refuseIf (archive.length ≤ offset) .invalidArchive
      let entry ← parseEntry archive offset
      if entry.name = utf8 cpioTrailer then pure offset else payloadEndFrom archive rounds entry.nextOffset

def archivePayloadEnd (archive : List UInt8) : Except VentoyLinuxInitrdError Nat :=
  if archive = [] then pure 0 else payloadEndFrom archive (archive.length + 1) 0

structure NewcArchiveBuilder where
  data : List UInt8
  nextIno : UInt32
deriving DecidableEq, Repr

/-- The header that `add_entry` pushes. -/
def entryHeader (ino mode fileSize nameSize : UInt32) : List UInt8 :=
  cpioMagicNewc ++ [ino, mode, 0, 0, 1, 0, fileSize, 0, 0, 0, 0, nameSize, 0].flatMap pushHexField

namespace NewcArchiveBuilder

def new : NewcArchiveBuilder := ⟨[], 0xfffffff0⟩

def appendArchiveWithoutTrailer (builder : NewcArchiveBuilder) (archive : List UInt8) :
    Except VentoyLinuxInitrdError NewcArchiveBuilder := do
  let stop ← archivePayloadEnd archive
  refuseIf (isizeMax < builder.data.length + stop) .outputReserveFailed
  pure { builder with data := builder.data ++ archive.take stop }

/-- An entry that is refused ends the build, so what had been pushed of it is not kept. -/
def addEntry (builder : NewcArchiveBuilder) (name : Text) (mode : UInt32) (contents : List UInt8) :
    Except VentoyLinuxInitrdError NewcArchiveBuilder := do
  refuseIf (0 ∈ utf8 name) .nameTooLong
  let nameSize ← someOr (checkedAdd 64 (utf8 name).length 1) .valueOutOfRange
  refuseIf (2 ^ 32 ≤ contents.length) .fileTooLarge
  let headerAndName ← someOr (checkedAdd 64 cpioHeaderLen nameSize) .valueOutOfRange
  let dataStart ← someOr (alignUp headerAndName 4) .valueOutOfRange
  let dataLen ← someOr (alignUp contents.length 4) .valueOutOfRange
  let total ← someOr (checkedAdd 64 dataStart dataLen) .valueOutOfRange
  refuseIf (isizeMax < builder.data.length + total) .outputReserveFailed
  refuseIf (2 ^ 32 ≤ nameSize) .nameTooLong
  let header := entryHeader builder.nextIno mode (UInt32.ofNat contents.length) (UInt32.ofNat nameSize)
  let named := alignVec (builder.data ++ header ++ utf8 name ++ [0]) 4
  pure ⟨alignVec (named ++ contents) 4, builder.nextIno - 1⟩

def addFile (builder : NewcArchiveBuilder) (name : Text) (contents : List UInt8) :
    Except VentoyLinuxInitrdError NewcArchiveBuilder :=
  builder.addEntry name cpioFileMode contents

def finish (builder : NewcArchiveBuilder) : Except VentoyLinuxInitrdError (List UInt8) := do
  let builder ← builder.addEntry cpioTrailer 0 []
  pure (alignVec builder.data cpioFinalAlignment)

end NewcArchiveBuilder

/-- A builder that is given base archives, then files, and is finished. -/
def buildArchive (bases : List (List UInt8)) (files : List (Text × List UInt8)) :
    Except VentoyLinuxInitrdError (List UInt8) := do
  let builder ← bases.foldlM NewcArchiveBuilder.appendArchiveWithoutTrailer .new
  let builder ← files.foldlM (fun builder file => builder.addFile file.1 file.2) builder
  builder.finish

/-- An entry as `add_entry` pushes it, padded from its own start. -/
def encodeEntry (ino mode : UInt32) (name contents : List UInt8) : List UInt8 :=
  let named := entryHeader ino mode (UInt32.ofNat contents.length) (UInt32.ofNat (name.length + 1)) ++ name ++ [0]
  named ++ List.replicate (alignUp4 named.length - named.length) 0 ++ contents ++
    List.replicate (alignUp4 contents.length - contents.length) 0

def builtEntry (ino mode : UInt32) (name contents : List UInt8) : Entry :=
  ⟨⟨ino.toNat, mode.toNat, 0, 0, 1, 0, contents.length, 0, 0, 0, 0, name.length + 1, 0⟩, name, contents⟩

variable {bytes name contents archive more : List UInt8} {ino mode fileSize nameSize : UInt32} {offset : Nat} {entry : Entry}
  {entries : List Entry} {builder builder' : NewcArchiveBuilder}

theorem alignUp_four {n : Nat} (h : n + 3 < 2 ^ 64) : alignUp n 4 = some (alignUp4 n) := by
  rw [alignUp, if_neg (by decide), checkedAdd_eq_some.mpr ⟨h, rfl⟩]
  rfl

@[simp] theorem length_pushHexField (value : UInt32) : (pushHexField value).length = 8 := by
  rw [pushHexField, List.length_map, List.length_reverse, List.length_range]

theorem hexDigit_hex {n : Nat} (h : n < 16) : hexDigit (hex.getD n 0) = some n := by
  have hall : ∀ m < 16, hexDigit (hex.getD m 0) = some m := by decide
  exact hall n h

/-- Digits pushed from the highest on are read back into the low part of the value. -/
theorem hexFrom_digits {value acc : Nat} (n : Nat) :
    hexFrom acc ((List.range n).reverse.map fun shift => hex.getD (value / 16 ^ shift % 16) 0) =
      some (acc * 16 ^ n + value % 16 ^ n) := by
  induction n generalizing acc with
  | zero =>
      rw [Nat.pow_zero, Nat.mod_one, Nat.mul_one]
      rfl
  | succ n ih =>
      rw [List.range_succ, List.reverse_append, List.reverse_singleton, List.singleton_append, List.map_cons, hexFrom_cons,
        hexDigit_hex (Nat.mod_lt _ (by decide)), Option.bind_some, ih, Nat.mod_pow_succ, Nat.pow_succ]
      refine congrArg some ?_
      ring

theorem hexFrom_pushHexField (value : UInt32) : hexFrom 0 (pushHexField value) = some value.toNat := by
  have hlt : value.toNat < 16 ^ 8 := value.toNat_lt
  rw [pushHexField, hexFrom_digits, Nat.mod_eq_of_lt hlt, Nat.zero_mul, Nat.zero_add]

theorem length_flatMap_pushHexField (values : List UInt32) : (values.flatMap pushHexField).length = 8 * values.length := by
  induction values with
  | nil => rfl
  | cons value values ih =>
      rw [List.flatMap_cons, List.length_append, length_pushHexField, ih, List.length_cons]
      omega

theorem slice_flatMap_pushHexField {values : List UInt32} {value : UInt32} {i : Nat} (h : values[i]? = some value) :
    slice (values.flatMap pushHexField) (8 * i) 8 = some (pushHexField value) := by
  induction values generalizing i with
  | nil => cases h
  | cons first values ih =>
      have hlen := length_flatMap_pushHexField values
      cases i with
      | zero =>
          rw [List.getElem?_cons_zero, Option.some.injEq] at h
          rw [List.flatMap_cons, slice_eq_some (by rw [List.length_append, length_pushHexField]; omega), Nat.mul_zero,
            List.drop_zero, List.take_left' (length_pushHexField first), h]
      | succ i =>
          rw [List.getElem?_cons_succ] at h
          obtain ⟨hfits, htake⟩ := slice_isSome_iff.mp (ih h)
          rw [List.flatMap_cons, slice_eq_some (by rw [List.length_append, length_pushHexField]; omega),
            show 8 * (i + 1) = (pushHexField first).length + 8 * i by rw [length_pushHexField]; omega, ← List.drop_drop,
            List.drop_left, htake]

theorem hexField_header {values : List UInt32} {value : UInt32} (i : Nat) (h : values[i]? = some value) :
    hexField (cpioMagicNewc ++ values.flatMap pushHexField) (6 + 8 * i) = some value.toNat := by
  obtain ⟨hfits, htake⟩ := slice_isSome_iff.mp (slice_flatMap_pushHexField h)
  have hmagic : cpioMagicNewc.length = 6 := rfl
  rw [hexField, slice_eq_some (by rw [List.length_append]; omega), ← hmagic, ← List.drop_drop, List.drop_left, htake]
  exact hexFrom_pushHexField value

theorem length_entryHeader : (entryHeader ino mode fileSize nameSize).length = headerLen := by
  rw [entryHeader, List.length_append, length_flatMap_pushHexField]
  rfl

theorem readHeader_entryHeader : readHeader (entryHeader ino mode fileSize nameSize) =
    some ⟨ino.toNat, mode.toNat, 0, 0, 1, 0, fileSize.toNat, 0, 0, 0, 0, nameSize.toNat, 0⟩ := by
  have hmagic : (entryHeader ino mode fileSize nameSize).take 6 = magic := List.take_left' rfl
  have hfield : ∀ i value, [ino, mode, 0, 0, 1, 0, fileSize, 0, 0, 0, 0, nameSize, 0][i]? = some value →
      hexField (entryHeader ino mode fileSize nameSize) (6 + 8 * i) = some value.toNat :=
    fun i _ h => hexField_header i h
  rw [readHeader, show hexField _ 6 = _ from hfield 0 _ rfl, show hexField _ 14 = _ from hfield 1 _ rfl,
    show hexField _ 22 = _ from hfield 2 _ rfl, show hexField _ 30 = _ from hfield 3 _ rfl,
    show hexField _ 38 = _ from hfield 4 _ rfl, show hexField _ 46 = _ from hfield 5 _ rfl,
    show hexField _ 54 = _ from hfield 6 _ rfl, show hexField _ 62 = _ from hfield 7 _ rfl,
    show hexField _ 70 = _ from hfield 8 _ rfl, show hexField _ 78 = _ from hfield 9 _ rfl,
    show hexField _ 86 = _ from hfield 10 _ rfl, show hexField _ 94 = _ from hfield 11 _ rfl,
    show hexField _ 102 = _ from hfield 12 _ rfl]
  show (if (entryHeader ino mode fileSize nameSize).take 6 = magic then some _ else none) = some _
  exact if_pos hmagic

theorem alignVec_four (hbytes : bytes.length % 4 = 0) (hlen : bytes.length + more.length + 3 < 2 ^ 64) :
    alignVec (bytes ++ more) 4 = bytes ++ (more ++ List.replicate (alignUp4 more.length - more.length) 0) := by
  have hup : alignUp4 (bytes ++ more).length = bytes.length + alignUp4 more.length := by
    rw [List.length_append, alignUp4, alignUp4]
    omega
  rw [alignVec, alignUp_four (by rw [List.length_append]; omega), hup, List.length_append]
  show bytes ++ more ++ List.replicate (bytes.length + alignUp4 more.length - (bytes.length + more.length)) 0 = _
  rw [Nat.add_sub_add_left, List.append_assoc]

/-- What `add_entry` has pushed is read as the entry. -/
theorem readEntry_encodeEntry (hname : 0 ∉ name) (hsize : name.length + 1 < 2 ^ 32) (hdata : contents.length < 2 ^ 32) :
    readEntry (encodeEntry ino mode name contents) = some (builtEntry ino mode name contents) ∧
      (encodeEntry ino mode name contents).length = entryLen (builtEntry ino mode name contents).header := by
  have hheader := @length_entryHeader ino mode (UInt32.ofNat contents.length) (UInt32.ofNat (name.length + 1))
  have hdataSize : (UInt32.ofNat contents.length).toNat = contents.length := UInt32.toNat_ofNat_of_lt' hdata
  have hnameSize : (UInt32.ofNat (name.length + 1)).toNat = name.length + 1 := UInt32.toNat_ofNat_of_lt' hsize
  have hread := @readHeader_entryHeader ino mode (UInt32.ofNat contents.length) (UInt32.ofNat (name.length + 1))
  rw [hdataSize, hnameSize] at hread
  rw [encodeEntry]
  generalize entryHeader ino mode (UInt32.ofNat contents.length) (UInt32.ofNat (name.length + 1)) = header at *
  have hnamed : (header ++ name ++ [0]).length = headerLen + (name.length + 1) := by
    rw [List.length_append, List.length_append, hheader, List.length_singleton, Nat.add_assoc]
  have hstart := alignUp4_le (headerLen + (name.length + 1))
  have hend := alignUp4_le contents.length
  have hlength : (header ++ name ++ [0] ++ List.replicate (alignUp4 (headerLen + (name.length + 1)) -
      (headerLen + (name.length + 1))) 0).length = alignUp4 (headerLen + (name.length + 1)) := by
    rw [List.length_append, hnamed, List.length_replicate]
    omega
  rw [hnamed]
  have htotal : ((header ++ name ++ [0] ++ List.replicate (alignUp4 (headerLen + (name.length + 1)) -
      (headerLen + (name.length + 1))) 0) ++ contents ++ List.replicate (alignUp4 contents.length - contents.length) 0).length =
        entryLen (builtEntry ino mode name contents).header := by
    rw [List.length_append, List.length_append, hlength, List.length_replicate]
    show _ = alignUp4 (headerLen + (name.length + 1)) + alignUp4 contents.length
    omega
  refine ⟨readEntry_eq_some.mpr ⟨?_, ?_, hname, ?_, htotal.ge⟩, htotal⟩
  · refine Option.bind_eq_some_iff.mpr ⟨header, ?_, hread⟩
    rw [slice_append_left (by rw [List.length_append, hlength]; omega), slice_append_left (by rw [hlength]; omega),
      slice_append_left (by rw [hnamed]; omega), List.append_assoc, slice_append_left (by rw [hheader]; omega),
      slice_eq_some (by rw [hheader]; omega), List.drop_zero, ← hheader, List.take_length]
  · show slice _ headerLen (name.length + 1) = _
    rw [slice_append_left (by rw [List.length_append, hlength]; omega), slice_append_left (by rw [hlength]; omega),
      slice_append_left (by rw [hnamed]), slice_eq_some (by rw [hnamed]), List.append_assoc, ← hheader, List.drop_left]
    refine congrArg some (List.take_of_length_le ?_)
    rw [List.length_append, List.length_singleton]
  · show slice _ (alignUp4 (headerLen + (name.length + 1))) contents.length = _
    rw [slice_append_left (by rw [List.length_append, hlength]), slice_eq_some (by rw [List.length_append, hlength]),
      List.drop_left' hlength, List.take_length]
    rfl

theorem foldlM_hex {digits : List UInt8} {acc value left : Nat} (hleft : digits.length ≤ left) (hacc : acc * 16 ^ left + 16 ^ left ≤ 2 ^ 32)
    (h : hexFrom acc digits = some value) : (digits.foldlM (fun value byte => do
      let digit ← someOr (hexDigit byte) .invalidArchive
      let base ← someOr (checkedMul 32 value 16) .invalidArchive
      someOr (checkedAdd 32 base digit) .invalidArchive) acc : Except VentoyLinuxInitrdError Nat) = .ok value := by
  induction digits generalizing acc left with
  | nil =>
      cases h
      rfl
  | cons byte digits ih =>
      obtain ⟨left, rfl⟩ := Nat.exists_eq_add_one.mpr (show 0 < left by rw [List.length_cons] at hleft; omega)
      rw [hexFrom_cons, Option.bind_eq_some_iff] at h
      obtain ⟨digit, hdigit, h⟩ := h
      have hlt := hexDigit_lt hdigit
      have hone : 1 ≤ 16 ^ left := Nat.one_le_pow _ _ (by decide)
      have hnext : (acc * 16 + digit) * 16 ^ left + 16 ^ left ≤ 2 ^ 32 := by
        calc (acc * 16 + digit) * 16 ^ left + 16 ^ left = (acc * 16 + digit + 1) * 16 ^ left := by ring
          _ ≤ (acc * 16 + 16) * 16 ^ left := Nat.mul_le_mul_right _ (by omega)
          _ = acc * 16 ^ (left + 1) + 16 ^ (left + 1) := by rw [Nat.pow_succ]; ring
          _ ≤ 2 ^ 32 := hacc
      have hfits : acc * 16 + digit < 2 ^ 32 := by
        have hmul : acc * 16 + digit ≤ (acc * 16 + digit) * 16 ^ left := Nat.le_mul_of_pos_right _ hone
        omega
      rw [List.foldlM_cons, hdigit, checkedMul_eq_some.mpr ⟨by omega, rfl⟩, someOr_some, ok_bind, someOr_some, ok_bind,
        checkedAdd_eq_some.mpr ⟨hfits, rfl⟩, someOr_some, ok_bind]
      exact ih (by rw [List.length_cons] at hleft; omega) hnext h

theorem parseHexField_eq {header : List UInt8} {value : Nat} (h : hexField header offset = some value) :
    parseHexField header offset = .ok value := by
  obtain ⟨digits, hdigits, h⟩ := Option.bind_eq_some_iff.mp h
  rw [parseHexField, hdigits, someOr_some, ok_bind]
  exact foldlM_hex (slice_length hdigits).le (by decide) h

/-- The fields of a header that `parse_entry` looks at. -/
theorem readHeader_fields {header : List UInt8} {fields : Header} (h : readHeader header = some fields) :
    header.take 6 = magic ∧ hexField header 54 = some fields.fileSize ∧ hexField header 94 = some fields.nameSize := by
  rw [readHeader] at h
  obtain ⟨_, -, h⟩ := Option.bind_eq_some_iff.mp h
  obtain ⟨_, -, h⟩ := Option.bind_eq_some_iff.mp h
  obtain ⟨_, -, h⟩ := Option.bind_eq_some_iff.mp h
  obtain ⟨_, -, h⟩ := Option.bind_eq_some_iff.mp h
  obtain ⟨_, -, h⟩ := Option.bind_eq_some_iff.mp h
  obtain ⟨_, -, h⟩ := Option.bind_eq_some_iff.mp h
  obtain ⟨fileSize, hfile, h⟩ := Option.bind_eq_some_iff.mp h
  obtain ⟨_, -, h⟩ := Option.bind_eq_some_iff.mp h
  obtain ⟨_, -, h⟩ := Option.bind_eq_some_iff.mp h
  obtain ⟨_, -, h⟩ := Option.bind_eq_some_iff.mp h
  obtain ⟨_, -, h⟩ := Option.bind_eq_some_iff.mp h
  obtain ⟨nameSize, hname, h⟩ := Option.bind_eq_some_iff.mp h
  obtain ⟨_, -, h⟩ := Option.bind_eq_some_iff.mp h
  split at h
  · next hmagic =>
      cases h
      exact ⟨hmagic, hfile, hname⟩
  · cases h

theorem slice_drop {xs ys : List UInt8} {start len : Nat} (h : slice (xs.drop offset) start len = some ys)
    (hoffset : offset ≤ xs.length) : slice xs (offset + start) len = some ys := by
  obtain ⟨hfits, htake⟩ := slice_isSome_iff.mp h
  rw [List.length_drop] at hfits
  rw [slice_eq_some (by omega), ← List.drop_drop, htake]

/-- What `parse_entry` makes of an entry that stands at a multiple of four. -/
theorem parseEntry_eq (h : readEntry (archive.drop offset) = some entry) (hmod : offset % 4 = 0)
    (hlen : archive.length ≤ isizeMax) : parseEntry archive offset =
      if IsUtf8 entry.name then .ok ⟨entry.name, offset + entryLen entry.header⟩ else .error .invalidArchive := by
  obtain ⟨hheader, hname, -, hdata, hlength⟩ := readEntry_eq_some.mp h
  have hpos := entryLen_pos entry.header
  have hstart := alignUp4_le (headerLen + entry.header.nameSize)
  have hsize := alignUp4_le entry.header.fileSize
  have hinside := hlength
  rw [List.length_drop] at hinside
  rw [entryLen, dataStart] at hinside hpos
  rw [isizeMax] at hlen
  obtain ⟨header, hbytes, hheader⟩ := Option.bind_eq_some_iff.mp hheader
  obtain ⟨hmagic, hfile, hnameField⟩ := readHeader_fields hheader
  have hbytes' := slice_drop hbytes (by omega)
  have hname' := slice_drop hname (by omega)
  rw [Nat.add_zero] at hbytes'
  have hnonzero : entry.header.nameSize = entry.name.length + 1 := by
    have := slice_length hname
    rw [List.length_append, List.length_singleton] at this
    exact this.symm
  have hnameStart : checkedAdd 64 offset cpioHeaderLen = some (offset + headerLen) :=
    checkedAdd_eq_some.mpr ⟨by show offset + headerLen < _; omega, rfl⟩
  have hnameEnd : checkedAdd 64 (offset + headerLen) entry.header.nameSize = some (offset + headerLen + entry.header.nameSize) :=
    checkedAdd_eq_some.mpr ⟨by omega, rfl⟩
  have hdataStart : alignUp (offset + headerLen + entry.header.nameSize) 4 =
      some (offset + alignUp4 (headerLen + entry.header.nameSize)) := by
    rw [alignUp_four (by omega), alignUp4, alignUp4]
    refine congrArg some ?_
    omega
  have hdataEnd : checkedAdd 64 (offset + alignUp4 (headerLen + entry.header.nameSize)) entry.header.fileSize =
      some (offset + alignUp4 (headerLen + entry.header.nameSize) + entry.header.fileSize) :=
    checkedAdd_eq_some.mpr ⟨by omega, rfl⟩
  have hmodStart := alignUp4_mod (headerLen + entry.header.nameSize)
  have hnext : alignUp (offset + alignUp4 (headerLen + entry.header.nameSize) + entry.header.fileSize) 4 =
      some (offset + entryLen entry.header) := by
    rw [alignUp_four (by omega), entryLen, dataStart]
    generalize alignUp4 (headerLen + entry.header.nameSize) = start at *
    refine congrArg some ?_
    rw [alignUp4, alignUp4]
    omega
  have hfits : refuseIf (archive.length < offset + entryLen entry.header) VentoyLinuxInitrdError.invalidArchive = .ok () :=
    refuseIf_eq_ok.mpr (by rw [entryLen, dataStart]; omega)
  have hmagic' : refuseIf (header.take cpioMagicNewc.length ≠ cpioMagicNewc) VentoyLinuxInitrdError.invalidArchive = .ok () :=
    refuseIf_eq_ok.mpr (not_not.mpr hmagic)
  have hzero : refuseIf (entry.header.nameSize = 0) VentoyLinuxInitrdError.invalidArchive = .ok () :=
    refuseIf_eq_ok.mpr (by omega)
  have hlast : refuseIf ((entry.name ++ [0]).getLast? ≠ some 0) VentoyLinuxInitrdError.invalidArchive = .ok () :=
    refuseIf_eq_ok.mpr (not_not.mpr List.getLast?_concat)
  rw [parseEntry, show slice archive offset cpioHeaderLen = _ from hbytes', someOr_some, ok_bind, hmagic', ok_bind,
    parseHexField_eq hfile, ok_bind, parseHexField_eq hnameField, ok_bind, hzero, ok_bind, hnameStart, someOr_some, ok_bind,
    hnameEnd, someOr_some, ok_bind, hname', someOr_some, ok_bind, hlast, ok_bind, List.dropLast_concat]
  by_cases hutf8 : IsUtf8 entry.name
  · rw [refuseIf, if_neg (not_not.mpr hutf8), ok_bind, if_pos hutf8, hdataStart, someOr_some, ok_bind, hdataEnd, someOr_some,
      ok_bind, hnext, someOr_some, ok_bind, hfits]
    rfl
  · rw [refuseIf, if_pos hutf8, if_neg hutf8]
    rfl

end NextBoot.VentoyLinux
