import NextBoot.Faults
import NextBoot.Fs.Device

namespace NextBoot.Fs

open Bytes Faults Outcome

inductive FileSystemType where
  | fat32
  | exFat
  | iso9660
  | udf
  | ext4
  | xfs
  | btrfs
  | ntfs
  | unknown
deriving DecidableEq, Repr

namespace Detect

def index (data : List UInt8) (i : Nat) : Outcome FsError UInt8 := ofOption data[i]?

/-- The test of a field whose end is compared with the length first. -/
def fieldIs (data : List UInt8) (start stop : Nat) (text : List UInt8) : Outcome FsError Bool :=
  if stop ≤ data.length then do
    let field ← ofOption (slice data start (stop - start))
    pure (text.isPrefixOf field)
  else pure false

def fat32Name : List UInt8 := [0x46, 0x41, 0x54, 0x33, 0x32]

def fat12Name : List UInt8 := [0x46, 0x41, 0x54, 0x31, 0x32]

def fat16Name : List UInt8 := [0x46, 0x41, 0x54, 0x31, 0x36]

def exFatName : List UInt8 := [0x45, 0x58, 0x46, 0x41, 0x54, 0x20, 0x20, 0x20]

def ntfsName : List UInt8 := [0x4E, 0x54, 0x46, 0x53, 0x20, 0x20, 0x20, 0x20]

def xfsName : List UInt8 := [0x58, 0x46, 0x53, 0x42]

def btrfsName : List UInt8 := [0x5F, 0x42, 0x48, 0x52, 0x66, 0x53, 0x5F, 0x4D]

def isoName : List UInt8 := [0x43, 0x44, 0x30, 0x30, 0x31]

/-- The boot signature; the second byte is only looked at when the first is right. -/
def bootSignature (data : List UInt8) : Outcome FsError Bool := do
  let first ← index data 510
  if first = 0x55 then do
    let second ← index data 511
    pure (second = 0xAA)
  else pure false

def detectIsoType (data : List UInt8) : Outcome FsError FileSystemType := do
  if ← fieldIs data 0x8001 0x8006 isoName then pure .iso9660 else pure .unknown

def detectFat (data : List UInt8) : Outcome FsError Bool := do
  if 510 ≤ data.length then do
    if ← bootSignature data then do
      if ← fieldIs data 0x52 0x5A fat32Name then pure true
      else if ← fieldIs data 3 8 fat12Name then pure true
      else fieldIs data 3 8 fat16Name
    else pure false
  else pure false

def detectExFat (data : List UInt8) : Outcome FsError Bool := do
  if ← fieldIs data 0 3 [0xEB, 0x76, 0x90] then fieldIs data 3 11 exFatName else pure false

def detectFsType (data : List UInt8) : Outcome FsError FileSystemType := do
  if ← detectFat data then pure .fat32
  else if ← detectExFat data then pure .exFat
  else if ← fieldIs data 3 11 ntfsName then pure .ntfs
  else if ← fieldIs data 0 4 xfsName then pure .xfs
  else if ← fieldIs data 0x10040 0x10048 btrfsName then pure .btrfs
  else detectIsoType data

def isFat32 (data : List UInt8) : Outcome FsError Bool := do
  if data.length < 90 then pure false
  else if ← bootSignature data then fieldIs data 0x52 0x5A fat32Name
  else pure false

variable {data : List UInt8} {start stop : Nat} {text : List UInt8}

@[simp] theorem noFault_fieldIs (h : start ≤ stop) : (fieldIs data start stop text).NoFault := by
  rw [fieldIs]
  split
  · next hstop =>
      refine noFault_ofOption_bind.mpr ⟨_, slice_eq_some ?_, noFault_pure⟩
      omega
  · exact noFault_pure

/-- The boot signature can be read when both its bytes are there, or the first is and is wrong. -/
theorem noFault_bootSignature :
    (bootSignature data).NoFault ↔ 511 < data.length ∨ data.length = 511 ∧ data[510]? ≠ some 0x55 := by
  rw [bootSignature, index, noFault_ofOption_bind]
  constructor
  · rintro ⟨first, hfirst, h⟩
    have hlength := (List.getElem?_eq_some_iff.mp hfirst).1
    split at h
    · obtain ⟨second, hsecond, -⟩ := noFault_ofOption_bind.mp h
      exact .inl (List.getElem?_eq_some_iff.mp hsecond).1
    · next hwrong =>
        by_cases hlong : 511 < data.length
        · exact .inl hlong
        · refine .inr ⟨by omega, fun heq => hwrong ?_⟩
          rw [hfirst] at heq
          exact Option.some.inj heq
  · rintro (hlength | ⟨hlength, hwrong⟩)
    · refine ⟨_, List.getElem?_eq_getElem (by omega), ?_⟩
      split
      · exact noFault_ofOption_bind.mpr ⟨_, List.getElem?_eq_getElem hlength, noFault_pure⟩
      · exact noFault_pure
    · refine ⟨_, List.getElem?_eq_getElem (by omega), ?_⟩
      rw [if_neg]
      · exact noFault_pure
      · intro heq
        rw [List.getElem?_eq_getElem (by omega), heq] at hwrong
        exact hwrong rfl

theorem noFault_detectFat : (detectFat data).NoFault ↔
    data.length < 510 ∨ 511 < data.length ∨ data.length = 511 ∧ data[510]? ≠ some 0x55 := by
  rw [detectFat]
  split
  · next hlength =>
      rw [noFault_bind, noFault_bootSignature, and_iff_left]
      · exact (or_iff_right (by omega)).symm
      · intro signed _
        simp [noFault_ite, noFault_bind]
  · next hlength => exact ⟨fun _ => .inl (by omega), fun _ => noFault_pure⟩

theorem noFault_detectFsType : (detectFsType data).NoFault ↔
    data.length < 510 ∨ 511 < data.length ∨ data.length = 511 ∧ data[510]? ≠ some 0x55 := by
  rw [detectFsType, noFault_bind, noFault_detectFat, and_iff_left]
  intro isFat _
  simp [noFault_ite, noFault_bind, detectExFat, detectIsoType]

theorem noFault_isFat32 : (isFat32 data).NoFault ↔
    data.length < 90 ∨ 511 < data.length ∨ data.length = 511 ∧ data[510]? ≠ some 0x55 := by
  rw [isFat32]
  split
  · next hlength => exact ⟨fun _ => .inl hlength, fun _ => noFault_pure⟩
  · next hlength =>
      rw [noFault_bind, noFault_bootSignature, and_iff_left]
      · exact (or_iff_right (by omega)).symm
      · intro signed _
        simp [noFault_ite]

end Detect

end NextBoot.Fs
