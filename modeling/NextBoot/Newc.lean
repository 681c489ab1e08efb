import NextBoot.Bytes

namespace NextBoot.Newc

open Bytes

/-- The ASCII bytes of a word of the format. -/
def ascii (text : String) : List UInt8 := text.toList.map fun c => UInt8.ofNat c.toNat

def magic : List UInt8 := ascii "070701"

def trailerName : List UInt8 := ascii "TRAILER!!!"

def headerLen : Nat := 110

def alignUp4 (n : Nat) : Nat := (n + 3) / 4 * 4

def hexDigit (byte : UInt8) : Option Nat :=
  let n := byte.toNat
  if 0x30 ≤ n ∧ n ≤ 0x39 then some (n - 0x30)
  else if 0x61 ≤ n ∧ n ≤ 0x66 then some (n - 0x61 + 10)
  else if 0x41 ≤ n ∧ n ≤ 0x46 then some (n - 0x41 + 10)
  else none

def hexFrom (value : Nat) (digits : List UInt8) : Option Nat :=
  digits.foldlM (fun value byte => (hexDigit byte).map fun digit => value * 16 + digit) value

/-- The fields of a header, in their order. -/
structure Header where
  ino : Nat
  mode : Nat
  uid : Nat
  gid : Nat
  nlink : Nat
  mtime : Nat
  fileSize : Nat
  devMajor : Nat
  devMinor : Nat
  rdevMajor : Nat
  rdevMinor : Nat
  nameSize : Nat
  check : Nat
deriving DecidableEq, Repr

structure Entry where
  header : Header
  name : List UInt8
  data : List UInt8
deriving DecidableEq, Repr

def hexField (header : List UInt8) (offset : Nat) : Option Nat := slice header offset 8 >>= hexFrom 0

def readHeader (header : List UInt8) : Option Header := do
  let ino ← hexField header 6
  let mode ← hexField header 14
  let uid ← hexField header 22
  let gid ← hexField header 30
  let nlink ← hexField header 38
  let mtime ← hexField header 46
  let fileSize ← hexField header 54
  let devMajor ← hexField header 62
  let devMinor ← hexField header 70
  let rdevMajor ← hexField header 78
  let rdevMinor ← hexField header 86
  let nameSize ← hexField header 94
  let check ← hexField header 102
  if header.take 6 = magic then
    some ⟨ino, mode, uid, gid, nlink, mtime, fileSize, devMajor, devMinor, rdevMajor, rdevMinor, nameSize, check⟩
  else none

/-- Where the data of an entry start, counted from its header. -/
def dataStart (header : Header) : Nat := alignUp4 (headerLen + header.nameSize)

/-- The length of an entry with the padding behind its name and behind its data. -/
def entryLen (header : Header) : Nat := dataStart header + alignUp4 header.fileSize

/-- The entry that the bytes start with. Its name ends at the zero that its size counts. -/
def readEntry (bytes : List UInt8) : Option Entry := do
  let headerBytes ← slice bytes 0 headerLen
  let header ← readHeader headerBytes
  let nameBytes ← slice bytes headerLen header.nameSize
  let data ← slice bytes (dataStart header) header.fileSize
  if nameBytes.getLast? = some 0 ∧ 0 ∉ nameBytes.dropLast ∧ entryLen header ≤ bytes.length then
    some ⟨header, nameBytes.dropLast, data⟩
  else none

/-- The entries from an offset up to the trailer, each with its offset, and the bytes behind the trailer. -/
def readFrom : Nat → Nat → List UInt8 → Option (List (Nat × Entry) × List UInt8)
  | 0, _, _ => none
  | rounds + 1, offset, bytes => do
      let entry ← readEntry bytes
      let rest := bytes.drop (entryLen entry.header)
      if entry.name = trailerName then some ([(offset, entry)], rest)
      else
        let others ← readFrom rounds (offset + entryLen entry.header) rest
        some ((offset, entry) :: others.1, others.2)

def readArchive (bytes : List UInt8) : Option (List (Nat × Entry) × List UInt8) := readFrom (bytes.length + 1) 0 bytes

/-- Bytes that are entries, one behind the other, none of them a trailer. -/
inductive Spells : List UInt8 → List Entry → Prop where
  | nil : Spells [] []
  | cons {bytes rest : List UInt8} {entry : Entry} {entries : List Entry} (h : readEntry bytes = some entry)
      (hlen : bytes.length = entryLen entry.header) (hname : entry.name ≠ trailerName) (hrest : Spells rest entries) :
      Spells (bytes ++ rest) (entry :: entries)

variable {bytes more rest : List UInt8} {entry trailer : Entry} {entries others : List Entry} {offset len rounds value : Nat}

theorem alignUp4_le (n : Nat) : n ≤ alignUp4 n := by
  rw [alignUp4]
  omega

theorem alignUp4_mod (n : Nat) : alignUp4 n % 4 = 0 := by
  rw [alignUp4]
  omega

theorem alignUp4_lt (n : Nat) : alignUp4 n < n + 4 := by
  rw [alignUp4]
  omega

theorem entryLen_mod (header : Header) : entryLen header % 4 = 0 := by
  have hstart := alignUp4_mod (headerLen + header.nameSize)
  have hsize := alignUp4_mod header.fileSize
  rw [entryLen, dataStart]
  omega

theorem entryLen_pos (header : Header) : 0 < entryLen header := by
  have hstart := alignUp4_le (headerLen + header.nameSize)
  rw [entryLen, dataStart]
  rw [headerLen] at hstart ⊢
  omega

theorem hexDigit_lt {byte : UInt8} {digit : Nat} (h : hexDigit byte = some digit) : digit < 16 := by
  simp only [hexDigit] at h
  split at h
  · cases h
    omega
  split at h
  · cases h
    omega
  split at h
  · cases h
    omega
  · cases h

theorem hexFrom_cons {byte : UInt8} {digits : List UInt8} :
    hexFrom value (byte :: digits) = (hexDigit byte).bind fun digit => hexFrom (value * 16 + digit) digits := by
  rw [hexFrom, List.foldlM_cons]
  cases hexDigit byte <;> rfl

theorem hexFrom_lt {digits : List UInt8} {value result : Nat} (h : hexFrom value digits = some result) :
    result < (value + 1) * 16 ^ digits.length := by
  induction digits generalizing value with
  | nil =>
      cases h
      rw [List.length_nil, Nat.pow_zero, Nat.mul_one]
      exact Nat.lt_succ_self _
  | cons byte digits ih =>
      rw [hexFrom_cons, Option.bind_eq_some_iff] at h
      obtain ⟨digit, hdigit, h⟩ := h
      have hlt := hexDigit_lt hdigit
      calc result < (value * 16 + digit + 1) * 16 ^ digits.length := ih h
        _ ≤ ((value + 1) * 16) * 16 ^ digits.length := Nat.mul_le_mul_right _ (by omega)
        _ = (value + 1) * 16 ^ (byte :: digits).length := by rw [List.length_cons, Nat.pow_succ]; ring

/-- The parts of an entry that the bytes start with. -/
theorem readEntry_eq_some : readEntry bytes = some entry ↔
    (slice bytes 0 headerLen >>= readHeader) = some entry.header ∧
      slice bytes headerLen entry.header.nameSize = some (entry.name ++ [0]) ∧ 0 ∉ entry.name ∧
      slice bytes (dataStart entry.header) entry.header.fileSize = some entry.data ∧
      entryLen entry.header ≤ bytes.length := by
  constructor
  · intro h
    obtain ⟨headerBytes, hbytes, h⟩ := Option.bind_eq_some_iff.mp h
    obtain ⟨header, hheader, h⟩ := Option.bind_eq_some_iff.mp h
    obtain ⟨nameBytes, hname, h⟩ := Option.bind_eq_some_iff.mp h
    obtain ⟨data, hdata, h⟩ := Option.bind_eq_some_iff.mp h
    split at h
    · next hends =>
        cases h
        refine ⟨Option.bind_eq_some_iff.mpr ⟨_, hbytes, hheader⟩, ?_, hends.2.1, hdata, hends.2.2⟩
        rw [List.dropLast_append_getLast? 0 (by rw [hends.1]; rfl)]
        exact hname
    · cases h
  · rintro ⟨hheader, hname, hnul, hdata, hlen⟩
    obtain ⟨headerBytes, hbytes, hheader⟩ := Option.bind_eq_some_iff.mp hheader
    refine Option.bind_eq_some_iff.mpr ⟨_, hbytes, Option.bind_eq_some_iff.mpr ⟨_, hheader, ?_⟩⟩
    refine Option.bind_eq_some_iff.mpr ⟨_, hname, Option.bind_eq_some_iff.mpr ⟨_, hdata, ?_⟩⟩
    rw [List.getLast?_concat, List.dropLast_concat]
    exact if_pos ⟨rfl, hnul, hlen⟩

/-- An entry is read from its own bytes alone. -/
theorem readEntry_append (hlen : entryLen entry.header ≤ bytes.length) :
    readEntry (bytes ++ more) = some entry ↔ readEntry bytes = some entry := by
  have hstart := alignUp4_le (headerLen + entry.header.nameSize)
  have hsize := alignUp4_le entry.header.fileSize
  have hlen' := hlen
  rw [entryLen, dataStart] at hlen'
  rw [readEntry_eq_some, readEntry_eq_some, slice_append_left (by omega), slice_append_left (by omega),
    slice_append_left (by rw [dataStart]; omega), List.length_append]
  exact ⟨fun h => ⟨h.1, h.2.1, h.2.2.1, h.2.2.2.1, hlen⟩, fun h => ⟨h.1, h.2.1, h.2.2.1, h.2.2.2.1, by omega⟩⟩

theorem readEntry_take (h : readEntry bytes = some entry) : readEntry (bytes.take (entryLen entry.header)) = some entry := by
  have hlen := (readEntry_eq_some.mp h).2.2.2.2
  rw [← readEntry_append (by rw [List.length_take]; omega : _ ≤ (bytes.take (entryLen entry.header)).length),
    List.take_append_drop]
  exact h

theorem Spells.append (h : Spells bytes entries) (h' : Spells rest others) : Spells (bytes ++ rest) (entries ++ others) := by
  induction h with
  | nil => exact h'
  | cons h hlen hname _ ih =>
      rw [List.append_assoc]
      exact .cons h hlen hname ih

theorem Spells.single (h : readEntry bytes = some entry) (hlen : bytes.length = entryLen entry.header)
    (hname : entry.name ≠ trailerName) : Spells bytes [entry] := by
  have := Spells.cons h hlen hname .nil
  rwa [List.append_nil] at this

theorem Spells.names (h : Spells bytes entries) : ∀ entry ∈ entries, entry.name ≠ trailerName := by
  induction h with
  | nil => exact fun _ h => absurd h List.not_mem_nil
  | cons _ _ hname _ ih => exact List.forall_mem_cons.mpr ⟨hname, ih⟩

theorem Spells.mod_four (h : Spells bytes entries) : bytes.length % 4 = 0 := by
  induction h with
  | nil => rfl
  | @cons _ _ entry _ h hlen hname _ ih =>
      have hmod := entryLen_mod entry.header
      rw [List.length_append, hlen]
      omega

/-- Entries, a trailer and what is behind it are read as just that, each entry at a multiple of four. -/
theorem Spells.read (h : Spells bytes entries) (htrailer : readEntry rest = some trailer)
    (hname : trailer.name = trailerName) (hrounds : bytes.length < rounds) (hoffset : offset % 4 = 0) :
    ∃ located, readFrom rounds offset (bytes ++ rest) = some (located, rest.drop (entryLen trailer.header)) ∧
      located.map Prod.snd = entries ++ [trailer] ∧ ∀ p ∈ located, p.1 % 4 = 0 := by
  induction h generalizing rounds offset with
  | nil =>
      obtain ⟨rounds, rfl⟩ := Nat.exists_eq_add_one.mpr hrounds
      refine ⟨[(offset, trailer)], ?_, rfl, fun p hp => ?_⟩
      · rw [List.nil_append, readFrom, htrailer]
        exact if_pos hname
      · rw [List.mem_singleton.mp hp]
        exact hoffset
  | @cons bytes others entry entries h hlen hne _ ih =>
      have hpos := entryLen_pos entry.header
      have hmod := entryLen_mod entry.header
      rw [List.length_append] at hrounds
      obtain ⟨rounds, rfl⟩ := Nat.exists_eq_add_one.mpr (show 0 < rounds by omega)
      obtain ⟨located, hread, hmap, hlocated⟩ := @ih (offset + entryLen entry.header) rounds (by omega) (by omega)
      refine ⟨(offset, entry) :: located, ?_, by rw [List.map_cons, hmap, List.cons_append], ?_⟩
      · rw [List.append_assoc, readFrom, (readEntry_append (by omega)).mpr h]
        show (if entry.name = trailerName then _ else _) = _
        rw [if_neg hne, ← hlen, List.drop_left, hlen, hread]
        rfl
      · rw [List.forall_mem_cons]
        exact ⟨hoffset, hlocated⟩

/-- What is read as entries up to a trailer spells them, with the trailer behind. -/
theorem spells_of_readFrom {located : List (Nat × Entry)} {tail : List UInt8}
    (h : readFrom rounds offset bytes = some (located, tail)) : ∃ payload rest entries trailer,
      bytes = payload ++ rest ∧ located.map Prod.snd = entries ++ [trailer] ∧ Spells payload entries ∧
        readEntry rest = some trailer ∧ trailer.name = trailerName := by
  induction rounds generalizing offset bytes located tail with
  | zero => cases h
  | succ rounds ih =>
      rw [readFrom] at h
      obtain ⟨entry, hentry, h⟩ := Option.bind_eq_some_iff.mp h
      dsimp only at h
      split at h
      · next hname =>
          cases h
          exact ⟨[], bytes, [], entry, rfl, rfl, .nil, hentry, hname⟩
      · next hname =>
          obtain ⟨others, hothers, h⟩ := Option.bind_eq_some_iff.mp h
          obtain ⟨payload, rest, entries, trailer, hbytes, hmap, hspells, htrailer, hlast⟩ := ih hothers
          cases h
          have hlen := (readEntry_eq_some.mp hentry).2.2.2.2
          refine ⟨bytes.take (entryLen entry.header) ++ payload, rest, entry :: entries, trailer, ?_, ?_, ?_, htrailer, hlast⟩
          · rw [List.append_assoc, ← hbytes, List.take_append_drop]
          · rw [List.map_cons, hmap, List.cons_append]
          · exact .cons (readEntry_take hentry) (by rw [List.length_take]; omega) hname hspells

end NextBoot.Newc
