import NextBoot.Wim.Path

namespace NextBoot.Wim

open Bytes Results Strings Words

/-- A list of directory entries, each in front of those behind it in its directory. -/
inductive Forest where
  | nil
  | file (name : Text) (hash : List UInt8) (rest : Forest)
  | dir (name : Text) (hash : List UInt8) (inside rest : Forest)

/-- What an entry is found as: its hash, and what is inside where it is a directory. -/
structure Found where
  hash : List UInt8
  inside : Option Forest

namespace Forest

/-- The first entry of a directory that has a name, up to the case of ASCII letters. -/
def find (name : Text) : Forest → Option Found
  | nil => none
  | file name' hash rest => if eqIgnoreAsciiCase name' name then some ⟨hash, none⟩ else find name rest
  | dir name' hash inside rest => if eqIgnoreAsciiCase name' name then some ⟨hash, some inside⟩ else find name rest

/-- What a path leads to, a name after the other. -/
def entryAt (forest : Forest) : List Text → Option Found
  | [] => none
  | [name] => forest.find name
  | name :: next :: rest =>
      match forest.find name with
      | some ⟨_, some inside⟩ => entryAt inside (next :: rest)
      | _ => none

/-- The hash of the file that a path leads to. -/
def fileAt (forest : Forest) (names : List Text) : Option (List UInt8) :=
  match forest.entryAt names with
  | some ⟨hash, none⟩ => some hash
  | _ => none

end Forest

def utf16Units (c : Char) : List Nat :=
  if c.toNat < 0x10000 then [c.toNat] else [0xD800 + (c.toNat - 0x10000) / 0x400, 0xDC00 + (c.toNat - 0x10000) % 0x400]

def nameBytes (name : Text) : List UInt8 := (name.flatMap utf16Units).flatMap (toLeBytes 2)

/-- A directory entry of `len` bytes at an offset of the metadata, without alternate streams. -/
structure EntryAt (metadata : List UInt8) (offset : Nat) (name : Text) (hash : List UInt8) (subdir len : Nat) : Prop where
  readLen : readLe 8 metadata offset = some len
  aligned : len % 8 = 0
  nameFits : directoryEntryFixedSize + (nameBytes name).length ≤ len
  inside : offset + len ≤ metadata.length
  readSubdir : readLe 8 metadata (offset + 16) = some subdir
  readHash : slice metadata (offset + 64) hashSize = some hash
  noStreams : readLe 2 metadata (offset + 96) = some 0
  readNameLen : readLe 2 metadata (offset + 100) = some (nameBytes name).length
  readName : slice metadata (offset + directoryEntryFixedSize) (nameBytes name).length = some (nameBytes name)
  nameEnds : Char.ofNat 0 ∉ name

instance {metadata : List UInt8} {offset : Nat} {name : Text} {hash : List UInt8} {subdir len : Nat} :
    Decidable (EntryAt metadata offset name hash subdir len) :=
  decidable_of_iff (readLe 8 metadata offset = some len ∧ len % 8 = 0 ∧
      directoryEntryFixedSize + (nameBytes name).length ≤ len ∧ offset + len ≤ metadata.length ∧
      readLe 8 metadata (offset + 16) = some subdir ∧ slice metadata (offset + 64) hashSize = some hash ∧
      readLe 2 metadata (offset + 96) = some 0 ∧ readLe 2 metadata (offset + 100) = some (nameBytes name).length ∧
      slice metadata (offset + directoryEntryFixedSize) (nameBytes name).length = some (nameBytes name) ∧
      Char.ofNat 0 ∉ name)
    ⟨fun ⟨h₁, h₂, h₃, h₄, h₅, h₆, h₇, h₈, h₉, h₁₀⟩ => ⟨h₁, h₂, h₃, h₄, h₅, h₆, h₇, h₈, h₉, h₁₀⟩,
      fun ⟨h₁, h₂, h₃, h₄, h₅, h₆, h₇, h₈, h₉, h₁₀⟩ => ⟨h₁, h₂, h₃, h₄, h₅, h₆, h₇, h₈, h₉, h₁₀⟩⟩

/-- The list of entries at an offset: they stand one behind the other, a length of zero ends it, and a directory says
where the list of its own entries is. -/
inductive EncodedAt (metadata : List UInt8) : Nat → Forest → Prop where
  | nil {offset : Nat} (h : readLe 8 metadata offset = some 0) : EncodedAt metadata offset .nil
  | file {offset len : Nat} {name : Text} {hash : List UInt8} {rest : Forest} (h : EntryAt metadata offset name hash 0 len)
      (hrest : EncodedAt metadata (offset + len) rest) : EncodedAt metadata offset (.file name hash rest)
  | dir {offset subdir len : Nat} {name : Text} {hash : List UInt8} {inside rest : Forest}
      (h : EntryAt metadata offset name hash subdir len) (hsubdir : subdir ≠ 0) (hinside : EncodedAt metadata subdir inside)
      (hrest : EncodedAt metadata (offset + len) rest) : EncodedAt metadata offset (.dir name hash inside rest)

/-- How an entry that was found stands in the metadata. -/
def Found.StandsAs (metadata : List UInt8) (found : Found) (location : WimDirectoryEntryLocation) : Prop :=
  location.entry.hash = found.hash ∧
    match found.inside with
    | none => location.entry.subdir = 0
    | some inside => location.entry.subdir ≠ 0 ∧ EncodedAt metadata location.entry.subdir inside

variable {metadata : List UInt8} {offset : Nat} {name other : Text}

theorem isAscii_iff {c : Char} : isAscii c = true ↔ c.toNat < 0x80 := decide_eq_true_iff

theorem length_flatMap_toLeBytes {units : List Nat} : (units.flatMap (toLeBytes 2)).length = 2 * units.length := by
  induction units with
  | nil => rfl
  | cons unit units ih =>
      rw [List.flatMap_cons, List.length_append, length_toLeBytes, ih, List.length_cons]
      omega

theorem char_toNat_lt (c : Char) : c.toNat < 0x110000 := by
  have hvalid := c.valid
  simp only [UInt32.isValidChar, Nat.isValidChar] at hvalid
  show c.val.toNat < _
  omega

theorem utf16Units_lt {c : Char} {unit : Nat} (h : unit ∈ utf16Units c) : unit < 2 ^ 16 := by
  have hc := char_toNat_lt c
  rw [utf16Units] at h
  split at h
  · rw [List.mem_singleton.mp h]
    omega
  · rw [List.mem_pair] at h
    rcases h with h | h
    · omega
    · omega

theorem readLe_flatMap {units : List Nat} {index unit : Nat} (hlt : ∀ unit ∈ units, unit < 2 ^ 16)
    (h : units[index]? = some unit) : readLe 2 (units.flatMap (toLeBytes 2)) (index * 2) = some unit := by
  induction units generalizing index with
  | nil => exact absurd h (by simp)
  | cons first units ih =>
      rw [List.forall_mem_cons] at hlt
      rw [List.flatMap_cons]
      cases index with
      | zero =>
          rw [List.getElem?_cons_zero, Option.some.injEq] at h
          rw [readLe, Nat.zero_mul, slice_eq_some (by simp), List.drop_zero,
            List.take_left' (length_toLeBytes 2 first), Option.map_some, fromLeBytes_toLeBytes,
            Nat.mod_eq_of_lt (by omega), h]
      | succ index =>
          rw [List.getElem?_cons_succ] at h
          have hrest := ih hlt.2 h
          obtain ⟨bytes, hbytes, hvalue⟩ := Option.map_eq_some_iff.mp hrest
          obtain ⟨hfits, htake⟩ := slice_isSome_iff.mp hbytes
          rw [readLe, slice_eq_some (by rw [List.length_append, length_toLeBytes]; omega), Option.map_some,
            show (index + 1) * 2 = (toLeBytes 2 first).length + index * 2 by rw [length_toLeBytes]; omega,
            ← List.drop_drop, List.drop_left, htake, hvalue]

theorem ne_zero_of_mem_units {unit : Nat} (hname : Char.ofNat 0 ∉ name) (h : unit ∈ name.flatMap utf16Units) : unit ≠ 0 := by
  rintro rfl
  obtain ⟨c, hc, hunit⟩ := List.mem_flatMap.mp h
  rw [utf16Units] at hunit
  split at hunit
  · rw [← Char.ofNat_toNat c, ← List.mem_singleton.mp hunit] at hc
    exact hname hc
  · rw [List.mem_pair] at hunit
    rcases hunit with hunit | hunit
    · omega
    · omega

/-- Code units that are the ones of a name, up to the case of ASCII letters. -/
def matchUnits : List Nat → Text → Bool
  | [], [] => true
  | unit :: units, c :: cs => unit ≤ 0x7f ∧ toAsciiLowercase (Char.ofNat unit) = toAsciiLowercase c ∧ matchUnits units cs
  | _, _ => false

theorem length_of_matchUnits {units : List Nat} (h : matchUnits units name = true) : units.length = name.length := by
  induction units generalizing name with
  | nil =>
      cases name with
      | nil => rfl
      | cons c cs => cases h
  | cons unit units ih =>
      cases name with
      | nil => cases h
      | cons c cs =>
          rw [matchUnits, decide_eq_true_eq] at h
          rw [List.length_cons, List.length_cons, ih h.2.2]

theorem matchUnits_cons {unit : Nat} {units : List Nat} {c : Char} : matchUnits (unit :: units) (c :: name) = true ↔
    unit ≤ 0x7f ∧ toAsciiLowercase (Char.ofNat unit) = toAsciiLowercase c ∧ matchUnits units name = true :=
  decide_eq_true_iff

/-- A name has an ASCII name's code units just when it is that name. -/
theorem matchUnits_utf16Units (hother : ∀ c ∈ other, isAscii c = true) :
    matchUnits (name.flatMap utf16Units) other = true ↔ name.map toAsciiLowercase = other.map toAsciiLowercase := by
  induction name generalizing other with
  | nil =>
      cases other with
      | nil => exact iff_of_true rfl rfl
      | cons d other => exact iff_of_false Bool.false_ne_true (List.cons_ne_nil _ _).symm
  | cons c name ih =>
      rw [List.flatMap_cons, List.map_cons]
      cases other with
      | nil =>
          refine iff_of_false ?_ (List.cons_ne_nil _ _)
          rw [utf16Units]
          split
          · exact Bool.false_ne_true
          · exact Bool.false_ne_true
      | cons d other =>
          rw [List.forall_mem_cons, isAscii_iff] at hother
          rw [List.map_cons, List.cons.injEq, ← ih hother.2]
          have hd := @toNat_toAsciiLowercase d
          have hc := @toNat_toAsciiLowercase c
          by_cases hascii : c.toNat < 0x80
          · rw [utf16Units, if_pos (by omega), List.singleton_append, matchUnits_cons, Char.ofNat_toNat]
            exact ⟨fun h => h.2, fun h => ⟨by omega, h⟩⟩
          · have hunits : ∃ unit units, utf16Units c = unit :: units ∧ 0x7f < unit := by
              rw [utf16Units]
              split
              · exact ⟨_, _, rfl, by omega⟩
              · exact ⟨_, _, rfl, by omega⟩
            obtain ⟨unit, units, hunits, hbig⟩ := hunits
            rw [hunits, List.cons_append, matchUnits_cons]
            refine iff_of_false (fun h => absurd h.1 (by omega)) fun h => ?_
            have hsame := congrArg Char.toNat h.1
            split at hd <;> split at hc <;> omega

theorem compareUnits_eq {units : List Nat} {index : Nat} (hlt : ∀ unit ∈ units, unit < 2 ^ 16)
    (hlength : units.length = index + name.length) :
    compareUnits (units.flatMap (toLeBytes 2)) index name = .ok (matchUnits (units.drop index) name) := by
  induction name generalizing index with
  | nil =>
      rw [List.drop_eq_nil_of_le (by simp at hlength; omega)]
      rfl
  | cons c cs ih =>
      rw [List.length_cons] at hlength
      have hindex : index < units.length := by omega
      have hread := readLe_flatMap hlt (List.getElem?_eq_getElem hindex)
      rw [List.drop_eq_getElem_cons hindex, compareUnits, hread, matchUnits]
      show (if 0x7f < units[index] then _ else _) = _
      by_cases hbig : 0x7f < units[index]
      · rw [if_pos hbig, decide_eq_false (fun h => absurd h.1 (by omega))]
        rfl
      · rw [if_neg hbig]
        by_cases hcase : toAsciiLowercase (Char.ofNat units[index]) = toAsciiLowercase c
        · rw [if_neg (not_not.mpr hcase), ih (by omega)]
          refine congrArg Except.ok (Bool.eq_iff_iff.mpr ?_)
          rw [decide_eq_true_eq]
          exact ⟨fun h => ⟨by omega, hcase, h⟩, fun h => h.2.2⟩
        · rw [if_pos hcase, decide_eq_false (fun h => hcase h.2.1)]
          rfl

theorem nameUnits_eq {expected : Nat} (hname : Char.ofNat 0 ∉ name) :
    nameUnits (nameBytes name) expected = .ok (name.flatMap utf16Units).length := by
  have hhalf : (nameBytes name).length / 2 = (name.flatMap utf16Units).length := by
    rw [nameBytes, length_flatMap_toLeBytes]
    omega
  rw [nameUnits, hhalf]
  split
  · next hlength =>
      have hindex : expected < (name.flatMap utf16Units).length := by omega
      have hlt : ∀ unit ∈ name.flatMap utf16Units, unit < 2 ^ 16 := by
        intro unit hunit
        obtain ⟨c, -, hunit⟩ := List.mem_flatMap.mp hunit
        exact utf16Units_lt hunit
      have hread := readLe_flatMap hlt (List.getElem?_eq_getElem hindex)
      rw [nameBytes, hread]
      exact congrArg Except.ok (if_neg (ne_zero_of_mem_units hname (List.getElem_mem hindex)))
  · rfl

theorem utf16leNameEqAscii_eq (hname : Char.ofNat 0 ∉ name) (hother : ∀ c ∈ other, isAscii c = true) :
    utf16leNameEqAscii (nameBytes name) other = .ok (eqIgnoreAsciiCase name other) := by
  have hlt : ∀ unit ∈ name.flatMap utf16Units, unit < 2 ^ 16 := by
    intro unit hunit
    obtain ⟨c, -, hunit⟩ := List.mem_flatMap.mp hunit
    exact utf16Units_lt hunit
  have hmatch : matchUnits (name.flatMap utf16Units) other = eqIgnoreAsciiCase name other := by
    rw [Bool.eq_iff_iff, matchUnits_utf16Units hother, eqIgnoreAsciiCase, decide_eq_true_eq]
  have hascii : ¬ other.any (¬ isAscii ·) = true := by
    simp only [List.any_eq_true, decide_eq_true_eq, not_exists, not_and, not_not]
    exact hother
  refine bind_eq_ok.mpr ⟨(), refuseIf_eq_ok.mpr hascii, bind_eq_ok.mpr ⟨(), refuseIf_eq_ok.mpr ?_, ?_⟩⟩
  · rw [nameBytes, length_flatMap_toLeBytes]
    omega
  refine bind_eq_ok.mpr ⟨_, nameUnits_eq hname, ?_⟩
  by_cases hlength : (name.flatMap utf16Units).length = other.length
  · rw [if_neg (not_not.mpr hlength), nameBytes, compareUnits_eq hlt (by omega), List.drop_zero, hmatch]
  · rw [if_pos hlength, ← hmatch]
    refine congrArg Except.ok (Bool.eq_false_iff.mpr fun h => ?_).symm
    exact hlength (length_of_matchUnits h)

section Lists

variable {hash : List UInt8} {subdir len rounds : Nat} {forest : Forest} {names : List Text}

theorem parseDirectoryEntry_eq (h : EntryAt metadata offset name hash subdir len) : ∃ entry,
    parseDirectoryEntry metadata offset = .ok entry ∧ entry.hash = hash ∧ entry.subdir = subdir ∧
      entry.nameLen = (nameBytes name).length := by
  have hfits := h.nameFits
  have hinside := h.inside
  rw [directoryEntryFixedSize] at hfits
  obtain ⟨attributes, hattributes⟩ := @readLe_isSome 4 metadata (offset + 8) (by omega)
  obtain ⟨security, hsecurity⟩ := @readLe_isSome 4 metadata (offset + 12) (by omega)
  obtain ⟨shortNameLen, hshort⟩ := @readLe_isSome 2 metadata (offset + 98) (by omega)
  rw [parseDirectoryEntry, h.readHash, h.readLen, hattributes, hsecurity, h.readSubdir, h.noStreams, hshort,
    h.readNameLen]
  exact ⟨_, rfl, rfl, rfl, rfl⟩

/-- One round of the search: the entry at hand is the one, or the search goes on behind it. -/
theorem findChildEntry_step (hlength : metadata.length < 2 ^ 64) (h : EntryAt metadata offset name hash subdir len)
    (hother : ∀ c ∈ other, isAscii c = true) : ∃ entry, entry.hash = hash ∧ entry.subdir = subdir ∧
      findChildEntry metadata other (rounds + 1) offset =
        if eqIgnoreAsciiCase name other then .ok ⟨offset, entry⟩
        else findChildEntry metadata other rounds (offset + len) := by
  obtain ⟨entry, hentry, hhash, hsubdir, hnameLen⟩ := parseDirectoryEntry_eq h
  have hfits := h.nameFits
  have hinside := h.inside
  have hname := (slice_isSome_iff.mp h.readName).2
  rw [directoryEntryFixedSize] at hfits
  refine ⟨entry, hhash, hsubdir, ?_⟩
  have hend : checkedAdd 64 offset len = some (offset + len) := checkedAdd_eq_some.mpr ⟨by omega, rfl⟩
  have hstart : checkedAdd 64 offset directoryEntryFixedSize = some (offset + directoryEntryFixedSize) :=
    checkedAdd_eq_some.mpr ⟨by rw [directoryEntryFixedSize]; omega, rfl⟩
  have hstop : checkedAdd 64 (offset + directoryEntryFixedSize) entry.nameLen =
      some (offset + directoryEntryFixedSize + entry.nameLen) :=
    checkedAdd_eq_some.mpr ⟨by rw [hnameLen, directoryEntryFixedSize]; omega, rfl⟩
  have hzero : refuseIf (len = 0) WimPathError.notFound = .ok () := refuseIf_eq_ok.mpr (by omega)
  have hshort : refuseIf (len < directoryEntryFixedSize ∨ metadata.length < offset + len)
      WimPathError.malformedMetadata = .ok () := refuseIf_eq_ok.mpr (by rw [directoryEntryFixedSize]; omega)
  have hlong : refuseIf (offset + len < offset + directoryEntryFixedSize + entry.nameLen)
      WimPathError.malformedMetadata = .ok () := refuseIf_eq_ok.mpr (by rw [hnameLen, directoryEntryFixedSize]; omega)
  have hcompare : utf16leNameEqAscii ((metadata.drop (offset + directoryEntryFixedSize)).take entry.nameLen) other =
      .ok (eqIgnoreAsciiCase name other) := by
    rw [hnameLen, hname]
    exact utf16leNameEqAscii_eq h.nameEnds hother
  simp only [findChildEntry, h.readLen, hzero, hend, hshort, hentry, hstart, hstop, hlong, hcompare, someOr_some, ok_bind]
  rfl

/-- Searching a list finds its first entry of a name, and says so when there is none. -/
theorem findChildEntry_eq (hlength : metadata.length < 2 ^ 64) (h : EncodedAt metadata offset forest)
    (hother : ∀ c ∈ other, isAscii c = true) (hrounds : metadata.length < offset + rounds) :
    (forest.find other = none → findChildEntry metadata other rounds offset = .error .notFound) ∧
      ∀ found, forest.find other = some found → ∃ location,
        findChildEntry metadata other rounds offset = .ok location ∧ found.StandsAs metadata location := by
  induction h generalizing rounds with
  | @nil offset h =>
      obtain ⟨bytes, hbytes, -⟩ := Option.map_eq_some_iff.mp h
      have hinside := (slice_isSome_iff.mp hbytes).1
      obtain ⟨rounds, rfl⟩ := Nat.exists_eq_add_one.mpr (show 0 < rounds by omega)
      refine ⟨fun _ => ?_, nofun⟩
      rw [findChildEntry, h]
      rfl
  | @file offset len name hash rest h _ ih =>
      have hfits := h.nameFits
      have hinside := h.inside
      rw [directoryEntryFixedSize] at hfits
      obtain ⟨rounds, rfl⟩ := Nat.exists_eq_add_one.mpr (show 0 < rounds by omega)
      obtain ⟨entry, hhash, hsubdir, hstep⟩ := @findChildEntry_step metadata offset name other hash 0 len rounds hlength h hother
      rw [hstep, Forest.find]
      by_cases hname : eqIgnoreAsciiCase name other = true
      · rw [if_pos hname, if_pos hname]
        refine ⟨nofun, fun found hfound => ⟨⟨offset, entry⟩, rfl, ?_⟩⟩
        cases hfound
        exact ⟨hhash, hsubdir⟩
      · rw [if_neg hname, if_neg hname]
        exact ih (by omega)
  | @dir offset subdir len name hash inside rest h hdir hinside' _ _ ih =>
      have hfits := h.nameFits
      have hinside := h.inside
      rw [directoryEntryFixedSize] at hfits
      obtain ⟨rounds, rfl⟩ := Nat.exists_eq_add_one.mpr (show 0 < rounds by omega)
      obtain ⟨entry, hhash, hsubdir, hstep⟩ :=
        @findChildEntry_step metadata offset name other hash subdir len rounds hlength h hother
      rw [hstep, Forest.find]
      by_cases hname : eqIgnoreAsciiCase name other = true
      · rw [if_pos hname, if_pos hname]
        refine ⟨nofun, fun found hfound => ⟨⟨offset, entry⟩, rfl, ?_⟩⟩
        cases hfound
        refine ⟨hhash, ?_⟩
        rw [hsubdir]
        exact ⟨hdir, hinside'⟩
      · rw [if_neg hname, if_neg hname]
        exact ih (by omega)

/-- A path is followed from list to list. -/
theorem findComponents_eq (hlength : metadata.length < 2 ^ 64) (h : EncodedAt metadata offset forest)
    (hnames : ∀ name ∈ names, ∀ c ∈ name, isAscii c = true) (hne : names ≠ []) :
    (forest.entryAt names = none → findComponents metadata names offset = .error .notFound) ∧
      ∀ found, forest.entryAt names = some found → ∃ location,
        findComponents metadata names offset = .ok location ∧ found.StandsAs metadata location := by
  induction names generalizing offset forest with
  | nil => exact absurd rfl hne
  | cons name names ih =>
      rw [List.forall_mem_cons] at hnames
      obtain ⟨hnone, hsome⟩ := @findChildEntry_eq metadata offset name (metadata.length + 1) forest hlength h hnames.1
        (by omega)
      cases names with
      | nil => exact ⟨hnone, hsome⟩
      | cons next names =>
          rw [findComponents, Forest.entryAt]
          cases hfind : forest.find name with
          | none =>
              rw [hnone hfind]
              exact ⟨fun _ => rfl, nofun⟩
          | some found =>
              obtain ⟨location, hlocation, -, hstands⟩ := hsome found hfind
              rw [hlocation, ok_bind]
              obtain ⟨hash, inside⟩ := found
              cases inside with
              | none =>
                  rw [refuseIf, if_pos hstands]
                  exact ⟨fun _ => rfl, nofun⟩
              | some inside =>
                  rw [refuseIf, if_neg hstands.1, ok_bind]
                  exact ih hstands.2 hnames.2 (List.cons_ne_nil _ _)

/-- Where the security data ends, which begin with their length. -/
def securityEnd (securityLen : Nat) : Nat := if securityLen = 0 then securityHeaderSize else (securityLen + 7) / 8 * 8

/-- Metadata whose first list of entries, right behind the security data, encodes a forest. -/
structure StartsWith (metadata : List UInt8) (forest : Forest) : Prop where
  length_lt : metadata.length < 2 ^ 64
  list : ∃ securityLen, readLe 4 metadata 0 = some securityLen ∧ (securityLen = 0 ∨ securityHeaderSize ≤ securityLen) ∧
    EncodedAt metadata (securityEnd securityLen) forest

/-- The documented layout of a tree: behind the security data is one unnamed entry, a directory with the tree inside. -/
def Documented (metadata : List UInt8) (tree : Forest) : Prop :=
  ∃ hash, StartsWith metadata (.dir [] hash tree .nil)

/-- A path that can be looked up: it is ASCII and names something. -/
def IsPath (path : Text) : Prop := (∀ c ∈ path, isAscii c = true) ∧ pathComponents path ≠ []

theorem EncodedAt.inside (h : EncodedAt metadata offset forest) : offset + 8 ≤ metadata.length := by
  have hread : ∃ len, readLe 8 metadata offset = some len := by
    cases h with
    | nil h => exact ⟨_, h⟩
    | file h _ => exact ⟨_, h.readLen⟩
    | dir h _ _ _ => exact ⟨_, h.readLen⟩
  obtain ⟨len, hread⟩ := hread
  obtain ⟨bytes, hbytes, -⟩ := Option.map_eq_some_iff.mp hread
  exact (slice_isSome_iff.mp hbytes).1

theorem rootDirectoryOffset_eq {securityLen : Nat} (hread : readLe 4 metadata 0 = some securityLen)
    (hinside : securityEnd securityLen + 8 ≤ metadata.length) :
    rootDirectoryOffset metadata = .ok (securityEnd securityLen) := by
  have hlt := readLe_lt hread
  have hshort : refuseIf (metadata.length < securityHeaderSize) WimPathError.malformedMetadata = .ok () :=
    refuseIf_eq_ok.mpr (by rw [securityHeaderSize]; omega)
  have hend : refuseIf (metadata.length < securityEnd securityLen) WimPathError.malformedMetadata = .ok () :=
    refuseIf_eq_ok.mpr (by omega)
  rw [rootDirectoryOffset, hshort, hread, ok_bind, someOr_some, ok_bind]
  by_cases hzero : securityLen = 0
  · rw [if_neg (by omega)]
    rw [securityEnd, if_pos hzero] at hend ⊢
    show (refuseIf (metadata.length < securityHeaderSize) WimPathError.malformedMetadata >>= _) = _
    rw [hend]
    rfl
  · have halign : alignUp8 securityLen = some ((securityLen + 7) / 8 * 8) := by
      rw [alignUp8, show checkedAdd 64 securityLen 7 = some (securityLen + 7) from
        checkedAdd_eq_some.mpr ⟨by omega, rfl⟩, Option.map_some]
    rw [securityEnd, if_neg hzero] at hend ⊢
    rw [if_pos (by omega), halign, someOr_some, ok_bind]
    dsimp only
    rw [hend]
    rfl

theorem isAscii_of_mem_pathComponents {path : Text} (hpath : ∀ c ∈ path, isAscii c = true) :
    ∀ name ∈ pathComponents path, ∀ c ∈ name, isAscii c = true := by
  intro name hname c hc
  obtain ⟨piece, hpiece, hname⟩ := List.mem_flatMap.mp (List.mem_filter.mp hname).1
  exact hpath c (mem_of_mem_split hpiece (mem_of_mem_split hname hc))

/-- The lookup of a path is complete for the list that it starts with. -/
theorem findPathEntry_eq {path : Text} (h : StartsWith metadata forest) (hpath : IsPath path) :
    (forest.entryAt (pathComponents path) = none → findPathEntry metadata path = .error .notFound) ∧
      ∀ found, forest.entryAt (pathComponents path) = some found → ∃ location,
        findPathEntry metadata path = .ok location ∧ found.StandsAs metadata location := by
  obtain ⟨securityLen, hread, -, hlist⟩ := h.list
  have hascii : refuseIf (path.any (¬ isAscii ·) = true) WimPathError.nonAsciiPath = .ok () := by
    refine refuseIf_eq_ok.mpr ?_
    simp only [List.any_eq_true, decide_eq_true_eq, not_exists, not_and, not_not]
    exact hpath.1
  rw [findPathEntry, hascii, ok_bind, refuseIf, if_neg hpath.2, ok_bind, rootDirectoryOffset_eq hread hlist.inside, ok_bind]
  exact findComponents_eq h.length_lt hlist (isAscii_of_mem_pathComponents hpath.1) hpath.2

/-- In the documented layout nothing is found: the list that the lookup starts with is that of the unnamed entry, and no
part of a path is empty. -/
theorem findPathEntry_documented {tree : Forest} {path : Text} (h : Documented metadata tree) (hpath : IsPath path) :
    findPathEntry metadata path = .error .notFound := by
  obtain ⟨hash, h⟩ := h
  refine (findPathEntry_eq h hpath).1 ?_
  obtain ⟨name, names, hnames⟩ := List.exists_cons_of_ne_nil hpath.2
  have hmem : name ∈ pathComponents path := by
    rw [hnames]
    exact List.mem_cons_self
  have hne : name ≠ [] := of_decide_eq_true (List.mem_filter.mp hmem).2
  have hfind : Forest.find name (.dir [] hash tree .nil) = none := by
    have hcase : ¬ eqIgnoreAsciiCase [] name = true := by
      rw [eqIgnoreAsciiCase, decide_eq_true_eq]
      exact fun heq => hne (List.map_eq_nil_iff.mp heq.symm)
    rw [Forest.find, if_neg hcase, Forest.find]
  rw [hnames]
  cases names with
  | nil => exact hfind
  | cons next names => rw [Forest.entryAt, hfind]

/-- The lookup finds the files of a tree in the documented layout, and nothing else, exactly when the tree has no file
that a path leads to. -/
theorem path_lookup_iff {tree : Forest} (h : Documented metadata tree) :
    ((∀ path hash, IsPath path → tree.fileAt (pathComponents path) = some hash →
        ∃ location, findPathEntry metadata path = .ok location ∧ location.entry.hash = hash) ∧
      ∀ path, IsPath path → tree.entryAt (pathComponents path) = none → findPathEntry metadata path = .error .notFound) ↔
      ∀ path, IsPath path → tree.fileAt (pathComponents path) = none := by
  constructor
  · rintro ⟨hfiles, -⟩ path hpath
    cases hfile : tree.fileAt (pathComponents path) with
    | none => rfl
    | some hash =>
        obtain ⟨location, hlocation, -⟩ := hfiles path hash hpath hfile
        rw [findPathEntry_documented h hpath] at hlocation
        cases hlocation
  · intro hnone
    refine ⟨fun path hash hpath hfile => ?_, fun path hpath _ => findPathEntry_documented h hpath⟩
    rw [hnone path hpath] at hfile
    cases hfile

end Lists

/-- An entry as bytes, its hash one byte repeated. -/
def sampleEntry (name : Text) (hash : UInt8) (subdir len : Nat) : List UInt8 :=
  toLeBytes 8 len ++ toLeBytes 4 0x80 ++ toLeBytes 4 0xffffffff ++ toLeBytes 8 subdir ++ List.replicate 40 0 ++
    List.replicate 20 hash ++ List.replicate 12 0 ++ toLeBytes 2 0 ++ toLeBytes 2 0 ++
    toLeBytes 2 (nameBytes name).length ++ nameBytes name ++ List.replicate (len - 102 - (nameBytes name).length) 0

/-- Empty security data, the unnamed entry at 8, and the list of the one entry of its directory at 120. -/
def sampleMetadata (name : Text) (subdir : Nat) : List UInt8 :=
  List.replicate 8 0 ++ sampleEntry [] 0 120 104 ++ List.replicate 8 0 ++ sampleEntry name 0x7b subdir 104 ++
    List.replicate 8 0

def sampleHash : List UInt8 := List.replicate 20 0x7b

theorem readLe_sampleMetadata {name : Text} {subdir : Nat} : readLe 4 (sampleMetadata name subdir) 0 = some 0 := by
  have hlength : 0 + 4 ≤ (sampleMetadata name subdir).length := by
    rw [sampleMetadata, List.length_append, List.length_replicate]
    omega
  rw [readLe, slice_eq_some hlength]
  rfl

theorem directoryMetadata_lookup :
    (∀ path hash, IsPath path → Forest.fileAt (.dir ['a'] sampleHash .nil .nil) (pathComponents path) = some hash →
        ∃ location, findPathEntry (sampleMetadata ['a'] 224) path = .ok location ∧ location.entry.hash = hash) ∧
      ∀ path, IsPath path → Forest.entryAt (.dir ['a'] sampleHash .nil .nil) (pathComponents path) = none →
        findPathEntry (sampleMetadata ['a'] 224) path = .error .notFound := by
  have hend : EncodedAt (sampleMetadata ['a'] 224) 224 .nil := .nil (by decide +kernel)
  have hentry : EncodedAt (sampleMetadata ['a'] 224) 120 (.dir ['a'] sampleHash .nil .nil) :=
    .dir (by decide +kernel : EntryAt _ 120 ['a'] sampleHash 224 104) (by decide) hend hend
  have hroot : EncodedAt (sampleMetadata ['a'] 224) 8 (.dir [] (List.replicate 20 0) (.dir ['a'] sampleHash .nil .nil) .nil) :=
    .dir (by decide +kernel : EntryAt _ 8 [] _ 120 104) (by decide) hentry (.nil (by decide +kernel))
  refine (path_lookup_iff ⟨_, by decide +kernel, 0, readLe_sampleMetadata, .inl rfl, hroot⟩).mpr fun path _ => ?_
  have hempty : ∀ names, Forest.entryAt .nil names = none := by
    intro names
    cases names with
    | nil => rfl
    | cons name names => cases names <;> rfl
  cases pathComponents path with
  | nil => rfl
  | cons name names =>
      by_cases hname : eqIgnoreAsciiCase ['a'] name = true
      · have hfound : Forest.find name (.dir ['a'] sampleHash .nil .nil) = some ⟨sampleHash, some .nil⟩ := by
          rw [Forest.find, if_pos hname]
        cases names with
        | nil => rw [Forest.fileAt, Forest.entryAt, hfound]
        | cons next names =>
            have hnone : Forest.entryAt (.dir ['a'] sampleHash .nil .nil) (name :: next :: names) = none := by
              rw [Forest.entryAt, hfound]
              exact hempty _
            rw [Forest.fileAt, hnone]
      · have hfound : Forest.find name (.dir ['a'] sampleHash .nil .nil) = none := by
          rw [Forest.find, if_neg hname, Forest.find]
        cases names with
        | nil => rw [Forest.fileAt, Forest.entryAt, hfound]
        | cons next names => rw [Forest.fileAt, Forest.entryAt, hfound]

/-- The one file of a tree in the documented layout is not found. -/
theorem fileMetadata_not_found :
    Documented (sampleMetadata ['a'] 0) (.file ['a'] sampleHash .nil) ∧ IsPath ['/', 'a'] ∧
      Forest.fileAt (.file ['a'] sampleHash .nil) (pathComponents ['/', 'a']) = some sampleHash ∧
      findPathEntry (sampleMetadata ['a'] 0) ['/', 'a'] = .error .notFound := by
  have hentry : EncodedAt (sampleMetadata ['a'] 0) 120 (.file ['a'] sampleHash .nil) :=
    .file (by decide +kernel : EntryAt _ 120 ['a'] sampleHash 0 104) (.nil (by decide +kernel))
  have hroot : EncodedAt (sampleMetadata ['a'] 0) 8 (.dir [] (List.replicate 20 0) (.file ['a'] sampleHash .nil) .nil) :=
    .dir (by decide +kernel : EntryAt _ 8 [] _ 120 104) (by decide) hentry (.nil (by decide +kernel))
  have hcomponents : pathComponents ['/', 'a'] = [['a']] := rfl
  have hascii : ∀ c ∈ ['/', 'a'], isAscii c = true := by
    intro c hc
    rcases List.mem_pair.mp hc with rfl | rfl <;> rfl
  have hpath : IsPath ['/', 'a'] := ⟨hascii, by rw [hcomponents]; exact List.cons_ne_nil _ _⟩
  exact ⟨⟨_, by decide +kernel, 0, readLe_sampleMetadata, .inl rfl, hroot⟩, hpath, by decide +kernel, by decide +kernel⟩

end NextBoot.Wim
