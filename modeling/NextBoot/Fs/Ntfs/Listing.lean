import NextBoot.Fs.Ntfs.Index
import NextBoot.Wim.Metadata

namespace NextBoot.Fs.Ntfs

open Words Bytes Strings Results BlockStore
open Wim (utf16Units)

/-- Two entries of one name, up to the case of ASCII letters. -/
abbrev SameName (a b : DirectoryEntry) : Prop := eqIgnoreAsciiCase a.name b.name

theorem sameName_equivalence : Equivalence SameName := by
  constructor
  · intro a
    simp [SameName, eqIgnoreAsciiCase]
  · intro a b h
    simp_all [SameName, eqIgnoreAsciiCase]
  · intro a b c h h'
    simp_all [SameName, eqIgnoreAsciiCase]

theorem sortByName_sorted (entries : List DirectoryEntry) :
    (sortByName entries).Pairwise fun a b => a.name ≤ b.name := by
  have htotal : Std.Total fun a b : DirectoryEntry => a.name ≤ b.name := ⟨fun a b => le_total a.name b.name⟩
  have htrans : IsTrans DirectoryEntry fun a b => a.name ≤ b.name := ⟨fun a b c => le_trans⟩
  exact List.pairwise_insertionSort _ entries

theorem mem_sortByName {entries : List DirectoryEntry} {e : DirectoryEntry} : e ∈ sortByName entries ↔ e ∈ entries :=
  (List.perm_insertionSort _ entries).mem_iff

/-- The names of a listing differ in more than case, and every collected name has one, exactly when the order of the
names keeps those that differ only in case together. -/
theorem listing_dedup (entries : List DirectoryEntry) :
    ((listEntries entries).Pairwise (fun a b => ¬ SameName a b) ∧
      ∀ e ∈ entries, ∃ r ∈ listEntries entries, SameName r e) ↔
    ∀ a ∈ entries, ∀ b ∈ entries, ∀ c ∈ entries, SameName a b → a.name ≤ c.name → c.name ≤ b.name → SameName c a := by
  have hkey : ∀ a b : DirectoryEntry, a.name = b.name → SameName a b := fun a b h => by
    rw [SameName, h]
    exact sameName_equivalence.refl b
  have hiff := Dedup.pairwise_dedup_iff sameName_equivalence hkey (sortByName_sorted entries)
  simp only [mem_sortByName] at hiff
  exact hiff

def sampleEntry (name : Text) : DirectoryEntry :=
  { name := name, size := 0, isDir := false, attributes := 0, startCluster := 0, contiguous := false }

/-- A name between two that differ only in case keeps both in the listing. -/
theorem cases_apart : ¬ ((listEntries [sampleEntry ['A'], sampleEntry ['B'], sampleEntry ['a']]).Pairwise
    (fun a b => ¬ SameName a b)) := by
  decide

/-- Every collected name is listed, or one that differs from it only in case. -/
theorem listEntries_represents {entries : List DirectoryEntry} {e : DirectoryEntry} (he : e ∈ entries) :
    ∃ r ∈ listEntries entries, SameName r e := by
  have hkey : ∀ a b : DirectoryEntry, a.name = b.name → SameName a b := fun a b h => by
    rw [SameName, h]
    exact sameName_equivalence.refl b
  exact Dedup.represents sameName_equivalence hkey (sortByName_sorted entries) e (mem_sortByName.2 he)

/-- The key of an index entry, with room for the name whose length it gives. -/
structure IndexKey where
  recordNumber : Nat
  key : List UInt8
  nameLen : UInt8
  nameLen_eq : key[64]? = some nameLen
  length_le : 66 + nameLen.toNat * 2 ≤ key.length

namespace IndexKey

variable (k : IndexKey)

def isDos : Prop := k.key[65]? = some fileNameNamespaceDos

instance : Decidable k.isDos := inferInstanceAs (Decidable (k.key[65]? = some fileNameNamespaceDos))

/-- The units of the name field, two bytes each. -/
def rawUnits : List Nat := (chunksExact 2 ((k.key.drop 66).take (k.nameLen.toNat * 2))).map fromLeBytes

/-- The units of the name, which a zero ends. -/
def units : List Nat := k.rawUnits.takeWhile (· ≠ 0)

/-- The name, when each of its units is a character. -/
def name : Text := k.units.map Char.ofNat

end IndexKey

def IsSurrogate (unit : Nat) : Prop := 0xD800 ≤ unit ∧ unit < 0xE000

instance : DecidablePred IsSurrogate := fun unit => inferInstanceAs (Decidable (0xD800 ≤ unit ∧ unit < 0xE000))

def reservedNames : List Text := [[], ['.'], ['.', '.']]

/-- The names and record numbers that the keys of a directory are listed under. -/
def listed (keys : List IndexKey) : List (Text × Nat) :=
  ((keys.filter fun k => ¬ k.isDos).map fun k => (k.name, k.recordNumber)).filter fun entry => entry.1 ∉ reservedNames

/-- A node from a position on: entries that lie inside it, each with its key inside, up to the last one. -/
inductive NodeEntries (data : List UInt8) : Nat → List IndexKey → Prop
  | last (offset entryLen flags : Nat) : offset + 16 ≤ data.length → readLe 2 data (offset + 8) = some entryLen →
      readLe 2 data (offset + 12) = some flags → entryLen ≠ 0 → offset + entryLen ≤ data.length →
      flags.land indexEntryLast ≠ 0 → NodeEntries data offset []
  | entry (offset entryLen streamLen flags : Nat) (k : IndexKey) (keys : List IndexKey) :
      readLe 2 data (offset + 8) = some entryLen → readLe 2 data (offset + 10) = some streamLen →
      readLe 2 data (offset + 12) = some flags → offset + entryLen ≤ data.length → flags.land indexEntryLast = 0 →
      16 + streamLen ≤ entryLen → readLe 6 data offset = some k.recordNumber →
      (data.drop (offset + 16)).take streamLen = k.key → NodeEntries data (offset + entryLen) keys →
      NodeEntries data offset (k :: keys)

/-- A block whose index header stands at a position, and the keys of its node. -/
def IndexNode (block : List UInt8) (indexHeader : Nat) (keys : List IndexKey) : Prop :=
  ∃ entriesOffset totalSize, readLe 4 block indexHeader = some entriesOffset ∧
    readLe 4 block (indexHeader + 4) = some totalSize ∧
    indexHeader + entriesOffset ≤ min (indexHeader + totalSize) block.length ∧
    NodeEntries ((block.drop (indexHeader + entriesOffset)).take
      (min (indexHeader + totalSize) block.length - (indexHeader + entriesOffset))) 0 keys

def RootKeys (record : ReadRecord) (keys : List IndexKey) : Prop :=
  match record.attribute attrTypeIndexRoot with
  | none => keys = []
  | some attr =>
      match attr.data with
      | .resident value => 32 ≤ value.length ∧ IndexNode value 16 keys
      | .nonResident _ _ => False

namespace Volume

variable (vol : Volume)

def RecordKeys (chunk : List UInt8) (keys : List IndexKey) : Prop :=
  ∃ fixed, applyUpdateSequence chunk vol.io.blockSize = .ok fixed ∧ 40 ≤ fixed.length ∧ IndexNode fixed 24 keys

def AllocatedKeys (record : ReadRecord) (keys : List IndexKey) : Prop :=
  if (record.attributesOf attrTypeIndexAllocation).isEmpty then keys = []
  else
    ∃ runs, collectNonresidentRuns (record.attributesOf attrTypeIndexAllocation) = .ok runs ∧
      if vol.allocationSize runs = 0 then keys = []
      else
        ∃ data nodes, vol.readFromRuns runs 0 (vol.allocationSize runs) true = .ok data ∧ 40 ≤ vol.indexRecordSize ∧
          List.Forall₂ vol.RecordKeys ((chunks vol.indexRecordSize data).filter vol.isIndexRecord) nodes ∧
          keys = nodes.flatten

/-- A directory whose index is well formed, with the keys of all its entries. -/
def WellFormedDirectory (recordNumber : Nat) (keys : List IndexKey) : Prop :=
  ∃ record rootKeys allocatedKeys, vol.readFileRecord recordNumber = .ok record ∧ record.isDirectory ∧
    RootKeys record rootKeys ∧ vol.AllocatedKeys record allocatedKeys ∧ keys = rootKeys ++ allocatedKeys

end Volume

/-- What the entries of some keys are read as. -/
def collect : List IndexKey → Except FsError (List DirectoryEntry)
  | [] => pure []
  | k :: keys => do
      let info ← parseFileNameEntry k.recordNumber k.key
      let rest ← collect keys
      pure (info.toList ++ rest)

theorem collect_append (keys more : List IndexKey) :
    collect (keys ++ more) = (collect keys).bind fun a => (collect more).bind fun b => .ok (a ++ b) := by
  induction keys with
  | nil =>
      cases h : collect more with
      | error e => simp [collect, h, Except.bind, pure, Except.pure]
      | ok b => simp [collect, h, Except.bind, pure, Except.pure]
  | cons k keys ih =>
      rw [List.cons_append, collect, collect, ih]
      cases parseFileNameEntry k.recordNumber k.key with
      | error e => rfl
      | ok info =>
          cases collect keys with
          | error e => rfl
          | ok a =>
              cases collect more with
              | error e => rfl
              | ok b => exact congrArg Except.ok (List.append_assoc _ _ _).symm

theorem parseIndexEntries_eq {data : List UInt8} {offset fuel : Nat} {keys : List IndexKey}
    (h : NodeEntries data offset keys) (hfuel : data.length - offset ≤ fuel) :
    parseIndexEntries data fuel offset = collect keys := by
  induction h generalizing fuel with
  | last offset entryLen flags hroom hentry hflags hne hinside hlast =>
      obtain ⟨fuel, rfl⟩ : ∃ f, fuel = f + 1 := ⟨fuel - 1, by omega⟩
      obtain ⟨streamLen, hstream⟩ := @readLe_isSome 2 data (offset + 10) (by omega)
      rw [parseIndexEntries, if_neg (by omega), readU16, hentry, someOr_some, ok_bind, readU16, hstream, someOr_some, ok_bind,
        readU16, hflags, someOr_some, ok_bind, refuseIf, if_neg (by omega), ok_bind, if_pos hlast, collect]
  | entry offset entryLen streamLen flags k keys hentry hstream hflags hinside hmore hkey hnumber hstreamed hrest ih =>
      obtain ⟨fuel, rfl⟩ : ∃ f, fuel = f + 1 := ⟨fuel - 1, by omega⟩
      rw [parseIndexEntries, if_neg (by omega), readU16, hentry, someOr_some, ok_bind, readU16, hstream, someOr_some, ok_bind,
        readU16, hflags, someOr_some, ok_bind, refuseIf, if_neg (by omega), ok_bind, if_neg (not_not.2 hmore), refuseIf,
        if_neg (by omega), ok_bind, readU48, hnumber, someOr_some, ok_bind, hstreamed, ih (by omega), collect]

theorem parseNode_eq {block : List UInt8} {indexHeader : Nat} {keys : List IndexKey}
    (h : IndexNode block indexHeader keys) : parseNode block indexHeader = collect keys := by
  obtain ⟨entriesOffset, totalSize, hentries, htotal, hle, hnode⟩ := h
  rw [parseNode, readU32, hentries, someOr_some, ok_bind, readU32, htotal, someOr_some, ok_bind]
  dsimp only
  rw [refuseIf, if_neg (Nat.not_lt.2 hle), ok_bind]
  apply parseIndexEntries_eq hnode
  rw [List.length_take]
  omega

theorem foldlM_nodes {vol : Volume} {blocks : List (List UInt8)} {nodes : List (List IndexKey)}
    (h : List.Forall₂ vol.RecordKeys (blocks.filter vol.isIndexRecord) nodes) (entries : List DirectoryEntry) :
    blocks.foldlM (fun entries chunk =>
      if vol.isIndexRecord chunk then do
        let more ← vol.parseIndexRecord chunk
        pure (entries ++ more)
      else pure entries) entries = (collect nodes.flatten).bind fun more => .ok (entries ++ more) := by
  induction blocks generalizing nodes entries with
  | nil =>
      rw [List.filter_nil, List.forall₂_nil_left_iff] at h
      subst h
      exact congrArg Except.ok (List.append_nil entries).symm
  | cons block blocks ih =>
      rw [List.foldlM_cons]
      by_cases hblock : vol.isIndexRecord block = true
      · rw [List.filter_cons_of_pos hblock] at h
        obtain ⟨keys, rest, ⟨fixed, hfixed, hlen, hnode⟩, hrest, rfl⟩ := List.forall₂_cons_left_iff.1 h
        have hparse : vol.parseIndexRecord block = collect keys := by
          rw [Volume.parseIndexRecord, hfixed, ok_bind, refuseIf, if_neg (Nat.not_lt.2 hlen), ok_bind, parseNode_eq hnode]
        rw [if_pos hblock, hparse, List.flatten_cons, collect_append]
        cases collect keys with
        | error e => rfl
        | ok some =>
            rw [ok_bind]
            refine (ih hrest (entries ++ some)).trans ?_
            cases collect rest.flatten with
            | error e => rfl
            | ok more => exact congrArg Except.ok (List.append_assoc entries some more)
      · rw [List.filter_cons_of_neg hblock] at h
        rw [if_neg hblock]
        exact ih h entries

theorem parseRoot_eq {record : ReadRecord} {keys : List IndexKey} (h : RootKeys record keys) :
    (match record.attribute attrTypeIndexRoot with
      | none => pure []
      | some attr => Volume.parseIndexRoot attr) = collect keys := by
  rw [RootKeys] at h
  cases hattr : record.attribute attrTypeIndexRoot with
  | none =>
      rw [hattr] at h
      subst h
      rfl
  | some attr =>
      rw [hattr] at h
      dsimp only at h ⊢
      rw [Volume.parseIndexRoot]
      cases hdata : attr.data with
      | nonResident realSize runs =>
          rw [hdata] at h
          exact h.elim
      | resident value =>
          rw [hdata] at h
          dsimp only
          rw [refuseIf, if_neg (Nat.not_lt.2 h.1), ok_bind, parseNode_eq h.2]

theorem parseAllocations_eq {vol : Volume} {record : ReadRecord} {keys : List IndexKey}
    (h : vol.AllocatedKeys record keys) :
    (if (record.attributesOf attrTypeIndexAllocation).isEmpty then pure []
      else vol.parseIndexAllocations (record.attributesOf attrTypeIndexAllocation)) = collect keys := by
  rw [Volume.AllocatedKeys] at h
  split at h
  · rename_i hempty
    rw [if_pos hempty, h]
    rfl
  · rename_i hempty
    obtain ⟨runs, hruns, h⟩ := h
    rw [if_neg hempty, Volume.parseIndexAllocations, hruns, ok_bind]
    split at h
    · rename_i hzero
      rw [if_pos hzero, h]
      rfl
    · rename_i hzero
      obtain ⟨data, nodes, hdata, hsize, hnodes, rfl⟩ := h
      rw [if_neg hzero, hdata, ok_bind, refuseIf, if_neg (by omega), ok_bind, foldlM_nodes hnodes]
      cases collect nodes.flatten <;> rfl

/-- A well-formed directory is listed from what its keys are read as. -/
theorem readDirectory_eq {vol : Volume} {recordNumber : Nat} {keys : List IndexKey}
    (h : vol.WellFormedDirectory recordNumber keys) :
    vol.readDirectory recordNumber = (collect keys).bind fun entries => .ok (listEntries entries) := by
  obtain ⟨record, rootKeys, allocatedKeys, hrecord, hdir, hroot, hallocated, rfl⟩ := h
  have hsteps : vol.readDirectory recordNumber = (collect rootKeys).bind fun a =>
      (collect allocatedKeys).bind fun b => .ok (listEntries (a ++ b)) := by
    rw [Volume.readDirectory, hrecord, ok_bind, refuseIf, if_neg (not_not.2 hdir), ok_bind, ← parseRoot_eq hroot,
      ← parseAllocations_eq hallocated]
    dsimp only
    cases record.attribute attrTypeIndexRoot with
    | none => cases (record.attributesOf attrTypeIndexAllocation).isEmpty <;> rfl
    | some attr => cases (record.attributesOf attrTypeIndexAllocation).isEmpty <;> rfl
  rw [hsteps, collect_append]
  cases collect rootKeys with
  | error e => rfl
  | ok a =>
      cases collect allocatedKeys with
      | error e => rfl
      | ok b => rfl

theorem charFromU32_surrogate {unit : Nat} (h : IsSurrogate unit) : charFromU32 unit = none := by
  obtain ⟨hle, hlt⟩ := h
  rw [charFromU32, if_neg]
  omega

theorem charFromU32_unit {unit : Nat} (hlt : unit < 2 ^ 16) (h : ¬ IsSurrogate unit) :
    charFromU32 unit = some (Char.ofNat unit) := by
  rw [IsSurrogate] at h
  rw [charFromU32, if_pos]
  omega

theorem unitsToString_ok {units : List Nat} (hlt : ∀ unit ∈ units, unit < 2 ^ 16)
    (h : ∀ unit ∈ units.takeWhile (· ≠ 0), ¬ IsSurrogate unit) :
    unitsToString units = .ok ((units.takeWhile (· ≠ 0)).map Char.ofNat) := by
  induction units with
  | nil => rfl
  | cons unit units ih =>
      rw [unitsToString]
      by_cases hzero : unit = 0
      · rw [if_pos hzero, hzero]
        rfl
      · rw [List.takeWhile_cons_of_pos (by simpa using hzero)] at h ⊢
        rw [List.forall_mem_cons] at h hlt
        rw [if_neg hzero, charFromU32_unit hlt.1 h.1, someOr_some, ok_bind, ih hlt.2 h.2]
        rfl

theorem unitsToString_error {units : List Nat} {unit : Nat} (hmem : unit ∈ units.takeWhile (· ≠ 0))
    (h : IsSurrogate unit) : unitsToString units = .error .corrupted := by
  induction units with
  | nil => nomatch hmem
  | cons first units ih =>
      rw [unitsToString]
      by_cases hzero : first = 0
      · subst hzero
        nomatch hmem
      · rw [List.takeWhile_cons_of_pos (by simpa using hzero), List.mem_cons] at hmem
        rw [if_neg hzero]
        obtain rfl | hmem := hmem
        · rw [charFromU32_surrogate h]
          rfl
        · rw [ih hmem]
          cases charFromU32 first <;> rfl

/-- Names without characters beyond the sixteen-bit ones are decoded as they were encoded. -/
theorem decode_units {name : Text} {units : List Nat} (hname : name.flatMap utf16Units = units)
    (h : ∀ unit ∈ units, ¬ IsSurrogate unit) : units.map Char.ofNat = name := by
  induction name generalizing units with
  | nil =>
      subst hname
      rfl
  | cons c name ih =>
      rw [List.flatMap_cons] at hname
      subst hname
      rw [List.forall_mem_append] at h
      have hunits : utf16Units c = [c.toNat] := by
        rw [utf16Units]
        split
        · rfl
        · rename_i hbig
          have hc := Wim.char_toNat_lt c
          have hfirst := h.1 (0xD800 + (c.toNat - 0x10000) / 0x400) (by rw [utf16Units, if_neg hbig]; exact List.mem_cons_self)
          rw [IsSurrogate] at hfirst
          omega
      rw [List.map_append, ih rfl h.2, hunits, List.map_singleton, Char.ofNat_toNat, List.singleton_append]

namespace IndexKey

variable (k : IndexKey)

theorem rawUnits_lt : ∀ unit ∈ k.rawUnits, unit < 2 ^ 16 := by
  intro unit hunit
  obtain ⟨chunk, hchunk, rfl⟩ := List.mem_map.1 hunit
  obtain ⟨index, hindex, rfl⟩ := List.mem_map.1 hchunk
  apply (fromLeBytes_lt _).trans_le
  exact Nat.pow_le_pow_right (by decide : 0 < 256) (List.length_take_le 2 _)

/-- A key is read up to its name, which decides the rest. -/
theorem parse_eq (h : ¬ k.isDos) : ∃ size isDir attributes,
    parseFileNameEntry k.recordNumber k.key = (unitsToString k.rawUnits).bind fun name =>
      if name ∈ reservedNames then .ok none
      else .ok (some { name, size, isDir, attributes, startCluster := k.recordNumber, contiguous := false }) := by
  have hlen := k.length_le
  obtain ⟨allocatedSize, hallocated⟩ := @readLe_isSome 8 k.key 40 (by omega)
  obtain ⟨realSize, hreal⟩ := @readLe_isSome 8 k.key 48 (by omega)
  obtain ⟨rawFlags, hflags⟩ := @readLe_isSome 4 k.key 56 (by omega)
  obtain ⟨namespaceByte, hnamespace⟩ : ∃ b, k.key[65]? = some b := ⟨_, List.getElem?_eq_getElem (by omega)⟩
  have hother : namespaceByte ≠ fileNameNamespaceDos := by
    rintro rfl
    exact h hnamespace
  have hpair : ¬ ((k.key.drop 66).take (k.nameLen.toNat * 2)).length % 2 ≠ 0 := by
    rw [List.length_take, List.length_drop, Nat.min_eq_left (by omega)]
    omega
  refine ⟨if rawFlags.land 0x10000000 ≠ 0 then allocatedSize else realSize, rawFlags.land 0x10000000 ≠ 0,
    fileAttributes rawFlags, ?_⟩
  rw [parseFileNameEntry, if_neg (by omega), hnamespace, someOr_some, ok_bind, if_neg hother, readU64, hallocated,
    someOr_some, ok_bind, readU64, hreal, someOr_some, ok_bind, readU32, hflags, someOr_some, ok_bind, k.nameLen_eq,
    someOr_some, ok_bind, refuseIf, if_neg (Nat.not_lt.2 hlen), ok_bind, utf16leToString, refuseIf, if_neg hpair, ok_bind]
  rw [← rawUnits]
  cases unitsToString k.rawUnits with
  | error e => rfl
  | ok name =>
      simp only [ok_bind, Except.bind, reservedNames, List.mem_cons, List.not_mem_nil, or_false, decide_eq_true_eq]
      rfl

theorem parse_dos (h : k.isDos) : parseFileNameEntry k.recordNumber k.key = .ok none := by
  have hlen := k.length_le
  rw [isDos] at h
  rw [parseFileNameEntry, if_neg (by omega), h, someOr_some, ok_bind, if_pos rfl]
  rfl

end IndexKey

/-- A key whose name holds a surrogate is refused. -/
theorem parse_surrogate {k : IndexKey} {unit : Nat} (h : ¬ k.isDos) (hunit : unit ∈ k.units) (hsurrogate : IsSurrogate unit) :
    parseFileNameEntry k.recordNumber k.key = .error .corrupted := by
  obtain ⟨size, isDir, attributes, hparse⟩ := k.parse_eq h
  rw [hparse, unitsToString_error hunit hsurrogate]
  rfl

/-- Any other key is passed over, or listed under its name. -/
theorem parse_listed {k : IndexKey} (h : ¬ k.isDos → ∀ unit ∈ k.units, ¬ IsSurrogate unit) :
    ∃ info, parseFileNameEntry k.recordNumber k.key = .ok info ∧
      info.toList.map (fun e => (e.name, e.startCluster)) = listed [k] := by
  by_cases hdos : k.isDos
  · exact ⟨none, k.parse_dos hdos, by simp [listed, hdos]⟩
  · obtain ⟨size, isDir, attributes, hparse⟩ := k.parse_eq hdos
    rw [unitsToString_ok k.rawUnits_lt (h hdos)] at hparse
    by_cases hreserved : k.name ∈ reservedNames
    · exact ⟨none, hparse.trans (if_pos hreserved), by simp [listed, hdos, hreserved]⟩
    · refine ⟨_, hparse.trans (if_neg hreserved), ?_⟩
      have hname : (k.rawUnits.takeWhile (· ≠ 0)).map Char.ofNat = k.name := rfl
      rw [Option.toList_some, List.map_singleton, hname]
      simp [listed, hdos, hreserved]

theorem listed_cons (k : IndexKey) (keys : List IndexKey) : listed (k :: keys) = listed [k] ++ listed keys := by
  rw [listed, listed, listed, ← List.filter_append, ← List.map_append, ← List.filter_append, List.singleton_append]

theorem collect_ok {keys : List IndexKey} (h : ∀ k ∈ keys, ¬ k.isDos → ∀ unit ∈ k.units, ¬ IsSurrogate unit) :
    ∃ entries, collect keys = .ok entries ∧ entries.map (fun e => (e.name, e.startCluster)) = listed keys := by
  induction keys with
  | nil => exact ⟨[], rfl, rfl⟩
  | cons k keys ih =>
      rw [List.forall_mem_cons] at h
      obtain ⟨info, hinfo, hlisted⟩ := parse_listed h.1
      obtain ⟨entries, hentries, hrest⟩ := ih h.2
      refine ⟨info.toList ++ entries, ?_, ?_⟩
      · rw [collect, hinfo, ok_bind, hentries]
        rfl
      · rw [List.map_append, hlisted, hrest, ← listed_cons]

theorem collect_error {keys : List IndexKey} {k : IndexKey} {unit : Nat} (hk : k ∈ keys) (h : ¬ k.isDos)
    (hunit : unit ∈ k.units) (hsurrogate : IsSurrogate unit) : collect keys = .error .corrupted := by
  induction keys with
  | nil => nomatch hk
  | cons first keys ih =>
      by_cases hfirst : ¬ first.isDos → ∀ unit ∈ first.units, ¬ IsSurrogate unit
      · obtain ⟨info, hinfo, -⟩ := parse_listed hfirst
        obtain rfl | hk := List.mem_cons.1 hk
        · exact absurd hsurrogate (hfirst h unit hunit)
        · rw [collect, hinfo, ok_bind, ih hk]
          rfl
      · simp only [Classical.not_imp, not_forall, not_not] at hfirst
        obtain ⟨hdos, other, hother, hbad⟩ := hfirst
        rw [collect, parse_surrogate hdos hother hbad]
        rfl

def sampleKeyBytes (units : List Nat) : List UInt8 :=
  List.replicate 64 0 ++ ([UInt8.ofNat units.length, 1] ++ units.flatMap (toLeBytes 2))

def sampleKey (units : List Nat) : IndexKey where
  recordNumber := 40
  key := sampleKeyBytes units
  nameLen := UInt8.ofNat units.length
  nameLen_eq := by rw [sampleKeyBytes, List.getElem?_append_right (by simp)]; simp
  length_le := by simp [sampleKeyBytes, length_toLeBytes, List.length_flatMap]; omega

def sampleIndexEntry (units : List Nat) : List UInt8 :=
  toLeBytes 8 40 ++ toLeBytes 2 88 ++ toLeBytes 2 72 ++ toLeBytes 4 0 ++ sampleKeyBytes units

/-- The index root of a directory of two files whose names have three units. -/
def sampleRoot (first second : List Nat) : List UInt8 :=
  List.replicate 16 0 ++ (toLeBytes 4 16 ++ toLeBytes 4 208 ++ toLeBytes 8 208 ++
    (sampleIndexEntry first ++ sampleIndexEntry second ++ toLeBytes 8 0 ++ toLeBytes 4 16 ++ toLeBytes 4 2))

def sampleDirectory (first second : List Nat) : List UInt8 :=
  fileRecordMagic ++ toLeBytes 2 0x30 ++ toLeBytes 2 2 ++ List.replicate 12 0 ++ toLeBytes 2 0x38 ++ toLeBytes 2 3 ++
    List.replicate 24 0 ++ toLeBytes 8 1 ++
    (toLeBytes 4 attrTypeIndexRoot ++ toLeBytes 4 248 ++ toLeBytes 8 0 ++ toLeBytes 4 224 ++ toLeBytes 4 24 ++
      sampleRoot first second) ++ toLeBytes 4 attrTypeEnd ++ List.replicate 202 0 ++ toLeBytes 2 1

def sampleStick (first second : List Nat) : Volume where
  io := {
    blockSize := 512
    totalBlocks := 8
    bytes := fun i => ((sampleDirectory first second)[i]?).getD 0
    blockSize_lt := Words.sector_lt_u32
    totalBlocks_lt := Words.eight_lt_u64 }
  sectorsPerCluster := 1
  totalSectors := 8
  bytesPerSector_pos := Words.sector_pos
  sectorsPerCluster_pos := Nat.one_pos
  fileRecordSize := 512
  indexRecordSize := 512
  mftRuns := [⟨0, some 0, 1⟩]

/-- "a😀". -/
def emojiUnits : List Nat := [0x61, 0xD83D, 0xDE00]

def plainUnits : List Nat := [0x69, 0x73, 0x6F]

def residentValue : AttributeData → Option (List UInt8)
  | .resident value => some value
  | .nonResident _ _ => none

theorem sampleStick_wellFormed {first : List Nat} (h : first = emojiUnits ∨ first = plainUnits) :
    (sampleStick first plainUnits).WellFormedDirectory 0 [sampleKey first, sampleKey plainUnits] := by
  have hread : (((sampleStick first plainUnits).readFileRecord 0).toOption.any fun record =>
      record.isDirectory && (record.attributesOf attrTypeIndexAllocation).isEmpty &&
        (record.attribute attrTypeIndexRoot).bind (fun attr => residentValue attr.data) ==
          some (sampleRoot first plainUnits)) = true := by
    obtain rfl | rfl := h <;> decide +kernel
  have hnode : IndexNode (sampleRoot first plainUnits) 16 [sampleKey first, sampleKey plainUnits] := by
    refine ⟨16, 208, ?_, ?_, ?_, .entry 0 88 72 0 _ _ ?_ ?_ ?_ ?_ ?_ ?_ ?_ ?_ (.entry 88 88 72 0 _ _ ?_ ?_ ?_ ?_ ?_ ?_ ?_ ?_
      (.last 176 16 2 ?_ ?_ ?_ ?_ ?_ ?_))⟩ <;> obtain rfl | rfl := h <;> decide +kernel
  cases hrecord : (sampleStick first plainUnits).readFileRecord 0 with
  | error e =>
      rw [hrecord] at hread
      cases hread
  | ok record =>
      rw [hrecord] at hread
      simp only [Except.toOption, Option.any_some, Bool.and_eq_true] at hread
      obtain ⟨⟨hdir, hempty⟩, hroot⟩ := hread
      refine ⟨record, [sampleKey first, sampleKey plainUnits], [], hrecord, hdir, ?_, ?_, (List.append_nil _).symm⟩
      · rw [RootKeys]
        cases hattr : record.attribute attrTypeIndexRoot with
        | none =>
            rw [hattr] at hroot
            cases hroot
        | some attr =>
            rw [hattr] at hroot
            cases hdata : attr.data with
            | nonResident realSize runs =>
                rw [Option.bind_some, hdata] at hroot
                cases hroot
            | resident value =>
                rw [Option.bind_some, hdata] at hroot
                obtain rfl : value = sampleRoot first plainUnits := by simpa [residentValue] using hroot
                have hlen : 32 ≤ (sampleRoot first plainUnits).length := by
                  obtain rfl | rfl := h <;> decide +kernel
                dsimp only
                rw [hdata]
                exact ⟨hlen, hnode⟩
      · rw [Volume.AllocatedKeys, if_pos hempty]

end NextBoot.Fs.Ntfs
