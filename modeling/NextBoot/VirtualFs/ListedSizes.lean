import NextBoot.VirtualFs.Handles
import NextBoot.VirtualFs.PathSegments

namespace NextBoot.VirtualFs

open Bytes Strings Words IsoFile
open Fs (FsError)
open Wim (utf16Units)

/-- The size and the name that a file information holds. -/
def reportedSize (bytes : List UInt8) : Option Nat := readLe 8 bytes 8

def nameIn (bytes : List UInt8) (index : Nat) : Nat := (readLe 2 bytes (80 + index * 2)).getD 0

/-- Reads with buffers of any sizes, up to the first that gives nothing. -/
inductive ReadsAll (v : Volume) : IsoFile → List UInt8 → Prop
  | finished {file next : IsoFile} (n : Nat) (hn : 0 < n)
      (hread : file.readHandler v (some n) true = (next, ⟨.success, some 0, [], none⟩)) : ReadsAll v file []
  | more {file next : IsoFile} {bytes rest : List UInt8} (n : Nat) (hn : 0 < n)
      (hread : file.readHandler v (some n) true = (next, ⟨.success, some bytes.length, bytes, none⟩)) (hne : bytes ≠ [])
      (hrest : ReadsAll v next rest) : ReadsAll v file (bytes ++ rest)

/-- What a handle reports of its file, and what reading it gives. -/
def Serves (v : Volume) (file : IsoFile) (size : Option Nat) : Prop :=
  (∃ info, reportedSize info = size ∧ ∀ n, info.length ≤ n →
    file.getInfoHandler (some efiFileInfoGuid) (some n) true = ⟨.success, some info.length, info, none⟩) ∧
  (∃ data, ReadsAll v file data) ∧ ∀ data, ReadsAll v file data → size = some data.length

/-- The next read of a directory handle lists the file of a path, which is opened through the listed name and has the
listed size. -/
def SizesAgree (v : Volume) (handles : Handles) (h : Nat) (path : Text) : Prop :=
  ∃ bytes, ∀ n, bytes.length ≤ n →
    let listed := step v handles (.read (some h) (some n) true)
    listed.2 = ⟨.success, some bytes.length, bytes, none⟩ ∧
      ∃ child, step v listed.1 (.open (some h) true (some (nameIn bytes)) efiFileModeRead) =
          (listed.1 ++ [child], .of .success) ∧
        child.path = path ∧ Serves v child (reportedSize bytes)

/-- Listing, stat and reading agree on the files of a directory, whose names are parts of paths. -/
structure Agrees (fs : VirtualIsoFilesystem) (content : Text → List UInt8) (dir : Text) : Prop extends ReadsFiles fs content where
  listed : ∀ entries, fs.readDir dir = .ok entries → ∀ entry ∈ entries, entry.isDir = false →
    IsPart entry.name ∧ entry.name ≠ ['.'] ∧ entry.name ≠ ['.', '.'] ∧
      ∃ info, fs.stat (childPath dir entry.name) = .ok info ∧
        info.name = entry.name ∧ info.isDir = false ∧ info.size = entry.size
  readFile_ok : ∀ path info offset length, fs.stat path = .ok info → info.isDir = false → offset ≤ info.size →
    ∃ bytes, fs.readFile path offset length = .ok bytes

/-- A name that is what its units are read as. -/
def NameReads (name : Text) : Prop :=
  name.length < 4096 ∧ ∀ c ∈ name, c.toNat < 0x10000 ∧ c ≠ '\\' ∧ c ≠ Char.ofNat 0

/-- The replacements of a path, in the order in which they are given. -/
def Volume.rules (v : Volume) (path : Text) : List FileReplacementEntry := v.replacements.filter fun r => r.key = pathKey path

/-- The first and the last replacement of a path have data of one length. -/
def LengthsAgree (v : Volume) (path : Text) : Prop :=
  ∀ first last, (v.rules path).head? = some first → (v.rules path).getLast? = some last →
    first.data.length = last.data.length

section names

variable {name dir requested : Text} {memory : Nat → Nat} {c : Char} {index fuel unit : Nat}

/-- The character that a unit of a file name is read as. -/
def unitChar (unit : Nat) : Char := slash ((charFromU32 unit).getD replacementChar)

theorem stringFromUnits_eq (memory : Nat → Nat) (fuel index : Nat) : stringFromUnits memory (fuel + 1) index =
    if memory index = 0 then some []
    else (stringFromUnits memory fuel (index + 1)).map fun rest => unitChar (memory index) :: rest := rfl

theorem stringFromUnits_name (hname : ∀ c ∈ name, c.toNat < 0x10000 ∧ c ≠ '\\' ∧ c ≠ Char.ofNat 0)
    (hfuel : name.length < fuel)
    (hmemory : ∀ i unit, (name.map Char.toNat ++ [0])[i]? = some unit → memory (index + i) = unit) :
    stringFromUnits memory fuel index = some name := by
  induction name generalizing fuel index with
  | nil =>
      obtain ⟨fuel, rfl⟩ := Nat.exists_eq_succ_of_ne_zero (Nat.ne_zero_of_lt hfuel)
      have hzero : memory index = 0 := hmemory 0 0 rfl
      rw [stringFromUnits_eq, if_pos hzero]
  | cons c name ih =>
      obtain ⟨fuel, rfl⟩ := Nat.exists_eq_succ_of_ne_zero (Nat.ne_zero_of_lt hfuel)
      rw [List.forall_mem_cons] at hname
      obtain ⟨⟨-, hback, hnul⟩, hname⟩ := hname
      have hunit : memory index = c.toNat := hmemory 0 c.toNat rfl
      have hne : c.toNat ≠ 0 := by
        intro hzero
        rw [← Char.ofNat_toNat c, hzero] at hnul
        exact hnul rfl
      have hrest : stringFromUnits memory fuel (index + 1) = some name := by
        apply ih hname (Nat.lt_of_succ_lt_succ hfuel)
        intro i unit hi
        rw [Nat.add_assoc, Nat.add_comm 1 i]
        exact hmemory (i + 1) unit hi
      have hchar : unitChar c.toNat = c := by
        rw [unitChar, charFromU32_toNat]
        exact if_neg hback
      rw [stringFromUnits_eq, hunit, if_neg hne, hrest, hchar]
      rfl

/-- What is read of a name ends before the first NUL and within the limit. -/
theorem stringFromUnits_spec (h : stringFromUnits memory fuel index = some requested) : requested.length < fuel ∧
    ∀ i c, requested[i]? = some c → memory (index + i) ≠ 0 ∧ c = unitChar (memory (index + i)) := by
  induction fuel generalizing index requested with
  | zero => cases h
  | succ fuel ih =>
      rw [stringFromUnits_eq] at h
      split at h
      · cases h
        exact ⟨Nat.succ_pos fuel, fun i c hi => nomatch hi⟩
      · next hne =>
          obtain ⟨rest, hrest, rfl⟩ := Option.map_eq_some_iff.mp h
          obtain ⟨hlen, hunits⟩ := ih hrest
          refine ⟨Nat.succ_lt_succ hlen, fun i c hi => ?_⟩
          cases i with
          | zero =>
              cases hi
              exact ⟨hne, rfl⟩
          | succ i =>
              rw [Nat.add_comm i 1, ← Nat.add_assoc]
              exact hunits i c hi

theorem unitChar_ne_backslash (unit : Nat) : unitChar unit ≠ '\\' := by
  unfold unitChar slash
  split
  · decide
  · next hne => exact hne

/-- A unit is read as its own character, as a separator, or as the replacement of half a pair. -/
theorem unitChar_cases (unit : Nat) :
    (unitChar unit).toNat = unit ∨ unit = 0x5C ∧ unitChar unit = '/' ∨ unitChar unit = replacementChar := by
  unfold unitChar
  cases h : charFromU32 unit with
  | none => exact .inr (.inr rfl)
  | some c =>
      have hc := charFromU32_spec h
      rw [Option.getD_some]
      unfold slash
      split
      · next hback =>
          refine .inr (.inl ⟨?_, rfl⟩)
          rw [← hc, hback]
          rfl
      · exact .inl hc

theorem unitChar_basic (h0 : unit ≠ 0) (h : unit < 2 ^ 16) :
    (unitChar unit).toNat < 0x10000 ∧ unitChar unit ≠ '\\' ∧ unitChar unit ≠ Char.ofNat 0 := by
  refine ⟨?_, unitChar_ne_backslash unit, ?_⟩
  · rcases unitChar_cases unit with hc | ⟨-, hc⟩ | hc
    · omega
    · rw [hc]
      decide
    · rw [hc]
      decide
  · intro hnul
    rcases unitChar_cases unit with hc | ⟨-, hc⟩ | hc
    · rw [hnul] at hc
      exact h0 hc.symm
    · rw [hnul] at hc
      exact absurd hc (by decide)
    · rw [hnul] at hc
      exact absurd hc (by decide)

/-- The units of a character that is no separator are read as none. -/
theorem unitChar_ne_slash (hslash : c ≠ '/') (hback : c ≠ '\\') (h : unit ∈ utf16Units c) : unitChar unit ≠ '/' := by
  have hne : unit ≠ 0x2F ∧ unit ≠ 0x5C := by
    unfold utf16Units at h
    split at h
    · rw [List.mem_singleton] at h
      subst h
      exact ⟨fun hc => hslash (Char.toNat_inj.mp hc), fun hc => hback (Char.toNat_inj.mp hc)⟩
    · rw [List.mem_pair] at h
      omega
  intro hc
  rcases unitChar_cases unit with hunit | ⟨hunit, -⟩ | hunit
  · rw [hc] at hunit
    exact hne.1 hunit.symm
  · exact hne.2 hunit
  · rw [hc] at hunit
    exact absurd hunit (by decide)

end names

section infos

variable {info : FileInfo} {blockSize offset i unit : Nat} {bytes front rest : List UInt8} {units : List Nat}

theorem readLe_units (hfront : front.length = offset) (hlt : ∀ unit ∈ units, unit < 2 ^ 16) (h : units[i]? = some unit) :
    readLe 2 (front ++ (units.flatMap (toLeBytes 2) ++ rest)) (offset + i * 2) = some unit := by
  induction units generalizing front offset i with
  | nil => cases h
  | cons first units ih =>
      rw [List.forall_mem_cons] at hlt
      rw [List.flatMap_cons, List.append_assoc]
      cases i with
      | zero =>
          cases h
          exact readLe_append hfront hlt.1
      | succ i =>
          have hnext : (front ++ toLeBytes 2 first).length = offset + 2 := by
            rw [List.length_append, length_toLeBytes, hfront]
          have hplace : offset + (i + 1) * 2 = offset + 2 + i * 2 := by omega
          rw [← List.append_assoc, hplace]
          exact ih hnext hlt.2 h

theorem encodeUtf16Nul_lt (name : Text) : ∀ unit ∈ encodeUtf16Nul name, unit < 2 ^ 16 := by
  intro unit hunit
  rcases List.mem_append.mp hunit with hunit | hunit
  · obtain ⟨c, -, hc⟩ := List.mem_flatMap.mp hunit
    exact Wim.utf16Units_lt hc
  · rw [List.mem_singleton.mp hunit]
    decide

/-- The size of a file and its name stand where a reader of the information looks for them. -/
theorem buildFileInfoBytes_spec (h : buildFileInfoBytes info blockSize = .ok bytes) :
    reportedSize bytes = some info.size ∧
      ∀ i unit, (encodeUtf16Nul info.name)[i]? = some unit → nameIn bytes i = unit := by
  unfold buildFileInfoBytes withName at h
  split at h
  · cases h
  · next totalSize _ =>
      cases h
      constructor
      · simp only [List.append_assoc]
        exact readLe_append (length_toLeBytes 8 totalSize) (by have := info.size_lt; omega)
      · intro i unit hi
        rw [nameIn, List.append_assoc, readLe_units (by simp) (encodeUtf16Nul_lt info.name) hi, Option.getD_some]

theorem length_encodeUtf16Nul (name : Text) : (encodeUtf16Nul name).length ≤ 2 * name.length + 1 := by
  have hunits : (name.flatMap utf16Units).length ≤ 2 * name.length := by
    induction name with
    | nil => exact Nat.le_refl 0
    | cons c name ih =>
        have hc : (utf16Units c).length ≤ 2 := by
          unfold utf16Units
          split <;> simp
        rw [List.flatMap_cons, List.length_append, List.length_cons]
        omega
  rw [encodeUtf16Nul, List.length_append, List.length_singleton]
  omega

theorem buildFileInfoBytes_ok (blockSize : Nat) (h : info.name.length < 4096) :
    ∃ bytes, buildFileInfoBytes info blockSize = .ok bytes := by
  have hlen := length_encodeUtf16Nul info.name
  have hmul : checkedMul 64 (encodeUtf16Nul info.name).length 2 = some ((encodeUtf16Nul info.name).length * 2) :=
    checkedMul_eq_some.mpr ⟨by omega, rfl⟩
  have hadd : checkedAdd 64 80 ((encodeUtf16Nul info.name).length * 2) = some (80 + (encodeUtf16Nul info.name).length * 2) :=
    checkedAdd_eq_some.mpr ⟨by omega, rfl⟩
  have hpad : checkedAdd 64 (80 + (encodeUtf16Nul info.name).length * 2) 7 =
      some (80 + (encodeUtf16Nul info.name).length * 2 + 7) := checkedAdd_eq_some.mpr ⟨by omega, rfl⟩
  rw [buildFileInfoBytes, withName, hmul, Option.bind_some, hadd, Option.bind_some, hpad]
  exact ⟨_, rfl⟩

theorem units_of_basic {name : Text} (h : ∀ c ∈ name, c.toNat < 0x10000) : name.flatMap utf16Units = name.map Char.toNat := by
  induction name with
  | nil => rfl
  | cons c name ih =>
      rw [List.forall_mem_cons] at h
      rw [List.flatMap_cons, ih h.2, utf16Units, if_pos h.1]
      rfl

/-- The name of a listed file is read back from its listing. -/
theorem stringFromUefi_listed (hname : NameReads info.name) (h : buildFileInfoBytes info blockSize = .ok bytes) :
    stringFromUefiChar16 (nameIn bytes) = some info.name := by
  apply stringFromUnits_name hname.2 hname.1
  intro i unit hi
  rw [Nat.zero_add]
  apply (buildFileInfoBytes_spec h).2
  rw [encodeUtf16Nul, units_of_basic fun c hc => (hname.2 c hc).1]
  exact hi

/-- What is read back of a listed name with no separator in it has none either. -/
theorem notMem_of_read {requested : Text} (hpart : IsPart info.name) (hback : '\\' ∉ info.name)
    (h : buildFileInfoBytes info blockSize = .ok bytes) (hread : stringFromUefiChar16 (nameIn bytes) = some requested) :
    '/' ∉ requested ∧ NameReads requested := by
  obtain ⟨hlen, hunits⟩ := stringFromUnits_spec hread
  have hnames := (buildFileInfoBytes_spec h).2
  have hbefore : ∀ (i : Nat) (c : Char), requested[i]? = some c → ∃ unit ∈ info.name.flatMap utf16Units, unit ≠ 0 ∧ c = unitChar unit := by
    intro i c hc
    -- all units before one that is read are read, so that it is not behind the NUL
    have hlt : i < (info.name.flatMap utf16Units).length := by
      by_contra hge
      have hi := (List.getElem?_eq_some_iff.mp hc).1
      have hlast : (info.name.flatMap utf16Units).length < requested.length := by omega
      obtain ⟨hne, -⟩ := hunits _ _ (List.getElem?_eq_getElem hlast)
      apply hne
      rw [Nat.zero_add]
      apply hnames
      rw [encodeUtf16Nul, List.getElem?_concat_length]
    obtain ⟨hne, hchar⟩ := hunits i c hc
    have hunit : nameIn bytes i = (info.name.flatMap utf16Units)[i] := by
      apply hnames
      rw [encodeUtf16Nul, List.getElem?_append_left hlt, List.getElem?_eq_getElem hlt]
    rw [Nat.zero_add, hunit] at hne hchar
    exact ⟨_, List.getElem_mem hlt, hne, hchar⟩
  constructor
  · intro hslash
    obtain ⟨i, hi⟩ := List.mem_iff_getElem?.mp hslash
    obtain ⟨unit, hmem, -, hchar⟩ := hbefore i _ hi
    obtain ⟨c, hc, hunit⟩ := List.mem_flatMap.mp hmem
    have hnoSlash : c ≠ '/' := by
      rintro rfl
      exact hpart.2 hc
    have hnoBack : c ≠ '\\' := by
      rintro rfl
      exact hback hc
    exact unitChar_ne_slash hnoSlash hnoBack hunit hchar.symm
  · refine ⟨hlen, fun c hc => ?_⟩
    obtain ⟨i, hi⟩ := List.mem_iff_getElem?.mp hc
    obtain ⟨unit, hmem, hne, rfl⟩ := hbefore i c hi
    obtain ⟨d, -, hunit⟩ := List.mem_flatMap.mp hmem
    exact unitChar_basic hne (Wim.utf16Units_lt hunit)

end infos

section rules

variable {v : Volume} {dir name : Text} {entry : FileInfo} {content : Text → List UInt8}

/-- What one replacement does to an entry of a directory. -/
def applyRule (dir : Text) (entry : FileInfo) (r : FileReplacementEntry) : FileInfo :=
  if r.parentKey ≠ pathKey dir then entry else r.applyToListed entry

theorem applyToDirectory_eq (v : Volume) (dir : Text) (entries : List FileInfo) :
    v.applyToDirectory dir entries = entries.map fun entry => v.replacements.foldl (applyRule dir) entry := by
  unfold Volume.applyToDirectory
  generalize v.replacements = rules
  induction rules generalizing entries with
  | nil => simp
  | cons r rules ih =>
      have hone : (if r.parentKey ≠ pathKey dir then entries else entries.map r.applyToListed) =
          entries.map fun entry => applyRule dir entry r := by
        unfold applyRule
        split <;> simp
      rw [List.foldl_cons, hone, ih, List.map_map]
      rfl

theorem listing_eq (v : Volume) (dir : Text) :
    v.listing dir = (v.fs.readDir dir).map fun entries => entries.map fun entry => v.replacements.foldl (applyRule dir) entry := by
  unfold Volume.listing
  congr 1
  funext entries
  split
  · next hempty =>
      rw [List.isEmpty_iff.mp hempty]
      simp
  · exact applyToDirectory_eq v dir entries

theorem applyRule_eq (dir : Text) (hname : Plain entry.name) (hfile : entry.isDir = false) (r : FileReplacementEntry) :
    (applyRule dir entry r).name = entry.name ∧ (applyRule dir entry r).isDir = false ∧
      (applyRule dir entry r).size = if r.key = pathKey (childPath dir entry.name) then r.data.length else entry.size := by
  have hiff := @replaces_iff dir entry.name r hname
  unfold applyRule FileReplacementEntry.applyToListed
  split
  · next hparent =>
      rw [if_neg fun hkey => hparent (hiff.mpr hkey).1]
      exact ⟨rfl, hfile, rfl⟩
  · next hparent =>
      rw [not_not] at hparent
      split
      · next hmatch => exact ⟨rfl, hfile, (if_pos (hiff.mp ⟨hparent, hmatch.2⟩)).symm⟩
      · next hmatch =>
          rw [if_neg fun hkey => hmatch ⟨by simp [hfile], (hiff.mpr hkey).2⟩]
          exact ⟨rfl, hfile, rfl⟩

/-- In a listing the last replacement of a path gives the size. -/
theorem foldl_applyRule (dir : Text) (hname : Plain entry.name) (hfile : entry.isDir = false)
    (rules : List FileReplacementEntry) :
    (rules.foldl (applyRule dir) entry).name = entry.name ∧ (rules.foldl (applyRule dir) entry).isDir = false ∧
      (rules.foldl (applyRule dir) entry).size =
        (((rules.filter fun r => r.key = pathKey (childPath dir entry.name)).getLast?).map (·.data.length)).getD entry.size := by
  induction rules generalizing entry with
  | nil => exact ⟨rfl, hfile, rfl⟩
  | cons r rules ih =>
      obtain ⟨hn, hf, hs⟩ := applyRule_eq dir hname hfile r
      rw [List.foldl_cons]
      generalize applyRule dir entry r = next at hn hf hs
      obtain ⟨hname', hfile', hsize'⟩ := ih (hn ▸ hname) hf
      refine ⟨hname'.trans hn, hfile', ?_⟩
      rw [hsize', hn, hs]
      by_cases hkey : r.key = pathKey (childPath dir entry.name)
      · rw [if_pos hkey, List.filter_cons_of_pos (by simpa using hkey), List.getLast?_cons]
        cases (rules.filter fun r => r.key = pathKey (childPath dir entry.name)).getLast? <;> rfl
      · rw [if_neg hkey, List.filter_cons_of_neg (by simpa using hkey)]

theorem length_served (v : Volume) (content : Text → List UInt8) (path : Text) : (v.served content path).length =
    (((v.rules path).head?).map (·.data.length)).getD (content path).length := by
  rw [Volume.served, Volume.rules, List.head?_filter]
  cases v.replacements.find? fun r => r.key = pathKey path <;> rfl

/-- The first and the last of the rules give one length only when they agree on it. -/
theorem lengths_agree_iff {path : Text} {size : Nat} : LengthsAgree v path ↔
    (((v.rules path).head?).map (·.data.length)).getD size = (((v.rules path).getLast?).map (·.data.length)).getD size := by
  unfold LengthsAgree
  cases hhead : (v.rules path).head? with
  | none =>
      rw [List.head?_eq_none_iff.mp hhead]
      simp
  | some first =>
      cases hlast : (v.rules path).getLast? with
      | none =>
          rw [List.getLast?_eq_none_iff.mp hlast] at hhead
          cases hhead
      | some last => simp

end rules

section reading

variable {v : Volume} {content : Text → List UInt8} {dir : Text} {file : IsoFile} {data : List UInt8}

/-- A read of an open file gives the bytes at its position. -/
theorem readHandler_file (hfs : Agrees v.fs content dir) (hs : Sound v file) (hfile : file.info.isDir = false) {n : Nat}
    (hn : 0 < n) : ∃ bytes, bytes = ((v.served content file.path).drop file.position).take n ∧
      file.readHandler v (some n) true =
        ({ file with position := file.position + bytes.length }, ⟨.success, some bytes.length, bytes, none⟩) := by
  have hread : file.readHandler v (some n) true = file.readRegularFile v n true := by
    rw [IsoFile.readHandler]
    simp [hfile]
  rw [hread]
  rcases readRegularFile_spec hfs.toReadsFiles hs hfile n true with ⟨hfail, -⟩ | hok
  · exfalso
    apply hfail
    have hb := hs.backed hfile
    rw [IsoFile.readRegularFile, if_neg hn.ne', if_neg (by simp), hb.index_eq]
    cases hi : v.findIndex file.path with
    | none =>
        obtain ⟨info, hstat, hdir, hsize⟩ := hb.original hi
        obtain ⟨bytes, hbytes⟩ := hfs.readFile_ok _ _ _ _ hstat hdir (hsize ▸ hs.position_le hfile)
        dsimp only
        rw [hbytes]
    | some index =>
        obtain ⟨data, hdata, -⟩ := hb.replaced index hi
        have hfetch : ∃ bytes, file.readReplacementFile v index n = .ok bytes := by
          simp only [IsoFile.readReplacementFile, hdata]
          split
          · exact ⟨_, rfl⟩
          · exact ⟨_, rfl⟩
        obtain ⟨bytes, hbytes⟩ := hfetch
        dsimp only
        rw [hbytes]
  · exact hok

/-- Reading a file to its end gives what is left of it. -/
theorem ReadsAll.length (h : ReadsAll v file data) (hfs : Agrees v.fs content dir) (hs : Sound v file)
    (hfile : file.info.isDir = false) : file.position + data.length = file.info.size := by
  induction h with
  | @finished file next n hn hread =>
      obtain ⟨bytes, hbytes, heq⟩ := readHandler_file hfs hs hfile hn
      rw [hread] at heq
      have hzero : bytes.length = 0 := by
        have hreply := congrArg (fun r => r.2.bufferSize) heq
        exact (Option.some.inj hreply).symm
      have hlen := (hs.backed hfile).size_eq hfs.toReadsFiles
      have hle := hs.position_le hfile
      rw [hbytes, List.length_take, List.length_drop, hlen] at hzero
      rw [List.length_nil]
      omega
  | @more file next bytes rest n hn hread hne hrest ih =>
      obtain ⟨bytes', hbytes, heq⟩ := readHandler_file hfs hs hfile hn
      rw [hread] at heq
      obtain ⟨rfl, hreply⟩ := Prod.mk.inj heq
      have hsame : bytes = bytes' := congrArg Reply.bytes hreply
      subst hsame
      have hnext := ih (hs.moved (hs.read_le hfs.toReadsFiles hfile hbytes)) hfile
      rw [List.length_append, ← hnext]
      simp only
      omega

theorem exists_readsAll (hfs : Agrees v.fs content dir) (hs : Sound v file) (hfile : file.info.isDir = false) :
    ∃ data, ReadsAll v file data := by
  have hlen := (hs.backed hfile).size_eq hfs.toReadsFiles
  obtain ⟨bytes, hbytes, hread⟩ := readHandler_file hfs hs hfile (Nat.succ_pos file.info.size)
  by_cases hnil : bytes = []
  · rw [hnil] at hread
    exact ⟨[], .finished _ (Nat.succ_pos file.info.size) hread⟩
  · have hs' := hs.moved (hs.read_le hfs.toReadsFiles hfile hbytes)
    obtain ⟨bytes', hbytes', hread'⟩ := readHandler_file hfs hs' hfile Nat.one_pos
    have hall : bytes.length = file.info.size - file.position := by
      rw [hbytes, List.length_take, List.length_drop, hlen]
      omega
    have hend : bytes' = [] := by
      rw [hbytes', List.drop_eq_nil_of_le (by simp only [hlen, hall]; omega), List.take_nil]
    rw [hend] at hread'
    exact ⟨bytes ++ [], .more _ (Nat.succ_pos file.info.size) hread hnil (.finished 1 Nat.one_pos hread')⟩

theorem getInfoHandler_eq {bytes : List UInt8} (h : buildFileInfoBytes file.info file.blockSize = .ok bytes) {n : Nat}
    (hn : bytes.length ≤ n) :
    file.getInfoHandler (some efiFileInfoGuid) (some n) true = ⟨.success, some bytes.length, bytes, none⟩ := by
  rw [IsoFile.getInfoHandler]
  simp only [if_true, h, copyInfoResponse]
  rw [if_neg (by simp; omega)]

theorem Opened.serves (h : Opened v file) (hzero : file.position = 0) (hfs : Agrees v.fs content dir)
    (hfile : file.info.isDir = false) (hname : file.info.name.length < 4096) : Serves v file (some file.info.size) := by
  obtain ⟨bytes, hbytes⟩ := buildFileInfoBytes_ok file.blockSize hname
  refine ⟨⟨bytes, (buildFileInfoBytes_spec hbytes).1, fun n hn => getInfoHandler_eq hbytes hn⟩,
    exists_readsAll hfs h.sound hfile, fun data hdata => ?_⟩
  rw [← hdata.length hfs h.sound hfile, hzero, Nat.zero_add]

theorem Serves.size_eq {size : Nat} (h : Serves v file (some size)) (hname : file.info.name.length < 4096) :
    file.info.size = size := by
  obtain ⟨info, hsize, hinfo⟩ := h.1
  obtain ⟨bytes, hbytes⟩ := buildFileInfoBytes_ok file.blockSize hname
  have hreply := hinfo _ (Nat.le_max_left info.length bytes.length)
  rw [getInfoHandler_eq hbytes (Nat.le_max_right info.length bytes.length)] at hreply
  rw [← show bytes = info from congrArg Reply.bytes hreply, (buildFileInfoBytes_spec hbytes).1] at hsize
  exact Option.some.inj hsize

end reading

section opening

variable {v : Volume} {content : Text → List UInt8} {dir child : IsoFile} {units : Nat → Nat} {requested : Text}
  {info : FileInfo} {handles : Handles} {h : Nat}

theorem openHandler_ok (hdir : dir.info.isDir = true) (hread : stringFromUefiChar16 units = some requested)
    (hstat : v.fs.stat (resolveChildPath dir.path requested) = .ok info) (hfile : info.isDir = false) :
    ∃ child, IsoFile.openHandler v (some dir) true (some units) efiFileModeRead = .ok child ∧
      child.path = resolveChildPath dir.path requested ∧ child.info.isDir = false ∧ child.info.name = info.name ∧
      child.position = 0 := by
  have hmode : ¬ efiFileModeRead &&& efiFileModeRead = 0 ∧ ¬ efiFileModeRead &&& efiFileModeWriteOrCreate ≠ 0 := by decide
  rw [IsoFile.openHandler, if_neg hmode.1, if_neg hmode.2]
  simp only [hdir, not_true_eq_false, if_false, hread, hstat, hfile, Bool.false_eq_true]
  cases hi : v.findIndex (resolveChildPath dir.path requested) with
  | none => exact ⟨_, rfl, rfl, hfile, rfl, rfl⟩
  | some index =>
      refine ⟨_, rfl, rfl, ?_, ?_, rfl⟩
      · unfold IsoFile.new Volume.applyToFileInfo
        simp only
        split
        · exact hfile
        · rfl
      · unfold IsoFile.new Volume.applyToFileInfo
        simp only
        split <;> rfl

theorem openHandler_path {mode : Nat} (hopen : IsoFile.openHandler v (some dir) true (some units) mode = .ok child) :
    ∃ requested, stringFromUefiChar16 units = some requested ∧ child.path = resolveChildPath dir.path requested := by
  unfold IsoFile.openHandler at hopen
  simp only at hopen
  split at hopen
  · cases hopen
  · split at hopen
    · cases hopen
    · split at hopen
      · cases hopen
      · split at hopen
        · cases hopen
        · next requested hread =>
            refine ⟨requested, hread, ?_⟩
            split at hopen
            · cases hopen
            · split at hopen
              · cases hopen
                rfl
              · cases hopen
                rfl

theorem step_open (hdir : handles[h]? = some dir) (mode : Nat) : step v handles (.open (some h) true (some units) mode) =
    match IsoFile.openHandler v (some dir) true (some units) mode with
    | .error status => (handles, .of status)
    | .ok child => (handles ++ [child], .of .success) := by
  rw [step, target, Option.bind_some, hdir]
  rfl

theorem openHandler_of_step {mode : Nat} (hdir : handles[h]? = some dir)
    (hopen : step v handles (.open (some h) true (some units) mode) = (handles ++ [child], .of .success)) :
    IsoFile.openHandler v (some dir) true (some units) mode = .ok child := by
  rw [step_open hdir] at hopen
  split at hopen
  · have hlen := congrArg (fun r => r.1.length) hopen
    simp at hlen
  · next opened heq =>
      rw [heq, List.singleton_inj.mp (List.append_cancel_left (congrArg Prod.fst hopen))]

/-- A read of a directory handle leaves a handle of the same directory. -/
theorem step_read (hs : Sound v dir) (hdir : dir.info.isDir = true) (hh : handles[h]? = some dir) (n : Nat) :
    (step v handles (.read (some h) (some n) true)).2 = (dir.readDirectoryEntry v n true).2 ∧
      ∃ next, (step v handles (.read (some h) (some n) true)).1[h]? = some next ∧ SameFile dir next := by
  have hthis : (Call.read (some h) (some n) true).this = some h := rfl
  obtain ⟨hreply, hnext⟩ := step_served (v := v) hthis hh
  have hserve : serve v dir (.read (some h) (some n) true) = dir.readDirectoryEntry v n true := by
    simp [serve, IsoFile.readHandler, hdir]
  rw [hserve] at hreply hnext
  exact ⟨hreply, _, hnext, (readDirectoryEntry_spec hs hdir n true).1.same⟩

theorem readDirectoryEntry_eq (hs : Sound v dir) {entries : List FileInfo} {entry : FileInfo} {bytes : List UInt8} {n : Nat}
    (hlist : v.listing dir.path = .ok entries) (hentry : entries[dir.dirIndex]? = some entry)
    (hbytes : buildFileInfoBytes entry dir.blockSize = .ok bytes) (hn : bytes.length ≤ n) :
    (dir.readDirectoryEntry v n true).2 = ⟨.success, some bytes.length, bytes, none⟩ := by
  have hcopy : copyInfoResponse bytes (some n) true = ⟨.success, some bytes.length, bytes, none⟩ := by
    rw [copyInfoResponse]
    simp only
    rw [if_neg (by simp; omega)]
  rw [IsoFile.readDirectoryEntry, loadEntries_eq hs, hlist]
  simp only [hentry, hbytes, hcopy, if_true]

end opening

section sizes

variable {v : Volume} {content : Text → List UInt8} {dir next child : IsoFile} {requested name : Text}
  {entries : List FileInfo} {entry : FileInfo} {handles : Handles} {h : Nat} {bytes : List UInt8}

/-- An entry as a directory lists it. -/
def listedEntry (v : Volume) (dir : Text) (entry : FileInfo) : FileInfo := v.replacements.foldl (applyRule dir) entry

theorem plain_of_resolve {dir : Text} (hname : IsPart name) (h : resolveChildPath dir requested = childPath dir name) :
    Plain name := by
  have hnormal : ∃ path, resolveChildPath dir requested = normalizePathSegments path := by
    unfold resolveChildPath
    split
    · exact ⟨_, rfl⟩
    · split
      · exact ⟨_, rfl⟩
      · exact ⟨_, rfl⟩
  obtain ⟨path, hpath⟩ := hnormal
  have hlast := List.mem_append_right (segments dir) (List.mem_singleton_self name)
  rw [← segments_of_childPath hname (hpath.symm.trans h)] at hlast
  exact plain_of_mem_segments hlast

/-- The handle that an open of a listed file gives has the size of the first replacement, and the listing that of the
last. -/
theorem opened_size (hfs : Agrees v.fs content dir.path) (hdir : next.info.isDir = true) (hpath : next.path = dir.path)
    (hlist : v.fs.readDir dir.path = .ok entries) (hentry : entry ∈ entries) (hfile : entry.isDir = false)
    (hname : Plain entry.name) {units : Nat → Nat} (hread : stringFromUefiChar16 units = some entry.name) :
    ∃ child, IsoFile.openHandler v (some next) true (some units) efiFileModeRead = .ok child ∧ Opened v child ∧
      child.path = childPath dir.path entry.name ∧ child.info.isDir = false ∧ child.info.name = entry.name ∧
      child.position = 0 ∧
      (child.info.size = (listedEntry v dir.path entry).size ↔ LengthsAgree v (childPath dir.path entry.name)) := by
  obtain ⟨-, -, -, info, hstat, hinfo, hisfile, hsize⟩ := hfs.listed entries hlist entry hentry hfile
  rw [← resolveChildPath_plain hname, ← hpath] at hstat
  obtain ⟨child, hopen, hchild, hchildfile, hchildname, hzero⟩ := openHandler_ok hdir hread hstat hisfile
  have hopened : Opened v child := by
    have hout := openHandler_outcome (v := v) (some next) true (some units) efiFileModeRead
    rw [hopen] at hout
    exact hout
  rw [hpath, resolveChildPath_plain hname] at hchild hstat
  refine ⟨child, hopen, hopened, hchild, hchildfile, hchildname.trans hinfo, hzero, ?_⟩
  have hserved := (hopened.sound.backed hchildfile).size_eq hfs.toReadsFiles
  have hcontent := hfs.length_eq _ _ hstat hisfile
  rw [← hserved, hchild, length_served, hcontent, hsize, listedEntry, (foldl_applyRule dir.path hname hfile _).2.2]
  exact lengths_agree_iff.symm

variable (hs : ∀ file ∈ handles, Sound v file) (hh : handles[h]? = some dir) (hdir : dir.info.isDir = true)
  (hfs : Agrees v.fs content dir.path) (hlist : v.fs.readDir dir.path = .ok entries)
  (hentry : entries[dir.dirIndex]? = some entry) (hfile : entry.isDir = false)

include hlist hentry in
theorem listing_entry : ∃ entries', v.listing dir.path = .ok entries' ∧
    entries'[dir.dirIndex]? = some (listedEntry v dir.path entry) := by
  refine ⟨entries.map (listedEntry v dir.path), ?_, ?_⟩
  · rw [listing_eq, hlist]
    rfl
  · rw [List.getElem?_map, hentry]
    rfl

include hs hh hdir hfs hlist hentry hfile in
theorem SizesAgree.conditions (hagree : SizesAgree v handles h (childPath dir.path entry.name)) :
    NameReads entry.name ∧ LengthsAgree v (childPath dir.path entry.name) := by
  have hsound := hs dir (List.mem_of_getElem? hh)
  obtain ⟨bytes, hall⟩ := hagree
  obtain ⟨hreply, child, hopen, hchild, hserves⟩ := hall bytes.length (Nat.le_refl _)
  obtain ⟨hread, next, hnext, hsame⟩ := step_read hsound hdir hh bytes.length
  have hdir' : next.info.isDir = true := by rw [hsame.info_eq, hdir]
  -- what the read lists
  obtain ⟨entries', hlist', hentry'⟩ := listing_entry hlist hentry
  rw [hread] at hreply
  obtain ⟨entries'', hlist'', hentryReply, -⟩ := (readDirectoryEntry_spec hsound hdir bytes.length true).2 (by rw [hreply])
  rw [hlist'] at hlist''
  cases hlist''
  rw [hentry', hreply] at hentryReply
  obtain ⟨bytes', hbytes, heq⟩ := hentryReply
  obtain rfl : bytes = bytes' := congrArg Reply.bytes heq
  -- what is opened
  have hopen := openHandler_of_step hnext hopen
  obtain ⟨requested, hrequested, hpath⟩ := openHandler_path hopen
  obtain ⟨hpart, -, -, -⟩ := hfs.listed entries hlist entry (List.mem_of_getElem? hentry) hfile
  rw [hchild, hsame.path_eq] at hpath
  have hplain := plain_of_resolve hpart hpath.symm
  have hname : (listedEntry v dir.path entry).name = entry.name := (foldl_applyRule dir.path hplain hfile _).1
  obtain ⟨hslash, hreads⟩ := notMem_of_read (hname ▸ hpart) (hname ▸ hplain.noBackslash) hbytes hrequested
  obtain rfl := resolveChildPath_inj hpart hslash (fun hback => (hreads.2 _ hback).2.1 rfl) hpath.symm
  refine ⟨hreads, ?_⟩
  obtain ⟨child', hopen', -, -, -, hchildname, -, hiff⟩ := opened_size hfs hdir' hsame.path_eq hlist
    (List.mem_of_getElem? hentry) hfile hplain hrequested
  obtain rfl : child = child' := Except.ok.inj (hopen.symm.trans hopen')
  rw [(buildFileInfoBytes_spec hbytes).1] at hserves
  exact hiff.mp (hserves.size_eq (hchildname ▸ hreads.1))

include hs hh hdir hfs hlist hentry hfile in
theorem sizesAgree_of_conditions (hreads : NameReads entry.name)
    (hlengths : LengthsAgree v (childPath dir.path entry.name)) :
    SizesAgree v handles h (childPath dir.path entry.name) := by
  have hsound := hs dir (List.mem_of_getElem? hh)
  obtain ⟨hpart, hdot, hdotdot, -⟩ := hfs.listed entries hlist entry (List.mem_of_getElem? hentry) hfile
  have hplain : Plain entry.name := ⟨hpart, fun hback => (hreads.2 _ hback).2.1 rfl, hdot, hdotdot⟩
  have hname : (listedEntry v dir.path entry).name = entry.name := (foldl_applyRule dir.path hplain hfile _).1
  obtain ⟨bytes, hbytes⟩ := buildFileInfoBytes_ok dir.blockSize (hname ▸ hreads.1 : (listedEntry v dir.path entry).name.length < 4096)
  obtain ⟨entries', hlist', hentry'⟩ := listing_entry hlist hentry
  refine ⟨bytes, fun n hn => ?_⟩
  obtain ⟨hread, next, hnext, hsame⟩ := step_read hsound hdir hh n
  have hdir' : next.info.isDir = true := by rw [hsame.info_eq, hdir]
  have hrequested : stringFromUefiChar16 (nameIn bytes) = some entry.name := by
    rw [← hname]
    exact stringFromUefi_listed (hname ▸ hreads) hbytes
  obtain ⟨child, hopen, hopened, hchild, hchildfile, hchildname, hzero, hiff⟩ := opened_size hfs hdir' hsame.path_eq hlist
    (List.mem_of_getElem? hentry) hfile hplain hrequested
  refine ⟨?_, child, ?_, hchild, ?_⟩
  · rw [hread, readDirectoryEntry_eq hsound hlist' hentry' hbytes hn]
  · rw [step_open hnext, hopen]
  · rw [(buildFileInfoBytes_spec hbytes).1, ← hiff.mpr hlengths]
    exact hopened.serves hzero hfs hchildfile (hchildname ▸ hreads.1)

end sizes

/-- A listed file is opened through its listed name with its listed size exactly when its units are read as its name and
the first and the last replacement of its path have data of one length. -/
theorem listed_size_exact (v : Volume) (content : Text → List UInt8) (calls : List Call) (h : Nat) (dir : IsoFile)
    (entries : List FileInfo) (entry : FileInfo) (hh : (run v [] calls).1[h]? = some dir) (hdir : dir.info.isDir = true)
    (hfs : Agrees v.fs content dir.path) (hlist : v.fs.readDir dir.path = .ok entries)
    (hentry : entries[dir.dirIndex]? = some entry) (hfile : entry.isDir = false) :
    SizesAgree v (run v [] calls).1 h (childPath dir.path entry.name) ↔
      NameReads entry.name ∧ LengthsAgree v (childPath dir.path entry.name) := by
  have hs : ∀ file ∈ (run v [] calls).1, Sound v file := run_sound hfs.toReadsFiles calls [] (fun _ h => nomatch h)
  constructor
  · exact SizesAgree.conditions hs hh hdir hfs hlist hentry hfile
  · rintro ⟨hreads, hlengths⟩
    exact sizesAgree_of_conditions hs hh hdir hfs hlist hentry hfile hreads hlengths

theorem sampleImage_agrees : Agrees sampleImage sampleContent ['/'] where
  toReadsFiles := sampleImage_reads
  listed entries hlist entry hentry _ := by
    have hentries : entries = [⟨['a'], 3, false, sampleAttributes false, 20, true, by decide⟩] :=
      (Except.ok.inj hlist).symm
    rw [hentries, List.mem_singleton] at hentry
    subst hentry
    exact ⟨by decide, by decide, by decide, _, rfl, rfl, rfl, rfl⟩
  readFile_ok path info offset length hstat hfile _ := by
    simp only [sampleImage] at hstat ⊢
    split at hstat
    · cases hstat
      cases hfile
    · split at hstat
      · next hpath => exact ⟨_, if_pos hpath⟩
      · cases hstat

theorem sampleVolume_sizes : SizesAgree sampleVolume (run sampleVolume [] [.openVolume true]).1 0 ['/', 'a'] := by
  have hreads : NameReads ['a'] := by
    refine ⟨by decide, fun c hc => ?_⟩
    rw [List.mem_singleton.mp hc]
    decide
  have hlengths : LengthsAgree sampleVolume ['/', 'a'] := by
    intro first last hfirst hlast
    obtain rfl : first = last := Option.some.inj (hfirst.symm.trans hlast)
    rfl
  exact (listed_size_exact sampleVolume sampleContent [.openVolume true] 0 (IsoFile.root sampleVolume) _ _ rfl rfl
    sampleImage_agrees rfl rfl rfl).mpr ⟨hreads, hlengths⟩

/-- The file of the sample image is replaced twice, by two bytes and by one. -/
def clashingVolume : Volume := ⟨sampleImage, [⟨['/', 'A'], [9, 8], replacement_lt⟩, ⟨['\\', 'a'], [7], by decide⟩], 4096, 2048⟩

/-- The directory lists one byte, and the opened file has two. -/
theorem clashing_sizes :
    (clashingVolume.listing ['/']).toOption.map (List.map (·.size)) = some [1] ∧
    (IsoFile.openHandler clashingVolume (some (IsoFile.root clashingVolume)) true (some sampleName) efiFileModeRead).toOption.map
      (fun child => child.info.size) = some 2 ∧
    ¬ SizesAgree clashingVolume (run clashingVolume [] [.openVolume true]).1 0 ['/', 'a'] := by
  refine ⟨by decide, by decide, fun hagree => ?_⟩
  have hfs : Agrees clashingVolume.fs sampleContent (IsoFile.root clashingVolume).path := sampleImage_agrees
  have hs : ∀ file ∈ (run clashingVolume [] [.openVolume true]).1, Sound clashingVolume file :=
    run_sound hfs.toReadsFiles [.openVolume true] [] (fun _ h => nomatch h)
  have hlengths := (SizesAgree.conditions hs rfl rfl hfs rfl rfl rfl hagree).2
  exact absurd (hlengths _ _ rfl rfl) (by decide)

end NextBoot.VirtualFs
