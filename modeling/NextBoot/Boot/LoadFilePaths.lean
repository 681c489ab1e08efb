import NextBoot.Boot.DevicePaths

namespace NextBoot.Boot.LoadFilePaths

open Bytes Strings DevicePaths
open Wim (utf16Units)

def isSeparator (c : Char) : Bool := c = '/' ∨ c = '\\'

def slash (c : Char) : Char := if c = '\\' then '/' else c

/-- `normalize_iso_path`: both separators split a path, and empty parts are left out. -/
def normalizeIsoPath (path : Text) : Text :=
  let trimmed := (trim path).dropWhile isSeparator
  '/' :: List.intercalate ['/'] ((split '/' (trimmed.map slash)).filter (· ≠ []))

def normalizeLoadFileKey (path : Text) : Text := (normalizeIsoPath path).map toAsciiLowercase

/-- `load_file_path_from_device_path`, which looks at 64 nodes at most. -/
def loadFilePathFromDevicePath (memory : Nat → UInt8) (filePath : Nat) : Option Text :=
  if filePath = 0 then none
  else (walkNodes memory 64 filePath []).bind fun path => if path = [] then none else some (normalizeLoadFileKey path)

structure PreloadedFile where
  path : Text
  data : List UInt8

def findEntry (entries : List PreloadedFile) (path : Text) : Option PreloadedFile := entries.find? fun e => e.path = path

/-- The entry that `load_file` answers a request with. -/
def requestedEntry (entries : List PreloadedFile) (memory : Nat → UInt8) (filePath : Nat) (bootPolicy : Bool) :
    Option PreloadedFile :=
  ((loadFilePathFromDevicePath memory filePath).bind (findEntry entries)).or
    (if bootPolicy then entries.head? else none)

/-- A device path of fewer than 60 nodes, none of them a file path; an end among them is the end of an instance. -/
structure BasePath where
  nodes : List Node
  length_lt : nodes.length < 60
  noFilePath : ∀ n ∈ nodes, ¬ n.IsFilePath
  ends : ∀ n ∈ nodes, n.IsEnd → n.subtype = 0x01

def BasePath.bytes (base : BasePath) : List UInt8 := nodeBytes base.nodes ++ endDevicePath

/-- A path that a file path node can hold. -/
structure FilePath where
  path : Text
  nonempty : path ≠ []
  units_lt : (path.flatMap utf16Units).length < 32000
  noNul : Char.ofNat 0 ∉ path

/-- The path appended to a device path is a node behind the others, and is read back as the key of the path. -/
def RoundTrips (base : BasePath) (path : Text) : Prop :=
  ∃ bytes, appendFilePathDevicePath base.bytes path = some bytes ∧
    (∃ file : Node, file.IsFilePath ∧ bytes = nodeBytes (base.nodes ++ [file]) ++ endDevicePath) ∧
    ∀ memory filePath, filePath ≠ 0 → Holds memory filePath bytes →
      loadFilePathFromDevicePath memory filePath = some (normalizeLoadFileKey path) ∧
      ∀ entries, ∀ entry ∈ entries, entry.path = normalizeLoadFileKey path → ∀ bootPolicy,
        ∃ found, requestedEntry entries memory filePath bootPolicy = some found ∧ found.path = normalizeLoadFileKey path

/-- The node that is appended, when its length fits the length field. -/
def fileNode (units : List Nat) (h : 6 + 2 * units.length < 2 ^ 16) : Node where
  type := 0x04
  subtype := 0x04
  data := units.flatMap (toLeBytes 2) ++ [0, 0]
  length_lt := by
    rw [List.length_append, Wim.length_flatMap_toLeBytes]
    simp only [List.length_cons, List.length_nil]
    omega

/-- What the decoder makes of the units of a path. -/
def decoded (path : Text) : Text := (normalizeUefiFilePath path).map decodeUnit

variable {c : Char} {t path : Text} {units : List Nat} {memory : Nat → UInt8} {address rounds : Nat}

theorem fileNode_bytes (h : 6 + 2 * units.length < 2 ^ 16) : (fileNode units h).bytes = filePathDevicePath units := by
  have hlen : 4 + (fileNode units h).data.length = 4 + (units.length + 1) * 2 := by
    simp only [fileNode, List.length_append, Wim.length_flatMap_toLeBytes, List.length_cons, List.length_nil]
    omega
  rw [Node.bytes, hlen]
  rfl

theorem walkNodes_file (h : 6 + 2 * units.length < 2 ^ 16) (hunits : ∀ unit ∈ units, unit ≠ 0 ∧ unit < 2 ^ 16)
    (hm : Holds memory address ((fileNode units h).bytes ++ endDevicePath)) :
    walkNodes memory (rounds + 2) address [] = some (units.map decodeUnit) := by
  obtain ⟨htype, hsubtype, hlength, hdata, hend⟩ := hm.node
  obtain ⟨hendType, hendLength⟩ := holds_endDevicePath hend
  have htype : memory address = 0x04 := htype
  have hsubtype : memory (address + 1) = 0x04 := hsubtype
  have hcount : (4 + (fileNode units h).data.length - 4) / 2 = units.length + 1 := by
    simp only [fileNode, List.length_append, Wim.length_flatMap_toLeBytes, List.length_cons, List.length_nil]
    omega
  rw [walkNodes, hlength, htype, hsubtype, if_neg (by omega), if_neg (by decide), if_pos ⟨rfl, rfl⟩, hcount,
    readName_eq hunits hdata, walkNodes, hendLength, if_neg (by decide), if_pos hendType, List.nil_append]

theorem append_bytes (base : BasePath) (h : 6 + 2 * (normalizeUefiFilePath path).length < 2 ^ 16) :
    appendFilePathDevicePath base.bytes path =
      some (nodeBytes (base.nodes ++ [fileNode _ h]) ++ endDevicePath) := by
  have hlen : base.bytes.length = (nodeBytes base.nodes).length + endDevicePath.length := List.length_append
  have hsub : base.bytes.length - endDevicePath.length = (nodeBytes base.nodes).length := by omega
  have hdrop : base.bytes.drop (nodeBytes base.nodes).length = endDevicePath := List.drop_left
  have htake : base.bytes.take (nodeBytes base.nodes).length = nodeBytes base.nodes := List.take_left
  have hnodes : nodeBytes (base.nodes ++ [fileNode _ h]) =
      nodeBytes base.nodes ++ filePathDevicePath (normalizeUefiFilePath path) := by
    rw [nodeBytes, List.flatMap_append, List.flatMap_singleton, fileNode_bytes]
    rfl
  rw [appendFilePathDevicePath, hsub, hdrop, if_neg (not_or.mpr ⟨by omega, not_not.mpr rfl⟩), htake, hnodes]

/-- The parts of a path with single slashes between them. -/
def joined (t : Text) : Text := List.intercalate ['/'] ((split '/' (t.map slash)).filter (· ≠ []))

theorem slash_of_separator (h : isSeparator c = true) : slash c = '/' := by
  rcases (decide_eq_true_iff.mp h) with rfl | rfl <;> rfl

theorem slash_slash : slash (slash c) = slash c := by
  by_cases h : c = '\\'
  · rw [h]
    rfl
  · have hid : slash c = c := if_neg h
    rw [hid, hid]

theorem isWhitespace_slash (c : Char) : isWhitespace (slash c) = isWhitespace c := by
  rw [slash]
  split
  · next h => rw [h]; decide
  · rfl

theorem joined_cons (h : isSeparator c = true) : joined (c :: t) = joined t := by
  rw [joined, List.map_cons, slash_of_separator h, split, if_pos rfl, List.filter_cons_of_neg (by simp)]
  rfl

theorem joined_dropWhile (t : Text) : joined (t.dropWhile isSeparator) = joined t := by
  induction t with
  | nil => rfl
  | cons c t ih =>
      cases hc : isSeparator c with
      | true => rw [List.dropWhile_cons_of_pos hc, ih, joined_cons hc]
      | false => rw [List.dropWhile_cons_of_neg (by simp [hc])]

theorem joined_map_slash (t : Text) : joined (t.map slash) = joined t := by
  have hcomp : slash ∘ slash = slash := funext fun c => slash_slash
  rw [joined, List.map_map, hcomp, joined]

theorem normalizeIsoPath_eq (path : Text) : normalizeIsoPath path = '/' :: joined (trim path) := by
  rw [← joined_dropWhile]
  rfl

theorem filter_intercalate (parts : List Text) :
    (List.intercalate ['/'] parts).filter (· ≠ '/') = parts.flatten.filter (· ≠ '/') := by
  induction parts with
  | nil => rfl
  | cons part parts ih =>
      cases parts with
      | nil => simp [List.intercalate]
      | cons next parts =>
          have hflatten : (part :: next :: parts).flatten = part ++ (next :: parts).flatten := List.flatten_cons
          have hslash : ['/'].filter (· ≠ '/') = [] := rfl
          rw [List.intercalate_cons_cons, List.filter_append, List.filter_append, ih, hslash, List.append_nil, hflatten,
            List.filter_append]

/-- Joining the parts keeps all characters but the separators. -/
theorem filter_joined (t : Text) : (joined t).filter (· ≠ '/') = (t.map slash).filter (· ≠ '/') := by
  have hflatten : ((split '/' (t.map slash)).filter (· ≠ [])).flatten = (split '/' (t.map slash)).flatten :=
    List.flatten_filter_ne_nil
  rw [joined, filter_intercalate, hflatten, flatten_split, List.filter_filter]
  simp

def unslash (c : Char) : Char := if c = '/' then '\\' else c

/-- The separator that the encoder puts in front of a path that has none. -/
def leading (path : Text) : Text := if path.head?.any isSeparator then [] else ['\\']

theorem normalizeUefi_eq (path : Text) :
    normalizeUefiFilePath path = (leading path ++ path.map unslash).flatMap utf16Units := by
  have hlead : (if path.head? ≠ some '\\' ∧ path.head? ≠ some '/' then [('\\' : Char).toNat] else []) =
      (leading path).flatMap utf16Units := by
    unfold leading
    cases path with
    | nil => rfl
    | cons c path =>
        simp only [List.head?_cons, Option.any_some, isSeparator, decide_eq_true_eq, ne_eq, Option.some.injEq]
        by_cases h : c = '/' ∨ c = '\\'
        · rw [if_pos h, if_neg (fun hnot => h.elim hnot.2 hnot.1)]
          rfl
        · rw [if_neg h, if_pos ⟨fun hc => h (.inr hc), fun hc => h (.inl hc)⟩]
          rfl
  rw [normalizeUefiFilePath, hlead, List.flatMap_append, List.flatMap_map]
  rfl

theorem length_normalizeUefi (path : Text) :
    (normalizeUefiFilePath path).length ≤ 1 + (path.flatMap utf16Units).length := by
  have hchar : ∀ c, (utf16Units (unslash c)).length = (utf16Units c).length := by
    intro c
    unfold unslash
    split
    · next h => rw [h]; rfl
    · rfl
  have hpath : ((path.map unslash).flatMap utf16Units).length = (path.flatMap utf16Units).length := by
    simp only [List.length_flatMap, List.map_map, Function.comp_def, hchar]
  have hlead : ((leading path).flatMap utf16Units).length ≤ 1 := by
    unfold leading
    split <;> decide
  rw [normalizeUefi_eq, List.flatMap_append, List.length_append, hpath]
  omega

theorem normalizeUefi_units (hnul : Char.ofNat 0 ∉ path) :
    ∀ unit ∈ normalizeUefiFilePath path, unit ≠ 0 ∧ unit < 2 ^ 16 := by
  have hnul' : Char.ofNat 0 ∉ leading path ++ path.map unslash := by
    intro h
    rcases List.mem_append.mp h with h | h
    · unfold leading at h
      split at h
      · cases h
      · exact absurd (List.mem_singleton.mp h) (by decide)
    · obtain ⟨c, hc, hzero⟩ := List.mem_map.mp h
      unfold unslash at hzero
      split at hzero
      · exact absurd hzero (by decide)
      · exact hnul (hzero ▸ hc)
  intro unit hunit
  rw [normalizeUefi_eq] at hunit
  obtain ⟨c, -, hc⟩ := List.mem_flatMap.mp hunit
  exact ⟨Wim.ne_zero_of_mem_units hnul' hunit, Wim.utf16Units_lt hc⟩

/-- The decoder gives only characters of the basic plane. -/
theorem decodeUnit_lt {unit : Nat} (h : unit < 2 ^ 16) : (decodeUnit unit).toNat < 0x10000 := by
  have hdecoded : ((charFromU32 unit).getD replacementChar).toNat < 0x10000 := by
    cases hchar : charFromU32 unit with
    | none => decide
    | some c =>
        rw [Option.getD_some, charFromU32_spec hchar]
        exact h
  unfold decodeUnit
  simp only
  split
  · decide
  · exact hdecoded

theorem decodeUnit_char (h : c.toNat < 0x10000) : (utf16Units (unslash c)).map decodeUnit = [slash c] := by
  have hunslash : (unslash c).toNat < 0x10000 := by
    unfold unslash
    split
    · decide
    · exact h
  have hslash : slash (unslash c) = slash c := by
    unfold unslash
    split
    · next hc => rw [hc]; rfl
    · rfl
  have hdecode : decodeUnit (unslash c).toNat = slash (unslash c) := by
    rw [decodeUnit, charFromU32_toNat]
    rfl
  rw [utf16Units, if_pos hunslash, List.map_singleton, hdecode, hslash]

theorem decoded_basic (h : ∀ c ∈ path, c.toNat < 0x10000) : decoded path = (leading path).map slash ++ path.map slash := by
  have hlead : ((leading path).flatMap utf16Units).map decodeUnit = (leading path).map slash := by
    unfold leading
    split
    · rfl
    · rfl
  have hpath : ∀ path : Text, (∀ c ∈ path, c.toNat < 0x10000) →
      ((path.map unslash).flatMap utf16Units).map decodeUnit = path.map slash := by
    intro path
    induction path with
    | nil => exact fun _ => rfl
    | cons c path ih =>
        intro h
        rw [List.forall_mem_cons] at h
        rw [List.map_cons, List.flatMap_cons, List.map_append, decodeUnit_char h.1, ih h.2]
        rfl
  rw [decoded, normalizeUefi_eq, List.flatMap_append, List.map_append, hlead, hpath path h]

theorem decoded_ne_nil (h : path ≠ []) : decoded path ≠ [] := by
  intro hnil
  rw [decoded, List.map_eq_nil_iff, normalizeUefi_eq, List.flatMap_eq_nil_iff] at hnil
  cases path with
  | nil => exact h rfl
  | cons c path =>
      have hunits := hnil (unslash c) (List.mem_append_right _ List.mem_cons_self)
      unfold utf16Units at hunits
      split at hunits <;> cases hunits

theorem trim_slash_cons (t : Text) : trim ('/' :: t) = '/' :: trimEnd t := by
  have hslash : isWhitespace '/' = false := by decide
  rw [trim, trimWhile, List.dropWhile_cons_of_neg (by simp [hslash]), trimEndWhile_cons, if_neg (by simp [hslash])]
  rfl

theorem trimEnd_map_slash (t : Text) : trimEnd (t.map slash) = (trimEnd t).map slash := by
  have hcomp : isWhitespace ∘ slash = isWhitespace := funext isWhitespace_slash
  rw [trimEnd, trimEnd, trimEndWhile, trimEndWhile, ← List.map_reverse, List.dropWhile_map, hcomp, List.map_reverse]

/-- In a path without a separator in front, the decoded one keeps the white space there. -/
theorem normalize_decoded (h : ∀ c ∈ path, c.toNat < 0x10000) : normalizeIsoPath (decoded path) =
    if path.head?.any isSeparator then normalizeIsoPath path else '/' :: joined (trimEnd path) := by
  rw [decoded_basic h, leading]
  split
  · rw [List.map_nil, List.nil_append, normalizeIsoPath_eq, normalizeIsoPath_eq, trim_map isWhitespace_slash,
      joined_map_slash]
  · have hslash : ['\\'].map slash ++ path.map slash = '/' :: path.map slash := rfl
    rw [hslash, normalizeIsoPath_eq, trim_slash_cons, joined_cons (by decide), trimEnd_map_slash, joined_map_slash]

theorem trimEnd_of_trim (h : trim t = []) : trimEnd t = [] := by
  induction t with
  | nil => rfl
  | cons c t ih =>
      rw [trim_eq_dropWhile, trimEnd, trimEndWhile_cons] at h
      rw [trimEnd, trimEndWhile_cons]
      split at h
      · next hnil => exact if_pos hnil
      · next hkeep =>
          cases hc : isWhitespace c with
          | false => rw [List.dropWhile_cons_of_neg (by simp [hc])] at h; cases h
          | true =>
              rw [List.dropWhile_cons_of_pos hc] at h
              have hnil := ih (trim_eq_dropWhile.trans h)
              exact absurd ⟨hnil, hc⟩ hkeep

/-- How many characters of a path are no separators. -/
def weight (t : Text) : Nat := (t.filter (· ≠ '/')).length

theorem weight_joined (t : Text) : weight (joined t) = weight (t.map slash) := by
  rw [weight, filter_joined, weight]

theorem weight_lowercase (t : Text) : weight (t.map toAsciiLowercase) = weight t := by
  have hcomp : (fun c => decide (c ≠ '/')) ∘ toAsciiLowercase = fun c => decide (c ≠ '/') := by
    funext c
    simp only [Function.comp_apply, ne_eq, toAsciiLowercase_eq_slash]
  rw [weight, List.filter_map, hcomp, List.length_map, weight]

/-- The white space that a path without a separator in front keeps makes its key a longer one. -/
theorem joined_trimEnd_iff : (joined (trimEnd path)).map toAsciiLowercase = (joined (trim path)).map toAsciiLowercase ↔
    (path.head?.any isWhitespace = true → trim path = []) := by
  constructor
  · intro hkey hhead
    by_contra hne
    obtain ⟨c, path, rfl⟩ : ∃ c rest, path = c :: rest := by
      cases path with
      | nil => cases hhead
      | cons c rest => exact ⟨c, rest, rfl⟩
    have hc : isWhitespace c = true := hhead
    rw [trim_eq_dropWhile, trimEnd, trimEndWhile_cons] at hne hkey
    split at hkey
    · next hnil =>
        rw [if_pos hnil] at hne
        exact hne rfl
    · rw [List.dropWhile_cons_of_pos hc] at hkey
      have hweight := congrArg weight hkey
      rw [weight_lowercase, weight_lowercase, weight_joined, weight_joined] at hweight
      have hsub : weight (((trimEndWhile isWhitespace path).dropWhile isWhitespace).map slash) ≤
          weight ((trimEndWhile isWhitespace path).map slash) :=
        (((List.dropWhile_suffix isWhitespace).sublist.map slash).filter _).length_le
      have hfirst : slash c ≠ '/' := by
        intro hslash
        have hwhite := isWhitespace_slash c
        rw [hslash, hc] at hwhite
        exact absurd hwhite (by decide)
      rw [List.map_cons, weight, List.filter_cons_of_pos (by simpa using hfirst), List.length_cons] at hweight
      unfold weight at hweight hsub
      omega
  · intro h
    cases path with
    | nil => rfl
    | cons c path =>
        cases hc : isWhitespace c with
        | true =>
            have hnil := h hc
            rw [hnil, trimEnd_of_trim hnil]
        | false =>
            have hkeep : trim (c :: path) = trimEnd (c :: path) := by
              rw [trim, trimWhile, List.dropWhile_cons_of_neg (by simp [hc])]
              rfl
            rw [hkeep]

theorem mem_trim (h : c ∈ path) (hc : isWhitespace c = false) : c ∈ trim path := by
  have hdrop : ∀ t : Text, c ∈ t → c ∈ t.dropWhile isWhitespace := by
    intro t ht
    induction t with
    | nil => cases ht
    | cons d t ih =>
        cases hd : isWhitespace d with
        | true =>
            rw [List.dropWhile_cons_of_pos hd]
            rcases List.mem_cons.mp ht with rfl | ht
            · rw [hd] at hc
              cases hc
            · exact ih ht
        | false =>
            rw [List.dropWhile_cons_of_neg (by simp [hd])]
            exact ht
  rw [trim, trimWhile, trimEndWhile, List.mem_reverse]
  exact hdrop _ (List.mem_reverse.mpr (hdrop path h))

/-- A character of the key is a separator or one of the path, in lower case. -/
theorem mem_key (h : c ∈ normalizeLoadFileKey path) : ∃ d, (d = '/' ∨ d ∈ path) ∧ c = toAsciiLowercase (slash d) := by
  rw [normalizeLoadFileKey, normalizeIsoPath_eq] at h
  obtain ⟨e, he, rfl⟩ := List.mem_map.mp h
  by_cases hslash : e = '/'
  · exact ⟨'/', .inl rfl, by rw [hslash]; rfl⟩
  · rcases List.mem_cons.mp he with he | he
    · exact absurd he hslash
    · have hfilter : e ∈ (joined (trim path)).filter (· ≠ '/') := List.mem_filter.mpr ⟨he, by simpa using hslash⟩
      rw [filter_joined] at hfilter
      obtain ⟨d, hd, rfl⟩ := List.mem_map.mp (List.mem_filter.mp hfilter).1
      have hsub : trim path ⊆ path := by
        intro x hx
        rw [trim, trimWhile, trimEndWhile, List.mem_reverse] at hx
        have hdrop := List.mem_reverse.mp ((List.dropWhile_sublist _).subset hx)
        exact (List.dropWhile_sublist _).subset hdrop
      exact ⟨d, .inr (hsub hd), rfl⟩

/-- A character beyond the basic plane stands in the key as it is. -/
theorem astral_mem_key (hmem : c ∈ path) (hc : ¬ c.toNat < 0x10000) : c ∈ normalizeLoadFileKey path := by
  have hwhite : isWhitespace c = false := by
    unfold isWhitespace
    simp only [decide_eq_false_iff_not]
    omega
  have hslash : slash c = c := by
    unfold slash
    split
    · next h =>
        rw [h] at hc
        exact absurd (by decide) hc
    · rfl
  have hother : c ≠ '/' := by
    rintro rfl
    exact hc (by decide)
  have hlower : toAsciiLowercase c = c := by
    rw [toAsciiLowercase, if_neg (by omega)]
  have hfilter : c ∈ (joined (trim path)).filter (· ≠ '/') := by
    rw [filter_joined]
    exact List.mem_filter.mpr ⟨List.mem_map.mpr ⟨c, mem_trim hmem hwhite, hslash⟩, by simpa using hother⟩
  rw [normalizeLoadFileKey, normalizeIsoPath_eq]
  exact List.mem_map.mpr ⟨c, List.mem_cons_of_mem _ (List.mem_filter.mp hfilter).1, hlower⟩

/-- A path that the decoder reads back: its characters are single units, and it does not begin with white space unless
it has nothing else. -/
def Survives (path : Text) : Prop :=
  (∀ c ∈ path, c.toNat < 0x10000) ∧ (path.head?.any isWhitespace = true → trim path = [])

instance (path : Text) : Decidable (Survives path) := inferInstanceAs (Decidable (_ ∧ _))

theorem decoded_lt (hnul : Char.ofNat 0 ∉ path) (hc : c ∈ decoded path) : c.toNat < 0x10000 := by
  obtain ⟨unit, hunit, rfl⟩ := List.mem_map.mp hc
  exact decodeUnit_lt (normalizeUefi_units hnul unit hunit).2

theorem key_decoded_iff (hnul : Char.ofNat 0 ∉ path) :
    normalizeLoadFileKey (decoded path) = normalizeLoadFileKey path ↔ Survives path := by
  by_cases hbasic : ∀ c ∈ path, c.toNat < 0x10000
  · rw [Survives, normalizeLoadFileKey, normalizeLoadFileKey, normalize_decoded hbasic]
    split
    · next hsep =>
        refine iff_of_true rfl ⟨hbasic, fun hwhite => ?_⟩
        cases path with
        | nil => rfl
        | cons c path =>
            have hc : isWhitespace c = true := hwhite
            rw [← isWhitespace_slash, slash_of_separator hsep] at hc
            exact absurd hc (by decide)
    · rw [normalizeIsoPath_eq, List.map_cons, List.map_cons, List.cons.injEq, joined_trimEnd_iff]
      exact ⟨fun h => ⟨hbasic, h.2⟩, fun h => ⟨rfl, h.2⟩⟩
  · refine iff_of_false (fun hkey => ?_) fun h => hbasic h.1
    push Not at hbasic
    obtain ⟨c, hmem, hc⟩ := hbasic
    have hkeyed := astral_mem_key hmem (Nat.not_lt.mpr hc)
    rw [← hkey] at hkeyed
    obtain ⟨d, hd, rfl⟩ := mem_key hkeyed
    have hdlt : (slash d).toNat < 0x10000 := by
      unfold slash
      split
      · decide
      · rcases hd with rfl | hd
        · decide
        · exact decoded_lt hnul hd
    rw [toNat_toAsciiLowercase] at hc
    split at hc <;> omega

/-- What `load_file` looks for when it is given the appended path. -/
theorem load_eq (base : BasePath) (p : FilePath) (h : 6 + 2 * (normalizeUefiFilePath p.path).length < 2 ^ 16)
    (haddress : address ≠ 0)
    (hm : Holds memory address (nodeBytes (base.nodes ++ [fileNode _ h]) ++ endDevicePath)) :
    loadFilePathFromDevicePath memory address =
      if ∀ n ∈ base.nodes, ¬ n.IsEnd then some (normalizeLoadFileKey (decoded p.path)) else none := by
  have hsplit : nodeBytes (base.nodes ++ [fileNode _ h]) ++ endDevicePath =
      nodeBytes base.nodes ++ ((fileNode _ h).bytes ++ endDevicePath) := by
    rw [nodeBytes, List.flatMap_append, List.flatMap_singleton, List.append_assoc]
    rfl
  have hlt := base.length_lt
  have hrounds : 64 = base.nodes.length + (62 - base.nodes.length + 2) := by omega
  rw [hsplit] at hm
  rw [loadFilePathFromDevicePath, if_neg haddress, hrounds, walkNodes_nodes hm base.noFilePath]
  split
  · rw [walkNodes_file h (normalizeUefi_units p.noNul) (holds_append.mp hm).2, Option.bind_some]
    exact if_neg (decoded_ne_nil p.nonempty)
  · rfl

theorem normalizeUefi_fits (p : FilePath) : 6 + 2 * (normalizeUefiFilePath p.path).length < 2 ^ 16 := by
  have hlen := length_normalizeUefi p.path
  have hlt := p.units_lt
  omega

theorem findEntry_found {entries : List PreloadedFile} {entry : PreloadedFile} (h : entry ∈ entries) :
    ∃ found, findEntry entries entry.path = some found ∧ found.path = entry.path := by
  cases hf : findEntry entries entry.path with
  | none =>
      have hnone := List.find?_eq_none.mp hf entry h
      simp at hnone
  | some found =>
      have hpath := List.find?_some hf
      exact ⟨found, rfl, by simpa using hpath⟩

theorem exists_memory (bytes : List UInt8) : ∃ memory address, address ≠ 0 ∧ Holds memory address bytes := by
  refine ⟨fun i => (bytes[i - 1]?).getD 0, 1, Nat.one_ne_zero, fun i b hb => ?_⟩
  simp only [Nat.add_sub_cancel_left, hb, Option.getD_some]

/-- A path that is read back is read back as what its units are decoded to, past no end of an instance. -/
theorem RoundTrips.decoded {base : BasePath} {p : FilePath} (h : RoundTrips base p.path) :
    Survives p.path ∧ ∀ n ∈ base.nodes, ¬ n.IsEnd := by
  obtain ⟨bytes, hbytes, -, hload⟩ := h
  obtain rfl := Option.some.inj ((append_bytes base (normalizeUefi_fits p)).symm.trans hbytes)
  obtain ⟨memory, address, hne, hm⟩ := exists_memory (nodeBytes (base.nodes ++ [fileNode _ (normalizeUefi_fits p)]) ++
    endDevicePath)
  have hsome := (hload memory address hne hm).1
  rw [load_eq base p _ hne hm] at hsome
  split at hsome
  · next hends => exact ⟨(key_decoded_iff p.noNul).mp (Option.some.inj hsome), hends⟩
  · cases hsome

/-- An appended path is found again exactly when it has no character of two units and no white space in front of it, and
no instance ends before it. -/
theorem file_path_round_trip (base : BasePath) (p : FilePath) :
    RoundTrips base p.path ↔ Survives p.path ∧ ∀ n ∈ base.nodes, ¬ n.IsEnd := by
  constructor
  · exact RoundTrips.decoded
  · rintro ⟨hsurvives, hends⟩
    have hkey := (key_decoded_iff p.noNul).mpr hsurvives
    refine ⟨_, append_bytes base (normalizeUefi_fits p), ⟨_, ⟨rfl, rfl⟩, rfl⟩, fun memory address hne hm => ?_⟩
    have hload := load_eq base p _ hne hm
    rw [if_pos hends, hkey] at hload
    refine ⟨hload, fun entries entry hentry hpath bootPolicy => ?_⟩
    obtain ⟨found, hfound, hsame⟩ := findEntry_found hentry
    rw [hpath] at hfound hsame
    refine ⟨found, ?_, hsame⟩
    rw [requestedEntry, hload, Option.bind_some, hfound]
    rfl

def emptyBase : BasePath := ⟨[], by decide, by simp, by simp⟩

/-- `/😀.efi` -/
def astralPath : FilePath where
  path := ['/', Char.ofNat 0x1F600, '.', 'e', 'f', 'i']
  nonempty := by decide
  units_lt := by decide
  noNul := by decide

/-- The two units of one character are decoded to two replacement characters. -/
theorem astral_path_lost : ¬ RoundTrips emptyBase astralPath.path := by
  intro h
  have hmem : Char.ofNat 0x1F600 ∈ astralPath.path := List.mem_cons_of_mem _ List.mem_cons_self
  exact absurd (h.decoded.1.1 _ hmem) (by decide)

end NextBoot.Boot.LoadFilePaths
