import NextBoot.LexicalPaths
import NextBoot.Strings

namespace NextBoot.Vhdx.ParentPaths

open LexicalPaths Strings

def dot : Text := ['.']

def dotDot : Text := ['.', '.']

def slash (ch : Char) : Char := if ch = '\\' then '/' else ch

def joinSlash : List Text → Text
  | [] => []
  | [part] => part
  | part :: next :: parts => part ++ '/' :: joinSlash (next :: parts)

def hasWindowsNamespaceOrDrive (path : Text) : Bool :=
  let lower := path.map toAsciiLowercase
  "\\\\".toList.isPrefixOf path || "//".toList.isPrefixOf path || "\\\\??\\".toList.isPrefixOf lower ||
    "\\\\?\\".toList.isPrefixOf lower || "\\\\.".toList.isPrefixOf lower || "//??/".toList.isPrefixOf lower ||
    "//?/".toList.isPrefixOf lower || "//.".toList.isPrefixOf lower || (asBytes path)[1]? = some 0x3A

def isAbsolute (path : Text) : Bool := path.head? = some '/' ∨ path.head? = some '\\'

def normalizeSeparators (path : Text) : Text := (trim path).map slash

/-- The parts of a path one by one, behind those that there are already. -/
def collectParts : List Text → List Text → Option (List Text)
  | parts, [] => some parts
  | parts, part :: rest =>
      if part = [] ∨ part = dot then collectParts parts rest
      else if part = dotDot then (if parts = [] then none else collectParts parts.dropLast rest)
      else collectParts (parts ++ [part]) rest

def normalizeAbsolutePath (path : Text) : Option Text :=
  let normalized := normalizeSeparators path
  if normalized.head? ≠ some '/' then none
  else (collectParts [] (split '/' normalized)).map fun parts => '/' :: joinSlash parts

def parentDir (path : Text) : Option Text := do
  let normalized ← normalizeAbsolutePath path
  let trimmed := trimEndWhile (· = '/') normalized
  let cut ← rsplitOnce '/' trimmed
  pure (if cut.1 = [] then ['/'] else cut.1)

def resolveSameVolumeParentPath (childPath parentPath : Text) : Option Text :=
  let parentPath := trim parentPath
  if parentPath = [] ∨ hasWindowsNamespaceOrDrive parentPath then none
  else do
    let combined ←
      if isAbsolute parentPath then some (normalizeSeparators parentPath)
      else do
        let base ← parentDir childPath
        let base := if base.getLast? = some '/' then base else base ++ ['/']
        some (base ++ normalizeSeparators parentPath)
    normalizeAbsolutePath combined

/-- How the components of a path are read. -/
def components : Components Text where
  Stays part := part = [] ∨ part = dot
  Up part := part = dotDot
  apart part hstays hup := by
    rw [hup] at hstays
    revert hstays
    decide

instance : DecidablePred components.Stays := fun part => inferInstanceAs (Decidable (part = [] ∨ part = dot))

instance : DecidablePred components.Up := fun part => inferInstanceAs (Decidable (part = dotDot))

/-- The components of a path, between separators of either kind. -/
def pieces (path : Text) : List Text := split '/' (path.map slash)

/-- The directory that a file is in: its path leads to the directory and from there to a name. -/
def Directory (child : Text) (dir : List Text) : Prop :=
  isAbsolute (trim child) = true ∧ ∃ name, components.Resolves (pieces (trim child)) (dir ++ [name])

/-- The names that a locator stands for, read from the root or from the directory of the child. -/
inductive Lexical (child locator : Text) : List Text → Prop
  | absolute {parts : List Text} (habsolute : isAbsolute (trim locator) = true)
      (hresolves : components.Resolves (pieces (trim locator)) parts) : Lexical child locator parts
  | relative {dir parts : List Text} (hrelative : isAbsolute (trim locator) = false) (hdir : Directory child dir)
      (hresolves : components.Resolves (dir ++ pieces (trim locator)) parts) : Lexical child locator parts

/-- The ways up of a locator lead above the root. -/
inductive LeavesRoot (child locator : Text) : Prop
  | absolute (habsolute : isAbsolute (trim locator) = true) (hclimbs : components.Climbs 0 (pieces (trim locator)))
  | relative {dir : List Text} (hrelative : isAbsolute (trim locator) = false) (hdir : Directory child dir)
      (hclimbs : components.Climbs dir.length (pieces (trim locator)))

def IsLetter (ch : Char) : Prop := (0x41 ≤ ch.toNat ∧ ch.toNat ≤ 0x5A) ∨ (0x61 ≤ ch.toNat ∧ ch.toNat ≤ 0x7A)

def HasDrive (path : Text) : Prop := ∃ letter rest, path = letter :: ':' :: rest ∧ IsLetter letter

def HasUnc (path : Text) : Prop := ['\\', '\\'] <+: path ∨ ['/', '/'] <+: path

/-- A name of a directory or a file: no component that is read in another way, and in one piece. -/
structure IsFileName (part : Text) : Prop where
  nonempty : part ≠ []
  notDot : part ≠ dot
  notDotDot : part ≠ dotDot
  noSlash : '/' ∉ part
  noBackslash : '\\' ∉ part

variable {path child locator p name : Text} {parts dir cs : List Text} {part : Text} {ch : Char}

theorem collectParts_eq : collectParts parts cs = components.walk parts cs := by
  induction cs generalizing parts with
  | nil => rfl
  | cons c cs ih => simp only [collectParts, Components.walk, ih]; rfl

theorem slash_eq_slash : slash ch = '/' ↔ ch = '/' ∨ ch = '\\' := by
  rw [slash]
  split
  · next h => exact iff_of_true rfl (.inr h)
  · next h => rw [or_iff_left h]

theorem slash_ne_backslash : slash ch ≠ '\\' := by
  rw [slash]
  split
  · decide
  · next h => exact h

theorem slash_of_ne (h : ch ≠ '\\') : slash ch = ch := if_neg h

theorem map_slash (h : '\\' ∉ path) : path.map slash = path := by
  have hid : path.map slash = path.map id := List.map_congr_left fun ch hch => slash_of_ne fun heq => h (heq ▸ hch)
  rw [hid, List.map_id]

theorem isWhitespace_slash : isWhitespace (slash ch) = isWhitespace ch := by
  rw [slash]
  split
  · next h => rw [h]; decide
  · rfl

theorem backslash_notMem_map : '\\' ∉ path.map slash := by
  intro h
  obtain ⟨ch, -, hch⟩ := List.mem_map.mp h
  exact slash_ne_backslash hch

theorem trimmed_map_slash (h : Trimmed path) : Trimmed (path.map slash) := by
  constructor
  · intro ch hch
    rw [List.head?_map] at hch
    obtain ⟨c, hc, rfl⟩ := Option.map_eq_some_iff.mp hch
    rw [isWhitespace_slash, h.1 c hc]
  · intro ch hch
    rw [List.getLast?_map] at hch
    obtain ⟨c, hc, rfl⟩ := Option.map_eq_some_iff.mp hch
    rw [isWhitespace_slash, h.2 c hc]

theorem isFileName_of_mem (hname : components.IsName part) (h : part ∈ pieces path) : IsFileName part := by
  obtain ⟨hstays, hup⟩ := hname
  rw [show components.Stays part ↔ part = [] ∨ part = dot from Iff.rfl, not_or] at hstays
  exact ⟨hstays.1, hstays.2, hup, notMem_of_mem_split h, fun hback => backslash_notMem_map (mem_of_mem_split h hback)⟩

theorem IsFileName.isName (h : IsFileName part) : components.IsName part :=
  ⟨fun hstays => hstays.elim h.nonempty h.notDot, h.notDotDot⟩

/-- What an absolute path is normalized to. -/
theorem normalizeAbsolutePath_eq : normalizeAbsolutePath path =
    if isAbsolute (trim path) then (components.walk [] (pieces (trim path))).map fun parts => '/' :: joinSlash parts
    else none := by
  have hhead : (normalizeSeparators path).head? = some '/' ↔ isAbsolute (trim path) = true := by
    rw [normalizeSeparators, isAbsolute, decide_eq_true_eq, List.head?_map]
    cases trim path with
    | nil => simp
    | cons ch rest => simp [slash_eq_slash]
  rw [normalizeAbsolutePath]
  by_cases habsolute : isAbsolute (trim path) = true
  · rw [if_neg (not_not.mpr (hhead.mpr habsolute)), if_pos habsolute, collectParts_eq]
    rfl
  · rw [if_pos (mt hhead.mp habsolute), if_neg habsolute]

theorem joinSlash_concat (h : dir ≠ []) : joinSlash (dir ++ [name]) = joinSlash dir ++ '/' :: name := by
  induction dir with
  | nil => exact absurd rfl h
  | cons part dir ih =>
      cases dir with
      | nil => rfl
      | cons next dir =>
          have hrest := ih (List.cons_ne_nil _ _)
          rw [List.cons_append] at hrest
          rw [List.cons_append, List.cons_append, joinSlash, hrest, joinSlash, List.append_assoc, List.cons_append]

theorem notMem_joinSlash (hch : ch ≠ '/') (hparts : ∀ part ∈ parts, ch ∉ part) : ch ∉ joinSlash parts := by
  induction parts with
  | nil => exact List.not_mem_nil
  | cons part parts ih =>
      rw [List.forall_mem_cons] at hparts
      cases parts with
      | nil => exact hparts.1
      | cons next parts =>
          rw [joinSlash, List.mem_append, List.mem_cons]
          rintro (hpart | rfl | hrest)
          · exact hparts.1 hpart
          · exact hch rfl
          · exact ih hparts.2 hrest

theorem split_joinSlash (hparts : ∀ part ∈ parts, IsFileName part) (h : parts ≠ []) :
    split '/' (joinSlash parts) = parts := by
  induction parts with
  | nil => exact absurd rfl h
  | cons part parts ih =>
      rw [List.forall_mem_cons] at hparts
      cases parts with
      | nil => exact split_of_notMem hparts.1.noSlash
      | cons next parts =>
          rw [joinSlash, split_append, split_of_notMem hparts.1.noSlash, ih hparts.2 (List.cons_ne_nil _ _),
            List.singleton_append]

theorem slash_joinSlash_concat :
    '/' :: joinSlash (dir ++ [name]) = (if dir = [] then [] else '/' :: joinSlash dir) ++ '/' :: name := by
  split
  · next h => rw [h]; rfl
  · next h => rw [joinSlash_concat h]; rfl

theorem getLast?_concat (hname : IsFileName name) :
    ∀ ch ∈ ('/' :: joinSlash (dir ++ [name])).getLast?, ch ≠ '/' := by
  intro ch hch
  rw [slash_joinSlash_concat, List.getLast?_append_of_ne_nil _ (List.cons_ne_nil _ _),
    List.getLast?_cons_of_ne_nil hname.nonempty] at hch
  rintro rfl
  exact hname.noSlash (List.mem_of_getLast? hch)

theorem isFileName_of_resolves (h : components.Resolves (pieces path) parts) : ∀ part ∈ parts, IsFileName part :=
  fun part hpart => isFileName_of_mem (h.2 part hpart) (h.subset hpart)

theorem parentDir_eq (habsolute : isAbsolute (trim child) = true)
    (hresolves : components.Resolves (pieces (trim child)) parts) :
    parentDir child = if parts = [] then none else some ('/' :: joinSlash parts.dropLast) := by
  have hnames := isFileName_of_resolves hresolves
  rw [parentDir, normalizeAbsolutePath_eq, if_pos habsolute, walk_eq_some.mpr hresolves]
  rcases List.eq_nil_or_concat parts with rfl | ⟨dir, name, rfl⟩
  · rfl
  · rw [List.concat_eq_append] at hnames ⊢
    have hname := hnames name (by simp)
    have htrimmed : trimEndWhile (· = '/') ('/' :: joinSlash (dir ++ [name])) = '/' :: joinSlash (dir ++ [name]) :=
      trimEndWhile_eq_self fun ch hch => decide_eq_false (getLast?_concat hname ch hch)
    rw [if_neg (by simp), List.dropLast_concat]
    simp only [Option.map_some, Option.bind_eq_bind, Option.bind_some, htrimmed]
    rw [slash_joinSlash_concat, rsplitOnce_append hname.noSlash]
    by_cases hdir : dir = []
    · rw [hdir]
      rfl
    · rw [if_neg hdir]
      rfl

theorem parentDir_eq_some : parentDir child = some p ↔ ∃ dir, Directory child dir ∧ p = '/' :: joinSlash dir := by
  constructor
  · intro h
    obtain ⟨normalized, hnormalized, -⟩ := Option.bind_eq_some_iff.mp h
    rw [normalizeAbsolutePath_eq] at hnormalized
    split at hnormalized
    · next habsolute =>
        obtain ⟨parts, hwalk, -⟩ := Option.map_eq_some_iff.mp hnormalized
        have hresolves := walk_eq_some.mp hwalk
        rw [parentDir_eq habsolute hresolves] at h
        split at h
        · cases h
        · next hne =>
            refine ⟨parts.dropLast, ⟨habsolute, parts.getLast hne, ?_⟩, (Option.some.inj h).symm⟩
            rwa [List.dropLast_append_getLast]
    · cases hnormalized
  · rintro ⟨dir, ⟨habsolute, name, hresolves⟩, rfl⟩
    rw [parentDir_eq habsolute hresolves, if_neg (by simp), List.dropLast_concat]

theorem Directory.isFileName (h : Directory child dir) : ∀ part ∈ dir, IsFileName part := by
  obtain ⟨-, name, hresolves⟩ := h
  exact fun part hpart => isFileName_of_resolves hresolves part (List.mem_append_left _ hpart)

theorem walk_root {cs : List Text} : components.walk [] ([] :: cs) = components.walk [] cs := by
  rw [Components.walk, if_pos (.inl rfl)]

/-- An absolute path that is written with slashes only. -/
theorem normalizeAbsolutePath_slash (hback : '\\' ∉ path) (hlast : ∀ ch ∈ path.getLast?, isWhitespace ch = false) :
    normalizeAbsolutePath ('/' :: path) =
      (components.walk [] (split '/' path)).map fun parts => '/' :: joinSlash parts := by
  have htrimmed : Trimmed ('/' :: path) := by
    constructor
    · rintro ch ⟨⟩
      decide
    · cases path with
      | nil =>
          rintro ch ⟨⟩
          decide
      | cons c path => rwa [List.getLast?_cons_cons]
  have hpieces : pieces ('/' :: path) = [] :: split '/' path := by
    rw [pieces, map_slash (by simpa using hback)]
    exact split_append (a := [])
  rw [normalizeAbsolutePath_eq, trim_of_trimmed htrimmed, if_pos (by simp [isAbsolute]), hpieces, walk_root]

/-- A locator behind a directory of the child. -/
theorem normalizeAbsolutePath_behind (hdir : ∀ part ∈ dir, IsFileName part) (hlocator : Trimmed locator)
    (hne : locator ≠ []) :
    normalizeAbsolutePath ((if ('/' :: joinSlash dir).getLast? = some '/' then '/' :: joinSlash dir
      else '/' :: joinSlash dir ++ ['/']) ++ locator.map slash) =
      (components.walk [] (dir ++ pieces locator)).map fun parts => '/' :: joinSlash parts := by
  have hlast : ∀ front : Text, ∀ ch ∈ (front ++ locator.map slash).getLast?, isWhitespace ch = false := by
    intro front
    rw [List.getLast?_append_of_ne_nil _ (mt List.map_eq_nil_iff.mp hne)]
    exact (trimmed_map_slash hlocator).2
  rcases List.eq_nil_or_concat dir with rfl | ⟨front, name, rfl⟩
  · exact normalizeAbsolutePath_slash backslash_notMem_map (hlast [])
  · rw [List.concat_eq_append] at hdir ⊢
    have hname := hdir name (by simp)
    have hends : ¬ ('/' :: joinSlash (front ++ [name])).getLast? = some '/' :=
      fun hslash => getLast?_concat hname '/' hslash rfl
    rw [if_neg hends, List.append_assoc, List.singleton_append, List.cons_append, normalizeAbsolutePath_slash,
      split_append, split_joinSlash hdir (by simp)]
    · rfl
    · rw [List.mem_append, List.mem_cons]
      rintro (hdirs | hslash | hlocators)
      · exact notMem_joinSlash (by decide) (fun part hpart => (hdir part hpart).noBackslash) hdirs
      · exact absurd hslash (by decide)
      · exact backslash_notMem_map hlocators
    · rw [List.append_cons]
      exact hlast _

theorem normalizeSeparators_trim : normalizeSeparators (trim locator) = (trim locator).map slash := by
  rw [normalizeSeparators, trim_of_trimmed trimmed_trim]

theorem normalizeAbsolutePath_locator (habsolute : isAbsolute (trim locator) = true) :
    normalizeAbsolutePath (normalizeSeparators (trim locator)) =
      (components.walk [] (pieces (trim locator))).map fun parts => '/' :: joinSlash parts := by
  have hhead : isAbsolute ((trim locator).map slash) = true := by
    rw [isAbsolute, decide_eq_true_eq] at habsolute ⊢
    left
    rw [List.head?_map, Option.map_eq_some_iff]
    rcases habsolute with h | h
    · exact ⟨'/', h, rfl⟩
    · exact ⟨'\\', h, rfl⟩
  have hpieces : pieces ((trim locator).map slash) = pieces (trim locator) := by
    rw [pieces, map_slash backslash_notMem_map, pieces]
  rw [normalizeSeparators_trim, normalizeAbsolutePath_eq, trim_of_trimmed (trimmed_map_slash trimmed_trim), if_pos hhead,
    hpieces]

/-- The exact result: the path of the names that the locator stands for. -/
theorem resolve_eq_some : resolveSameVolumeParentPath child locator = some p ↔
    (trim locator ≠ [] ∧ hasWindowsNamespaceOrDrive (trim locator) = false) ∧
      ∃ parts, Lexical child locator parts ∧ p = '/' :: joinSlash parts := by
  rw [resolveSameVolumeParentPath]
  by_cases hforeign : trim locator = [] ∨ hasWindowsNamespaceOrDrive (trim locator) = true
  · rw [if_pos hforeign]
    refine iff_of_false nofun ?_
    rintro ⟨⟨hne, hhere⟩, -⟩
    rw [hhere] at hforeign
    exact hforeign.elim hne Bool.false_ne_true
  · rw [if_neg hforeign]
    rw [not_or, Bool.not_eq_true] at hforeign
    rw [and_iff_right hforeign]
    cases habsolute : isAbsolute (trim locator) with
    | true =>
        simp only [if_true, Option.bind_eq_bind, Option.bind_some, normalizeAbsolutePath_locator habsolute]
        rw [Option.map_eq_some_iff]
        constructor
        · rintro ⟨parts, hwalk, rfl⟩
          exact ⟨parts, .absolute habsolute (walk_eq_some.mp hwalk), rfl⟩
        · rintro ⟨parts, hlexical, rfl⟩
          cases hlexical with
          | absolute _ hresolves => exact ⟨parts, walk_eq_some.mpr hresolves, rfl⟩
          | relative hrelative => rw [habsolute] at hrelative; cases hrelative
    | false =>
        simp only [Bool.false_eq_true, if_false, Option.bind_eq_bind]
        constructor
        · intro h
          obtain ⟨base, hbase, h⟩ := Option.bind_eq_some_iff.mp h
          obtain ⟨dir, hdir, rfl⟩ := parentDir_eq_some.mp hbase
          rw [Option.bind_some, normalizeSeparators_trim,
            normalizeAbsolutePath_behind hdir.isFileName trimmed_trim hforeign.1] at h
          obtain ⟨parts, hwalk, rfl⟩ := Option.map_eq_some_iff.mp h
          exact ⟨parts, .relative habsolute hdir (walk_eq_some.mp hwalk), rfl⟩
        · rintro ⟨parts, hlexical, rfl⟩
          cases hlexical with
          | absolute htrue => rw [habsolute] at htrue; cases htrue
          | @relative dir _ _ hdir hresolves =>
              rw [parentDir_eq_some.mpr ⟨dir, hdir, rfl⟩]
              simp only [Option.bind_some]
              rw [normalizeSeparators_trim, normalizeAbsolutePath_behind hdir.isFileName trimmed_trim hforeign.1,
                walk_eq_some.mpr hresolves]
              rfl

theorem Lexical.isFileName (h : Lexical child locator parts) : ∀ part ∈ parts, IsFileName part := by
  cases h with
  | absolute _ hresolves => exact isFileName_of_resolves hresolves
  | relative _ hdir hresolves =>
      intro part hpart
      rcases List.mem_append.mp (hresolves.subset hpart) with h | h
      · exact hdir.isFileName part h
      · exact isFileName_of_mem (hresolves.2 part hpart) h

/-- A path resolves to one list of names only. -/
theorem resolves_unique {other : List Text} (h : components.Resolves cs parts) (h' : components.Resolves cs other) :
    parts = other :=
  Option.some.inj ((walk_eq_some.mpr h).symm.trans (walk_eq_some.mpr h'))

theorem Directory.unique {other : List Text} (h : Directory child dir) (h' : Directory child other) : dir = other := by
  obtain ⟨-, name, hresolves⟩ := h
  obtain ⟨-, name', hresolves'⟩ := h'
  exact (List.append_inj' (resolves_unique hresolves hresolves') rfl).1

theorem Lexical.unique {other : List Text} (h : Lexical child locator parts) (h' : Lexical child locator other) :
    parts = other := by
  cases h with
  | absolute habsolute hresolves =>
      cases h' with
      | absolute _ hresolves' => exact resolves_unique hresolves hresolves'
      | relative hrelative => rw [habsolute] at hrelative; cases hrelative
  | relative hrelative hdir hresolves =>
      cases h' with
      | absolute habsolute => rw [habsolute] at hrelative; cases hrelative
      | relative _ hdir' hresolves' =>
          rw [hdir.unique hdir'] at hresolves
          exact resolves_unique hresolves hresolves'

theorem not_lexical_of_leavesRoot (h : LeavesRoot child locator) : ¬ Lexical child locator parts := by
  intro hlexical
  cases h with
  | absolute habsolute hclimbs =>
      cases hlexical with
      | absolute _ hresolves =>
          have hnone := (@walk_eq_none _ components _ _ _ []).mpr hclimbs
          rw [walk_eq_some.mpr hresolves] at hnone
          cases hnone
      | relative hrelative => rw [habsolute] at hrelative; cases hrelative
  | relative hrelative hdir hclimbs =>
      cases hlexical with
      | absolute habsolute => rw [habsolute] at hrelative; cases hrelative
      | relative _ hdir' hresolves =>
          rw [hdir'.unique hdir] at hresolves
          have hsome := walk_eq_some.mpr hresolves
          rw [walk_append, walk_names fun part hpart => (hdir.isFileName part hpart).isName, Option.bind_some,
            List.nil_append, walk_eq_none.mpr hclimbs] at hsome
          cases hsome

theorem foreign_of_unc (h : HasUnc path) : hasWindowsNamespaceOrDrive path = true := by
  rcases h with h | h <;> simp [hasWindowsNamespaceOrDrive, h]

theorem foreign_of_drive (h : HasDrive path) : hasWindowsNamespaceOrDrive path = true := by
  obtain ⟨letter, rest, rfl, hletter⟩ := h
  have hbyte : (asBytes (letter :: ':' :: rest))[1]? = some 0x3A := by
    have hascii : letter.val.toNat ≤ 0x7f := by
      have hval : letter.val.toNat = letter.toNat := rfl
      rcases hletter with h | h <;> omega
    have hfirst : String.utf8EncodeChar letter = [UInt8.ofNat letter.val.toNat] := by
      rw [String.utf8EncodeChar]
      exact if_pos hascii
    rw [asBytes, List.flatMap_cons, hfirst]
    rfl
  simp [hasWindowsNamespaceOrDrive, hbyte]

/-- A parent is looked for below the root of the volume of its child. -/
theorem parent_path_confined (child locator : Text) :
    (∀ p, resolveSameVolumeParentPath child locator = some p →
      p.head? = some '/' ∧ '\\' ∉ p ∧ ∃ parts, p = '/' :: joinSlash parts ∧ (∀ part ∈ parts, IsFileName part) ∧
        ∀ other, Lexical child locator other ↔ other = parts) ∧
      (LeavesRoot child locator → resolveSameVolumeParentPath child locator = none) ∧
      (HasDrive (trim locator) ∨ HasUnc (trim locator) → resolveSameVolumeParentPath child locator = none) := by
  refine ⟨fun p h => ?_, fun h => ?_, fun h => ?_⟩
  · obtain ⟨-, parts, hlexical, rfl⟩ := resolve_eq_some.mp h
    have hnames := hlexical.isFileName
    refine ⟨rfl, ?_, parts, rfl, hnames, fun other => ⟨fun hother => hother.unique hlexical, ?_⟩⟩
    · rw [List.mem_cons, not_or]
      exact ⟨by decide, notMem_joinSlash (by decide) fun part hpart => (hnames part hpart).noBackslash⟩
    · rintro rfl
      exact hlexical
  · cases hresult : resolveSameVolumeParentPath child locator with
    | none => rfl
    | some p =>
        obtain ⟨-, parts, hlexical, -⟩ := resolve_eq_some.mp hresult
        exact absurd hlexical (not_lexical_of_leavesRoot h)
  · have hforeign := h.elim foreign_of_drive foreign_of_unc
    rw [resolveSameVolumeParentPath, if_pos (.inr hforeign)]

theorem diffParent_confined :
    resolveSameVolumeParentPath "/ISO/children/diff.vhdx".toList "..\\base.vhdx".toList = some "/ISO/base.vhdx".toList ∧
      '\\' ∉ "/ISO/base.vhdx".toList ∧
      resolveSameVolumeParentPath "/diff.vhdx".toList "..\\base.vhdx".toList = none ∧
      resolveSameVolumeParentPath "/ISO/diff.vhdx".toList "C:\\base.vhdx".toList = none := by
  have hfound : resolveSameVolumeParentPath "/ISO/children/diff.vhdx".toList "..\\base.vhdx".toList =
      some "/ISO/base.vhdx".toList := by decide
  have hleaves : LeavesRoot "/diff.vhdx".toList "..\\base.vhdx".toList := by
    refine @LeavesRoot.relative _ _ [] (by decide) ⟨by decide, "diff.vhdx".toList, ?_⟩ ?_
    · exact walk_eq_some.mp (by decide)
    · exact (@walk_eq_none _ components _ _ _ []).mp (by decide)
  have hdrive : HasDrive (trim "C:\\base.vhdx".toList) := ⟨'C', "\\base.vhdx".toList, by decide, .inl (by decide)⟩
  exact ⟨hfound, ((parent_path_confined _ _).1 _ hfound).2.1, (parent_path_confined _ _).2.1 hleaves,
    (parent_path_confined _ _).2.2 (.inl hdrive)⟩

end NextBoot.Vhdx.ParentPaths
