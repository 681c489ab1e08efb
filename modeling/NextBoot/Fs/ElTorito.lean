import NextBoot.Bytes

namespace NextBoot.Fs.ElTorito

open Bytes

def elToritoBootable : UInt8 := 0x88

def elToritoSectionHeader : UInt8 := 0x90

def elToritoFinalSectionHeader : UInt8 := 0x91

def elToritoPlatformEfi : UInt8 := 0xEF

structure ElToritoBootInfo where
  catalogLba : Nat
  bootEntry : Nat
  platformId : UInt8
  bootMediaType : UInt8
  imageLba : Nat
  sectorCount : Nat
deriving DecidableEq

def ElToritoBootInfo.isEfi (info : ElToritoBootInfo) : Bool := info.platformId = elToritoPlatformEfi

def parseBootEntry (catalogLba bootEntry : Nat) (platformId : UInt8) (entry : List UInt8) : Option ElToritoBootInfo :=
  if entry.length < 32 ∨ entry.getD 0 0 ≠ elToritoBootable then none
  else
    let imageLba := fromLeBytes ((entry.drop 8).take 4)
    if imageLba = 0 then none
    else
      some {
        catalogLba := catalogLba
        bootEntry := bootEntry
        platformId := platformId
        bootMediaType := entry.getD 1 0
        imageLba := imageLba
        sectorCount := fromLeBytes ((entry.drop 6).take 2) }

/-- How the loop over the entries of a section ends. -/
inductive SectionEnd where
  | returns (entry : Option ElToritoBootInfo)
  | continues (offset entryIndex : Nat)

section loops

variable (catalogLba : Nat) (catalog : List UInt8) (defaultEntry : Option ElToritoBootInfo)

/-- The loop over the declared entries of a section; `entry_index` counts in 32 bits. -/
def entryLoop (platformId : UInt8) : Nat → Nat → Nat → SectionEnd
  | 0, offset, entryIndex => .continues offset entryIndex
  | entryCount + 1, offset, entryIndex =>
      if catalog.length < offset + 32 then .returns defaultEntry
      else
        let entry :=
          if platformId = elToritoPlatformEfi then
            parseBootEntry catalogLba entryIndex platformId ((catalog.drop offset).take 32)
          else none
        match entry with
        | some entry => .returns (some entry)
        | none => entryLoop platformId entryCount (offset + 32) ((entryIndex + 1) % 2 ^ 32)

/-- The loop over the sections; each takes at least its header. -/
def sectionLoop : Nat → Nat → Nat → Option ElToritoBootInfo
  | 0, _, _ => defaultEntry
  | fuel + 1, offset, entryIndex =>
      if catalog.length < offset + 32 then defaultEntry
      else
        let header := (catalog.drop offset).take 32
        let indicator := header.getD 0 0
        if indicator ≠ elToritoSectionHeader ∧ indicator ≠ elToritoFinalSectionHeader then defaultEntry
        else
          let platformId := header.getD 1 0
          let entryCount := fromLeBytes ((header.drop 2).take 2)
          match entryLoop catalogLba catalog defaultEntry platformId entryCount (offset + 32) entryIndex with
          | .returns entry => entry
          | .continues offset entryIndex =>
              if indicator = elToritoFinalSectionHeader then defaultEntry else sectionLoop fuel offset entryIndex

end loops

def parseBootCatalog (catalogLba : Nat) (catalog : List UInt8) : Option ElToritoBootInfo :=
  if catalog.length < 64 ∨ catalog.getD 0 0 ≠ 0x01 ∨ catalog.getD 30 0 ≠ 0x55 ∨ catalog.getD 31 0 ≠ 0xAA then none
  else
    let validationPlatform := catalog.getD 1 0
    let defaultEntry := parseBootEntry catalogLba 0 validationPlatform ((catalog.drop 32).take 32)
    if defaultEntry.any ElToritoBootInfo.isEfi then defaultEntry
    else sectionLoop catalogLba catalog defaultEntry catalog.length 64 1

/-- An entry that is marked bootable and names an image. -/
def Bootable (entry : List UInt8) : Prop :=
  entry[0]? = some elToritoBootable ∧ fromLeBytes ((entry.drop 8).take 4) ≠ 0

instance (entry : List UInt8) : Decidable (Bootable entry) := inferInstanceAs (Decidable (_ ∧ _))

/-- What an entry says about its image. -/
def bootInfo (catalogLba bootEntry : Nat) (platformId : UInt8) (entry : List UInt8) : ElToritoBootInfo where
  catalogLba := catalogLba
  bootEntry := bootEntry
  platformId := platformId
  bootMediaType := entry.getD 1 0
  imageLba := fromLeBytes ((entry.drop 8).take 4)
  sectorCount := fromLeBytes ((entry.drop 6).take 2)

/-- A section: what its header says besides the number of its entries, and the entries. -/
structure CatalogSection where
  platformId : UInt8
  identifier : List UInt8
  entries : List (List UInt8)
  length_identifier : identifier.length = 28
  entries_lt : entries.length < 2 ^ 16
  length_entry : ∀ entry ∈ entries, entry.length = 32

namespace CatalogSection

def header (s : CatalogSection) (indicator : UInt8) : List UInt8 :=
  indicator :: s.platformId :: (toLeBytes 2 s.entries.length ++ s.identifier)

end CatalogSection

/-- The sections one behind the other, with the last header marked final. -/
def encodeSections : List CatalogSection → List UInt8
  | [] => []
  | s :: sections =>
      s.header (if sections.isEmpty then elToritoFinalSectionHeader else elToritoSectionHeader) ++
        (s.entries.flatten ++ encodeSections sections)

/-- A boot catalog, and what follows it in its buffer. Where it has no section, no header follows. -/
structure BootCatalog where
  validation : List UInt8
  platformId : UInt8
  defaultEntry : List UInt8
  sections : List CatalogSection
  padding : List UInt8
  length_validation : validation.length = 32
  header_id : validation[0]? = some 0x01
  platform_eq : validation[1]? = some platformId
  key_low : validation[30]? = some 0x55
  key_high : validation[31]? = some 0xAA
  length_defaultEntry : defaultEntry.length = 32
  padding_plain : sections = [] → padding.head? ≠ some elToritoSectionHeader ∧
    padding.head? ≠ some elToritoFinalSectionHeader

def BootCatalog.bytes (c : BootCatalog) : List UInt8 :=
  c.validation ++ (c.defaultEntry ++ (encodeSections c.sections ++ c.padding))

variable {catalogLba bootEntry : Nat} {platformId : UInt8} {entry catalog : List UInt8}

theorem parseBootEntry_eq (hlen : entry.length = 32) : parseBootEntry catalogLba bootEntry platformId entry =
    if Bootable entry then some (bootInfo catalogLba bootEntry platformId entry) else none := by
  have hfirst : entry[0]? = some (entry.getD 0 0) := by
    rw [List.getD_eq_getElem?_getD, List.getElem?_eq_getElem (by omega), Option.getD_some]
  rw [parseBootEntry]
  by_cases hmark : entry.getD 0 0 = elToritoBootable
  · rw [if_neg fun h => h.elim (fun h => by omega) fun h => h hmark]
    dsimp only
    by_cases hzero : fromLeBytes ((entry.drop 8).take 4) = 0
    · rw [if_pos hzero, if_neg fun h => h.2 hzero]
    · rw [if_neg hzero, if_pos ⟨hfirst.trans (congrArg some hmark), hzero⟩, bootInfo]
  · rw [if_pos (.inr hmark), if_neg]
    rintro ⟨h, -⟩
    exact hmark (Option.some_inj.1 (hfirst.symm.trans h))

theorem length_flatten_entries {entries : List (List UInt8)} (hlen : ∀ e ∈ entries, e.length = 32) :
    entries.flatten.length = 32 * entries.length := by
  induction entries with
  | nil => rfl
  | cons e entries ih =>
      rw [List.forall_mem_cons] at hlen
      rw [List.flatten_cons, List.length_append, ih hlen.2, hlen.1, List.length_cons]
      omega

variable {defaultEntry : Option ElToritoBootInfo} {offset entryIndex entryCount fuel : Nat} {entries : List (List UInt8)}
  {sections : List CatalogSection} {s : CatalogSection} {tail padding : List UInt8} {indicator : UInt8}

theorem drop_entry (hdrop : catalog.drop offset = entry ++ tail) (hlen : entry.length = 32) :
    offset + 32 ≤ catalog.length ∧ (catalog.drop offset).take 32 = entry ∧ catalog.drop (offset + 32) = tail := by
  have hlength := congrArg List.length hdrop
  rw [List.length_drop, List.length_append] at hlength
  refine ⟨by omega, ?_, ?_⟩
  · rw [hdrop, List.take_left' hlen]
  · rw [← List.drop_drop, hdrop, List.drop_left' hlen]

/-- The loop passes over entries that are not bootable or not for EFI, and counts them. -/
theorem entryLoop_skip (hdrop : catalog.drop offset = entries.flatten ++ tail) (hlen : ∀ e ∈ entries, e.length = 32)
    (hplain : platformId = elToritoPlatformEfi → ∀ e ∈ entries, ¬ Bootable e) (hindex : 32 * entryIndex ≤ offset)
    (hfits : catalog.length < 2 ^ 37) :
    entryLoop catalogLba catalog defaultEntry platformId (entries.length + entryCount) offset entryIndex =
      entryLoop catalogLba catalog defaultEntry platformId entryCount (offset + 32 * entries.length)
        (entryIndex + entries.length) := by
  induction entries generalizing offset entryIndex with
  | nil => rw [List.length_nil, Nat.zero_add, Nat.mul_zero, Nat.add_zero, Nat.add_zero]
  | cons e entries ih =>
      rw [List.forall_mem_cons] at hlen
      rw [List.flatten_cons, List.append_assoc] at hdrop
      obtain ⟨hroom, htake, hrest⟩ := drop_entry hdrop hlen.1
      have hpassed : (if platformId = elToritoPlatformEfi then
          parseBootEntry catalogLba entryIndex platformId ((catalog.drop offset).take 32) else none) = none := by
        split
        · rename_i hefi
          rw [htake, parseBootEntry_eq hlen.1, if_neg (hplain hefi e List.mem_cons_self)]
        · rfl
      have hnext : (entryIndex + 1) % 2 ^ 32 = entryIndex + 1 := Nat.mod_eq_of_lt (by omega)
      rw [List.length_cons, show entries.length + 1 + entryCount = entries.length + entryCount + 1 by omega, entryLoop,
        if_neg (by omega)]
      dsimp only
      rw [hpassed, hnext]
      dsimp only
      rw [ih hrest hlen.2 (fun hefi e he => hplain hefi e (List.mem_cons_of_mem _ he)) (by omega)]
      congr 1 <;> omega

theorem entryLoop_found (hdrop : catalog.drop offset = entry ++ tail) (hlen : entry.length = 32) (hboot : Bootable entry) :
    entryLoop catalogLba catalog defaultEntry elToritoPlatformEfi (entryCount + 1) offset entryIndex =
      .returns (some (bootInfo catalogLba entryIndex elToritoPlatformEfi entry)) := by
  obtain ⟨hroom, htake, -⟩ := drop_entry hdrop hlen
  rw [entryLoop, if_neg (by omega)]
  dsimp only
  rw [if_pos rfl, htake, parseBootEntry_eq hlen, if_pos hboot]

theorem length_header : (s.header indicator).length = 32 := by
  simp [CatalogSection.header, s.length_identifier]

/-- A round of the loop over the sections, up to the loop over the entries. -/
theorem sectionLoop_succ (hdrop : catalog.drop offset = s.header indicator ++ tail)
    (hmark : indicator = elToritoSectionHeader ∨ indicator = elToritoFinalSectionHeader) :
    sectionLoop catalogLba catalog defaultEntry (fuel + 1) offset entryIndex =
      match entryLoop catalogLba catalog defaultEntry s.platformId s.entries.length (offset + 32) entryIndex with
      | .returns entry => entry
      | .continues offset entryIndex =>
          if indicator = elToritoFinalSectionHeader then defaultEntry
          else sectionLoop catalogLba catalog defaultEntry fuel offset entryIndex := by
  obtain ⟨hroom, htake, -⟩ := drop_entry hdrop length_header
  have hcount : fromLeBytes (((s.header indicator).drop 2).take 2) = s.entries.length := by
    rw [CatalogSection.header, List.drop_succ_cons, List.drop_succ_cons, List.drop_zero,
      List.take_left' (length_toLeBytes 2 _), fromLeBytes_toLeBytes]
    exact Nat.mod_eq_of_lt s.entries_lt
  have hindicator : (s.header indicator).getD 0 0 = indicator := rfl
  have hplatform : (s.header indicator).getD 1 0 = s.platformId := rfl
  have hheader : ¬ (indicator ≠ elToritoSectionHeader ∧ indicator ≠ elToritoFinalSectionHeader) := by
    rintro ⟨h, h'⟩
    exact hmark.elim h h'
  rw [sectionLoop, if_neg (by omega)]
  dsimp only
  rw [htake, hindicator, if_neg hheader, hplatform, hcount]

/-- A section that has no bootable entry for EFI. -/
def Passed (s : CatalogSection) : Prop := s.platformId = elToritoPlatformEfi → ∀ e ∈ s.entries, ¬ Bootable e

instance (s : CatalogSection) : Decidable (Passed s) :=
  inferInstanceAs (Decidable (s.platformId = elToritoPlatformEfi → ∀ e ∈ s.entries, ¬ Bootable e))

theorem sectionLoop_passed (hdrop : catalog.drop offset = s.header indicator ++ (s.entries.flatten ++ tail))
    (hmark : indicator = elToritoSectionHeader ∨ indicator = elToritoFinalSectionHeader) (hpassed : Passed s)
    (hindex : 32 * entryIndex ≤ offset) (hfits : catalog.length < 2 ^ 37) :
    sectionLoop catalogLba catalog defaultEntry (fuel + 1) offset entryIndex =
      if indicator = elToritoFinalSectionHeader then defaultEntry
      else sectionLoop catalogLba catalog defaultEntry fuel (offset + 32 + 32 * s.entries.length)
        (entryIndex + s.entries.length) := by
  obtain ⟨-, -, hrest⟩ := drop_entry hdrop length_header
  have hskip := @entryLoop_skip catalogLba s.platformId catalog defaultEntry (offset + 32) entryIndex 0 s.entries tail hrest
    s.length_entry hpassed (by omega) hfits
  rw [Nat.add_zero] at hskip
  rw [sectionLoop_succ hdrop hmark, hskip, entryLoop]

/-- A section that others follow is passed over up to the next one. -/
theorem sectionLoop_next (hne : sections ≠ []) (hdrop : catalog.drop offset = encodeSections (s :: sections) ++ padding)
    (hpassed : Passed s) (hindex : 32 * entryIndex ≤ offset) (hfits : catalog.length < 2 ^ 37) :
    ∃ offset', catalog.drop offset' = encodeSections sections ++ padding ∧
      32 * (entryIndex + s.entries.length) ≤ offset' ∧
      sectionLoop catalogLba catalog defaultEntry (fuel + 1) offset entryIndex =
        sectionLoop catalogLba catalog defaultEntry fuel offset' (entryIndex + s.entries.length) := by
  rw [encodeSections, if_neg (by simpa using hne), List.append_assoc, List.append_assoc] at hdrop
  refine ⟨offset + 32 + 32 * s.entries.length, ?_, by omega, ?_⟩
  · obtain ⟨-, -, hrest⟩ := drop_entry hdrop length_header
    rw [← List.drop_drop, hrest, List.drop_left' (length_flatten_entries s.length_entry)]
  · rw [sectionLoop_passed hdrop (.inl rfl) hpassed hindex hfits, if_neg (by decide)]

theorem sectionLoop_none (hdrop : catalog.drop offset = encodeSections sections ++ padding)
    (hpadding : sections = [] → padding.head? ≠ some elToritoSectionHeader ∧
      padding.head? ≠ some elToritoFinalSectionHeader)
    (hpassed : ∀ s ∈ sections, Passed s) (hindex : 32 * entryIndex ≤ offset) (hfits : catalog.length < 2 ^ 37) :
    sectionLoop catalogLba catalog defaultEntry fuel offset entryIndex = defaultEntry := by
  induction sections generalizing offset entryIndex fuel with
  | nil =>
      cases fuel with
      | zero => rfl
      | succ fuel =>
          obtain ⟨hplain, hplain'⟩ := hpadding rfl
          rw [encodeSections, List.nil_append] at hdrop
          rw [sectionLoop]
          split
          · rfl
          · rename_i hroom
            have hlength := congrArg List.length hdrop
            rw [List.length_drop] at hlength
            obtain ⟨first, padding, rfl⟩ : ∃ b rest, padding = b :: rest := List.exists_cons_of_length_pos (by omega)
            have hfirst : ((catalog.drop offset).take 32).getD 0 0 = first := by
              rw [hdrop]
              rfl
            dsimp only
            rw [hfirst, if_pos]
            exact ⟨fun h => hplain (congrArg some h), fun h => hplain' (congrArg some h)⟩
  | cons s sections ih =>
      rw [List.forall_mem_cons] at hpassed
      cases fuel with
      | zero => rfl
      | succ fuel =>
          by_cases hlast : sections = []
          · subst hlast
            rw [encodeSections, List.isEmpty_nil, if_pos rfl, List.append_assoc, List.append_assoc] at hdrop
            rw [sectionLoop_passed hdrop (.inr rfl) hpassed.1 hindex hfits, if_pos rfl]
          · obtain ⟨offset', hdrop', hindex', hnext⟩ := @sectionLoop_next catalogLba catalog defaultEntry _ _ fuel _ _ _ hlast
              hdrop hpassed.1 hindex hfits
            rw [hnext, ih hdrop' (fun h => absurd h hlast) hpassed.2 hindex']

theorem sectionLoop_found {before after : List CatalogSection} {skipped rest : List (List UInt8)}
    (hdrop : catalog.drop offset = encodeSections (before ++ s :: after) ++ padding)
    (hefi : s.platformId = elToritoPlatformEfi) (hentries : s.entries = skipped ++ entry :: rest)
    (hpassed : ∀ s ∈ before, Passed s) (hskipped : ∀ e ∈ skipped, ¬ Bootable e) (hboot : Bootable entry)
    (hfuel : before.length < fuel) (hindex : 32 * entryIndex ≤ offset) (hfits : catalog.length < 2 ^ 37) :
    sectionLoop catalogLba catalog defaultEntry fuel offset entryIndex = some (bootInfo catalogLba
      (entryIndex + (before.map fun s => s.entries.length).sum + skipped.length) elToritoPlatformEfi entry) := by
  obtain ⟨fuel, rfl⟩ : ∃ f, fuel = f + 1 := ⟨fuel - 1, by omega⟩
  induction before generalizing offset entryIndex fuel with
  | nil =>
      rw [List.nil_append, encodeSections, List.append_assoc, List.append_assoc] at hdrop
      have hlens := s.length_entry
      rw [hentries, List.forall_mem_append, List.forall_mem_cons] at hlens
      obtain ⟨-, -, hinner⟩ := drop_entry hdrop length_header
      rw [hentries, List.flatten_append, List.flatten_cons, List.append_assoc, List.append_assoc] at hinner
      have hskip := @entryLoop_skip catalogLba elToritoPlatformEfi catalog defaultEntry (offset + 32) entryIndex
        (rest.length + 1) skipped _ hinner hlens.1 (fun _ => hskipped) (by omega) hfits
      have hfound : catalog.drop (offset + 32 + 32 * skipped.length) =
          entry ++ (rest.flatten ++ (encodeSections after ++ padding)) := by
        rw [← List.drop_drop, hinner, List.drop_left' (length_flatten_entries hlens.1)]
      have hcount : s.entries.length = skipped.length + (rest.length + 1) := by
        rw [hentries, List.length_append, List.length_cons]
      rw [sectionLoop_succ hdrop (by split <;> simp), hefi, hcount, hskip, entryLoop_found hfound hlens.2.1 hboot]
      rfl
  | cons b before ih =>
      rw [List.forall_mem_cons] at hpassed
      rw [List.length_cons] at hfuel
      obtain ⟨fuel, rfl⟩ : ∃ f, fuel = f + 1 := ⟨fuel - 1, by omega⟩
      obtain ⟨offset', hdrop', hindex', hnext⟩ := @sectionLoop_next catalogLba catalog defaultEntry _ entryIndex (fuel + 1) _ _ _
        (List.append_ne_nil_of_right_ne_nil before (List.cons_ne_nil s after)) hdrop hpassed.1 hindex hfits
      rw [hnext, ih hdrop' hpassed.2 hindex' fuel (by omega), List.map_cons, List.sum_cons]
      congr 2
      omega

namespace BootCatalog

variable (c : BootCatalog)

/-- A catalog is parsed from its default entry and the loop over its sections. -/
theorem parseBootCatalog_eq : parseBootCatalog catalogLba c.bytes =
    if c.platformId = elToritoPlatformEfi ∧ Bootable c.defaultEntry then
      some (bootInfo catalogLba 0 elToritoPlatformEfi c.defaultEntry)
    else
      sectionLoop catalogLba c.bytes
        (if Bootable c.defaultEntry then some (bootInfo catalogLba 0 c.platformId c.defaultEntry) else none)
        c.bytes.length 64 1 := by
  have hvalidation := c.length_validation
  have hdefault := c.length_defaultEntry
  have hfront {i : Nat} {b : UInt8} (hi : c.validation[i]? = some b) : c.bytes.getD i 0 = b := by
    obtain ⟨hlt, -⟩ := List.getElem?_eq_some_iff.1 hi
    rw [List.getD_eq_getElem?_getD, bytes, List.getElem?_append_left hlt, hi, Option.getD_some]
  have hroom : 64 ≤ c.bytes.length := by
    rw [bytes, List.length_append, List.length_append, hvalidation, hdefault]
    omega
  have hentry : (c.bytes.drop 32).take 32 = c.defaultEntry := by
    rw [bytes, List.drop_left' hvalidation, List.take_left' hdefault]
  rw [parseBootCatalog, hfront c.header_id, hfront c.key_low, hfront c.key_high, hfront c.platform_eq, hentry,
    if_neg (by simp only [ne_eq, not_true_eq_false, or_false]; omega)]
  dsimp only
  rw [parseBootEntry_eq hdefault]
  by_cases hboot : Bootable c.defaultEntry
  · rw [if_pos hboot]
    by_cases hefi : c.platformId = elToritoPlatformEfi
    · rw [if_pos (by simpa [ElToritoBootInfo.isEfi, bootInfo] using hefi), if_pos ⟨hefi, hboot⟩, hefi]
    · rw [if_neg (by simpa [ElToritoBootInfo.isEfi, bootInfo] using hefi), if_neg fun h => hefi h.1]
  · rw [if_neg hboot, Option.any_none, if_neg Bool.false_ne_true, if_neg fun h => hboot h.2]

theorem drop_bytes : c.bytes.drop 64 = encodeSections c.sections ++ c.padding := by
  rw [bytes, ← List.append_assoc, List.drop_left']
  rw [List.length_append, c.length_validation, c.length_defaultEntry]

theorem length_sections : c.sections.length < c.bytes.length := by
  have hle : ∀ sections : List CatalogSection, sections.length ≤ (encodeSections sections).length := by
    intro sections
    induction sections with
    | nil => exact Nat.le_refl 0
    | cons s sections ih =>
        rw [encodeSections, List.length_append, List.length_append, length_header, List.length_cons]
        omega
  have hsections := hle c.sections
  rw [bytes, List.length_append, List.length_append, List.length_append, c.length_validation]
  omega

end BootCatalog

/-- The entry that a catalog boots: the default one when it is for EFI, else the first bootable one of an EFI section under
its number among all the entries, else the default one. -/
theorem parseBootCatalog_selects (c : BootCatalog) (catalogLba : Nat) (hfits : c.bytes.length < 2 ^ 37) :
    (c.platformId = elToritoPlatformEfi → Bootable c.defaultEntry →
      parseBootCatalog catalogLba c.bytes = some (bootInfo catalogLba 0 elToritoPlatformEfi c.defaultEntry)) ∧
    (¬ (c.platformId = elToritoPlatformEfi ∧ Bootable c.defaultEntry) →
      (∀ before s after skipped entry rest, c.sections = before ++ s :: after → s.platformId = elToritoPlatformEfi →
        s.entries = skipped ++ entry :: rest → (∀ s ∈ before, Passed s) → (∀ e ∈ skipped, ¬ Bootable e) → Bootable entry →
        parseBootCatalog catalogLba c.bytes = some (bootInfo catalogLba
          (1 + ((before.map fun s => s.entries.length).sum + skipped.length)) elToritoPlatformEfi entry)) ∧
      ((∀ s ∈ c.sections, Passed s) → parseBootCatalog catalogLba c.bytes =
        if Bootable c.defaultEntry then some (bootInfo catalogLba 0 c.platformId c.defaultEntry) else none)) := by
  rw [c.parseBootCatalog_eq]
  refine ⟨fun hefi hboot => if_pos ⟨hefi, hboot⟩, fun hother => ?_⟩
  rw [if_neg hother]
  constructor
  · intro before s after skipped entry rest hsections hefi hentries hpassed hskipped hboot
    have hdrop := c.drop_bytes
    have hfuel := c.length_sections
    rw [hsections] at hdrop hfuel
    rw [List.length_append] at hfuel
    rw [sectionLoop_found hdrop hefi hentries hpassed hskipped hboot (by omega) (by decide) hfits, Nat.add_assoc]
  · intro hpassed
    exact sectionLoop_none c.drop_bytes c.padding_plain hpassed (by decide) hfits

def sampleEntry (indicator : UInt8) (lba : Nat) : List UInt8 :=
  indicator :: (List.replicate 5 0 ++ (toLeBytes 2 4 ++ (toLeBytes 4 lba ++ List.replicate 20 0)))

def sampleBios : CatalogSection :=
  ⟨1, List.replicate 28 0, [sampleEntry elToritoBootable 40], rfl, by decide, by decide⟩

/-- The first of the two entries has no image. -/
def sampleEfi : CatalogSection :=
  ⟨elToritoPlatformEfi, List.replicate 28 0, [sampleEntry elToritoBootable 0, sampleEntry elToritoBootable 42], rfl,
    by decide, by decide⟩

def sampleCatalog : BootCatalog where
  validation := [1] ++ List.replicate 29 0 ++ [0x55, 0xAA]
  platformId := 0
  defaultEntry := sampleEntry elToritoBootable 30
  sections := [sampleBios, sampleEfi]
  padding := []
  length_validation := rfl
  header_id := rfl
  platform_eq := rfl
  key_low := rfl
  key_high := rfl
  length_defaultEntry := rfl
  padding_plain := nofun

theorem sampleCatalog_selects : parseBootCatalog 22 sampleCatalog.bytes =
    some (bootInfo 22 3 elToritoPlatformEfi (sampleEntry elToritoBootable 42)) :=
  ((parseBootCatalog_selects sampleCatalog 22 (by decide +kernel)).2 (by decide)).1 [sampleBios] sampleEfi []
    [sampleEntry elToritoBootable 0] _ [] rfl rfl rfl (by decide) (by decide) (by decide)

end NextBoot.Fs.ElTorito
