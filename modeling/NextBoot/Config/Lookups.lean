import NextBoot.Config.Model

namespace NextBoot.Config

open Words Strings

section paths

def parentDir (path : Text) : Option Text :=
  let trimmed := trimEndWhile (· = '/') path
  if trimmed = [] ∨ trimmed = ['/'] then none
  else (rsplitOnce '/' trimmed).map fun s => if s.1 = [] then ['/'] else s.1

def pathParentMatches (parent path : Text) : Bool :=
  let parent := normalizeConfigPath parent
  (parentDir (normalizeConfigPath path)).any fun pathParent =>
    if parent = ['/'] then pathParent = ['/'] else globBytesMatch (asBytes parent) (asBytes pathParent) false

/-- What stands behind the last separator. -/
def lastPiece (path : Text) : Text := (rsplitOnce '/' path).elim path Prod.snd

def pathDirMatches (dir path : Text) : Bool :=
  if isAbsoluteConfigPath dir then pathParentMatches dir path
  else (parentDir (normalizeConfigPath path)).any fun pathParent =>
    globBytesMatch (asBytes (trim dir)) (asBytes (lastPiece pathParent)) false

def VentoyPathTarget.isImage : VentoyPathTarget → Bool
  | .image _ => true
  | .parent _ => false

def targetMatchesImage (target : VentoyPathTarget) (path : Text) : Bool :=
  match target with
  | .image pattern => pathPatternEq pattern path
  | .parent parent => pathParentMatches parent path

/-- The first rule for an image that matches, and only where there is none the first rule for a directory. -/
def findMatchingRule {α : Type} (rules : List (VentoyPathRule α)) (path : Text) : Option α :=
  ((rules.find? fun rule => rule.target.isImage && targetMatchesImage rule.target path).or
    (rules.find? fun rule => !rule.target.isImage && targetMatchesImage rule.target path)).map VentoyPathRule.value

/-- `ends_with` after `to_ascii_lowercase`. -/
def endsWithLower (suffix : String) (path : Text) : Bool := suffix.toList.isSuffixOf (path.map toAsciiLowercase)

end paths

structure VentoyImagePlugin where
  autoInstall : Option VentoyAutoInstall := none
  persistence : Option VentoyPersistence := none
  injectionArchive : Option Text := none
  dud : Option VentoyDud := none
  confReplace : List VentoyConfReplace := []
  autoMemdisk : Bool := false
deriving DecidableEq, Repr

def VentoyImagePlugin.isEmpty (plugin : VentoyImagePlugin) : Bool :=
  plugin.autoInstall.isNone && plugin.persistence.isNone && plugin.injectionArchive.isNone && plugin.dud.isNone &&
    plugin.confReplace.isEmpty && !plugin.autoMemdisk

def ventoyMaxConfReplace : Nat := 32

/-- The rules that match, up to the bound. -/
def confReplaceFor (path : Text) : List VentoyConfReplace → List (VentoyPathRule VentoyConfReplace) → List VentoyConfReplace
  | taken, [] => taken
  | taken, rule :: rules =>
      if targetMatchesImage rule.target path then
        if ventoyMaxConfReplace ≤ (taken ++ [rule.value]).length then taken ++ [rule.value]
        else confReplaceFor path (taken ++ [rule.value]) rules
      else confReplaceFor path taken rules

namespace VentoyConfig

variable (config : VentoyConfig) (path : Text)

def supportsImageName (name : Text) : Bool :=
  if endsWithLower ".iso" name then !config.filters.iso
  else if endsWithLower ".wim" name || endsWithLower ".esd" name then !config.filters.wim
  else if endsWithLower ".efi" name then !config.filters.efi
  else if endsWithLower ".img" name then !config.filters.img
  else if endsWithLower ".vhd" name || endsWithLower ".vhdx" name || endsWithLower ".vdi" name then !config.filters.vhd
  else if endsWithLower ".vtoy" name then !config.filters.vtoy
  else false

def allowsImagePath : Bool :=
  match config.imageListMode with
  | .none => true
  | .allow => config.imageList.any fun entry => pathPatternEq entry path
  | .deny => !config.imageList.any fun entry => pathPatternEq entry path

def menuAliasFor : Option Text :=
  (config.menuAliases.find? fun entry => pathPatternEq entry.image path).map VentoyMenuAlias.aliasText

def menuTipForImage : Option VentoyMenuTip :=
  let imageTip := ((config.menuTips.find? fun entry =>
    match entry.target with
    | .image pattern => pathPatternEq pattern path
    | .dir _ => false).map VentoyMenuTipRule.tip).filter fun tip => !tip.isEmpty
  let dirTip := ((config.menuTips.find? fun entry =>
    match entry.target with
    | .dir dir => pathDirMatches dir path
    | .image _ => false).map VentoyMenuTipRule.tip).filter fun tip => !tip.isEmpty
  imageTip.or dirTip

def menuClassForImage : Option Text :=
  let filename := lastPiece path
  let byKey := config.menuClasses.find? fun rule =>
    match rule.target with
    | .key pattern => (asBytes pattern).length < (asBytes filename).length && containsText pattern filename
    | _ => false
  let byParent := config.menuClasses.find? fun rule =>
    match rule.target with
    | .parent parent => pathParentMatches parent path
    | _ => false
  let byDir := config.menuClasses.find? fun rule =>
    match rule.target with
    | .dir dir => pathDirMatches dir path
    | _ => false
  ((byKey.or byParent).or byDir).map VentoyMenuClassRule.cls

def defaultImageMatches : Bool := config.defaultImage.any fun image => pathPatternEq image path

def passwordForImageType : Option VentoyPassword :=
  if endsWithLower ".iso" path then config.password.iso
  else if endsWithLower ".wim" path || endsWithLower ".esd" path then config.password.wim
  else if endsWithLower ".efi" path then config.password.efi
  else if endsWithLower ".img" path then config.password.img
  else if endsWithLower ".vhd" path || endsWithLower ".vhdx" path || endsWithLower ".vdi" path then config.password.vhd
  else if endsWithLower ".vtoy" path then config.password.vtoy
  else none

def imagePasswordFor : Option VentoyPassword := (findMatchingRule config.password.menu path).or (config.passwordForImageType path)

def imagePluginFor : Option VentoyImagePlugin :=
  let plugin : VentoyImagePlugin :=
    { autoInstall := findMatchingRule config.autoInstall path
      persistence := findMatchingRule config.persistence path
      injectionArchive := findMatchingRule config.injection path
      dud := findMatchingRule config.dud path
      autoMemdisk := config.autoMemdisk.any fun target => pathPatternEq target path
      confReplace := confReplaceFor path [] config.confReplace }
  if plugin.isEmpty then none else some plugin

end VentoyConfig

section spelling

variable {c : Char} {f : Char → Char} {t path path' pattern parent dir : Text} {pattern' bytes : List UInt8} {b : Bool}

theorem splitOnce_map (h : ∀ d, f d = c ↔ d = c) :
    splitOnce c (t.map f) = (splitOnce c t).map fun s => (s.1.map f, s.2.map f) := by
  induction t with
  | nil => rfl
  | cons d t ih =>
      rw [List.map_cons, splitOnce, splitOnce]
      by_cases hd : d = c
      · rw [if_pos ((h d).mpr hd), if_pos hd]
        rfl
      · rw [if_neg (mt (h d).mp hd), if_neg hd, ih, Option.map_map, Option.map_map]
        rfl

theorem rsplitOnce_map (h : ∀ d, f d = c ↔ d = c) :
    rsplitOnce c (t.map f) = (rsplitOnce c t).map fun s => (s.1.map f, s.2.map f) := by
  rw [rsplitOnce, rsplitOnce, ← List.map_reverse, splitOnce_map h, Option.map_map, Option.map_map]
  congr 1
  funext s
  simp

theorem trimEndWhile_lowercase : trimEndWhile (· = '/') (t.map toAsciiLowercase) = (trimEndWhile (· = '/') t).map toAsciiLowercase := by
  have hcomp : (fun d : Char => decide (d = '/')) ∘ toAsciiLowercase = fun d => decide (d = '/') := by
    funext d
    simp [toAsciiLowercase_eq_slash]
  rw [trimEndWhile, trimEndWhile, ← List.map_reverse, List.dropWhile_map, hcomp, List.map_reverse]

theorem map_lowercase_eq_slash : t.map toAsciiLowercase = ['/'] ↔ t = ['/'] := by
  rw [List.map_eq_singleton_iff]
  constructor
  · rintro ⟨d, rfl, hd⟩
    rw [toAsciiLowercase_eq_slash.mp hd]
  · rintro rfl
    exact ⟨'/', rfl, by decide⟩

theorem parentDir_lowercase : parentDir (t.map toAsciiLowercase) = (parentDir t).map (List.map toAsciiLowercase) := by
  simp only [parentDir, trimEndWhile_lowercase, List.map_eq_nil_iff, map_lowercase_eq_slash]
  split
  · rfl
  · rw [rsplitOnce_map fun d => toAsciiLowercase_eq_slash, Option.map_map, Option.map_map]
    congr 1
    funext s
    simp only [Function.comp_def, List.map_eq_nil_iff]
    split
    · decide
    · rfl

theorem lastPiece_lowercase : lastPiece (t.map toAsciiLowercase) = (lastPiece t).map toAsciiLowercase := by
  rw [lastPiece, lastPiece, rsplitOnce_map fun d => toAsciiLowercase_eq_slash]
  cases rsplitOnce '/' t <;> rfl

/-- The case of the letters of a path is nothing to the matcher. -/
theorem globBytesMatch_lowercase : globBytesMatch pattern' (bytes.map lowercaseByte) b = globBytesMatch pattern' bytes b := by
  have htwice : (bytes.map lowercaseByte).map lowercaseByte = bytes.map lowercaseByte := by
    rw [List.map_map]
    congr 1
    funext byte
    exact lowercaseByte_lowercaseByte
  rw [Bool.eq_iff_iff, globBytesMatch_iff, globBytesMatch_iff, ← matches_lowercase, htwice, matches_lowercase]

theorem pathPatternEq_path : pathPatternEq pattern (path.map fold) = pathPatternEq pattern path := by
  rw [pathPatternEq, pathPatternEq, normalizeConfigPath_fold, asBytes_toAsciiLowercase, globBytesMatch_lowercase]

theorem pathParentMatches_path : pathParentMatches parent (path.map fold) = pathParentMatches parent path := by
  simp only [pathParentMatches, normalizeConfigPath_fold, parentDir_lowercase, Option.any_map,
    map_lowercase_eq_slash, asBytes_toAsciiLowercase, globBytesMatch_lowercase]

theorem pathDirMatches_path : pathDirMatches dir (path.map fold) = pathDirMatches dir path := by
  simp only [pathDirMatches, pathParentMatches_path, normalizeConfigPath_fold, parentDir_lowercase, Option.any_map,
    lastPiece_lowercase, asBytes_toAsciiLowercase, globBytesMatch_lowercase]

theorem targetMatchesImage_path {target : VentoyPathTarget} :
    targetMatchesImage target (path.map fold) = targetMatchesImage target path := by
  cases target with
  | image pattern => exact pathPatternEq_path
  | parent parent => exact pathParentMatches_path

theorem findMatchingRule_path {α : Type} {rules : List (VentoyPathRule α)} :
    findMatchingRule rules (path.map fold) = findMatchingRule rules path := by
  simp only [findMatchingRule, targetMatchesImage_path]

theorem isPrefixOf_map {s : Text} (h : ∀ c ∈ s, ∀ d, f d = c ↔ d = c) : s.isPrefixOf (t.map f) = s.isPrefixOf t := by
  induction s generalizing t with
  | nil => simp
  | cons c s ih =>
      cases t with
      | nil => rfl
      | cons d t =>
          have hfirst : (c == f d) = (c == d) := by
            rw [Bool.eq_iff_iff, beq_iff_eq, beq_iff_eq, eq_comm, h c List.mem_cons_self d, eq_comm]
          rw [List.map_cons, List.isPrefixOf_cons_cons, List.isPrefixOf_cons_cons, hfirst, ih fun c hc => h c (List.mem_cons_of_mem _ hc)]

theorem lowercase_lowercase : toAsciiLowercase (toAsciiLowercase c) = toAsciiLowercase c := by
  apply if_neg
  rw [toNat_toAsciiLowercase]
  split <;> omega

theorem lowercase_fold : toAsciiLowercase (fold c) = if toAsciiLowercase c = '\\' then '/' else toAsciiLowercase c := by
  rw [fold, lowercase_lowercase]
  by_cases hc : c = '\\'
  · rw [hc]
    decide
  · have hne : toAsciiLowercase c ≠ '\\' := fun heq =>
      hc (eq_of_toAsciiLowercase (d := '\\') (heq.trans (by decide)) (by decide))
    rw [if_neg hc, if_neg hne]

theorem endsWithLower_path {suffix : String} (h : ∀ c ∈ suffix.toList, c ≠ '/' ∧ c ≠ '\\') :
    endsWithLower suffix (path.map fold) = endsWithLower suffix path := by
  have hslashes : (path.map fold).map toAsciiLowercase =
      (path.map toAsciiLowercase).map fun ch => if ch = '\\' then '/' else ch := by
    rw [List.map_map, List.map_map]
    congr 1
    funext d
    exact lowercase_fold
  rw [endsWithLower, endsWithLower, List.isSuffixOf, List.isSuffixOf, hslashes, ← List.map_reverse]
  apply isPrefixOf_map
  intro c hc d
  obtain ⟨hslash, hback⟩ := h c (List.mem_reverse.mp hc)
  split
  · next hd => exact ⟨fun heq => absurd heq.symm hslash, fun heq => absurd (heq.symm.trans hd) hback⟩
  · exact Iff.rfl

theorem confReplaceFor_eq {taken : List VentoyConfReplace} {rules : List (VentoyPathRule VentoyConfReplace)}
    (h : taken.length < ventoyMaxConfReplace) :
    confReplaceFor path taken rules =
      (taken ++ (rules.filter fun rule => targetMatchesImage rule.target path).map VentoyPathRule.value).take ventoyMaxConfReplace := by
  induction rules generalizing taken with
  | nil => simp [confReplaceFor, List.take_of_length_le (Nat.le_of_lt h)]
  | cons rule rules ih =>
      rw [confReplaceFor]
      by_cases hmatch : targetMatchesImage rule.target path = true
      · rw [if_pos hmatch, List.filter_cons, if_pos hmatch, List.map_cons, List.append_cons taken rule.value (List.map _ _)]
        split
        · next hfull =>
            have hlength : (taken ++ [rule.value]).length = ventoyMaxConfReplace := by
              rw [List.length_append, List.length_singleton] at hfull ⊢
              omega
            exact (List.take_left' hlength).symm
        · next hroom => exact ih (Nat.not_le.mp hroom)
      · rw [if_neg hmatch, ih h, List.filter_cons, if_neg hmatch]

/-- The rules for an image are the first that match, in their order. -/
theorem confReplaceFor_nil {rules : List (VentoyPathRule VentoyConfReplace)} : confReplaceFor path [] rules =
    ((rules.filter fun rule => targetMatchesImage rule.target path).map VentoyPathRule.value).take ventoyMaxConfReplace :=
  confReplaceFor_eq (by decide)

theorem eq_of_fold {β : Type} {lookup : Text → β} (hlookup : ∀ path, lookup (path.map fold) = lookup path)
    (h : path.map fold = path'.map fold) : lookup path = lookup path' := by
  rw [← hlookup path, h, hlookup path']

end spelling

section lookups

variable {config : VentoyConfig} {path path' : Text}

theorem supportsImageName_path : config.supportsImageName (path.map fold) = config.supportsImageName path := by
  simp (disch := simp) only [VentoyConfig.supportsImageName, endsWithLower_path]

theorem passwordForImageType_path : config.passwordForImageType (path.map fold) = config.passwordForImageType path := by
  simp (disch := simp) only [VentoyConfig.passwordForImageType, endsWithLower_path]

theorem imagePasswordFor_path : config.imagePasswordFor (path.map fold) = config.imagePasswordFor path := by
  rw [VentoyConfig.imagePasswordFor, VentoyConfig.imagePasswordFor, findMatchingRule_path, passwordForImageType_path]

theorem imagePluginFor_path : config.imagePluginFor (path.map fold) = config.imagePluginFor path := by
  simp only [VentoyConfig.imagePluginFor, findMatchingRule_path, pathPatternEq_path, confReplaceFor_nil, targetMatchesImage_path]

theorem allowsImagePath_path : config.allowsImagePath (path.map fold) = config.allowsImagePath path := by
  simp only [VentoyConfig.allowsImagePath, pathPatternEq_path]

theorem menuAliasFor_path : config.menuAliasFor (path.map fold) = config.menuAliasFor path := by
  simp only [VentoyConfig.menuAliasFor, pathPatternEq_path]

theorem menuTipForImage_path : config.menuTipForImage (path.map fold) = config.menuTipForImage path := by
  simp only [VentoyConfig.menuTipForImage, pathPatternEq_path, pathDirMatches_path]

theorem defaultImageMatches_path : config.defaultImageMatches (path.map fold) = config.defaultImageMatches path := by
  simp only [VentoyConfig.defaultImageMatches, pathPatternEq_path]

/-- A class is chosen by the file name as it is written, by the directory without regard to case. -/
theorem menuClassForImage_of_fold (hname : lastPiece path = lastPiece path') (h : path.map fold = path'.map fold) :
    config.menuClassForImage path = config.menuClassForImage path' := by
  have hparent : ∀ parent, pathParentMatches parent path = pathParentMatches parent path' := fun parent =>
    eq_of_fold (fun _ => pathParentMatches_path) h
  have hdir : ∀ dir, pathDirMatches dir path = pathDirMatches dir path' := fun dir => eq_of_fold (fun _ => pathDirMatches_path) h
  simp only [VentoyConfig.menuClassForImage, hname, hparent, hdir]

/-- What a configuration has for an image does not depend on how the path of the image is spelled, but for the classes that
are chosen by the file name. -/
theorem lookups_of_fold (h : path.map fold = path'.map fold) :
    config.imagePluginFor path = config.imagePluginFor path' ∧ config.imagePasswordFor path = config.imagePasswordFor path' ∧
      config.allowsImagePath path = config.allowsImagePath path' ∧ config.supportsImageName path = config.supportsImageName path' ∧
      config.menuAliasFor path = config.menuAliasFor path' ∧ config.menuTipForImage path = config.menuTipForImage path' ∧
      config.defaultImageMatches path = config.defaultImageMatches path' ∧
      (lastPiece path = lastPiece path' → config.menuClassForImage path = config.menuClassForImage path') :=
  ⟨eq_of_fold (fun _ => imagePluginFor_path) h, eq_of_fold (fun _ => imagePasswordFor_path) h,
    eq_of_fold (fun _ => allowsImagePath_path) h, eq_of_fold (fun _ => supportsImageName_path) h,
    eq_of_fold (fun _ => menuAliasFor_path) h, eq_of_fold (fun _ => menuTipForImage_path) h,
    eq_of_fold (fun _ => defaultImageMatches_path) h, fun hname => menuClassForImage_of_fold hname h⟩

/-- An answer file for the images of Windows, and a password for all images. -/
def windowsConfig : VentoyConfig :=
  { autoInstall := [⟨.image "/ISO/Win*.iso".toList, ⟨["/answers.xml".toList], none, none⟩⟩]
    password := { iso := some (.text "a".toList) } }

theorem windowsImage_lookups :
    windowsConfig.imagePluginFor "/iso/WIN11.iso".toList = windowsConfig.imagePluginFor "\\ISO\\Win11.ISO".toList ∧
      windowsConfig.imagePasswordFor "/iso/WIN11.iso".toList = windowsConfig.imagePasswordFor "\\ISO\\Win11.ISO".toList :=
  have h := @lookups_of_fold windowsConfig "/iso/WIN11.iso".toList "\\ISO\\Win11.ISO".toList (by decide)
  ⟨h.1, h.2.1⟩

end lookups

end NextBoot.Config
