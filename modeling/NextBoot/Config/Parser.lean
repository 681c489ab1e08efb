import NextBoot.Config.Model

namespace NextBoot.Config

open Words Strings Results JsonStrings

/-- What is read from a position on, and the position behind it. -/
abbrev JsonParser (α : Type) := Nat → Except VentoyConfigError (α × Nat)

inductive VentoyTargetKind
  | image
  | parent
deriving DecidableEq, Repr

def VentoyTargetKind.target : VentoyTargetKind → Text → VentoyPathTarget
  | .image, path => .image path
  | .parent, path => .parent path

section core

variable {σ : Type} (input : List UInt8)

/-- The loop over the elements of an array or the members of an object, behind the opening bracket. A comma before the closing
bracket is let pass. Each comma that the loop goes on from lies behind the one before, so that `fuel` of one round more than the
input has bytes is enough. -/
def elementLoop (close : UInt8) (element : σ → JsonParser σ) : Nat → σ → JsonParser σ
  | 0, _, _ => .error .invalidJson
  | fuel + 1, state, pos =>
      let pos := skipWs input pos
      if input[pos]? = some close then .ok (state, pos + 1)
      else do
        let (state, pos) ← element state pos
        let pos := skipWs input pos
        if input[pos]? = some 0x2C then elementLoop close element fuel state (pos + 1)
        else do
          let pos ← expect input pos close
          pure (state, pos)

def parseObjectFields (field : Text → σ → JsonParser σ) (state : σ) : JsonParser σ := fun pos => do
  let pos ← expect input (skipWs input pos) 0x7B
  elementLoop input 0x7D (fun state pos => do
    let (key, pos) ← parseString input pos
    let pos ← expect input (skipWs input pos) 0x3A
    field key state pos) (input.length + 1) state pos

/-- The loop that each parser of an array has in its own body. -/
def parseArrayElements (element : σ → JsonParser σ) (state : σ) : JsonParser σ := fun pos => do
  let pos ← expect input (skipWs input pos) 0x5B
  elementLoop input 0x5D element (input.length + 1) state pos

def isDelimiter (byte : UInt8) : Bool := byte = 0x2C ∨ byte = 0x7D ∨ byte = 0x5D

/-- The recursion of `skip_value`, with the levels that are left; every level has opened a bracket. -/
def skipValueAt : Nat → Nat → Except VentoyConfigError Nat
  | 0, _ => .error .invalidJson
  | depth + 1, pos =>
      let pos := skipWs input pos
      match input[pos]? with
      | none => .error .invalidJson
      | some byte =>
          if byte = 0x22 then (parseString input pos).map Prod.snd
          else if byte = 0x7B then
            (parseObjectFields input (fun _ _ pos => (skipValueAt depth pos).map fun pos => ((), pos)) () pos).map Prod.snd
          else if byte = 0x5B then
            (parseArrayElements input (fun _ pos => (skipValueAt depth pos).map fun pos => ((), pos)) () pos).map Prod.snd
          else pure (pos + ((input.drop pos).takeWhile fun ch => ¬ (isDelimiter ch ∨ isAsciiWhitespace ch)).length)

def skipValue (pos : Nat) : Except VentoyConfigError Nat := skipValueAt input (input.length + 1) pos

/-- A value that is passed over with nothing learnt from it. -/
def skipped {α : Type} (state : α) : JsonParser α := fun pos => (skipValue input pos).map fun pos => (state, pos)

def parseOptionalString : JsonParser (Option Text) := fun pos =>
  let pos := skipWs input pos
  if input[pos]? = some 0x22 then (parseString input pos).map fun r => (some r.1, r.2) else .ok (none, pos)

/-- A string, or nothing of a value of another kind, which is passed over. -/
def parseStringOrSkip : JsonParser (Option Text) := fun pos => do
  let (value, pos) ← parseOptionalString input pos
  match value with
  | some value => pure (some value, pos)
  | none => skipped input none pos

def parseStringArray : JsonParser (List Text) :=
  parseArrayElements input (fun values pos => (parseString input pos).map fun r => (values ++ [r.1], r.2)) []

def parseTarget (kind : VentoyTargetKind) : JsonParser (Option VentoyPathTarget) := fun pos =>
  (parseStringOrSkip input pos).map fun r => ((r.1.bind cleanPluginPath).map kind.target, r.2)

def parsePathListValue : JsonParser (Option (List Text)) := fun pos =>
  let pos := skipWs input pos
  if input[pos]? = some 0x22 then (parseString input pos).map fun r => (some [r.1], r.2)
  else if input[pos]? = some 0x5B then (parseStringArray input pos).map fun r => (some r.1, r.2)
  else skipped input none pos

def parseOptionalI32 : JsonParser (Option Int) := fun pos =>
  let start := skipWs input pos
  let negative : Bool := input[start]? = some 0x2D
  let digitsStart := if negative then start + 1 else start
  let digits := (input.drop digitsStart).takeWhile isAsciiDigit
  if digits = [] then skipped input none start
  else do
    let value ← someOr (digitsFrom 31 0 digits) .invalidJson
    pure (some (if negative then -(value : Int) else value), digitsStart + digits.length)

/-- `parse_optional_usize` and `parse_optional_u32`. -/
def parseOptionalNat : JsonParser (Option Nat) := fun pos =>
  (parseOptionalI32 input pos).map fun r => (r.1.bind fun value => if 0 ≤ value then some value.toNat else none, r.2)

def parseOptionalPassword : JsonParser (Option VentoyPassword) := fun pos =>
  (parseStringOrSkip input pos).map fun r => (r.1.bind VentoyPassword.parse, r.2)

def parseOptionalConfigPath : JsonParser (Option Text) := fun pos =>
  (parseStringOrSkip input pos).map fun r => (r.1.bind cleanPluginPath, r.2)

/-- A path that is taken of a string only: a value of another kind is not passed over. -/
def parseStringPath : JsonParser (Option Text) := fun pos =>
  (parseOptionalString input pos).map fun r => (r.1.bind cleanPluginPath, r.2)

end core

section sections

variable (input : List UInt8)

def applyControl (config : VentoyConfig) (key value : Text) : VentoyConfig :=
  let config := { config with filters := config.filters.setFlag key (value = ['1']) }
  if key = "VTOY_DEFAULT_SEARCH_ROOT".toList ∧ value ≠ [] then { config with defaultSearchRoot := some value }
  else if key = "VTOY_MAX_SEARCH_LEVEL".toList then { config with maxSearchLevel := parseU32Text value }
  else if key = "VTOY_MENU_TIMEOUT".toList then { config with menuTimeout := parseU32Text value }
  else if key = "VTOY_DEFAULT_IMAGE".toList then { config with defaultImage := cleanDefaultImagePath value }
  else if key = "VTOY_DEFAULT_MENU_MODE".toList then { config with defaultMenuMode := parseU32Text value }
  else if key = "VTOY_LINUX_REMOUNT".toList then { config with linuxRemount := value = ['1'] }
  else if key = "VTOY_WINDOWS_CD_PROMPT".toList then { config with windowsCdPrompt := value = ['1'] }
  else if key = "VTOY_WIN_UEFI_RES_LOCK".toList then
    { config with windowsUefiResolutionLock := parseWindowsUefiResolutionLock value }
  else if key = "VTOY_WIN11_BYPASS_CHECK".toList then { config with windows11BypassCheck := value = ['1'] }
  else if key = "VTOY_WIN11_BYPASS_NRO".toList then { config with windows11BypassNro := value = ['1'] }
  else if key = "VTOY_FILT_DOT_UNDERSCORE_FILE".toList then { config with filterDotUnderscore := value = ['1'] }
  else config

def parseControl (config : VentoyConfig) : JsonParser VentoyConfig :=
  parseArrayElements input (parseObjectFields input fun key config pos =>
    (parseStringOrSkip input pos).map fun r => (r.1.elim config (applyControl config key), r.2)) config

structure PasswordRuleFields where
  target : Option VentoyPathTarget := none
  password : Option VentoyPassword := none

def PasswordRuleFields.rules (fields : PasswordRuleFields) : List (VentoyPathRule VentoyPassword) :=
  match fields.target, fields.password with
  | some target, some password => [⟨target, password⟩]
  | _, _ => []

def passwordRuleField (key : Text) (fields : PasswordRuleFields) : JsonParser PasswordRuleFields := fun pos =>
  if key = "file".toList then
    (parseTarget input .image pos).map fun r => ({ fields with target := r.1.or fields.target }, r.2)
  else if key = "parent".toList then
    (parseTarget input .parent pos).map fun r => ({ fields with target := fields.target.or r.1 }, r.2)
  else if key = "pwd".toList then (parseOptionalPassword input pos).map fun r => ({ fields with password := r.1 }, r.2)
  else skipped input fields pos

def parsePasswordRules : JsonParser (List (VentoyPathRule VentoyPassword)) :=
  parseArrayElements input (fun rules pos =>
    (parseObjectFields input (passwordRuleField input) {} pos).map fun r => (rules ++ r.1.rules, r.2)) []

def passwordField (key : Text) (password : VentoyPasswordConfig) : JsonParser VentoyPasswordConfig := fun pos =>
  if key = "bootpwd".toList then (parseOptionalPassword input pos).map fun r => ({ password with boot := r.1 }, r.2)
  else if key = "isopwd".toList then (parseOptionalPassword input pos).map fun r => ({ password with iso := r.1 }, r.2)
  else if key = "wimpwd".toList then (parseOptionalPassword input pos).map fun r => ({ password with wim := r.1 }, r.2)
  else if key = "efipwd".toList then (parseOptionalPassword input pos).map fun r => ({ password with efi := r.1 }, r.2)
  else if key = "imgpwd".toList then (parseOptionalPassword input pos).map fun r => ({ password with img := r.1 }, r.2)
  else if key = "vhdpwd".toList then (parseOptionalPassword input pos).map fun r => ({ password with vhd := r.1 }, r.2)
  else if key = "vtoypwd".toList then (parseOptionalPassword input pos).map fun r => ({ password with vtoy := r.1 }, r.2)
  else if key = "menupwd".toList then (parsePasswordRules input pos).map fun r => ({ password with menu := r.1 }, r.2)
  else skipped input password pos

def parsePassword (config : VentoyConfig) : JsonParser VentoyConfig := fun pos =>
  (parseObjectFields input (passwordField input) {} pos).map fun r => ({ config with password := r.1 }, r.2)

structure MenuTipFields where
  target : Option VentoyMenuTipTarget := none
  tip1 : Text := []
  tip2 : Text := []

def MenuTipFields.rules (fields : MenuTipFields) : List VentoyMenuTipRule :=
  match fields.target with
  | some target => if (VentoyMenuTip.mk fields.tip1 fields.tip2).isEmpty then [] else [⟨target, fields.tip1, fields.tip2⟩]
  | none => []

def menuTipField (key : Text) (fields : MenuTipFields) : JsonParser MenuTipFields := fun pos =>
  if key = "image".toList then
    (parseOptionalConfigPath input pos).map fun r => ({ fields with target := (r.1.map .image).or fields.target }, r.2)
  else if key = "dir".toList then
    if fields.target = none then
      (parseOptionalConfigPath input pos).map fun r => ({ fields with target := r.1.map .dir }, r.2)
    else skipped input fields pos
  else if key = "tip".toList ∨ key = "tip1".toList then
    (parseStringOrSkip input pos).map fun r => ({ fields with tip1 := r.1.getD fields.tip1 }, r.2)
  else if key = "tip2".toList then
    (parseStringOrSkip input pos).map fun r => ({ fields with tip2 := r.1.getD fields.tip2 }, r.2)
  else skipped input fields pos

def parseMenuTipRules : JsonParser (List VentoyMenuTipRule) :=
  parseArrayElements input (fun rules pos =>
    (parseObjectFields input (menuTipField input) {} pos).map fun r => (rules ++ r.1.rules, r.2)) []

def parseMenuTip (config : VentoyConfig) : JsonParser VentoyConfig := fun pos =>
  (parseObjectFields input (fun key tips pos =>
    if key = "tips".toList then parseMenuTipRules input pos else skipped input tips pos) [] pos).map fun r =>
      ({ config with menuTips := r.1 }, r.2)

structure MenuClassFields where
  target : Option VentoyMenuClassTarget := none
  cls : Option Text := none

def MenuClassFields.rules (fields : MenuClassFields) : List VentoyMenuClassRule :=
  match fields.target, fields.cls with
  | some target, some cls => if cls = [] then [] else [⟨target, cls⟩]
  | _, _ => []

def menuClassField (key : Text) (fields : MenuClassFields) : JsonParser MenuClassFields := fun pos =>
  if key = "key".toList then
    (parseStringOrSkip input pos).map fun r => ({ fields with target := (r.1.map .key).or fields.target }, r.2)
  else if key = "parent".toList then
    if fields.target = none then
      (parseOptionalConfigPath input pos).map fun r => ({ fields with target := r.1.map .parent }, r.2)
    else skipped input fields pos
  else if key = "dir".toList then
    if fields.target = none then
      (parseStringOrSkip input pos).map fun r => ({ fields with target := r.1.map .dir }, r.2)
    else skipped input fields pos
  else if key = "class".toList then
    (parseStringOrSkip input pos).map fun r => ({ fields with cls := r.1.or fields.cls }, r.2)
  else skipped input fields pos

def parseMenuClass (config : VentoyConfig) : JsonParser VentoyConfig := fun pos =>
  (parseArrayElements input (fun rules pos =>
    (parseObjectFields input (menuClassField input) {} pos).map fun r => (rules ++ r.1.rules, r.2)) [] pos).map fun r =>
      ({ config with menuClasses := r.1 }, r.2)

structure MenuAliasFields where
  image : Option Text := none
  aliasText : Option Text := none

def MenuAliasFields.aliases (fields : MenuAliasFields) : List VentoyMenuAlias :=
  match fields.image, fields.aliasText with
  | some image, some aliasText => [⟨image, aliasText⟩]
  | _, _ => []

def applyMenuAlias (fields : MenuAliasFields) (key value : Text) : MenuAliasFields :=
  if key = "image".toList then { fields with image := some value }
  else if key = "alias".toList then { fields with aliasText := some value }
  else fields

def parseMenuAlias (config : VentoyConfig) : JsonParser VentoyConfig :=
  parseArrayElements input (fun config pos =>
    (parseObjectFields input (fun key fields pos =>
      (parseStringOrSkip input pos).map fun r => (r.1.elim fields (applyMenuAlias fields key), r.2)) {} pos).map fun r =>
        ({ config with menuAliases := config.menuAliases ++ r.1.aliases }, r.2)) config

/-- The members of a rule that names files to choose from. -/
structure PathListFields where
  target : Option VentoyPathTarget := none
  paths : List Text := []
  autosel : Option Nat := none
  timeout : Option Nat := none

def PathListFields.rules {α : Type} (fields : PathListFields) (value : PathListFields → α) : List (VentoyPathRule α) :=
  match fields.target with
  | some target => if cleanPluginPaths fields.paths = [] then [] else [⟨target, value fields⟩]
  | none => []

def autoInstallField (key : Text) (fields : PathListFields) : JsonParser PathListFields := fun pos =>
  if key = "image".toList then
    (parseTarget input .image pos).map fun r => ({ fields with target := r.1.or fields.target }, r.2)
  else if key = "parent".toList then
    (parseTarget input .parent pos).map fun r => ({ fields with target := fields.target.or r.1 }, r.2)
  else if key = "template".toList then (parsePathListValue input pos).map fun r => ({ fields with paths := r.1.getD [] }, r.2)
  else if key = "autosel".toList then (parseOptionalNat input pos).map fun r => ({ fields with autosel := r.1 }, r.2)
  else if key = "timeout".toList then (parseOptionalNat input pos).map fun r => ({ fields with timeout := r.1 }, r.2)
  else skipped input fields pos

def PathListFields.autoInstall (fields : PathListFields) : VentoyAutoInstall :=
  ⟨cleanPluginPaths fields.paths, fields.autosel, fields.timeout⟩

def parseAutoInstall (config : VentoyConfig) : JsonParser VentoyConfig :=
  parseArrayElements input (fun config pos =>
    (parseObjectFields input (autoInstallField input) {} pos).map fun r =>
      ({ config with autoInstall := config.autoInstall ++ r.1.rules PathListFields.autoInstall }, r.2)) config

def parseAutoMemdisk (config : VentoyConfig) : JsonParser VentoyConfig := fun pos =>
  (parseStringArray input pos).map fun r => ({ config with autoMemdisk := config.autoMemdisk ++ cleanPluginPaths r.1 }, r.2)

/-- Unlike the rules with a parent, an image that is no path takes back the one before. -/
def persistenceField (key : Text) (fields : PathListFields) : JsonParser PathListFields := fun pos =>
  if key = "image".toList then (parseTarget input .image pos).map fun r => ({ fields with target := r.1 }, r.2)
  else if key = "backend".toList then (parsePathListValue input pos).map fun r => ({ fields with paths := r.1.getD [] }, r.2)
  else if key = "autosel".toList then (parseOptionalNat input pos).map fun r => ({ fields with autosel := r.1 }, r.2)
  else if key = "timeout".toList then (parseOptionalNat input pos).map fun r => ({ fields with timeout := r.1 }, r.2)
  else skipped input fields pos

def PathListFields.persistence (fields : PathListFields) : VentoyPersistence :=
  ⟨cleanPluginPaths fields.paths, fields.autosel, fields.timeout⟩

def parsePersistence (config : VentoyConfig) : JsonParser VentoyConfig :=
  parseArrayElements input (fun config pos =>
    (parseObjectFields input (persistenceField input) {} pos).map fun r =>
      ({ config with persistence := config.persistence ++ r.1.rules PathListFields.persistence }, r.2)) config

structure InjectionFields where
  target : Option VentoyPathTarget := none
  archive : Option Text := none

def InjectionFields.rules (fields : InjectionFields) : List (VentoyPathRule Text) :=
  match fields.target, fields.archive with
  | some target, some archive => [⟨target, archive⟩]
  | _, _ => []

def injectionField (key : Text) (fields : InjectionFields) : JsonParser InjectionFields := fun pos =>
  if key = "image".toList then
    (parseTarget input .image pos).map fun r => ({ fields with target := r.1.or fields.target }, r.2)
  else if key = "parent".toList then
    (parseTarget input .parent pos).map fun r => ({ fields with target := fields.target.or r.1 }, r.2)
  else if key = "archive".toList then (parseStringPath input pos).map fun r => ({ fields with archive := r.1 }, r.2)
  else skipped input fields pos

def parseInjection (config : VentoyConfig) : JsonParser VentoyConfig :=
  parseArrayElements input (fun config pos =>
    (parseObjectFields input (injectionField input) {} pos).map fun r =>
      ({ config with injection := config.injection ++ r.1.rules }, r.2)) config

def dudField (key : Text) (fields : PathListFields) : JsonParser PathListFields := fun pos =>
  if key = "image".toList then (parseTarget input .image pos).map fun r => ({ fields with target := r.1 }, r.2)
  else if key = "dud".toList then (parsePathListValue input pos).map fun r => ({ fields with paths := r.1.getD [] }, r.2)
  else skipped input fields pos

def PathListFields.dud (fields : PathListFields) : VentoyDud := ⟨cleanPluginPaths fields.paths⟩

def parseDud (config : VentoyConfig) : JsonParser VentoyConfig :=
  parseArrayElements input (fun config pos =>
    (parseObjectFields input (dudField input) {} pos).map fun r =>
      ({ config with dud := config.dud ++ r.1.rules PathListFields.dud }, r.2)) config

structure ConfReplaceFields where
  target : Option VentoyPathTarget := none
  org : Option Text := none
  newPath : Option Text := none
  img : Option Int := none

def ConfReplaceFields.rules (fields : ConfReplaceFields) : List (VentoyPathRule VentoyConfReplace) :=
  match fields.target, fields.org, fields.newPath with
  | some target, some org, some newPath => [⟨target, fields.img, org, newPath⟩]
  | _, _, _ => []

def confReplaceField (key : Text) (fields : ConfReplaceFields) : JsonParser ConfReplaceFields := fun pos =>
  if key = "iso".toList then (parseTarget input .image pos).map fun r => ({ fields with target := r.1 }, r.2)
  else if key = "org".toList then (parseStringPath input pos).map fun r => ({ fields with org := r.1 }, r.2)
  else if key = "new".toList then (parseStringPath input pos).map fun r => ({ fields with newPath := r.1 }, r.2)
  else if key = "img".toList then (parseOptionalI32 input pos).map fun r => ({ fields with img := r.1 }, r.2)
  else skipped input fields pos

def parseConfReplace (config : VentoyConfig) : JsonParser VentoyConfig :=
  parseArrayElements input (fun config pos =>
    (parseObjectFields input (confReplaceField input) {} pos).map fun r =>
      ({ config with confReplace := config.confReplace ++ r.1.rules }, r.2)) config

end sections

/-- The configuration so far, and of which sections the one for the platform has been read. -/
structure ConfigState where
  config : VentoyConfig := {}
  parsedPlatformPassword : Bool := false
  parsedPlatformMenuTip : Bool := false
  parsedPlatformMenuClass : Bool := false
  parsedPlatformAutoMemdisk : Bool := false

section config

variable (platform : Platform) (input : List UInt8)

def configField (key : Text) (state : ConfigState) : JsonParser ConfigState := fun pos =>
  let into (parser : VentoyConfig → JsonParser VentoyConfig) (state : ConfigState) : Except VentoyConfigError (ConfigState × Nat) :=
    (parser state.config pos).map fun r => ({ state with config := r.1 }, r.2)
  if key = "control".toList then into (parseControl input) state
  else if key = "menu_alias".toList then into (parseMenuAlias input) state
  else if isCurrentPlatformPluginKey platform key "menu_tip".toList then
    into (parseMenuTip input) { state with parsedPlatformMenuTip := true }
  else if key = "menu_tip".toList ∧ state.parsedPlatformMenuTip = false then into (parseMenuTip input) state
  else if isCurrentPlatformPluginKey platform key "menu_class".toList then
    into (parseMenuClass input) { state with parsedPlatformMenuClass := true }
  else if key = "menu_class".toList ∧ state.parsedPlatformMenuClass = false then into (parseMenuClass input) state
  else if key = "password_uefi".toList ∨ key = "password_aa64".toList then
    into (parsePassword input) { state with parsedPlatformPassword := true }
  else if key = "password".toList ∧ state.parsedPlatformPassword = false then into (parsePassword input) state
  else if key = "auto_install".toList then into (parseAutoInstall input) state
  else if key = "persistence".toList then into (parsePersistence input) state
  else if key = "injection".toList then into (parseInjection input) state
  else if key = "dud".toList then into (parseDud input) state
  else if key = "conf_replace".toList then into (parseConfReplace input) state
  else if isCurrentPlatformPluginKey platform key "auto_memdisk".toList then
    into (parseAutoMemdisk input) { state with parsedPlatformAutoMemdisk := true }
  else if key = "auto_memdisk".toList ∧ state.parsedPlatformAutoMemdisk = false then into (parseAutoMemdisk input) state
  else if key = "image_list".toList then
    into (fun config pos => (parseStringArray input pos).map fun r =>
      ({ config with imageListMode := .allow, imageList := r.1 }, r.2)) state
  else if key = "image_blacklist".toList then
    into (fun config pos => (parseStringArray input pos).map fun r =>
      ({ config with imageListMode := .deny, imageList := r.1 }, r.2)) state
  else skipped input state pos

def parseConfig : Except VentoyConfigError VentoyConfig := do
  let (state, pos) ← parseObjectFields input (configField platform input) {} 0
  if skipWs input pos = input.length then .ok state.config else .error .invalidJson

end config

def ventoyJsonMaxSize : Nat := 256 * 1024

def utf8Bom : List UInt8 := [0xEF, 0xBB, 0xBF]

def VentoyConfig.parse (platform : Platform) (bytes : List UInt8) : Except VentoyConfigError VentoyConfig := do
  refuseIf (ventoyJsonMaxSize < bytes.length) .fileTooLarge
  let bytes ←
    if utf8Bom.isPrefixOf bytes then pure (bytes.drop 3)
    else if [0xFF, 0xFE].isPrefixOf bytes ∨ [0xFE, 0xFF].isPrefixOf bytes then .error .invalidJson
    else pure bytes
  refuseIf (fromUtf8 bytes = none) .invalidJson
  parseConfig platform bytes

end NextBoot.Config
