import NextBoot.Config.JsonStrings
import NextBoot.Config.PathPatterns

namespace NextBoot.Config

open Words Strings

structure VentoyFileFilters where
  iso : Bool := false
  wim : Bool := false
  efi : Bool := false
  img : Bool := false
  vhd : Bool := false
  vtoy : Bool := false
deriving DecidableEq, Repr

def VentoyFileFilters.setFlag (filters : VentoyFileFilters) (key : Text) (enabled : Bool) : VentoyFileFilters :=
  if key = "VTOY_FILE_FLT_ISO".toList then { filters with iso := enabled }
  else if key = "VTOY_FILE_FLT_WIM".toList then { filters with wim := enabled }
  else if key = "VTOY_FILE_FLT_EFI".toList then { filters with efi := enabled }
  else if key = "VTOY_FILE_FLT_IMG".toList then { filters with img := enabled }
  else if key = "VTOY_FILE_FLT_VHD".toList then { filters with vhd := enabled }
  else if key = "VTOY_FILE_FLT_VTOY".toList then { filters with vtoy := enabled }
  else filters

inductive VentoyImageListMode
  | none
  | allow
  | deny
deriving DecidableEq, Repr

structure VentoyMenuAlias where
  image : Text
  aliasText : Text
deriving DecidableEq, Repr

structure VentoyMenuTip where
  tip1 : Text
  tip2 : Text
deriving DecidableEq, Repr

def VentoyMenuTip.isEmpty (tip : VentoyMenuTip) : Bool := tip.tip1 = [] ∧ tip.tip2 = []

inductive VentoyMenuTipTarget
  | image (pattern : Text)
  | dir (dir : Text)
deriving DecidableEq, Repr

structure VentoyMenuTipRule where
  target : VentoyMenuTipTarget
  tip : VentoyMenuTip
deriving DecidableEq, Repr

inductive VentoyMenuClassTarget
  | key (pattern : Text)
  | parent (parent : Text)
  | dir (dir : Text)
deriving DecidableEq, Repr

structure VentoyMenuClassRule where
  target : VentoyMenuClassTarget
  cls : Text
deriving DecidableEq, Repr

inductive VentoyPathTarget
  | image (pattern : Text)
  | parent (parent : Text)
deriving DecidableEq, Repr

structure VentoyPathRule (α : Type) where
  target : VentoyPathTarget
  value : α
deriving DecidableEq, Repr

structure VentoyAutoInstall where
  templates : List Text
  autosel : Option Nat
  timeout : Option Nat
deriving DecidableEq, Repr

structure VentoyPersistence where
  backends : List Text
  autosel : Option Nat
  timeout : Option Nat
deriving DecidableEq, Repr

inductive VentoyPassword
  | text (expected : Text)
  | md5 (digest : List UInt8)
  | saltedMd5 (salt : Text) (digest : List UInt8)
deriving DecidableEq, Repr

def hexByte (byte : UInt8) : Option UInt8 :=
  if 0x30 ≤ byte ∧ byte ≤ 0x39 then some (byte - 0x30)
  else if 0x61 ≤ byte ∧ byte ≤ 0x66 then some (byte - 0x61 + 10)
  else if 0x41 ≤ byte ∧ byte ≤ 0x46 then some (byte - 0x41 + 10)
  else none

/-- The digits of `parse_md5_hex`, two for each byte; `16 * 15 + 15` is a byte. -/
def hexPairs : List UInt8 → Option (List UInt8)
  | high :: low :: rest => do
      let high ← hexByte high
      let low ← hexByte low
      let bytes ← hexPairs rest
      pure ((high * 16 + low) :: bytes)
  | _ => some []

def parseMd5Hex (text : Text) : Option (List UInt8) :=
  if (asBytes text).length ≠ 32 then none else hexPairs (asBytes text)

def VentoyPassword.parse (value : Text) : Option VentoyPassword :=
  if 64 < (asBytes value).length then none
  else
    match stripPrefix "txt#".toList value with
    | some expected => some (.text expected)
    | none => do
        let md5 ← stripPrefix "md5#".toList value
        if (asBytes md5).length = 32 then (parseMd5Hex md5).map .md5
        else do
          let (salt, digest) ← splitOnce '#' md5
          if (asBytes digest).length ≠ 32 then none else (parseMd5Hex digest).map (.saltedMd5 salt)

structure VentoyPasswordConfig where
  boot : Option VentoyPassword := none
  iso : Option VentoyPassword := none
  wim : Option VentoyPassword := none
  efi : Option VentoyPassword := none
  img : Option VentoyPassword := none
  vhd : Option VentoyPassword := none
  vtoy : Option VentoyPassword := none
  menu : List (VentoyPathRule VentoyPassword) := []
deriving DecidableEq, Repr

structure VentoyDud where
  files : List Text
deriving DecidableEq, Repr

/-- A rule of the configuration: the file of the image, and the file of the volume that takes its place. -/
structure VentoyConfReplace where
  img : Option Int
  org : Text
  newPath : Text
deriving DecidableEq, Repr

structure VentoyConfig where
  filters : VentoyFileFilters := {}
  filterDotUnderscore : Bool := false
  defaultSearchRoot : Option Text := none
  maxSearchLevel : Option Nat := none
  menuTimeout : Option Nat := none
  defaultImage : Option Text := none
  defaultMenuMode : Option Nat := none
  linuxRemount : Bool := false
  windowsCdPrompt : Bool := false
  windowsUefiResolutionLock : Nat := 0
  windows11BypassCheck : Bool := false
  windows11BypassNro : Bool := false
  imageListMode : VentoyImageListMode := .none
  imageList : List Text := []
  menuAliases : List VentoyMenuAlias := []
  menuTips : List VentoyMenuTipRule := []
  menuClasses : List VentoyMenuClassRule := []
  password : VentoyPasswordConfig := {}
  autoInstall : List (VentoyPathRule VentoyAutoInstall) := []
  persistence : List (VentoyPathRule VentoyPersistence) := []
  injection : List (VentoyPathRule Text) := []
  dud : List (VentoyPathRule VentoyDud) := []
  confReplace : List (VentoyPathRule VentoyConfReplace) := []
  autoMemdisk : List Text := []
deriving DecidableEq, Repr

section paths

def isAbsoluteConfigPath (path : Text) : Bool := path.head? = some '/' ∨ path.head? = some '\\'

def cleanPluginPath (path : Text) : Option Text := if isAbsoluteConfigPath path then some (normalizeConfigPath path) else none

def cleanPluginPaths (paths : List Text) : List Text := paths.filterMap cleanPluginPath

/-- A hotkey in front of a path: `F2>` to `F9>`. -/
def stripDefaultImageHotkey (path : Text) : Text :=
  let trimmed := trim path
  if 3 < trimmed.length ∧ (trimmed[0]? = some 'F' ∨ trimmed[0]? = some 'f') ∧
      trimmed[1]?.any (fun c => '2' ≤ c ∧ c ≤ '9') ∧ trimmed[2]? = some '>' then trimmed.drop 3
  else trimmed

def cleanDefaultImagePath (path : Text) : Option Text := cleanPluginPath (trim (stripDefaultImageHotkey path))

def isAsciiDigit (byte : UInt8) : Bool := 0x30 ≤ byte ∧ byte ≤ 0x39

/-- Digits behind the number that the ones before them make. -/
def digitsFrom (bits value : Nat) (digits : List UInt8) : Option Nat :=
  digits.foldlM (fun value byte => (checkedMul bits value 10).bind fun base => checkedAdd bits base (byte.toNat - 0x30)) value

def parseU32Text (text : Text) : Option Nat :=
  let trimmed := asBytes (trim text)
  if trimmed = [] ∨ trimmed.any (fun byte => ¬ isAsciiDigit byte) then none else digitsFrom 32 0 trimmed

def parseWindowsUefiResolutionLock (text : Text) : Nat :=
  if trim text = ['1'] then 1 else if trim text = ['2'] then 2 else 0

end paths

/-- The architecture that the program is built for. -/
inductive Platform
  | aarch64
  | x8664
  | x86
  | other
deriving DecidableEq, Repr

def ventoyPlatformSuffix : Platform → Text
  | .aarch64 => "aa64".toList
  | .x8664 => "uefi".toList
  | .x86 => "ia32".toList
  | .other => "uefi".toList

def isCurrentPlatformPluginKey (platform : Platform) (key base : Text) : Bool :=
  ((stripPrefix base key).bind (stripPrefix ['_'])) = some (ventoyPlatformSuffix platform)

end NextBoot.Config
