import NextBoot.FileTrees
import NextBoot.MediaUpdate.Transaction
import NextBoot.Strings

namespace NextBoot.MediaUpdate.Mounted

open Results CrashLogic FileTrees Strings

/-- The exceptions of a rollback, by class. The errors of `json.loads` and of decoding a text are value errors. -/
inductive Exception
  | valueError (message : String)
  | osError (message : String)
  | keyError (key : String)
  | typeError
  | attributeError
  | recursionError
deriving DecidableEq, Repr

/-- The value of a JSON text; an object has each key once, a float is given by its bits. -/
inductive Json
  | null
  | bool (value : Bool)
  | int (value : Int)
  | float (bits : UInt64)
  | string (value : String)
  | array (items : List Json)
  | object (fields : List (String × Json))

def Json.subscript : Json → String → Except Exception Json
  | .object fields, key => someOr (fields.lookup key) (.keyError key)
  | _, _ => .error .typeError

def Json.get : Json → String → Except Exception Json
  | .object fields, key => return (fields.lookup key).getD .null
  | _, _ => .error .attributeError

/-- `value == 1` -/
def Json.isOne : Json → Bool
  | .bool value => value
  | .int value => value == 1
  | .float bits => bits == 0x3FF0000000000000
  | _ => false

def Json.isText (text : String) : Json → Bool
  | .string value => value == text
  | _ => false

/-- `value in names`, with a set of strings. -/
def Json.isIn (names : List String) : Json → Except Exception Bool
  | .string value => return decide (value ∈ names)
  | .array _ => .error .typeError
  | .object _ => .error .typeError
  | _ => return false

def Json.set (key : String) (value : Json) : Json → Json
  | .object fields =>
      .object (if fields.any (·.1 == key) then fields.map fun field => if field.1 = key then (key, value) else field
        else fields ++ [(key, value)])
  | json => json

abbrev Path := List Text

/-- What one operation has put at a path. -/
structure Effect where
  area : Area
  path : Path
  node : Option (Node (List UInt8))

/-- The two volumes, and what has been done to them so far. -/
structure Volumes where
  tree : Area → Tree Text (List UInt8)
  done : List Effect

def Volumes.perform (v : Volumes) (effect : Effect) : Volumes where
  tree area := if area = effect.area then (v.tree area).set effect.path effect.node else v.tree area
  done := v.done ++ [effect]

abbrev VolumesM (α : Type) := Prog Volumes Exception α

def admin : String := ".nextboot-update"

def efiMachines : List String := ["BOOTX64.EFI", "BOOTIA32.EFI", "BOOTAA64.EFI"]

def IsName (name : String) : Prop := '/' ∉ name.toList ∧ name ≠ "" ∧ name ≠ "."

instance : DecidablePred IsName := fun _ => inferInstanceAs (Decidable (_ ∧ _ ∧ _))

/-- The files of the runtime manifest and the licence texts that come with them. -/
structure Release where
  files : List String
  licenses : List String
  filesNamed : ∀ name ∈ files, IsName name ∧ name ≠ "License"
  licensesNamed : ∀ name ∈ licenses, IsName name

def Release.ownedPaths (release : Release) : Area → List String
  | .esp => efiMachines.map ("EFI/BOOT/" ++ ·)
  | .data => release.files.map ("ventoy/" ++ ·) ++ release.licenses.map ("ventoy/License/" ++ ·) ++
      ["ventoy/NEXTBOOT-NOTICE.txt", "ventoy/nextboot-runtime.json"]

/-- The manifest and the licence texts of the repository. -/
def runtimeAssets : Release where
  files := [
    "ventoy.cpio", "ventoy_x86.cpio", "ventoy_arm64.cpio", "wimboot.x86_64.xz", "wimboot.i386.efi.xz",
    "vtoyjump64.exe", "vtoyjump32.exe", "common_bcd.xz"]
  licenses := [
    "BSD-2-Clause-Patent.txt", "BSD.txt", "MIT.txt", "gpl-2.0.txt", "gpl-3.0.txt", "lgpl-3.0.txt", "license-7z.txt",
    "license-AdminLTE.txt", "license-PorteusKiosk.txt", "license-bootstrap.txt", "license-busybox.txt",
    "license-device-mapper.txt", "license-edk2.txt", "license-efifs.txt", "license-exfat.txt",
    "license-fat-filelib.txt", "license-fatfs.txt", "license-grub2.txt", "license-imdisk.txt", "license-ipxe.txt",
    "license-jquery.txt", "license-libfuse.txt", "license-libhttp.txt", "license-liblzma.txt", "license-logo.txt",
    "license-lunzip.txt", "license-lz4.txt", "license-lzo.txt", "license-mini_gzip.txt", "license-rufus.txt",
    "license-smallz4.txt", "license-squashfs-tools.txt", "license-tinycore.txt", "license-vblade.txt",
    "license-ventoy.txt", "license-wimboot.txt", "license-xzembedded.txt", "license-zlib.txt", "license-zstd.txt",
    "ubdl.txt"]
  filesNamed := by decide +kernel
  licensesNamed := by decide +kernel

/-- The encodings `read_text` is used with: the one that is asked for, and the default. -/
inductive Encoding
  | utf8
  | locale

/-- What a rollback takes from its surroundings. `loads` decodes and parses a text; `dumps` writes what `loads` has
read and fails only where it is nested too deeply; `str` is how a message shows a value. -/
structure Machine where
  release : Release
  casefold : String → String
  digest : List UInt8 → Sha256
  espFirst : Bool
  loads : Encoding → List UInt8 → Except Exception Json
  dumps : Json → Option (List UInt8)
  str : Json → String
  lockHeld : Bool

def Machine.host (machine : Machine) : Host :=
  ⟨machine.release.ownedPaths, machine.casefold, machine.digest, machine.espFirst⟩

/-- Where a volume is mounted; no path `resolved` where `resolve` fails. -/
structure Mount where
  root : List String
  windowsVolume : Bool
  linkedParents : List String
  resolved : Option (List String)

structure Mounts where
  esp : Mount
  data : Option Mount

/-- The directories of the volumes at hand. -/
structure Roots where
  esp : List String
  data : Option (List String)

def Roots.root (roots : Roots) : Area → Option (List String)
  | .esp => some roots.esp
  | .data => roots.data

def parts (relative : String) : Path := (split '/' relative.toList).filter fun part => part ≠ [] ∧ part ≠ ['.']

def pathText (root : List String) (path : Path) : String := "/".intercalate (root ++ path.map String.ofList)

def Unsafe (relative : String) : Prop :=
  parts relative = [] ∨ relative.toList.head? = some '/' ∨
    ∃ part ∈ parts relative, part = ['.'] ∨ part = ['.', '.'] ∨ ':' ∈ part ∨ '\\' ∈ part

instance : DecidablePred Unsafe := fun _ => inferInstanceAs (Decidable (_ ∨ _ ∨ _))

section Checks

variable (v : Volumes) (root : List String) (area : Area)

/-- One round of the loop of `safe_path`. -/
def checkNode (path current : Path) : Except Exception Unit := do
  refuseIf (v.tree area current = some .link) (.valueError ("linked update path refused: " ++ pathText root current))
  refuseIf (v.tree area current = some .special) (.valueError ("special file refused: " ++ pathText root current))
  refuseIf (current ≠ path ∧ v.tree area current ≠ none ∧ v.tree area current ≠ some .directory)
    (.valueError ("update parent is not a directory: " ++ pathText root current))

def safePath (relative : String) : Except Exception Path := do
  let path := parts relative
  refuseIf (Unsafe relative) (.valueError ("unsafe update path: " ++ relative))
  refuseIf (['/'].intercalate path ≠ relative.toList) (.valueError ("non-canonical update path: " ++ relative))
  path.inits.forM (checkNode v root area path)
  return path

def transactionPath (identifier relative : String) : Except Exception Path := do
  refuseIf (fullmatchHex 32 identifier = false) (.valueError "invalid transaction identifier")
  safePath v root area (admin ++ "/" ++ identifier ++ "/" ++ relative)

/-- Only used on paths that `safe_path` has let pass. -/
def readBytes (path : Path) : Except Exception (List UInt8) :=
  match v.tree area path with
  | some (.file content) => return content
  | some .directory => .error (.osError "Is a directory")
  | _ => .error (.osError "No such file or directory")

variable (machine : Machine)

def fileDigest (path : Path) : Except Exception (Option String) :=
  match v.tree area path with
  | none => return none
  | some (.file content) => return some (machine.digest content).text
  | some _ => .error (.valueError ("expected a regular file: " ++ pathText root path))

def readJson (encoding : Encoding) (path : Path) : Except Exception Json := do
  let content ← readBytes v area path
  machine.loads encoding content

end Checks

/-- The root of one volume, checked. -/
def checkRoot (v : Volumes) (area : Area) (mount : Mount) : Except Exception (List String) := do
  let _ ← safePath v mount.root area admin
  refuseIf (v.tree area [] ≠ some .directory) (.valueError
    ("volume must be an existing directory without linked parents: " ++ pathText mount.root []))
  if mount.windowsVolume = true then return mount.root
  else
    match mount.linkedParents.head? with
    | some parent => .error (.valueError ("volume has a linked parent: " ++ parent))
    | none => someOr mount.resolved (.osError "No such file or directory")

def rootsFor (v : Volumes) (mounts : Mounts) : Except Exception Roots := do
  let esp ← checkRoot v .esp mounts.esp
  match mounts.data with
  | none => return ⟨esp, none⟩
  | some mount =>
      let data ← checkRoot v .data mount
      refuseIf (data <+: esp ∨ esp <+: data)
        (.valueError "ESP and DATA roots must be separate, non-overlapping volumes")
      return ⟨esp, some data⟩

section Journals

variable (machine : Machine) (v : Volumes) (roots : Roots)

/-- The area and the path of an entry, as far as they are what a target is looked up by. -/
def entryTarget (entry : Json) : Except Exception (Area × String) := do
  let area ← entry.subscript "area"
  let relative ← entry.subscript "path"
  let unowned := Exception.valueError ("unowned update target: " ++ machine.str area ++ ":" ++ machine.str relative)
  let known ← area.isIn ([Area.esp, .data].filter (fun area => (roots.root area).isSome) |>.map Area.name)
  refuseIf (known = false) unowned
  let area := if area.isText "esp" = true then Area.esp else .data
  match relative with
  | .string path => return (area, path)
  | .array _ => .error .typeError
  | .object _ => .error .typeError
  | _ => .error unowned

def targetPath (area : Area) (relative : String) : Except Exception Path := do
  let unowned := Exception.valueError ("unowned update target: " ++ area.name ++ ":" ++ relative)
  let root ← someOr (roots.root area) unowned
  refuseIf (relative ∉ machine.release.ownedPaths area) unowned
  safePath v root area relative

def journalDigest : Json → Except Exception String
  | .string value => do
      refuseIf (fullmatchHex 64 value = false) (.valueError "invalid journal digest")
      return value
  | _ => .error (.valueError "invalid journal digest")

def oldDigest : Json → Except Exception (Option String)
  | .null => return none
  | value => some <$> journalDigest value

def loadEntry (seen : List (Area × String)) (entry : Json) : Except Exception Entry := do
  let (area, relative) ← entryTarget machine roots entry
  let _ ← targetPath machine v roots area relative
  refuseIf ((area, machine.casefold relative) ∈ seen) (.valueError "duplicate journal target")
  let oldSha256 ← oldDigest (← entry.subscript "old_sha256")
  let newSha256 ← journalDigest (← entry.subscript "new_sha256")
  return ⟨area, relative, newSha256, oldSha256⟩

def loadEntries : (seen : List (Area × String)) → List Json → Except Exception (List Entry)
  | _, [] => return []
  | seen, json :: rest => do
      let entry ← loadEntry machine v roots seen json
      let entries ← loadEntries (entry.key machine.host :: seen) rest
      return entry :: entries

def isMarker (identifier : String) (area : Area) : Json → Bool
  | .object fields => fields.length == 2 && (fields.lookup "id").any (Json.isText identifier) &&
      (fields.lookup "area").any (Json.isText area.name)
  | _ => false

def checkMarkers (identifier : String) (entries : List Entry) : Except Exception Unit :=
  (machine.host.areas.filter fun area => entries.any (·.area = area)).forM fun area => do
    let marker ← transactionPath v ((roots.root area).getD []) area identifier "volume.json"
    let json ← readJson v area machine .locale marker
    refuseIf (isMarker identifier area json = false) (.valueError "transaction belongs to a different volume")

/-- A journal that has passed the checks, with what they have found in it. -/
structure Loaded where
  json : Json
  id : String
  entries : List Entry

def journalPath : Option String → Except Exception Path
  | none => safePath v roots.esp .esp (admin ++ "/pending.json")
  | some identifier => transactionPath v roots.esp .esp identifier "manifest.json"

def checkHeader (journal : Json) : Except Exception Unit := do
  let schema ← journal.get "schema"
  refuseIf (schema.isOne = false) (.valueError "invalid update journal")
  let status ← journal.get "status"
  let known ← status.isIn ["prepared", "committed", "rolled_back"]
  refuseIf (known = false) (.valueError "invalid update journal")

/-- The name of the transaction; a value that is no string does not match any pattern. -/
def journalId (journal : Json) : Except Exception String := do
  let identifier ← journal.subscript "id"
  match identifier with
  | .string identifier => return identifier
  | _ => .error .typeError

def journalEntries (journal : Json) : Except Exception (List Json) := do
  let entries ← journal.get "entries"
  match entries with
  | .array (entry :: entries) => return entry :: entries
  | _ => .error (.valueError "empty or invalid update journal")

def loadJournal (identifier : Option String) : Except Exception Loaded := do
  let path ← journalPath v roots identifier
  let json ← readJson v .esp machine .utf8 path
  checkHeader json
  let actual ← journalId json
  let _ ← transactionPath v roots.esp .esp actual "manifest.json"
  refuseIf (identifier ≠ none ∧ identifier ≠ some actual) (.valueError "journal identity mismatch")
  let items ← journalEntries json
  let entries ← loadEntries machine v roots [] items
  checkMarkers machine v roots actual entries
  return ⟨json, actual, entries⟩

/-- The content `restore` will put back for one entry, from its checked backup. -/
def savedOriginal (identifier : String) (index : Nat) (entry : Entry) : Except Exception (Option (List UInt8)) :=
  match entry.oldSha256 with
  | none => return none
  | some old => do
      let backup ← transactionPath v ((roots.root entry.area).getD []) entry.area identifier ("old/" ++ toString index)
      let original ← readBytes v entry.area backup
      refuseIf ((machine.digest original).text ≠ old) (.valueError ("backup checksum mismatch: " ++ entry.path))
      return some original

/-- The checks of `restore` before its first write, and the contents it will put back. -/
def originalsFrom (identifier : String) :
    (index : Nat) → List Entry → Except Exception (List (Option (List UInt8)))
  | _, [] => return []
  | index, entry :: rest => do
      let path ← targetPath machine v roots entry.area entry.path
      let current ← fileDigest v ((roots.root entry.area).getD []) entry.area machine path
      refuseIf (current ≠ none ∧ current ≠ entry.oldSha256 ∧ current ≠ some entry.newSha256)
        (.valueError ("file changed outside this update; preserving it: " ++ entry.path))
      let original ← savedOriginal machine v roots identifier index entry
      let originals ← originalsFrom identifier (index + 1) rest
      return original :: originals

/-- A pending update must be the one that is rolled back. -/
def checkPending (journal : Loaded) (pending : Path) : Except Exception Unit := do
  let record ← readJson v .esp machine .locale pending
  let identifier ← record.subscript "id"
  refuseIf (identifier.isText journal.id = false) (.valueError "another update needs recovery first")

end Journals

section Writes

def ensureDirectory (area : Area) (path : Path) : VolumesM Unit := do
  let v ← fetch
  ((v.tree area).missing path).forM fun directory => atomically (·.perform ⟨area, directory, some .directory⟩)

/-- The temporary file has a name of its own in the directory and is gone at the end. -/
def durableWrite (area : Area) (path : Path) (content : List UInt8) : VolumesM Unit := do
  ensureDirectory area path.dropLast
  let v ← fetch
  raiseIf (v.tree area path = some .directory) (.osError "Is a directory")
  atomically (·.perform ⟨area, path, some (.file content)⟩)

/-- `unlink(missing_ok=True)` -/
def unlink (area : Area) (path : Path) : VolumesM Unit := do
  let v ← fetch
  if v.tree area path = none then pure ()
  else do
    raiseIf (v.tree area path = some .directory) (.osError "Is a directory")
    atomically (·.perform ⟨area, path, none⟩)

/-- `mkdir(exist_ok=True)` -/
def makeDirectory (area : Area) (path : Path) : VolumesM Unit := do
  let v ← fetch
  if v.tree area path = none then atomically (·.perform ⟨area, path, some .directory⟩)
  else raiseIf (v.tree area path ≠ some .directory) (.osError "File exists")

/-- `open('a+b')` -/
def openAppend (area : Area) (path : Path) : VolumesM Unit := do
  let v ← fetch
  if v.tree area path = none then atomically (·.perform ⟨area, path, some (.file [])⟩)
  else raiseIf (v.tree area path = some .directory) (.osError "Is a directory")

def fillLock (area : Area) (path : Path) : VolumesM Unit := do
  let v ← fetch
  let content ← ofExcept (readBytes v area path)
  if content = [] then atomically (·.perform ⟨area, path, some (.file [0x30])⟩) else pure ()

def putBack (area : Area) (path : Path) : Option (List UInt8) → VolumesM Unit
  | none => unlink area path
  | some content => durableWrite area path content

variable (machine : Machine) (roots : Roots)

def writeJson (area : Area) (path : Path) (json : Json) : VolumesM Unit := do
  let content ← ofExcept (someOr (machine.dumps json) .recursionError)
  durableWrite area path content

/-- The lock file; its last line is the lock itself. -/
def updateLock : VolumesM Unit := do
  let v ← fetch
  let directory ← ofExcept (safePath v roots.esp .esp admin)
  makeDirectory .esp directory
  let v ← fetch
  let path ← ofExcept (safePath v roots.esp .esp (admin ++ "/update.lock"))
  openAppend .esp path
  fillLock .esp path
  raiseIf (machine.lockHeld = true) (.valueError "another media update is already running")

def finish (journal : Loaded) (status : String) : VolumesM Unit := do
  let v ← fetch
  let manifest ← ofExcept (transactionPath v roots.esp .esp journal.id "manifest.json")
  writeJson machine .esp manifest (journal.json.set "status" (.string status))
  let v ← fetch
  let pending ← ofExcept (safePath v roots.esp .esp (admin ++ "/pending.json"))
  if v.tree .esp pending = none then pure ()
  else do
    ofExcept (checkPending machine v journal pending)
    unlink .esp pending

def restoreEntry (entry : Entry) (original : Option (List UInt8)) : VolumesM Unit := do
  let v ← fetch
  let path ← ofExcept (targetPath machine v roots entry.area entry.path)
  let current ← ofExcept (fileDigest v ((roots.root entry.area).getD []) entry.area machine path)
  if current = entry.oldSha256 then pure ()
  else do
    putBack entry.area path original
    let v ← fetch
    let current ← ofExcept (fileDigest v ((roots.root entry.area).getD []) entry.area machine path)
    raiseIf (current ≠ entry.oldSha256) (.osError ("rollback verification failed: " ++ entry.path))

def restore (journal : Loaded) : VolumesM Unit := do
  let v ← fetch
  let originals ← ofExcept (originalsFrom machine v roots journal.id 0 journal.entries)
  (journal.entries.zip originals).forM fun (entry, original) => restoreEntry machine roots entry original
  finish machine roots journal "rolled_back"

def rollback (mounts : Mounts) (identifier : Option String) : VolumesM String := do
  let v ← fetch
  let roots ← ofExcept (rootsFor v mounts)
  updateLock machine roots
  let v ← fetch
  let journal ← ofExcept (loadJournal machine v roots identifier)
  let pending ← ofExcept (safePath v roots.esp .esp (admin ++ "/pending.json"))
  ofExcept (if v.tree .esp pending = none then .ok () else checkPending machine v journal pending)
  restore machine roots journal
  return journal.id

end Writes

end NextBoot.MediaUpdate.Mounted
