import NextBoot.CrashLogic
import NextBoot.Results

namespace NextBoot.MediaUpdate

open Results CrashLogic

inductive Area
  | esp
  | data
deriving DecidableEq, Repr

def Area.name : Area → String
  | .esp => "esp"
  | .data => "data"

instance : LawfulBEq (Area × String) := inferInstance

/-- The exceptions of the updater, by class. -/
inductive UpdateError
  | value (message : String)
  | os (message : String)
  | runtime (message : String)
deriving DecidableEq, Repr

def UpdateError.message : UpdateError → String
  | .value message => message
  | .os message => message
  | .runtime message => message

/-- `re.fullmatch('[0-9a-f]{length}', text)` -/
def fullmatchHex (length : Nat) (text : String) : Bool :=
  text.toList.length == length && text.toList.all fun c => ('0' ≤ c && c ≤ '9') || ('a' ≤ c && c ≤ 'f')

/-- A digest as `hexdigest` writes it. -/
structure Sha256 where
  text : String
  valid : fullmatchHex 64 text = true

structure Entry where
  area : Area
  path : String
  newSha256 : String
  oldSha256 : Option String
deriving DecidableEq, Repr

inductive Status
  | prepared
  | committed
  | rolledBack
deriving DecidableEq, Repr

structure Journal where
  schema : Nat
  id : String
  status : Status
  entries : List Entry
deriving DecidableEq, Repr

structure Marker where
  id : String
  area : Area
deriving DecidableEq, Repr

/-- The files of both volumes. `file` is everything outside the administration directory; the rest is inside it: per
transaction the staged and saved files, the volume marker and (on the ESP) the manifest, and on the ESP the pending
record and the lock. -/
structure Store where
  file : Area → String → Option (List UInt8)
  staged : Area → String → Nat → Option (List UInt8)
  backup : Area → String → Nat → Option (List UInt8)
  marker : Area → String → Option Marker
  manifest : String → Option Journal
  pending : Option Journal
  lock : Option (List UInt8)

def Store.setFile (s : Store) (area : Area) (path : String) (content : Option (List UInt8)) : Store :=
  { s with file := fun a p => if a = area ∧ p = path then content else s.file a p }

def Store.setStaged (s : Store) (area : Area) (id : String) (index : Nat) (content : Option (List UInt8)) : Store :=
  { s with staged := fun a t i => if a = area ∧ t = id ∧ i = index then content else s.staged a t i }

def Store.setBackup (s : Store) (area : Area) (id : String) (index : Nat) (content : List UInt8) : Store :=
  { s with backup := fun a t i => if a = area ∧ t = id ∧ i = index then some content else s.backup a t i }

def Store.setMarker (s : Store) (area : Area) (id : String) (marker : Marker) : Store :=
  { s with marker := fun a t => if a = area ∧ t = id then some marker else s.marker a t }

def Store.setManifest (s : Store) (id : String) (journal : Journal) : Store :=
  { s with manifest := fun t => if t = id then some journal else s.manifest t }

def Store.setPending (s : Store) (journal : Option Journal) : Store := { s with pending := journal }

def Store.setLock (s : Store) (content : List UInt8) : Store := { s with lock := some content }

/-- `os.replace` of a staged file onto its target. -/
def Store.replaceStaged (s : Store) (area : Area) (id : String) (index : Nat) (path : String) : Store :=
  (s.setFile area path (s.staged area id index)).setStaged area id index none

/-- What the updater takes from its surroundings: the paths the release owns, the functions of the standard library it
compares names and contents with, and the order in which a set of areas is walked. -/
structure Host where
  ownedPaths : Area → List String
  casefold : String → String
  digest : List UInt8 → Sha256
  espFirst : Bool

def Host.areas (host : Host) : List Area := if host.espFirst then [.esp, .data] else [.data, .esp]

/-- The ESP root is always given, the root of the data volume may be left out. -/
structure Roots where
  data : Bool

def Roots.has (roots : Roots) (area : Area) : Prop := area = .esp ∨ roots.data = true

instance (roots : Roots) (area : Area) : Decidable (roots.has area) := inferInstanceAs (Decidable (_ ∨ _))

structure PayloadItem where
  area : Area
  path : String
  content : List UInt8

/-- A planned replacement: the journal entry, the new content and the old one. -/
structure Change where
  entry : Entry
  content : List UInt8
  original : Option (List UInt8)

variable (host : Host) (roots : Roots)

def targetPath (area : Area) (path : String) : Except UpdateError Unit :=
  refuseIf (¬ (roots.has area ∧ path ∈ host.ownedPaths area))
    (.value ("unowned update target: " ++ area.name ++ ":" ++ path))

def transactionPath (identifier : String) : Except UpdateError Unit :=
  refuseIf (fullmatchHex 32 identifier = false) (.value "invalid transaction identifier")

def fileDigest (content : Option (List UInt8)) : Option String := content.map fun bytes => (host.digest bytes).text

def Entry.key (entry : Entry) : Area × String := (entry.area, host.casefold entry.path)

/-- The change a payload item asks for on the files as they are. -/
def PayloadItem.change (s : Store) (item : PayloadItem) : Change :=
  let original := s.file item.area item.path
  ⟨⟨item.area, item.path, (host.digest item.content).text, fileDigest host original⟩, item.content, original⟩

def planFrom (s : Store) : (seen : List (Area × String)) → List PayloadItem → Except UpdateError (List Change)
  | _, [] => return []
  | seen, item :: rest => do
      let key := (item.area, host.casefold item.path)
      refuseIf (key ∈ seen) (.value "duplicate update target")
      targetPath host roots item.area item.path
      let change := item.change host s
      let changes ← planFrom s (key :: seen) rest
      return if change.entry.oldSha256 ≠ some change.entry.newSha256 then change :: changes else changes

def plan (s : Store) (payload : List PayloadItem) : Except UpdateError (List Change) := planFrom host roots s [] payload

def missingFile : UpdateError := .os "No such file or directory"

def checkEntries : (seen : List (Area × String)) → List Entry → Except UpdateError Unit
  | _, [] => return ()
  | seen, entry :: rest => do
      targetPath host roots entry.area entry.path
      refuseIf (entry.key host ∈ seen) (.value "duplicate journal target")
      refuseIf (entry.oldSha256.any (fun value => !fullmatchHex 64 value) = true) (.value "invalid journal digest")
      refuseIf (fullmatchHex 64 entry.newSha256 = false) (.value "invalid journal digest")
      checkEntries (entry.key host :: seen) rest

def checkMarkers (s : Store) (journal : Journal) : Except UpdateError Unit :=
  (host.areas.filter fun area => journal.entries.any (·.area = area)).forM fun area => do
    let marker ← someOr (s.marker area journal.id) missingFile
    refuseIf (marker ≠ ⟨journal.id, area⟩) (.value "transaction belongs to a different volume")

def readJournal (s : Store) : Option String → Except UpdateError Journal
  | none => someOr s.pending missingFile
  | some identifier => do
      transactionPath identifier
      someOr (s.manifest identifier) missingFile

/-- The statuses are all known ones by their type. -/
def loadJournal (s : Store) (identifier : Option String) : Except UpdateError Journal := do
  let journal ← readJournal s identifier
  refuseIf (journal.schema ≠ 1) (.value "invalid update journal")
  transactionPath journal.id
  refuseIf (identifier ≠ none ∧ identifier ≠ some journal.id) (.value "journal identity mismatch")
  refuseIf (journal.entries = []) (.value "empty or invalid update journal")
  checkEntries host roots [] journal.entries
  checkMarkers host s journal
  return journal

end NextBoot.MediaUpdate
