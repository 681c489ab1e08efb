import Mathlib.Algebra.Ring.Nat
import NextBoot.MediaUpdate.Files

namespace NextBoot.MediaUpdate

open Results CrashLogic

abbrev UpdateM (α : Type) := Prog Store UpdateError α

def Stop.text : Stop UpdateError → String
  | .raised error => error.message
  | .fault => "Input/output error"
  | .interrupted => ""

/-- The lock is free in every run: the operations are run one after the other. -/
def updateLock : UpdateM Unit := do
  let s ← fetch
  if s.lock = none ∨ s.lock = some [] then atomically (·.setLock [0x30]) else pure ()

def finish (journal : Journal) (status : Status) : UpdateM Unit := do
  let journal := { journal with status := status }
  ofExcept (transactionPath journal.id)
  atomically (·.setManifest journal.id journal)
  let s ← fetch
  match s.pending with
  | none => pure ()
  | some pending =>
      raiseIf (pending.id ≠ journal.id) (.value "another update needs recovery first")
      atomically (·.setPending none)

variable (host : Host) (roots : Roots)

/-- The content `restore` will put back for one entry, from its checked backup. -/
def savedOriginal (s : Store) (id : String) (index : Nat) (entry : Entry) : Except UpdateError (Option (List UInt8)) :=
  match entry.oldSha256 with
  | none => return none
  | some old => do
      transactionPath id
      let original ← someOr (s.backup entry.area id index) missingFile
      refuseIf ((host.digest original).text ≠ old) (.value ("backup checksum mismatch: " ++ entry.path))
      return some original

/-- The checks of `restore` before its first write, and the contents it will put back. -/
def originalsFrom (s : Store) (id : String) : (index : Nat) → List Entry → Except UpdateError (List (Option (List UInt8)))
  | _, [] => return []
  | index, entry :: rest => do
      targetPath host roots entry.area entry.path
      let current := fileDigest host (s.file entry.area entry.path)
      refuseIf (current ≠ none ∧ current ≠ entry.oldSha256 ∧ current ≠ some entry.newSha256)
        (.value ("file changed outside this update; preserving it: " ++ entry.path))
      let original ← savedOriginal host s id index entry
      let originals ← originalsFrom s id (index + 1) rest
      return original :: originals

def restoreEntry (entry : Entry) (original : Option (List UInt8)) : UpdateM Unit := do
  ofExcept (targetPath host roots entry.area entry.path)
  let s ← fetch
  if fileDigest host (s.file entry.area entry.path) = entry.oldSha256 then pure ()
  else do
    atomically (·.setFile entry.area entry.path original)
    let s ← fetch
    raiseIf (fileDigest host (s.file entry.area entry.path) ≠ entry.oldSha256)
      (.os ("rollback verification failed: " ++ entry.path))

def restore (journal : Journal) : UpdateM Unit := do
  let s ← fetch
  let originals ← ofExcept (originalsFrom host roots s journal.id 0 journal.entries)
  (journal.entries.zip originals).forM fun (entry, original) => restoreEntry host roots entry original
  finish journal .rolledBack

def rollback (identifier : Option String) : UpdateM String := do
  updateLock
  let s ← fetch
  let journal ← ofExcept (loadJournal host roots s identifier)
  raiseIf (s.pending.any (fun pending => pending.id ≠ journal.id) = true) (.value "another update needs recovery first")
  restore host roots journal
  return journal.id

/-- A stable sort by whether the area is the ESP. -/
def dependencyOrder (changes : List Change) : List Change :=
  changes.filter (·.entry.area ≠ .esp) ++ changes.filter (·.entry.area = .esp)

def neededSpace (changes : List Change) (area : Area) : Nat :=
  ((changes.filter (·.entry.area = area)).map fun change =>
    change.content.length + (change.original.getD []).length).sum

def checkSpace (changes : List Change) (free : Area → Nat) : Except UpdateError Unit :=
  (host.areas.filter fun area => changes.any (·.entry.area = area)).forM fun area =>
    refuseIf (free area < neededSpace changes area + 65536)
      (.value ("insufficient free space for staged update and backup on " ++ area.name))

def writeMarkers (identifier : String) (changes : List Change) : UpdateM Unit :=
  (host.areas.filter fun area => changes.any (·.entry.area = area) || area = .esp).forM fun area => do
    ofExcept (transactionPath identifier)
    atomically (·.setMarker area identifier ⟨identifier, area⟩)

def stageChange (identifier : String) (index : Nat) (change : Change) : UpdateM Unit := do
  ofExcept (transactionPath identifier)
  atomically (·.setStaged change.entry.area identifier index (some change.content))
  let s ← fetch
  raiseIf (fileDigest host (s.staged change.entry.area identifier index) ≠ some change.entry.newSha256)
    (.os "staged file checksum mismatch")
  match change.original with
  | none => pure ()
  | some original => do
      atomically (·.setBackup change.entry.area identifier index original)
      let s ← fetch
      raiseIf (fileDigest host (s.backup change.entry.area identifier index) ≠ change.entry.oldSha256)
        (.os "backup checksum mismatch")

def journalOf (identifier : String) (status : Status) (changes : List Change) : Journal :=
  ⟨1, identifier, status, changes.map (·.entry)⟩

/-- Everything up to the pending record; no target is written. -/
def prepare (identifier : String) (changes : List Change) : UpdateM Unit := do
  writeMarkers host identifier changes
  changes.zipIdx.forM fun (change, index) => stageChange host identifier index change
  ofExcept (transactionPath identifier)
  atomically (·.setManifest identifier (journalOf identifier .prepared changes))
  atomically (·.setPending (some (journalOf identifier .prepared changes)))

def publishChange (identifier : String) (index : Nat) (change : Change) : UpdateM Unit := do
  ofExcept (targetPath host roots change.entry.area change.entry.path)
  let s ← fetch
  raiseIf (fileDigest host (s.file change.entry.area change.entry.path) ≠ change.entry.oldSha256)
    (.value ("file changed while preparing update: " ++ change.entry.path))
  ofExcept (transactionPath identifier)
  raiseIf (s.staged change.entry.area identifier index = none) missingFile
  atomically (·.replaceStaged change.entry.area identifier index change.entry.path)
  let s ← fetch
  raiseIf (fileDigest host (s.file change.entry.area change.entry.path) ≠ some change.entry.newSha256)
    (.os ("installed file checksum mismatch: " ++ change.entry.path))

def publish (identifier : String) (changes : List Change) : UpdateM Unit := do
  changes.zipIdx.forM fun (change, index) => publishChange host roots identifier index change
  finish (journalOf identifier .prepared changes) .committed

/-- The failure recovery of `apply`. -/
def recover (identifier : String) (failure : Stop UpdateError) : UpdateM Unit := do
  attempt
    (do
      let s ← fetch
      let journal ← ofExcept (loadJournal host roots s none)
      restore host roots journal)
    fun recoveryFailure => raise (.runtime ("update failed; recovery required: " ++ Stop.text recoveryFailure ++
      "; transaction " ++ identifier))
  raise (.runtime ("update failed and original files were restored: " ++ Stop.text failure))

inductive Outcome
  | planned (entries : List Entry)
  | unchanged
  | applied (identifier : String)
deriving DecidableEq, Repr

def unfinished : UpdateError := .value "unfinished update found; run rollback before updating"

def applyLocked (payload : List PayloadItem) (identifier : String) (free : Area → Nat) : UpdateM Outcome := do
  updateLock
  let s ← fetch
  raiseIf (s.pending ≠ none) unfinished
  let changes ← ofExcept (plan host roots s payload)
  let changes := dependencyOrder changes
  if changes.isEmpty = true then return .unchanged
  else
    ofExcept (checkSpace host changes free)
    prepare host identifier changes
    attempt (publish host roots identifier changes) (recover host roots identifier)
    return .applied identifier

/-- `identifier` is the `uuid4` drawn for the transaction, `free` what `disk_usage` reports. -/
def apply (payload : List PayloadItem) (dryRun : Bool) (identifier : String) (free : Area → Nat) : UpdateM Outcome := do
  let s ← fetch
  let initial ← ofExcept (plan host roots s payload)
  if dryRun = true then
    raiseIf (s.pending ≠ none) unfinished
    return .planned (initial.map (·.entry))
  else applyLocked host roots payload identifier free

end NextBoot.MediaUpdate
