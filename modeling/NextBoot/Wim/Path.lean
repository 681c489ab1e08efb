import NextBoot.Bytes
import NextBoot.Results
import NextBoot.Strings
import NextBoot.Words

namespace NextBoot.Wim

open Bytes Results Strings Words

inductive WimPathError where
  | emptyPath
  | nonAsciiPath
  | malformedMetadata
  | notFound
  | resourceNotFound
deriving DecidableEq, Repr

structure WimDirectoryEntry where
  len : Nat
  attributes : Nat
  security : Nat
  subdir : Nat
  hash : List UInt8
  streams : Nat
  shortNameLen : Nat
  nameLen : Nat
deriving DecidableEq, Repr

structure WimDirectoryEntryLocation where
  offset : Nat
  entry : WimDirectoryEntry
deriving DecidableEq, Repr

def securityHeaderSize : Nat := 8

def directoryEntryFixedSize : Nat := 102

def hashSize : Nat := 20

def isAscii (c : Char) : Bool := c.toNat < 0x80

def alignUp8 (value : Nat) : Option Nat := (checkedAdd 64 value 7).map fun sum => sum / 8 * 8

def rootDirectoryOffset (metadata : List UInt8) : Except WimPathError Nat := do
  refuseIf (metadata.length < securityHeaderSize) .malformedMetadata
  let securityLen ← someOr (readLe 4 metadata 0) .malformedMetadata
  let offset ← if 0 < securityLen then someOr (alignUp8 securityLen) .malformedMetadata else pure securityHeaderSize
  refuseIf (metadata.length < offset) .malformedMetadata
  pure offset

def parseDirectoryEntry (metadata : List UInt8) (offset : Nat) : Except WimPathError WimDirectoryEntry := do
  let hash ← someOr (slice metadata (offset + 64) hashSize) .malformedMetadata
  let len ← someOr (readLe 8 metadata offset) .malformedMetadata
  let attributes ← someOr (readLe 4 metadata (offset + 8)) .malformedMetadata
  let security ← someOr (readLe 4 metadata (offset + 12)) .malformedMetadata
  let subdir ← someOr (readLe 8 metadata (offset + 16)) .malformedMetadata
  let streams ← someOr (readLe 2 metadata (offset + 96)) .malformedMetadata
  let shortNameLen ← someOr (readLe 2 metadata (offset + 98)) .malformedMetadata
  let nameLen ← someOr (readLe 2 metadata (offset + 100)) .malformedMetadata
  pure {
    len := len
    attributes := attributes
    security := security
    subdir := subdir
    hash := hash
    streams := streams
    shortNameLen := shortNameLen
    nameLen := nameLen }

/-- The code units of a name from an index on, compared with the characters that are left of another name. -/
def compareUnits (nameBytes : List UInt8) (index : Nat) : Text → Except WimPathError Bool
  | [] => pure true
  | expected :: rest => do
      let actual ← someOr (readLe 2 nameBytes (index * 2)) .malformedMetadata
      if 0x7f < actual then pure false
      else if toAsciiLowercase (Char.ofNat actual) ≠ toAsciiLowercase expected then pure false
      else compareUnits nameBytes (index + 1) rest

/-- The length of a name in code units, without a zero behind as many units as are expected. -/
def nameUnits (nameBytes : List UInt8) (expected : Nat) : Except WimPathError Nat :=
  if nameBytes.length / 2 = expected + 1 then do
    let last ← someOr (readLe 2 nameBytes (expected * 2)) .malformedMetadata
    pure (if last = 0 then expected else nameBytes.length / 2)
  else pure (nameBytes.length / 2)

def utf16leNameEqAscii (nameBytes : List UInt8) (ascii : Text) : Except WimPathError Bool := do
  refuseIf (ascii.any (¬ isAscii ·)) .nonAsciiPath
  refuseIf (nameBytes.length % 2 ≠ 0) .malformedMetadata
  let units ← nameUnits nameBytes ascii.length
  if units ≠ ascii.length then pure false else compareUnits nameBytes 0 ascii

/-- The search of a list of entries. Each round moves on by at least the fixed part of an entry. -/
def findChildEntry (metadata : List UInt8) (name : Text) : Nat → Nat → Except WimPathError WimDirectoryEntryLocation
  | 0, _ => .error .malformedMetadata
  | rounds + 1, offset => do
      let entryLen ← someOr (readLe 8 metadata offset) .malformedMetadata
      refuseIf (entryLen = 0) .notFound
      let entryEnd ← someOr (checkedAdd 64 offset entryLen) .malformedMetadata
      refuseIf (entryLen < directoryEntryFixedSize ∨ metadata.length < entryEnd) .malformedMetadata
      let entry ← parseDirectoryEntry metadata offset
      let nameStart ← someOr (checkedAdd 64 offset directoryEntryFixedSize) .malformedMetadata
      let nameEnd ← someOr (checkedAdd 64 nameStart entry.nameLen) .malformedMetadata
      refuseIf (entryEnd < nameEnd) .malformedMetadata
      let found ← utf16leNameEqAscii ((metadata.drop nameStart).take entry.nameLen) name
      if found then pure ⟨offset, entry⟩ else findChildEntry metadata name rounds entryEnd

/-- The names between the slashes and backslashes of a path. -/
def pathComponents (path : Text) : List Text :=
  ((split '/' path).flatMap (split '\\')).filter fun component => component ≠ []

def findComponents (metadata : List UInt8) : List Text → Nat → Except WimPathError WimDirectoryEntryLocation
  | [], _ => .error .emptyPath
  | [component], dirOffset => findChildEntry metadata component (metadata.length + 1) dirOffset
  | component :: next :: rest, dirOffset => do
      let location ← findChildEntry metadata component (metadata.length + 1) dirOffset
      refuseIf (location.entry.subdir = 0) .notFound
      findComponents metadata (next :: rest) location.entry.subdir

def findPathEntry (metadata : List UInt8) (path : Text) : Except WimPathError WimDirectoryEntryLocation := do
  refuseIf (path.any (¬ isAscii ·)) .nonAsciiPath
  refuseIf (pathComponents path = []) .emptyPath
  let dirOffset ← rootDirectoryOffset metadata
  findComponents metadata (pathComponents path) dirOffset

end NextBoot.Wim
