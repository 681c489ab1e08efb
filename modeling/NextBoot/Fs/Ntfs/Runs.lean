import Mathlib.Data.List.Sort
import NextBoot.Tiling
import NextBoot.Fs.Device

namespace NextBoot.Fs.Ntfs

open Words Tiling Bytes Results

structure DataRun where
  virtualClusterStart : Nat
  logicalClusterStart : Option Nat
  clusterCount : Nat
deriving DecidableEq, Repr

abbrev TilesRuns : List DataRun → Nat → Nat → Prop := Tiles DataRun.virtualClusterStart DataRun.clusterCount

/-- `read_le_int`: little-endian two's complement of at most eight bytes. -/
def readLeInt (data : List UInt8) : Int :=
  if 2 * fromLeBytes data < 256 ^ data.length then fromLeBytes data
  else (fromLeBytes data : Int) - (256 ^ data.length : Nat)

def checkedAddI64 (a b : Int) : Option Int :=
  if -(2 ^ 63) ≤ a + b ∧ a + b < 2 ^ 63 then some (a + b) else none

/-- The logical start of a run from its delta bytes, and the position the next delta counts from; no bytes mean a
sparse run. -/
def nextLcn (delta : List UInt8) (currentLcn : Int) : Except FsError (Option Nat × Int) :=
  if delta = [] then pure (none, currentLcn)
  else do
    let lcn ← someOr (checkedAddI64 currentLcn (readLeInt delta)) .corrupted
    refuseIf (lcn < 0) .corrupted
    pure (some lcn.toNat, lcn)

def parseRuns : Nat → List UInt8 → Nat → Int → Except FsError (List DataRun)
  | 0, _, _, _ => pure []
  | _ + 1, [], _, _ => pure []
  | fuel + 1, header :: data, currentVcn, currentLcn =>
      if header = 0 then pure []
      else do
        let lenSize := header.toNat % 16
        let offSize := header.toNat / 16
        refuseIf (lenSize = 0 ∨ 8 < lenSize ∨ 8 < offSize ∨ data.length < lenSize + offSize) .corrupted
        let clusterCount := fromLeBytes (data.take lenSize)
        refuseIf (clusterCount = 0) .corrupted
        let (logicalClusterStart, nextLcn) ← nextLcn ((data.drop lenSize).take offSize) currentLcn
        let nextVcn ← someOr (checkedAdd 64 currentVcn clusterCount) .corrupted
        let runs ← parseRuns fuel (data.drop (lenSize + offSize)) nextVcn nextLcn
        pure (⟨currentVcn, logicalClusterStart, clusterCount⟩ :: runs)

/-- Every run takes at least its header byte, so the bytes bound the rounds. -/
def parseDataRuns (data : List UInt8) (lowestVcn : Nat) : Except FsError (List DataRun) :=
  parseRuns data.length data lowestVcn 0

theorem parseRuns_tiles {fuel : Nat} {data : List UInt8} {vcn : Nat} {lcn : Int} {runs : List DataRun}
    (h : parseRuns fuel data vcn lcn = .ok runs) : ∃ stop, TilesRuns runs vcn stop := by
  induction fuel generalizing data vcn lcn runs with
  | zero =>
      rw [parseRuns, pure_eq_ok] at h
      exact ⟨vcn, by rw [← h]; rfl⟩
  | succ fuel ih =>
      cases data with
      | nil =>
          rw [parseRuns, pure_eq_ok] at h
          exact ⟨vcn, by rw [← h]; rfl⟩
      | cons header data =>
          rw [parseRuns] at h
          split at h
          · rw [pure_eq_ok] at h
            exact ⟨vcn, by rw [← h]; rfl⟩
          · simp only [bind_eq_ok, refuseIf_eq_ok, someOr_eq_ok, checkedAdd_eq_some, pure_eq_ok] at h
            obtain ⟨-, -, -, hcount, ⟨start, next⟩, -, nextVcn, ⟨-, rfl⟩, rest, hrest, rfl⟩ := h
            obtain ⟨stop, htiles⟩ := ih hrest
            exact ⟨stop, rfl, Nat.pos_of_ne_zero hcount, htiles⟩

/-- The runs of one attribute, as its run list is parsed: end to end from the attribute's lowest VCN. -/
structure RunList where
  lowestVcn : Nat
  runs : List DataRun
  tiles : ∃ stop, TilesRuns runs lowestVcn stop

inductive AttributeData where
  | resident (value : List UInt8)
  | nonResident (realSize : Nat) (runs : RunList)

structure NtfsAttribute where
  attrType : Nat
  nameLen : Nat
  lowestVcn : Nat
  data : AttributeData

def parseRunList (data : List UInt8) (lowestVcn : Nat) : Except FsError RunList :=
  match h : parseDataRuns data lowestVcn with
  | .error error => .error error
  | .ok runs => .ok ⟨lowestVcn, runs, parseRuns_tiles h⟩

def parseNonResident (attrType nameLen : Nat) (data : List UInt8) : Except FsError NtfsAttribute := do
  refuseIf (data.length < 64) .corrupted
  let lowestVcn ← someOr (readLe 8 data 16) .corrupted
  let runlistOffset ← someOr (readLe 2 data 32) .corrupted
  let realSize ← someOr (readLe 8 data 48) .corrupted
  refuseIf (data.length ≤ runlistOffset) .corrupted
  let runs ← parseRunList (data.drop runlistOffset) lowestVcn
  pure ⟨attrType, nameLen, lowestVcn, .nonResident realSize runs⟩

def parseResident (attrType nameLen : Nat) (data : List UInt8) : Except FsError NtfsAttribute := do
  refuseIf (data.length < 24) .corrupted
  let valueLen ← someOr (readLe 4 data 16) .corrupted
  let valueOffset ← someOr (readLe 2 data 20) .corrupted
  let value ← someOr (slice data valueOffset valueLen) .corrupted
  pure ⟨attrType, nameLen, 0, .resident value⟩

def parseAttribute (attrType : Nat) (data : List UInt8) : Except FsError NtfsAttribute := do
  refuseIf (data.length < 16) .corrupted
  let nonResident ← someOr (readLe 1 data 8) .corrupted
  let nameLen ← someOr (readLe 1 data 9) .corrupted
  let attrFlags ← someOr (readLe 2 data 12) .corrupted
  refuseIf (attrFlags.land 0x4001 ≠ 0) .unsupportedFs
  if nonResident ≠ 0 then parseNonResident attrType nameLen data else parseResident attrType nameLen data

structure FileRecord where
  attributes : List NtfsAttribute

def attrTypeData : Nat := 0x80

def FileRecord.unnamedAttributes (record : FileRecord) (attrType : Nat) : List NtfsAttribute :=
  record.attributes.filter fun attr => attr.attrType = attrType ∧ attr.nameLen = 0

def NtfsAttribute.nonResidentRuns (attr : NtfsAttribute) : Except FsError (List DataRun) :=
  match attr.data with
  | .resident _ => .error .unsupportedFs
  | .nonResident _ runs => .ok runs.runs

/-- The stable `sort_by_key` by the first cluster in the file. -/
def sortRuns (runs : List DataRun) : List DataRun :=
  runs.insertionSort fun a b => a.virtualClusterStart ≤ b.virtualClusterStart

def collectNonresidentRuns (attributes : List NtfsAttribute) : Except FsError (List DataRun) := do
  let runs ← attributes.mapM NtfsAttribute.nonResidentRuns
  pure (sortRuns runs.flatten)

def NtfsAttribute.runs (attr : NtfsAttribute) : List DataRun :=
  match attr.data with
  | .resident _ => []
  | .nonResident _ list => list.runs

/-- The runs of all the unnamed data attributes of a record, by their first cluster in the file. -/
def FileRecord.dataRuns (record : FileRecord) : List DataRun :=
  sortRuns ((record.unnamedAttributes attrTypeData).flatMap NtfsAttribute.runs)

/-- The runs of one attribute are sorted as they are parsed. -/
theorem sortRuns_runList (list : RunList) : sortRuns list.runs = list.runs := by
  obtain ⟨stop, htiles⟩ := list.tiles
  refine List.Pairwise.insertionSort_eq ?_
  generalize list.lowestVcn = lo at htiles
  generalize list.runs = runs at htiles
  induction runs generalizing lo with
  | nil => exact List.Pairwise.nil
  | cons run runs ih =>
      obtain ⟨rfl, -, htiles⟩ := htiles
      refine List.Pairwise.cons (fun next hnext => ?_) (ih _ htiles)
      have hle := htiles.ordered.le_start hnext
      omega

end NextBoot.Fs.Ntfs
