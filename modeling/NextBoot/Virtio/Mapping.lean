import NextBoot.Words
import Mathlib.Data.List.Sort

namespace NextBoot.Virtio.Mapping

open Words

/-- A half-open virtual byte range and the physical byte its start maps to. -/
structure ByteMapping where
  virtualStart : Nat
  virtualEnd : Nat
  physicalStart : Nat
deriving DecidableEq, Repr

namespace ByteMapping

def new (virtualStart byteCount physicalStart : Nat) : ByteMapping :=
  ⟨virtualStart, wrappingAdd 64 virtualStart byteCount, physicalStart⟩

def contains (m : ByteMapping) (virtualOffset : Nat) : Bool :=
  decide (m.virtualStart ≤ virtualOffset ∧ virtualOffset < m.virtualEnd)

def translate (m : ByteMapping) (virtualOffset : Nat) : Option Nat :=
  if m.contains virtualOffset then
    some (wrappingAdd 64 m.physicalStart (wrappingSub 64 virtualOffset m.virtualStart))
  else none

def byteCount (m : ByteMapping) : Nat := wrappingSub 64 m.virtualEnd m.virtualStart

end ByteMapping

structure ByteMappingTable where
  mappings : List ByteMapping
  totalBytes : Nat
deriving DecidableEq, Repr

/-- The virtual block start, the physical block and the block count of one file extent. -/
abbrev Extent := Nat × Nat × Nat

namespace ByteMappingTable

def empty : ByteMappingTable := ⟨[], 0⟩

def addSegment (t : ByteMappingTable) (virtualStart byteCount physicalStart : Nat) : ByteMappingTable :=
  if byteCount = 0 then t
  else ⟨t.mappings ++ [ByteMapping.new virtualStart byteCount physicalStart],
    max t.totalBytes (wrappingAdd 64 virtualStart byteCount)⟩

def truncate (t : ByteMappingTable) (totalBytes : Nat) : ByteMappingTable :=
  ⟨(t.mappings.filter fun m => m.virtualStart < totalBytes).map fun m =>
      if m.virtualEnd > totalBytes then { m with virtualEnd := totalBytes } else m,
    totalBytes⟩

def addExtent (physicalBlockSize : Nat) (t : ByteMappingTable) (e : Extent) : ByteMappingTable :=
  t.addSegment (wrappingMul 64 e.1 physicalBlockSize) (wrappingMul 64 e.2.2 physicalBlockSize)
    (wrappingMul 64 e.2.1 physicalBlockSize)

def fromFileExtents (extents : List Extent) (fileSize physicalBlockSize : Nat) : ByteMappingTable :=
  (extents.foldl (addExtent physicalBlockSize) empty).truncate fileSize

def setTotalBytes (t : ByteMappingTable) (totalBytes : Nat) : ByteMappingTable :=
  { t with totalBytes := totalBytes }

/-- The merging pass over the sorted entries, with the entry being extended. -/
def mergeFrom (current : ByteMapping) : List ByteMapping → List ByteMapping
  | [] => [current]
  | m :: ms =>
      if current.virtualEnd = m.virtualStart ∧
          wrappingAdd 64 current.physicalStart current.byteCount = m.physicalStart then
        mergeFrom { current with virtualEnd := m.virtualEnd } ms
      else current :: mergeFrom m ms

def optimize (t : ByteMappingTable) : ByteMappingTable :=
  if t.mappings.length ≤ 1 then t
  else
    match t.mappings.mergeSort (fun a b => a.virtualStart ≤ b.virtualStart) with
    | [] => t
    | m :: ms => { t with mappings := mergeFrom m ms }

def find (t : ByteMappingTable) (virtualOffset : Nat) : Option ByteMapping :=
  t.mappings.find? fun m => m.contains virtualOffset

/-- One translated piece: destination offset, physical byte and byte count. -/
abbrev Piece := Nat × Nat × Nat

/-- Extend the last piece when the new one continues it in both spaces. -/
def pushPiece : List Piece → Piece → List Piece
  | [], q => [q]
  | [(dst, physical, count)], q =>
      if wrappingAdd 64 dst count = q.1 ∧ wrappingAdd 64 physical count = q.2.1 then
        [(dst, physical, wrappingAdd 64 count q.2.2)]
      else [(dst, physical, count), q]
  | p :: p' :: ps, q => p :: pushPiece (p' :: ps) q

/-- Where the scan resumes behind a hole. -/
def nextMappedStart (t : ByteMappingTable) (current stop : Nat) : Nat :=
  (((t.mappings.filter fun m => m.virtualStart > current).map ByteMapping.virtualStart).min?).getD stop

theorem nextMappedStart_gt (t : ByteMappingTable) {current stop : Nat} (h : current < stop) :
    current < t.nextMappedStart current stop := by
  unfold nextMappedStart
  cases hm : ((t.mappings.filter fun m => m.virtualStart > current).map ByteMapping.virtualStart).min? with
  | none => exact h
  | some v =>
      have hv := List.min?_mem hm
      obtain ⟨m, hmem, rfl⟩ := List.mem_map.mp hv
      simpa using (List.mem_filter.mp hmem).2

theorem find_contains {t : ByteMappingTable} {v : Nat} {m : ByteMapping} (h : t.find v = some m) :
    m ∈ t.mappings ∧ m.virtualStart ≤ v ∧ v < m.virtualEnd := by
  have hc := List.find?_some h
  exact ⟨List.mem_of_find?_eq_some h, by simpa [ByteMapping.contains] using hc⟩

/-- The scan of `translate_range_sparse` from `current` up to `stop`. -/
def sparseLoop (t : ByteMappingTable) (virtualStart stop current : Nat) (result : List Piece) :
    Option (List Piece) :=
  if _hlt : current < stop then
    match _hf : t.find current with
    | some m => do
        let physical ← m.translate current
        let contiguousCount := min (stop - current) (m.virtualEnd - current)
        sparseLoop t virtualStart stop (current + contiguousCount)
          (pushPiece result (current - virtualStart, physical, contiguousCount))
    | none => sparseLoop t virtualStart stop (min (t.nextMappedStart current stop) stop) result
  else some result
termination_by stop - current
decreasing_by
  · have h := find_contains _hf
    omega
  · have h := t.nextMappedStart_gt _hlt
    omega

def translateRangeSparse (t : ByteMappingTable) (virtualStart byteCount : Nat) : Option (List Piece) := do
  let stop ← checkedAdd 64 virtualStart byteCount
  if stop > t.totalBytes then none else sparseLoop t virtualStart stop virtualStart []

end ByteMappingTable

end NextBoot.Virtio.Mapping
