import NextBoot.Virtio.Mapping
import NextBoot.Coalescing

namespace NextBoot.Virtio.Mapping

open Words Coalescing

namespace ByteMappingTable

def translate (t : ByteMappingTable) (virtualOffset : Nat) : Option Nat :=
  t.mappings.findSome? fun m => m.translate virtualOffset

/-- One piece of `translate_range`: physical byte and byte count. -/
abbrev Range := Nat × Nat

def pushRange : List Range → Range → List Range
  | [], q => [q]
  | [(physical, count)], q =>
      if wrappingAdd 64 physical count = q.1 then [(physical, wrappingAdd 64 count q.2)] else [(physical, count), q]
  | p :: p' :: ps, q => p :: pushRange (p' :: ps) q

def rangeLoop (t : ByteMappingTable) (current remaining : Nat) (result : List Range) : Option (List Range) :=
  if _hpos : 0 < remaining then
    match _hf : t.find current with
    | some m => do
        let physical ← m.translate current
        let contiguousCount := min remaining (m.virtualEnd - current)
        rangeLoop t (current + contiguousCount) (remaining - contiguousCount) (pushRange result (physical, contiguousCount))
    | none => none
  else some result
termination_by remaining
decreasing_by
  have h := find_contains _hf
  omega

def translateRange (t : ByteMappingTable) (virtualStart byteCount : Nat) : Option (List Range) := do
  let stop ← checkedAdd 64 virtualStart byteCount
  if stop > t.totalBytes then none else rangeLoop t virtualStart byteCount []

end ByteMappingTable

/-- Two neighbours that `optimize` merges. -/
def ByteMapping.Mergeable (a b : ByteMapping) : Prop :=
  a.virtualEnd = b.virtualStart ∧ wrappingAdd 64 a.physicalStart a.byteCount = b.physicalStart

instance (a b : ByteMapping) : Decidable (a.Mergeable b) := inferInstanceAs (Decidable (_ ∧ _))

def joinEntries (a b : ByteMapping) : Option ByteMapping :=
  if a.Mergeable b then some { a with virtualEnd := b.virtualEnd } else none

theorem joinEntries_eq_some {a b joined : ByteMapping} :
    joinEntries a b = some joined ↔ a.Mergeable b ∧ joined = { a with virtualEnd := b.virtualEnd } := by
  unfold joinEntries
  split
  · next h => simp [h, eq_comm]
  · next h => simp [h]

theorem joinEntries_eq_none {a b : ByteMapping} : joinEntries a b = none ↔ ¬ a.Mergeable b := by
  simp [joinEntries]

/-- The merging pass is a run of the general one. -/
theorem mergeFrom_eq (current : ByteMapping) (ms : List ByteMapping) :
    ByteMappingTable.mergeFrom current ms = coalesce joinEntries current ms := by
  induction ms generalizing current with
  | nil => rfl
  | cons m ms ih =>
      rw [ByteMappingTable.mergeFrom, coalesce]
      by_cases h : current.Mergeable m
      · rw [joinEntries_eq_some.mpr ⟨h, rfl⟩]
        exact (if_pos h).trans (ih _)
      · rw [joinEntries_eq_none.mpr h]
        exact (if_neg h).trans (congrArg (current :: ·) (ih m))

/-- What holds of all entries and passes to merged ones holds behind `optimize`. -/
theorem optimize_forall {P : ByteMapping → Prop} {t : ByteMappingTable}
    (hjoin : ∀ a b, P a → P b → P { a with virtualEnd := b.virtualEnd }) (h : ∀ m ∈ t.mappings, P m) :
    ∀ m ∈ t.optimize.mappings, P m := by
  unfold ByteMappingTable.optimize
  split
  · exact h
  · have hperm := List.mergeSort_perm t.mappings fun a b => decide (a.virtualStart ≤ b.virtualStart)
    split
    · exact h
    · next m ms hs =>
        rw [hs] at hperm
        rw [mergeFrom_eq]
        apply coalesce_forall
        · intro a b joined ha hb hsome
          rw [(joinEntries_eq_some.mp hsome).2]
          exact hjoin a b ha hb
        · exact fun a ha => h a (hperm.mem_iff.mp ha)

/-- An entry of the block table has the fields and the code of an entry of the byte table, and counts blocks. -/
abbrev LbaMapping := ByteMapping

namespace LbaMapping

def new (virtualStart count physicalStart : Nat) : LbaMapping := ByteMapping.new virtualStart count physicalStart

def translate (m : LbaMapping) (virtualLba : Nat) : Option Nat := ByteMapping.translate m virtualLba

end LbaMapping

/-- A block table; whatever builds or extends one raises the total to the end of every segment. -/
structure MappingTable where
  mappings : List LbaMapping
  totalBlocks : Nat
  ends_le : ∀ m ∈ mappings, m.virtualEnd ≤ totalBlocks

namespace MappingTable

def empty : MappingTable := ⟨[], 0, by simp⟩

def contiguous (startLba blockCount : Nat) : MappingTable where
  mappings := [LbaMapping.new 0 blockCount startLba]
  totalBlocks := blockCount
  ends_le := by
    intro m hm
    rw [List.mem_singleton.mp hm]
    exact (Nat.mod_le _ _).trans (Nat.zero_add blockCount).le

def addSegment (t : MappingTable) (virtualStart count physicalStart : Nat) : MappingTable where
  mappings := t.mappings ++ [LbaMapping.new virtualStart count physicalStart]
  totalBlocks := max t.totalBlocks (wrappingAdd 64 virtualStart count)
  ends_le := by
    intro m hm
    rcases List.mem_append.mp hm with hm | hm
    · exact (t.ends_le m hm).trans (Nat.le_max_left _ _)
    · rw [List.mem_singleton.mp hm]
      exact Nat.le_max_right _ _

def withSegments (segments : List Extent) : MappingTable :=
  segments.foldl (fun t s => t.addSegment s.1 s.2.1 s.2.2) empty

def translate (t : MappingTable) (virtualLba : Nat) : Option Nat :=
  t.mappings.findSome? fun m => LbaMapping.translate m virtualLba

/-- The inner loop of `translate_range`: how many blocks from `current` on lie one behind the other. -/
def contiguousLoop (t : MappingTable) (current physical remaining contiguousCount : Nat) : Nat :=
  if contiguousCount < remaining then
    if t.translate (wrappingAdd 64 current contiguousCount) ≠ some (wrappingAdd 64 physical contiguousCount) then
      contiguousCount
    else contiguousLoop t current physical remaining (contiguousCount + 1)
  else contiguousCount
termination_by remaining - contiguousCount

theorem le_contiguousLoop (t : MappingTable) (current physical remaining contiguousCount : Nat) :
    contiguousCount ≤ t.contiguousLoop current physical remaining contiguousCount := by
  fun_induction contiguousLoop t current physical remaining contiguousCount with
  | case1 => exact Nat.le_refl _
  | case2 count hlt hnext ih => exact (Nat.le_succ count).trans ih
  | case3 => exact Nat.le_refl _

def rangeLoop (t : MappingTable) (current remaining : Nat) (result : List ByteMappingTable.Range) :
    Option (List ByteMappingTable.Range) :=
  if _hpos : 0 < remaining then
    match t.translate current with
    | some physical =>
        let contiguousCount := t.contiguousLoop current physical remaining 1
        rangeLoop t (wrappingAdd 64 current contiguousCount) (remaining - contiguousCount)
          (result ++ [(physical, contiguousCount)])
    | none => none
  else some result
termination_by remaining
decreasing_by
  have h := t.le_contiguousLoop current physical remaining 1
  omega

def translateRange (t : MappingTable) (virtualStart count : Nat) : Option (List ByteMappingTable.Range) :=
  t.rangeLoop virtualStart count []

/-- `optimize` has the same text for both tables. -/
def optimize (t : MappingTable) : MappingTable where
  mappings := (ByteMappingTable.optimize ⟨t.mappings, t.totalBlocks⟩).mappings
  totalBlocks := t.totalBlocks
  ends_le := optimize_forall (fun _ _ _ hb => hb) t.ends_le

end MappingTable

end NextBoot.Virtio.Mapping
