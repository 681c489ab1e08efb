import NextBoot.Faults
import NextBoot.MediaGrow.Exfat

namespace NextBoot.MediaGrow

open Results Words Faults Outcome

variable {oldBlocks availableBlocks heapOffset sectorsPerCluster fatCapacity : Nat} {plan : GrowthPlan}

def checkedDiv (a b : Nat) : Option Nat := if b = 0 then none else some (a / b)

theorem checkedDiv_eq {a b : Nat} (hb : 0 < b) : checkedDiv a b = some (a / b) :=
  if_neg hb.ne'

theorem checkedSub_eq {a b : Nat} (hb : b ≤ a) : checkedSub a b = some (a - b) :=
  if_pos hb

/-- `plan_growth` with every subtraction and division that could fault made to. -/
def planGrowthChecked (oldBlocks availableBlocks heapOffset sectorsPerCluster fatCapacity : Nat) :
    Outcome GrowError GrowthPlan := do
  ofExcept (rejectIf (availableBlocks < oldBlocks) "refusing to shrink existing exFAT volume")
  ofExcept (rejectIf (¬ sectorsPerCluster.isPowerOfTwo ∨ oldBlocks ≤ heapOffset) "invalid exFAT growth geometry")
  let capacity := min fatCapacity (2 ^ 32 - 1 - 2)
  let heapBlocks ← ofOption (checkedSub oldBlocks heapOffset)
  let oldClusters ← ofOption (checkedDiv heapBlocks sectorsPerCluster)
  ofExcept (rejectIf (oldClusters > capacity) "existing exFAT clusters exceed FAT capacity")
  let capacityBlocks ← ofExcept (okOr ((checkedMul 64 capacity sectorsPerCluster).bind (checkedAdd 64 · heapOffset))
    "exFAT growth overflows")
  let volumeBlocks := min availableBlocks (max capacityBlocks oldBlocks)
  let grownBlocks ← ofOption (checkedSub volumeBlocks heapOffset)
  let clusterCount ← ofOption (checkedDiv grownBlocks sectorsPerCluster)
  ofExcept (rejectIf (clusterCount < 16) "expanded exFAT cluster count is too small")
  return ⟨volumeBlocks, clusterCount % 2 ^ 32⟩

theorem ofExcept_rejectIf_bind {bad : Prop} [Decidable bad] {error : String} {α : Type} {f : Unit → Outcome GrowError α}
    {g : Unit → Except GrowError α} (h : ¬ bad → f () = ofExcept (g ())) :
    (ofExcept (rejectIf bad error) >>= f) = ofExcept (rejectIf bad error >>= g) := by
  by_cases hb : bad
  · simp only [rejectIf, hb, if_true]
    rfl
  · simp only [rejectIf, hb, if_false]
    exact h hb

theorem ofExcept_okOr_bind {β : Type} {o : Option β} {error : String} {α : Type} {f : β → Outcome GrowError α}
    {g : β → Except GrowError α} (h : ∀ b, o = some b → f b = ofExcept (g b)) :
    (ofExcept (okOr o error) >>= f) = ofExcept (okOr o error >>= g) := by
  cases o with
  | none => rfl
  | some b => exact h b rfl

/-- The guards rule out every fault: the subtractions follow `heap_offset < old_blocks <= available_blocks`. -/
theorem planGrowthChecked_eq (oldBlocks availableBlocks heapOffset sectorsPerCluster fatCapacity : Nat) :
    planGrowthChecked oldBlocks availableBlocks heapOffset sectorsPerCluster fatCapacity =
      ofExcept (planGrowth oldBlocks availableBlocks heapOffset sectorsPerCluster fatCapacity) := by
  apply ofExcept_rejectIf_bind
  intro hshrink
  apply ofExcept_rejectIf_bind
  intro hgeometry
  simp only [not_or, not_not, Nat.not_le] at hgeometry
  obtain ⟨hpower, hheap⟩ := hgeometry
  have hpos : 0 < sectorsPerCluster := Nat.pos_of_isPowerOfTwo hpower
  rw [checkedSub_eq hheap.le, ofOption_some, value_bind, checkedDiv_eq hpos, ofOption_some, value_bind]
  apply ofExcept_rejectIf_bind
  intro hold
  apply ofExcept_okOr_bind
  intro capacityBlocks hcapacity
  have hheap' : heapOffset ≤ min availableBlocks (max capacityBlocks oldBlocks) := by omega
  dsimp only
  rw [checkedSub_eq hheap', ofOption_some, value_bind, checkedDiv_eq hpos, ofOption_some, value_bind]
  apply ofExcept_rejectIf_bind
  intro hmin
  rfl

/-- The bounds that a plan keeps, against the volume it grows, the media and the allocation table. -/
structure PlanBounds (oldBlocks availableBlocks heapOffset sectorsPerCluster fatCapacity : Nat) (plan : GrowthPlan) :
    Prop where
  noShrink : oldBlocks ≤ plan.volumeBlocks
  onMedia : plan.volumeBlocks ≤ availableBlocks
  clustersInside : heapOffset + plan.clusterCount * sectorsPerCluster ≤ plan.volumeBlocks
  clustersKept : (oldBlocks - heapOffset) / sectorsPerCluster ≤ plan.clusterCount
  fatFits : plan.clusterCount ≤ min fatCapacity (2 ^ 32 - 1 - 2)
  lossless : plan.clusterCount = (plan.volumeBlocks - heapOffset) / sectorsPerCluster

theorem PlanAccepted.bounds
    (h : PlanAccepted oldBlocks availableBlocks heapOffset sectorsPerCluster fatCapacity plan) :
    PlanBounds oldBlocks availableBlocks heapOffset sectorsPerCluster fatCapacity plan := by
  have hvolume := h.volumeBlocks
  have hshrink := h.noShrink
  have hheap := h.heapInside
  have hkept : oldBlocks ≤ plan.volumeBlocks := by omega
  have hmul : plan.clusterCount * sectorsPerCluster ≤ plan.volumeBlocks - heapOffset := by
    rw [h.clusterCount]
    exact Nat.div_mul_le_self _ _
  refine ⟨hkept, by omega, by omega, ?_, ?_, h.clusterCount⟩
  · rw [h.clusterCount]
    exact Nat.div_le_div_right (by omega)
  · rw [h.clusterCount, hvolume]
    exact grown_fits availableBlocks (Nat.pos_of_isPowerOfTwo h.powerOfTwo) h.oldFits

/-- More media never takes anything away from a plan. -/
theorem PlanAccepted.grow {availableBlocks' : Nat}
    (h : PlanAccepted oldBlocks availableBlocks heapOffset sectorsPerCluster fatCapacity plan)
    (hle : availableBlocks ≤ availableBlocks') :
    ∃ plan', PlanAccepted oldBlocks availableBlocks' heapOffset sectorsPerCluster fatCapacity plan' ∧
      plan.volumeBlocks ≤ plan'.volumeBlocks ∧ plan.clusterCount ≤ plan'.clusterCount := by
  have hvolume := h.volumeBlocks
  have hshrink := h.noShrink
  set volume := min availableBlocks' (max (min fatCapacity (2 ^ 32 - 1 - 2) * sectorsPerCluster + heapOffset) oldBlocks)
    with hv
  have hmono : plan.volumeBlocks ≤ volume := by omega
  have hcount : (plan.volumeBlocks - heapOffset) / sectorsPerCluster ≤ (volume - heapOffset) / sectorsPerCluster :=
    Nat.div_le_div_right (by omega)
  refine ⟨⟨volume, (volume - heapOffset) / sectorsPerCluster⟩, ?_, hmono, ?_⟩
  · exact ⟨by omega, h.powerOfTwo, h.heapInside, h.oldFits, h.capacityFits, rfl, rfl, h.enough.trans hcount⟩
  · rw [h.clusterCount]
    exact hcount

theorem planGrowth_sound (oldBlocks availableBlocks heapOffset sectorsPerCluster fatCapacity : Nat) :
    (planGrowthChecked oldBlocks availableBlocks heapOffset sectorsPerCluster fatCapacity).NoFault ∧
    ∀ plan, planGrowthChecked oldBlocks availableBlocks heapOffset sectorsPerCluster fatCapacity = .value plan →
      PlanBounds oldBlocks availableBlocks heapOffset sectorsPerCluster fatCapacity plan ∧
      (∀ availableBlocks', availableBlocks ≤ availableBlocks' → ∃ plan',
        planGrowthChecked oldBlocks availableBlocks' heapOffset sectorsPerCluster fatCapacity = .value plan' ∧
        plan.volumeBlocks ≤ plan'.volumeBlocks ∧ plan.clusterCount ≤ plan'.clusterCount) ∧
      planGrowthChecked plan.volumeBlocks availableBlocks heapOffset sectorsPerCluster fatCapacity = .value plan := by
  simp only [planGrowthChecked_eq, noFault_ofExcept, ofExcept_eq_value, planGrowth_eq_ok, true_and]
  intro plan h
  exact ⟨h.bounds, fun _ hle => h.grow hle, h.again⟩

theorem planGrowth_sound_capped :
    planGrowthChecked 1003 20003 100 8 1000 = .value ⟨8100, 1000⟩ ∧
    PlanBounds 1003 20003 100 8 1000 ⟨8100, 1000⟩ ∧
    planGrowthChecked 8100 20003 100 8 1000 = .value ⟨8100, 1000⟩ := by
  have h : planGrowthChecked 1003 20003 100 8 1000 = .value ⟨8100, 1000⟩ := by
    rw [planGrowthChecked_eq, ofExcept_eq_value, planGrowth_eq_ok]
    exact ⟨by decide, ⟨3, rfl⟩, by decide, by decide, by decide, by decide, by decide, by decide⟩
  obtain ⟨hbounds, -, hagain⟩ := (planGrowth_sound 1003 20003 100 8 1000).2 _ h
  exact ⟨h, hbounds, hagain⟩

end NextBoot.MediaGrow
