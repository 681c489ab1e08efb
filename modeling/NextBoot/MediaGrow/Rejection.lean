import NextBoot.MediaGrow.Table

namespace NextBoot.MediaGrow

open Results Words Bytes BlockStore

/-- The plan asks for both updates, the partition table update changes the media, and the walk to the allocation bitmap
entry that follows it rejects the volume. -/
def RejectedLate (m : Media) : Prop :=
  ∃ p reason, planMediaGrowth m = .ok (some p) ∧ p.needsGpt ∧ p.needsExfat ∧
    (m.apply (gptWrites m.blockSize p)).content ≠ m.content ∧
    planExfatWrites (m.apply (gptWrites m.blockSize p)) p.data p.growth = .error (.invalid reason)

theorem growthWrites_eq_error {m : Media} {p : MediaPlan} {e : GrowError} (h : growthWrites m p = .error e) :
    p.needsExfat ∧ planExfatWrites (m.apply (tableWrites m p)) p.data p.growth = .error e := by
  unfold growthWrites at h
  split at h
  · next hneeds =>
      cases hvol : planExfatWrites (m.apply (tableWrites m p)) p.data p.growth with
      | error e' =>
          rw [hvol] at h
          exact ⟨hneeds, congrArg _ (Except.error.inj h)⟩
      | ok volume =>
          rw [hvol] at h
          cases h
  · cases h

theorem runGrowth_of_growthWrites_error {m : Media} {p : MediaPlan} {e : GrowError}
    (hplan : planMediaGrowth m = .ok (some p)) (h : growthWrites m p = .error e) :
    runGrowth m = (.error e, ⟨m.apply (tableWrites m p), tableWrites m p⟩) := by
  have hexfat := (growthWrites_eq_error h).1
  rw [runGrowth_eq, hplan]
  simp only [h, hexfat, not_true_eq_false, and_false, if_false]

/-- A failed run left the media of its plan: unchanged, or with the partition table written. -/
theorem runGrowth_error {m : Media} {e : GrowError} (h : (runGrowth m).1 = .error e) :
    (runGrowth m).2.media = m ∨
      ∃ p, planMediaGrowth m = .ok (some p) ∧ p.needsGpt ∧ p.needsExfat ∧
        planExfatWrites (m.apply (gptWrites m.blockSize p)) p.data p.growth = .error e ∧
        (runGrowth m).2.media = m.apply (gptWrites m.blockSize p) := by
  cases hplan : planMediaGrowth m with
  | error e' =>
      left
      rw [runGrowth_eq, hplan]
  | ok plan =>
      cases plan with
      | none =>
          left
          rw [runGrowth_eq, hplan]
      | some p =>
          cases hw : growthWrites m p with
          | ok ws =>
              rw [runGrowth_eq, hplan] at h
              simp only [hw] at h
              split at h <;> cases h
          | error e' =>
              have hrun := runGrowth_of_growthWrites_error hplan hw
              obtain ⟨hexfat, hvol⟩ := growthWrites_eq_error hw
              rw [hrun] at h ⊢
              cases h
              by_cases hgpt : p.needsGpt
              · right
                rw [tableWrites, if_pos hgpt] at hvol ⊢
                exact ⟨p, rfl, hgpt, hexfat, hvol, rfl⟩
              · left
                rw [tableWrites, if_neg hgpt]
                rfl

/-- A release whose root directory has no allocation bitmap entry. -/
def bareRelease : Release := { enlargedRelease with root := 0 }

end NextBoot.MediaGrow
