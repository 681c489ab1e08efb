import Mathlib.Data.List.Chain

namespace NextBoot.Coalescing

variable {α β : Type} (join : α → α → Option α)

/-- Join every item of a list to the one before it where the two can be joined; `current` is the item being extended. -/
def coalesce (current : α) : List α → List α
  | [] => [current]
  | a :: as =>
      match join current a with
      | some joined => coalesce joined as
      | none => current :: coalesce a as

/-- No item of the list can be joined to the one before it. -/
def Unjoinable (as : List α) : Prop := as.IsChain fun a b => join a b = none

/-- An item that is extended can be joined to the same items before it. -/
def KeepsLeft : Prop := ∀ a b joined, join a b = some joined → ∀ x, join x joined = none ↔ join x a = none

variable {join} {current : α} {as : List α}

theorem coalesce_head (hleft : KeepsLeft join) :
    ∃ head rest, coalesce join current as = head :: rest ∧ ∀ x, join x head = none ↔ join x current = none := by
  induction as generalizing current with
  | nil => exact ⟨current, [], rfl, fun x => Iff.rfl⟩
  | cons a as ih =>
      rw [coalesce]
      split
      · next joined hjoin =>
          obtain ⟨head, rest, heq, hhead⟩ := @ih joined
          exact ⟨head, rest, heq, fun x => (hhead x).trans (hleft _ _ _ hjoin x)⟩
      · exact ⟨current, coalesce join a as, rfl, fun x => Iff.rfl⟩

theorem coalesce_unjoinable (hleft : KeepsLeft join) : Unjoinable join (coalesce join current as) := by
  induction as generalizing current with
  | nil => exact List.isChain_singleton current
  | cons a as ih =>
      rw [coalesce]
      split
      · exact ih
      · next hnone =>
          obtain ⟨head, rest, heq, hhead⟩ := @coalesce_head _ _ a as hleft
          have hrest := @ih a
          rw [heq] at hrest ⊢
          exact List.isChain_cons_cons.mpr ⟨(hhead current).mpr hnone, hrest⟩

theorem coalesce_of_unjoinable (h : Unjoinable join (current :: as)) : coalesce join current as = current :: as := by
  induction as generalizing current with
  | nil => rfl
  | cons a as ih =>
      obtain ⟨hnone, hrest⟩ := List.isChain_cons_cons.mp h
      rw [coalesce, hnone]
      exact congrArg (current :: ·) (ih hrest)

/-- What holds of all items, and of joined ones, holds of the result. -/
theorem coalesce_forall {P : α → Prop} (hjoin : ∀ a b joined, P a → P b → join a b = some joined → P joined)
    (h : ∀ a ∈ current :: as, P a) : ∀ a ∈ coalesce join current as, P a := by
  induction as generalizing current with
  | nil => exact h
  | cons b as ih =>
      obtain ⟨hcurrent, hb, has⟩ : P current ∧ P b ∧ ∀ a ∈ as, P a := by simpa using h
      rw [coalesce]
      split
      · next joined hsome => exact ih (List.forall_mem_cons.mpr ⟨hjoin _ _ _ hcurrent hb hsome, has⟩)
      · exact List.forall_mem_cons.mpr ⟨hcurrent, ih (List.forall_mem_cons.mpr ⟨hb, has⟩)⟩

/-- The keys of the result are keys of the list, in its order. -/
theorem coalesce_keys {key : α → β} (hkey : ∀ a b joined, join a b = some joined → key joined = key a) :
    ((coalesce join current as).map key).Sublist ((current :: as).map key) := by
  induction as generalizing current with
  | nil => exact List.Sublist.refl _
  | cons a as ih =>
      rw [coalesce]
      split
      · next joined hjoin =>
          have hsub := @ih joined
          rw [List.map_cons, hkey _ _ _ hjoin] at hsub
          exact hsub.trans (List.Sublist.cons_cons _ (List.sublist_cons_self _ _))
      · exact List.Sublist.cons_cons _ ih

/-- Joining loses nothing that the items answer when a joined item answers what its two parts do. -/
theorem coalesce_findSome? {P : α → Prop} {f : α → Option β}
    (hjoin : ∀ a b joined, P a → P b → join a b = some joined → P joined ∧ f joined = (f a).or (f b))
    (h : ∀ a ∈ current :: as, P a) : (coalesce join current as).findSome? f = (current :: as).findSome? f := by
  induction as generalizing current with
  | nil => rfl
  | cons b as ih =>
      obtain ⟨hcurrent, hb, has⟩ : P current ∧ P b ∧ ∀ a ∈ as, P a := by simpa using h
      rw [coalesce]
      split
      · next joined hsome =>
          obtain ⟨hP, hf⟩ := hjoin _ _ _ hcurrent hb hsome
          rw [ih (List.forall_mem_cons.mpr ⟨hP, has⟩), List.findSome?_cons, List.findSome?_cons, List.findSome?_cons, hf]
          cases f current <;> rfl
      · rw [List.findSome?_cons, List.findSome?_cons, ih (List.forall_mem_cons.mpr ⟨hb, has⟩)]

/-- The first answer does not depend on the order when there is only one. -/
theorem findSome?_perm {bs : List α} {f : α → Option β} (hperm : as.Perm bs)
    (hone : ∀ a ∈ as, ∀ b ∈ as, ∀ x y, f a = some x → f b = some y → x = y) : as.findSome? f = bs.findSome? f := by
  cases ha : as.findSome? f with
  | none =>
      rw [List.findSome?_eq_none_iff] at ha
      exact (List.findSome?_eq_none_iff.mpr fun b hb => ha b (hperm.mem_iff.mpr hb)).symm
  | some x =>
      obtain ⟨a, hmem, hx⟩ := List.exists_of_findSome?_eq_some ha
      cases hb : bs.findSome? f with
      | none =>
          rw [List.findSome?_eq_none_iff] at hb
          exact absurd hx (by simp [hb a (hperm.mem_iff.mp hmem)])
      | some y =>
          obtain ⟨b, hmem', hy⟩ := List.exists_of_findSome?_eq_some hb
          rw [hone a hmem b (hperm.mem_iff.mpr hmem') x y hx hy]

end NextBoot.Coalescing
