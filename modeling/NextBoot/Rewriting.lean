import NextBoot.Bytes
import Mathlib.Data.Finset.Card

namespace NextBoot.Rewriting

open Bytes

variable {α : Type}

def occursAt (size : Nat) (test : List α → Bool) (xs : List α) (at' : Nat) : Bool := (slice xs at' size).any test

/-- A pattern of one size with a replacement of that size, whose occurrences never overlap and whose replacement neither
is one nor helps to form one. -/
structure Rule (α : Type) where
  size : Nat
  test : List α → Bool
  replacement : List α
  size_pos : 0 < size
  length_replacement : replacement.length = size
  apart : ∀ {xs i j}, i < j → j < i + size → occursAt size test xs i = true → occursAt size test xs j = false
  settled : ∀ {xs i j}, i + size ≤ xs.length → i < j + size → j < i + size →
    occursAt size test (splice xs i replacement) j = false

variable (R : Rule α)

def Rule.Occurs (xs : List α) (at' : Nat) : Prop := occursAt R.size R.test xs at' = true

instance (xs : List α) (at' : Nat) : Decidable (R.Occurs xs at') := inferInstanceAs (Decidable (_ = true))

def Rule.step (s : Nat × List α) (at' : Nat) : Nat × List α :=
  if R.Occurs s.2 at' then (s.1 + 1, splice s.2 at' R.replacement) else s

/-- Replace in place from left to right, and count the replacements. -/
def Rule.scan (xs : List α) : Nat × List α := (List.range (xs.length + 1 - R.size)).foldl R.step (0, xs)

/-- The buffer and the counter when the scan is done with the offsets below `k`. -/
structure Rule.Scanned (xs : List α) (k : Nat) (s : Nat × List α) : Prop where
  length_eq : s.2.length = xs.length
  occurs_iff : ∀ j, R.Occurs s.2 j ↔ R.Occurs xs j ∧ k ≤ j
  replaced : ∀ j < k, R.Occurs xs j → slice s.2 j R.size = some R.replacement
  frame : ∀ i, (∀ j < k, R.Occurs xs j → i < j ∨ j + R.size ≤ i) → s.2[i]? = xs[i]?
  count : s.1 = ((Finset.range k).filter (R.Occurs xs)).card

variable {R} {xs ys : List α} {s : Nat × List α} {i j k : Nat}

theorem Rule.Occurs.inside (h : R.Occurs xs i) : i + R.size ≤ xs.length := by
  unfold Rule.Occurs occursAt at h
  cases hw : slice xs i R.size with
  | none => simp [hw] at h
  | some w => exact (slice_isSome_iff.mp hw).1

theorem occurs_congr (h : slice xs i R.size = slice ys i R.size) : R.Occurs xs i ↔ R.Occurs ys i := by
  unfold Rule.Occurs occursAt
  rw [h]

/-- Two occurrences are the same one, or do not touch. -/
theorem Rule.Occurs.apart (hi : R.Occurs xs i) (hj : R.Occurs xs j) (hij : i < j) : i + R.size ≤ j := by
  by_contra hover
  have hno := R.apart hij (by omega) hi
  exact Bool.false_ne_true (hno.symm.trans hj)

theorem not_occurs_splice (hi : i + R.size ≤ xs.length) (h₁ : i < j + R.size) (h₂ : j < i + R.size) :
    ¬ R.Occurs (splice xs i R.replacement) j := by
  unfold Rule.Occurs
  rw [R.settled hi h₁ h₂]
  exact Bool.false_ne_true

theorem scanned_zero : R.Scanned xs 0 (0, xs) where
  length_eq := rfl
  occurs_iff := by simp
  replaced := by simp
  frame := by simp
  count := by simp

theorem Rule.Scanned.skip (h : R.Scanned xs k s) (hk : ¬ R.Occurs s.2 k) : R.Scanned xs (k + 1) s := by
  have hxs : ¬ R.Occurs xs k := fun hocc => hk ((h.occurs_iff k).mpr ⟨hocc, Nat.le_refl k⟩)
  have hlt : ∀ j < k + 1, R.Occurs xs j → j < k := by
    intro j hj hocc
    have hne : j ≠ k := fun he => hxs (he ▸ hocc)
    omega
  constructor
  case length_eq => exact h.length_eq
  case occurs_iff =>
    intro j
    rw [h.occurs_iff]
    constructor
    · rintro ⟨hocc, hle⟩
      have hne : j ≠ k := fun he => hxs (he ▸ hocc)
      exact ⟨hocc, by omega⟩
    · rintro ⟨hocc, hle⟩
      exact ⟨hocc, by omega⟩
  case replaced =>
    intro j hj hocc
    exact h.replaced j (hlt j hj hocc) hocc
  case frame =>
    intro i hi
    exact h.frame i fun j hj => hi j (by omega)
  case count => rw [h.count, Finset.range_add_one, Finset.filter_insert, if_neg hxs]

theorem Rule.Scanned.replace (h : R.Scanned xs k s) (hk : R.Occurs s.2 k) :
    R.Scanned xs (k + 1) (s.1 + 1, splice s.2 k R.replacement) := by
  have hxs : R.Occurs xs k := ((h.occurs_iff k).mp hk).1
  have hin : k + R.replacement.length ≤ s.2.length := by
    rw [R.length_replacement]
    exact hk.inside
  have hpos := R.size_pos
  have hlen := R.length_replacement
  constructor
  case length_eq => exact (length_splice _ _ _ hin).trans h.length_eq
  case occurs_iff =>
    intro j
    by_cases hover : k < j + R.size ∧ j < k + R.size
    · constructor
      · intro hocc
        exact absurd hocc (not_occurs_splice hk.inside hover.1 hover.2)
      · rintro ⟨hocc, hle⟩
        have hapart := hxs.apart hocc (by omega)
        omega
    · rw [occurs_congr (slice_splice_disjoint hin (by omega)), h.occurs_iff]
      have hiff : k ≤ j ↔ k + 1 ≤ j := by omega
      rw [hiff]
  case replaced =>
    intro j hj hocc
    by_cases he : j = k
    · rw [he, ← hlen]
      exact slice_splice_self hin
    · have hapart := hocc.apart hxs (by omega)
      rw [slice_splice_disjoint hin (by omega)]
      exact h.replaced j (by omega) hocc
  case frame =>
    intro i hi
    have hout := hi k (by omega) hxs
    rw [getElem?_splice _ _ _ hin, if_neg (by omega)]
    exact h.frame i fun j hj => hi j (by omega)
  case count =>
    rw [h.count, Finset.range_add_one, Finset.filter_insert, if_pos hxs, Finset.card_insert_of_notMem]
    simp

theorem Rule.Scanned.step (h : R.Scanned xs k s) : R.Scanned xs (k + 1) (R.step s k) := by
  unfold Rule.step
  split
  · next hk => exact h.replace hk
  · next hk => exact h.skip hk

theorem scanned_range (n : Nat) : R.Scanned xs n ((List.range n).foldl R.step (0, xs)) := by
  induction n with
  | zero => exact scanned_zero
  | succ n ih =>
      rw [List.range_succ, List.foldl_append]
      exact ih.step

/-- What a whole scan does: the occurrences of the buffer become the replacement, and nothing else changes. -/
theorem scan_scanned (xs : List α) : R.Scanned xs (xs.length + 1 - R.size) (R.scan xs) := scanned_range _

theorem Rule.Occurs.lt (h : R.Occurs xs i) : i < xs.length + 1 - R.size := by
  have hin := h.inside
  omega

theorem not_occurs_scan (j : Nat) : ¬ R.Occurs (R.scan xs).2 j := by
  intro h
  obtain ⟨hocc, hle⟩ := ((scan_scanned xs).occurs_iff j).mp h
  have hlt := hocc.lt
  omega

theorem foldl_step_of_none (h : ∀ j, ¬ R.Occurs s.2 j) (offsets : List Nat) : offsets.foldl R.step s = s := by
  induction offsets with
  | nil => rfl
  | cons j offsets ih =>
      rw [List.foldl_cons, Rule.step, if_neg (h j)]
      exact ih

theorem scan_scan (xs : List α) : R.scan (R.scan xs).2 = (0, (R.scan xs).2) := by
  have hnone : ∀ j, ¬ R.Occurs (0, (R.scan xs).2).2 j := not_occurs_scan
  exact foldl_step_of_none hnone _

end NextBoot.Rewriting
