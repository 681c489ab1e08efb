import Mathlib.Data.List.Pairwise
import NextBoot.Bytes

namespace NextBoot.Pieces

/-- A range of places that is sent, in its order, to a range of the same length. -/
structure Piece where
  source : Nat
  target : Nat
  length : Nat
deriving DecidableEq, Repr

variable {α β : Type}

/-- No place is covered by both. -/
def Apart (covers : α → Nat → Prop) (x y : α) : Prop := ∀ i, covers x i → ¬ covers y i

def Piece.Holds (p : Piece) (a : Nat) : Prop := p.source ≤ a ∧ a < p.source + p.length

def Piece.place (p : Piece) (a : Nat) : Nat := p.target + (a - p.source)

def Sends (ps : List Piece) (a b : Nat) : Prop := ∃ p ∈ ps, p.Holds a ∧ p.place a = b

/-- Something of the piece is sent into a unit of the target. -/
def Piece.Touches (size : Nat) (p : Piece) (d : Nat) : Prop := ∃ a, p.Holds a ∧ p.place a / size = d

variable {covers : α → Nat → Prop} {covers' : β → Nat → Prop} {x y : α} {x' y' : β} {p : Piece} {ps : List Piece}
  {a b b' i size start len : Nat}

instance : Std.Symm (Apart covers) where
  symm _ _ h i hy hx := h i hx hy

theorem Piece.Holds.pos (h : p.Holds a) : 0 < p.length := by
  obtain ⟨hlow, hhigh⟩ := h
  omega

/-- A place lies in a range counted in units exactly when its unit does. -/
theorem range_scaled (hsize : 0 < size) : (start * size ≤ i ∧ i < start * size + len * size) ↔
    (start ≤ i / size ∧ i / size < start + len) := by
  rw [← Nat.add_mul, Nat.le_div_iff_mul_le hsize, Nat.div_lt_iff_lt_mul hsize]

theorem unit_of_scaled (hb : b < size) : (a * size + b) / size = a := by
  rw [Nat.add_comm, Nat.add_mul_div_right _ _ (Nat.zero_lt_of_lt hb), Nat.div_eq_of_lt hb, Nat.zero_add]

theorem scaled_sub (h : start ≤ a) : a * size + b - start * size = (a - start) * size + b := by
  rw [Nat.sub_add_comm (Nat.mul_le_mul_right size h), Nat.sub_mul]

theorem apart_congr (hx : ∀ i, covers' x' i ↔ covers x i) (hy : ∀ i, covers' y' i ↔ covers y i) :
    Apart covers' x' y' ↔ Apart covers x y := by
  simp only [Apart, hx, hy]

theorem apart_of_scaled (hsize : 0 < size) (hx : ∀ i, covers' x' i ↔ covers x (i / size))
    (hy : ∀ i, covers' y' i ↔ covers y (i / size)) : Apart covers' x' y' ↔ Apart covers x y := by
  constructor
  · intro h i hcovers hcovers'
    rw [← Nat.mul_div_cancel i hsize] at hcovers hcovers'
    exact h (i * size) ((hx _).mpr hcovers) ((hy _).mpr hcovers')
  · intro h i hcovers hcovers'
    exact h (i / size) ((hx i).mp hcovers) ((hy i).mp hcovers')

theorem touches_iff (hsize : 0 < size) (htarget : p.target = start * size) (hlength : p.length = len * size) :
    p.Touches size i ↔ start ≤ i ∧ i < start + len := by
  constructor
  · rintro ⟨a, ⟨hlow, hhigh⟩, rfl⟩
    rw [Piece.place, htarget]
    exact (range_scaled hsize).mp ⟨Nat.le_add_right _ _, by omega⟩
  · intro hi
    have hstart : start * size ≤ i * size := Nat.mul_le_mul_right size hi.1
    have hstop : (i + 1) * size ≤ (start + len) * size := Nat.mul_le_mul_right size hi.2
    rw [Nat.add_mul, Nat.add_mul, Nat.one_mul] at hstop
    refine ⟨p.source + (i - start) * size, ⟨Nat.le_add_right _ _, ?_⟩, ?_⟩
    · rw [hlength, Nat.sub_mul]
      omega
    · rw [Piece.place, htarget, Nat.add_sub_cancel_left, ← Nat.add_mul, Nat.add_sub_cancel' hi.1,
        Nat.mul_div_cancel _ hsize]

theorem sends_map {xs : List α} {g : α → Piece} :
    Sends (xs.map g) a b ↔ ∃ x ∈ xs, (g x).Holds a ∧ (g x).place a = b := by
  simp [Sends]

/-- Pieces that hold nothing send nothing. -/
theorem sends_filter {keep : Piece → Bool} (hkeep : ∀ p ∈ ps, 0 < p.length → keep p = true) :
    Sends (ps.filter keep) a b ↔ Sends ps a b := by
  constructor
  · rintro ⟨p, hp, hsends⟩
    exact ⟨p, (List.mem_filter.mp hp).1, hsends⟩
  · rintro ⟨p, hp, hholds, hplace⟩
    exact ⟨p, List.mem_filter.mpr ⟨hp, hkeep p hp hholds.pos⟩, hholds, hplace⟩

/-- Pieces whose sources are apart send each place to one place only. -/
theorem Sends.unique (hps : ps.Pairwise (Apart Piece.Holds)) (h : Sends ps a b) (h' : Sends ps a b') : b = b' := by
  obtain ⟨p, hp, hholds, rfl⟩ := h
  obtain ⟨q, hq, hholds', rfl⟩ := h'
  by_cases hpq : p = q
  · rw [hpq]
  · exact absurd hholds' (hps.forall hp hq hpq a hholds)

end NextBoot.Pieces
