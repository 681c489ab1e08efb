import NextBoot.BlockStore

namespace NextBoot.Tiling

open BlockStore

variable {α β : Type} (start len : α → Nat)

def Covers (x : α) (i : Nat) : Prop := start x ≤ i ∧ i < start x + len x

instance (x : α) (i : Nat) : Decidable (Covers start len x i) := inferInstanceAs (Decidable (_ ∧ _))

/-- The pieces lie end to end from `lo` to `hi`, and none of them is empty. -/
def Tiles : List α → Nat → Nat → Prop
  | [], lo, hi => lo = hi
  | x :: xs, lo, hi => start x = lo ∧ 0 < len x ∧ Tiles xs (lo + len x) hi

/-- The pieces follow one another from `lo` on, with gaps allowed between them. -/
def Ordered : List α → Nat → Prop
  | [], _ => True
  | x :: xs, lo => lo ≤ start x ∧ Ordered xs (start x + len x)

def locate (xs : List α) (i : Nat) : Option α := xs.find? fun x => decide (Covers start len x i)

/-- What the pieces hold of the range from `a` to `b`, packed together in their order. -/
def gather (f : Nat → β) (a b : Nat) : List α → List β
  | [] => []
  | x :: xs => window f (max a (start x)) (min b (start x + len x) - max a (start x)) ++ gather f a b xs

variable {start len} {xs ys : List α} {x : α} {lo mid hi i : Nat}

theorem tiles_append : Tiles start len (xs ++ ys) lo hi ↔
    ∃ mid, Tiles start len xs lo mid ∧ Tiles start len ys mid hi := by
  induction xs generalizing lo with
  | nil => simp [Tiles]
  | cons x xs ih => simp [Tiles, ih, and_assoc]

theorem tiles_snoc : Tiles start len (xs ++ [x]) lo hi ↔
    Tiles start len xs lo (start x) ∧ 0 < len x ∧ start x + len x = hi := by
  rw [tiles_append]
  constructor
  · rintro ⟨mid, hxs, rfl, hpos, hhi⟩
    exact ⟨hxs, hpos, hhi⟩
  · rintro ⟨hxs, hpos, hhi⟩
    exact ⟨start x, hxs, rfl, hpos, hhi⟩

theorem Tiles.le (h : Tiles start len xs lo hi) : lo ≤ hi := by
  induction xs generalizing lo with
  | nil => exact Nat.le_of_eq h
  | cons x xs ih =>
      obtain ⟨-, -, h⟩ := h
      have hle := ih h
      omega

theorem Tiles.stop_unique {hi' : Nat} (h : Tiles start len xs lo hi) (h' : Tiles start len xs lo hi') : hi = hi' := by
  induction xs generalizing lo with
  | nil => exact h.symm.trans h'
  | cons x xs ih => exact ih h.2.2 h'.2.2

theorem Tiles.ordered (h : Tiles start len xs lo hi) : Ordered start len xs lo := by
  induction xs generalizing lo with
  | nil => trivial
  | cons x xs ih =>
      obtain ⟨rfl, -, h⟩ := h
      exact ⟨Nat.le_refl _, ih h⟩

theorem Tiles.stop_le (h : Tiles start len xs lo hi) (hx : x ∈ xs) : start x + len x ≤ hi := by
  induction xs generalizing lo with
  | nil => cases hx
  | cons y ys ih =>
      obtain ⟨rfl, -, h⟩ := h
      rcases List.mem_cons.mp hx with rfl | hx
      · exact h.le
      · exact ih h hx

theorem Tiles.pos (h : Tiles start len xs lo hi) (hx : x ∈ xs) : 0 < len x := by
  induction xs generalizing lo with
  | nil => cases hx
  | cons y ys ih =>
      obtain ⟨-, hpos, h⟩ := h
      rcases List.mem_cons.mp hx with rfl | hx
      · exact hpos
      · exact ih h hx

theorem Ordered.le_start (h : Ordered start len xs lo) (hx : x ∈ xs) : lo ≤ start x := by
  induction xs generalizing lo with
  | nil => cases hx
  | cons y ys ih =>
      obtain ⟨hy, hys⟩ := h
      rcases List.mem_cons.mp hx with rfl | hx
      · exact hy
      · have hle := ih hys hx
        omega

theorem Ordered.mono (h : Ordered start len xs mid) (hle : lo ≤ mid) : Ordered start len xs lo := by
  cases xs with
  | nil => trivial
  | cons x xs => exact ⟨Nat.le_trans hle h.1, h.2⟩

theorem Ordered.locate_eq_some (h : Ordered start len xs lo) (hx : x ∈ xs) (hi : Covers start len x i) :
    locate start len xs i = some x := by
  induction xs generalizing lo with
  | nil => cases hx
  | cons y ys ih =>
      obtain ⟨-, hys⟩ := h
      rcases List.mem_cons.mp hx with rfl | hx
      · exact List.find?_cons_of_pos (by simpa using hi)
      · have hle := hys.le_start hx
        have hy : ¬ Covers start len y i := fun hy => by
          have h₁ := hy.2
          have h₂ := hi.1
          omega
        rw [locate, List.find?_cons_of_neg (by simpa using hy)]
        exact ih hys hx

theorem locate_mem (h : locate start len xs i = some x) : x ∈ xs ∧ Covers start len x i :=
  ⟨List.mem_of_find?_eq_some h, by simpa using List.find?_some h⟩

theorem Tiles.exists_covers (h : Tiles start len xs lo hi) (hlo : lo ≤ i) (hhi : i < hi) :
    ∃ x ∈ xs, Covers start len x i := by
  induction xs generalizing lo with
  | nil =>
      have heq : lo = hi := h
      omega
  | cons y ys ih =>
      obtain ⟨rfl, -, h⟩ := h
      by_cases hy : i < start y + len y
      · exact ⟨y, by simp, hlo, hy⟩
      · obtain ⟨x, hx, hc⟩ := ih h (by omega)
        exact ⟨x, List.mem_cons_of_mem _ hx, hc⟩

theorem Tiles.exists_locate (h : Tiles start len xs lo hi) (hlo : lo ≤ i) (hhi : i < hi) :
    ∃ x, locate start len xs i = some x := by
  obtain ⟨x, hx, hc⟩ := h.exists_covers hlo hhi
  exact ⟨x, h.ordered.locate_eq_some hx hc⟩

variable {f : Nat → β} {a b : Nat}

theorem gather_past (h : Ordered start len xs lo) (hb : b ≤ max a lo) : gather start len f a b xs = [] := by
  induction xs generalizing lo with
  | nil => rfl
  | cons x xs ih =>
      obtain ⟨hx, hxs⟩ := h
      rw [gather, ih hxs (by omega), show min b (start x + len x) - max a (start x) = 0 by omega]
      rfl

theorem gather_covered (h : Ordered start len xs lo)
    (hcovered : ∀ i, max a lo ≤ i → i < b → ∃ x ∈ xs, Covers start len x i) :
    gather start len f a b xs = window f (max a lo) (b - max a lo) := by
  induction xs generalizing lo with
  | nil =>
      have hempty : b - max a lo = 0 := by
        by_contra hne
        obtain ⟨x, hx, -⟩ := hcovered (max a lo) (Nat.le_refl _) (by omega)
        cases hx
      rw [hempty]
      rfl
  | cons x xs ih =>
      by_cases hpast : b ≤ max a lo
      · rw [gather_past h hpast, Nat.sub_eq_zero_of_le hpast]
        rfl
      · obtain ⟨hx, hxs⟩ := h
        -- the first position of the range lies in the first piece or behind it
        have hstart : start x ≤ max a lo := by
          obtain ⟨y, hy, hc⟩ := hcovered (max a lo) (Nat.le_refl _) (by omega)
          rcases List.mem_cons.mp hy with rfl | hy
          · exact hc.1
          · have hle := hxs.le_start hy
            have hlo := hc.1
            omega
        rw [gather, ih hxs]
        · rw [show max a (start x) = max a lo by omega]
          by_cases hempty : start x + len x ≤ max a lo
          · rw [show min b (start x + len x) - max a lo = 0 by omega, show max a (start x + len x) = max a lo by omega]
            rfl
          · rw [show max a (start x + len x) = start x + len x by omega]
            exact window_cut f (by omega)
        · intro i hlo hhi
          obtain ⟨y, hy, hc⟩ := hcovered i (by omega) hhi
          rcases List.mem_cons.mp hy with rfl | hy
          · have hlt := hc.2
            omega
          · exact ⟨y, hy, hc⟩

theorem length_gather_le (h : Ordered start len xs lo) : (gather start len f a b xs).length ≤ b - max a lo := by
  induction xs generalizing lo with
  | nil => exact Nat.zero_le _
  | cons x xs ih =>
      obtain ⟨hx, hxs⟩ := h
      have hle := ih hxs
      rw [gather, List.length_append, length_window]
      omega

/-- A position that no piece holds makes the gathered bytes too few. -/
theorem length_gather_lt (h : Ordered start len xs lo) (hlo : max a lo ≤ i) (hi : i < b)
    (hgap : ∀ x ∈ xs, ¬ Covers start len x i) : (gather start len f a b xs).length < b - max a lo := by
  induction xs generalizing lo with
  | nil =>
      rw [gather, List.length_nil]
      omega
  | cons x xs ih =>
      obtain ⟨hx, hxs⟩ := h
      rw [gather, List.length_append, length_window]
      by_cases hbefore : i < start x
      · have hle : (gather start len f a b xs).length ≤ _ := length_gather_le hxs
        omega
      · have hout : ¬ i < start x + len x := fun hlt => hgap x (by simp) ⟨by omega, hlt⟩
        have hlt := ih hxs (by omega) fun y hy => hgap y (List.mem_cons_of_mem _ hy)
        omega

end NextBoot.Tiling
