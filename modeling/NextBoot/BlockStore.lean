import Mathlib.Data.List.Induction
import NextBoot.Bytes

namespace NextBoot.BlockStore

open Bytes

variable {α : Type}

/-- The cells of a store from `start` on, as a list. -/
def window (m : Nat → α) (start len : Nat) : List α := (List.range len).map fun i => m (start + i)

/-- One atomic write of consecutive cells. -/
structure Write (α : Type) where
  start : Nat
  cells : List α
deriving DecidableEq, Repr

def Write.stop (w : Write α) : Nat := w.start + w.cells.length

def Write.covers (w : Write α) (x : Nat) : Prop := w.start ≤ x ∧ x < w.stop

def write (m : Nat → α) (w : Write α) : Nat → α :=
  fun x => if w.start ≤ x then (w.cells[x - w.start]?).getD (m x) else m x

def applyWrites (m : Nat → α) (ws : List (Write α)) : Nat → α := ws.foldl write m

@[simp] theorem length_window (m : Nat → α) (start len : Nat) : (window m start len).length = len := by
  simp [window]

theorem getElem?_window (m : Nat → α) (start : Nat) {len i : Nat} (hi : i < len) :
    (window m start len)[i]? = some (m (start + i)) := by
  simp [window, hi]

theorem window_add (m : Nat → α) (start a b : Nat) :
    window m start (a + b) = window m start a ++ window m (start + a) b := by
  simp [window, List.range_add, Function.comp_def, Nat.add_assoc]

theorem window_split (m : Nat → α) {start a b : Nat} (h : a ≤ b) :
    window m start a ++ window m (start + a) (b - a) = window m start b := by
  rw [← window_add, Nat.add_sub_cancel' h]

theorem take_window (m : Nat → α) (start n k : Nat) : (window m start n).take k = window m start (min k n) := by
  rw [window, ← List.map_take, List.take_range, window]

theorem mem_window {m : Nat → α} {start len : Nat} {a : α} : a ∈ window m start len ↔ ∃ i < len, m (start + i) = a := by
  simp [window]

/-- A window cut at a point, which may lie behind its end. -/
theorem window_cut (m : Nat → α) {start stop cut : Nat} (h : start ≤ cut) :
    window m start (min stop cut - start) ++ window m cut (stop - cut) = window m start (stop - start) := by
  by_cases hcut : cut ≤ stop
  · rw [Nat.min_eq_right hcut, ← window_split m (show cut - start ≤ stop - start by omega)]
    congr 2 <;> omega
  · rw [Nat.min_eq_left (by omega), Nat.sub_eq_zero_of_le (show stop ≤ cut by omega)]
    exact List.append_nil _

theorem slice_window (m : Nat → α) (start : Nat) {n offset len : Nat} (h : offset + len ≤ n) :
    slice (window m start n) offset len = some (window m (start + offset) len) := by
  rw [slice_eq_some (by simpa using h)]
  congr 1
  apply List.ext_getElem?
  intro i
  by_cases hi : i < len
  · rw [List.getElem?_take_of_lt hi, List.getElem?_drop, getElem?_window m start (by omega),
      getElem?_window m _ hi, Nat.add_assoc]
  · rw [List.getElem?_eq_none (by simp only [List.length_take]; omega),
      List.getElem?_eq_none (by simp only [length_window]; omega)]

theorem window_congr {m m' : Nat → α} {start len : Nat}
    (h : ∀ x, start ≤ x → x < start + len → m x = m' x) : window m start len = window m' start len := by
  apply List.ext_getElem?
  intro i
  by_cases hi : i < len
  · rw [getElem?_window m start hi, getElem?_window m' start hi, h _ (by omega) (by omega)]
  · rw [List.getElem?_eq_none (by simp; omega), List.getElem?_eq_none (by simp; omega)]

theorem write_covered {m : Nat → α} {w : Write α} {x : Nat} (h : w.covers x) :
    w.cells[x - w.start]? = some (write m w x) := by
  have hlt : x - w.start < w.cells.length := by
    have := h.2
    have := h.1
    simp only [Write.stop] at *
    omega
  rw [write, if_pos h.1, List.getElem?_eq_getElem hlt, Option.getD_some]

theorem write_frame {m : Nat → α} {w : Write α} {x : Nat} (h : ¬ w.covers x) : write m w x = m x := by
  rw [write]
  split
  · next hle =>
      rw [List.getElem?_eq_none, Option.getD_none]
      simp only [Write.covers, Write.stop] at h
      omega
  · rfl

theorem write_congr {m m' : Nat → α} {w : Write α} {x : Nat} (h : w.covers x ∨ m x = m' x) :
    write m w x = write m' w x := by
  by_cases hc : w.covers x
  · exact Option.some.inj ((write_covered hc).symm.trans (write_covered hc))
  · rw [write_frame hc, write_frame hc]
    exact h.resolve_left hc

@[simp] theorem applyWrites_nil (m : Nat → α) : applyWrites m [] = m := rfl

@[simp] theorem applyWrites_cons (m : Nat → α) (w : Write α) (ws : List (Write α)) :
    applyWrites m (w :: ws) = applyWrites (write m w) ws := rfl

theorem applyWrites_append (m : Nat → α) (ws vs : List (Write α)) :
    applyWrites m (ws ++ vs) = applyWrites (applyWrites m ws) vs := List.foldl_append

theorem applyWrites_frame {ws : List (Write α)} {m : Nat → α} {x : Nat} (h : ∀ w ∈ ws, ¬ w.covers x) :
    applyWrites m ws x = m x := by
  induction ws generalizing m with
  | nil => rfl
  | cons w ws ih =>
      rw [applyWrites_cons, ih (fun v hv => h v (by simp [hv])), write_frame (h w (by simp))]

/-- After a list of writes a covered cell holds the last write to it, whatever it held before. -/
theorem applyWrites_congr {ws : List (Write α)} {m m' : Nat → α} {x : Nat}
    (h : (∃ w ∈ ws, w.covers x) ∨ m x = m' x) : applyWrites m ws x = applyWrites m' ws x := by
  induction ws generalizing m m' with
  | nil => simpa using h
  | cons w ws ih =>
      simp only [applyWrites_cons]
      apply ih
      by_cases hrest : ∃ v ∈ ws, v.covers x
      · exact .inl hrest
      · right
        apply write_congr
        rcases h with ⟨v, hv, hc⟩ | h
        · rcases List.mem_cons.mp hv with rfl | hv
          · exact .inl hc
          · exact absurd ⟨v, hv, hc⟩ hrest
        · exact .inr h

/-- Replaying a whole list of writes over any prefix of it gives what the list alone gives. -/
theorem applyWrites_take_replay (m : Nat → α) (ws : List (Write α)) (k : Nat) :
    applyWrites (applyWrites m (ws.take k)) ws = applyWrites m ws := by
  funext x
  apply applyWrites_congr
  by_cases h : ∃ w ∈ ws, w.covers x
  · exact .inl h
  · right
    apply applyWrites_frame
    intro w hw hc
    exact h ⟨w, List.mem_of_mem_take hw, hc⟩

def Write.disjointFrom (w : Write α) (start len : Nat) : Prop := start + len ≤ w.start ∨ w.stop ≤ start

theorem window_write_disjoint {m : Nat → α} {w : Write α} {start len : Nat} (h : w.disjointFrom start len) :
    window (write m w) start len = window m start len := by
  apply window_congr
  intro x hlo hhi
  apply write_frame
  simp only [Write.covers, Write.disjointFrom] at *
  omega

theorem window_applyWrites_disjoint {m : Nat → α} {ws : List (Write α)} {start len : Nat}
    (h : ∀ w ∈ ws, w.disjointFrom start len) : window (applyWrites m ws) start len = window m start len := by
  induction ws generalizing m with
  | nil => rfl
  | cons w ws ih =>
      rw [applyWrites_cons, ih (fun v hv => h v (by simp [hv])), window_write_disjoint (h w (by simp))]

theorem window_write_self (m : Nat → α) (w : Write α) : window (write m w) w.start w.cells.length = w.cells := by
  apply List.ext_getElem?
  intro i
  by_cases hi : i < w.cells.length
  · have hc : w.covers (w.start + i) := ⟨by omega, by simp only [Write.stop]; omega⟩
    have h := write_covered (m := m) hc
    rw [Nat.add_sub_cancel_left] at h
    rw [getElem?_window _ _ hi, h]
  · rw [List.getElem?_eq_none (by simp; omega), List.getElem?_eq_none (by omega)]

/-- Writing what a window already holds changes nothing. -/
theorem write_window (m : Nat → α) (start len : Nat) : write m ⟨start, window m start len⟩ = m := by
  funext x
  rw [write]
  split
  · next hle =>
      by_cases hi : x - start < len
      · rw [getElem?_window m start hi, Option.getD_some, Nat.add_sub_cancel' hle]
      · rw [List.getElem?_eq_none (by simp; omega), Option.getD_none]
  · rfl

/-- Writing a window back with some of its cells replaced writes those cells. -/
theorem write_splice_window (m : Nat → α) (start : Nat) {len offset : Nat} {src : List α} (h : offset + src.length ≤ len) :
    write m ⟨start, splice (window m start len) offset src⟩ = write m ⟨start + offset, src⟩ := by
  funext x
  have hlen : offset + src.length ≤ (window m start len).length := by simpa using h
  have hstop : (⟨start, splice (window m start len) offset src⟩ : Write α).stop = start + len := by
    rw [Write.stop, length_splice _ _ _ hlen, length_window]
  by_cases hin : start ≤ x ∧ x < start + len
  · have hget : (splice (window m start len) offset src)[x - start]? =
        some (write m ⟨start, splice (window m start len) offset src⟩ x) :=
      write_covered ⟨hin.1, hstop ▸ hin.2⟩
    rw [getElem?_splice _ _ _ hlen] at hget
    split at hget
    · next hsrc =>
        have hcov : (⟨start + offset, src⟩ : Write α).covers x := by
          simp only [Write.covers, Write.stop]
          omega
        have hget' : src[x - (start + offset)]? = some (write m ⟨start + offset, src⟩ x) := write_covered hcov
        rw [Nat.sub_sub] at hget
        exact Option.some.inj (hget.symm.trans hget')
    · next hsrc =>
        rw [getElem?_window m start (by omega), Nat.add_sub_cancel' hin.1] at hget
        rw [← Option.some.inj hget, write_frame]
        simp only [Write.covers, Write.stop]
        omega
  · rw [write_frame, write_frame]
    · simp only [Write.covers, Write.stop]
      omega
    · rw [Write.covers, hstop]
      exact hin

/-- A write into a window replaces the cells of it that are written. -/
theorem window_write_splice (m : Nat → α) (start : Nat) {len offset : Nat} {src : List α} (h : offset + src.length ≤ len) :
    window (write m ⟨start + offset, src⟩) start len = splice (window m start len) offset src := by
  have hself := window_write_self m ⟨start, splice (window m start len) offset src⟩
  rw [write_splice_window m start h, length_splice _ _ _ (by rwa [length_window]), length_window] at hself
  exact hself

/-- What is written last from a place on. -/
def lastWrite (ws : List (Write α)) (start : Nat) : Option (List α) :=
  (ws.reverse.find? fun w => w.start = start).map Write.cells

theorem lastWrite_concat (ws : List (Write α)) (w : Write α) (start : Nat) :
    lastWrite (ws ++ [w]) start = if w.start = start then some w.cells else lastWrite ws start := by
  rw [lastWrite, List.reverse_append, List.reverse_singleton, List.singleton_append]
  split
  · next heq => rw [List.find?_cons_of_pos (by simpa using heq), Option.map_some]
  · next hne => rw [List.find?_cons_of_neg (by simpa using hne), lastWrite]

theorem lastWrite_append (ws vs : List (Write α)) (start : Nat) :
    lastWrite (ws ++ vs) start = (lastWrite vs start).or (lastWrite ws start) := by
  rw [lastWrite, List.reverse_append, List.find?_append, lastWrite, lastWrite]
  cases vs.reverse.find? fun w => w.start = start with
  | none => rfl
  | some w => rfl

/-- The last write of a run of steps is the last write of the last step that writes there. -/
theorem lastWrite_flatMap {β : Type} (f : β → List (Write α)) (steps : List β) (start : Nat) :
    lastWrite (steps.flatMap f) start = steps.reverse.findSome? fun step => lastWrite (f step) start := by
  induction steps using List.reverseRec with
  | nil => rfl
  | append_singleton steps step ih =>
      rw [List.flatMap_append, lastWrite_append, ih, List.reverse_append, List.reverse_singleton, List.singleton_append,
        List.findSome?_cons, List.flatMap_singleton]
      cases lastWrite (f step) start with
      | none => rfl
      | some cells => rfl

theorem mem_of_lastWrite {ws : List (Write α)} {start : Nat} {cells : List α} (h : lastWrite ws start = some cells) :
    ∃ w ∈ ws, w.start = start ∧ w.cells = cells := by
  obtain ⟨w, hw, rfl⟩ := Option.map_eq_some_iff.mp h
  exact ⟨w, List.mem_reverse.mp (List.mem_of_find?_eq_some hw), by simpa using List.find?_some hw, rfl⟩

/-- Where whole blocks are written, a block holds what was written there last. -/
theorem window_applyWrites_blocks {m : Nat → α} {ws : List (Write α)} {size k : Nat}
    (h : ∀ w ∈ ws, w.start % size = 0 ∧ w.cells.length = size) :
    window (applyWrites m ws) (k * size) size = (lastWrite ws (k * size)).getD (window m (k * size) size) := by
  induction ws using List.reverseRec with
  | nil => rfl
  | append_singleton ws w ih =>
      obtain ⟨hmod, hlength⟩ := h w (by simp)
      rw [applyWrites_append, applyWrites_cons, applyWrites_nil, lastWrite_concat]
      split
      · next heq =>
          have hself := window_write_self (applyWrites m ws) w
          rw [heq, hlength] at hself
          exact hself
      · next hne =>
          obtain ⟨j, hj⟩ := Nat.dvd_of_mod_eq_zero hmod
          rw [Nat.mul_comm] at hj
          rw [window_write_disjoint, ih fun v hv => h v (List.mem_append_left _ hv)]
          rw [Write.disjointFrom, Write.stop, hlength, hj]
          rcases Nat.lt_or_gt_of_ne (show j ≠ k from fun heq => hne (by rw [hj, heq])) with hlt | hlt
          · have hle := Nat.mul_le_mul_right size hlt
            rw [Nat.succ_mul] at hle
            exact .inr hle
          · have hle := Nat.mul_le_mul_right size hlt
            rw [Nat.succ_mul] at hle
            exact .inl hle

end NextBoot.BlockStore
