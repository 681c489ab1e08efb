import Mathlib.Data.List.Basic
import Mathlib.Tactic.Ring

namespace NextBoot.Bytes

variable {α : Type}

/-- The checked sub-slice `xs.get(offset..offset + len)`. -/
def slice (xs : List α) (offset len : Nat) : Option (List α) :=
  if offset + len ≤ xs.length then some ((xs.drop offset).take len) else none

/-- Overwrite the cells from `offset` on with `src`, leaving the others. -/
def splice (xs : List α) (offset : Nat) (src : List α) : List α :=
  xs.take offset ++ src ++ xs.drop (offset + src.length)

/-- The checked `xs.get_mut(offset..offset + src.len())?.copy_from_slice(src)`. -/
def copyFromSlice (xs : List α) (offset : Nat) (src : List α) : Option (List α) :=
  if offset + src.length ≤ xs.length then some (splice xs offset src) else none

theorem length_splice (xs : List α) (offset : Nat) (src : List α) (h : offset + src.length ≤ xs.length) :
    (splice xs offset src).length = xs.length := by
  simp only [splice, List.length_append, List.length_take, List.length_drop]
  omega

theorem getElem?_splice (xs : List α) (offset : Nat) (src : List α)
    (h : offset + src.length ≤ xs.length) (i : Nat) :
    (splice xs offset src)[i]? =
      if offset ≤ i ∧ i < offset + src.length then src[i - offset]? else xs[i]? := by
  have ht : (xs.take offset).length = offset := by rw [List.length_take]; omega
  rw [splice, List.append_assoc]
  by_cases hlo : i < offset
  · rw [List.getElem?_append_left (by omega), List.getElem?_take_of_lt hlo, if_neg (by omega)]
  · rw [List.getElem?_append_right (by omega), ht]
    by_cases hhi : i < offset + src.length
    · rw [List.getElem?_append_left (by omega), if_pos ⟨by omega, hhi⟩]
    · rw [List.getElem?_append_right (by omega), List.getElem?_drop, if_neg (by omega)]
      congr 1
      omega

theorem slice_eq_some {xs : List α} {offset len : Nat} (h : offset + len ≤ xs.length) :
    slice xs offset len = some ((xs.drop offset).take len) := if_pos h

theorem slice_isSome_iff {xs ys : List α} {offset len : Nat} :
    slice xs offset len = some ys ↔ offset + len ≤ xs.length ∧ (xs.drop offset).take len = ys := by
  unfold slice
  split <;> simp_all

theorem slice_length {xs ys : List α} {offset len : Nat} (h : slice xs offset len = some ys) :
    ys.length = len := by
  obtain ⟨hle, rfl⟩ := slice_isSome_iff.mp h
  simp only [List.length_take, List.length_drop]
  omega

theorem slice_getElem? {xs ys : List α} {offset len : Nat} (h : slice xs offset len = some ys)
    {i : Nat} (hi : i < len) : ys[i]? = xs[offset + i]? := by
  obtain ⟨_, rfl⟩ := slice_isSome_iff.mp h
  rw [List.getElem?_take_of_lt hi, List.getElem?_drop]

theorem slice_slice {xs ys zs : List α} {offset len offset' len' : Nat} (h : slice xs offset len = some ys)
    (h' : slice ys offset' len' = some zs) : slice xs (offset + offset') len' = some zs := by
  have hl := slice_length h
  obtain ⟨hle, rfl⟩ := slice_isSome_iff.mp h
  obtain ⟨hle', rfl⟩ := slice_isSome_iff.mp h'
  rw [hl] at hle'
  refine slice_isSome_iff.mpr ⟨by omega, ?_⟩
  rw [List.drop_take, List.drop_drop, List.take_take, Nat.min_eq_left (by omega)]

theorem slice_take {xs : List α} {offset len n : Nat} (h : offset + len ≤ n) (hn : n ≤ xs.length) :
    slice (xs.take n) offset len = slice xs offset len := by
  rw [slice, slice, List.length_take, if_pos (by omega), if_pos (by omega), List.drop_take, List.take_take,
    Nat.min_eq_left (by omega)]

/-- Two buffers of one length that agree on a window have the same slice there. -/
theorem slice_append_left {offset len : Nat} {xs ys : List α} (h : offset + len ≤ xs.length) :
    slice (xs ++ ys) offset len = slice xs offset len := by
  rw [slice_eq_some h, slice_eq_some (by rw [List.length_append]; omega), List.drop_append_of_le_length (by omega),
    List.take_append_of_le_length (by rw [List.length_drop]; omega)]

theorem slice_congr {xs ys : List α} {offset len : Nat} (hl : xs.length = ys.length)
    (h : ∀ i, offset ≤ i → i < offset + len → xs[i]? = ys[i]?) :
    slice xs offset len = slice ys offset len := by
  unfold slice
  rw [hl]
  split
  · congr 1
    apply List.ext_getElem?
    intro i
    by_cases hi : i < len
    · rw [List.getElem?_take_of_lt hi, List.getElem?_take_of_lt hi, List.getElem?_drop,
        List.getElem?_drop, h _ (by omega) (by omega)]
    · rw [List.getElem?_eq_none (by simp only [List.length_take]; omega),
        List.getElem?_eq_none (by simp only [List.length_take]; omega)]
  · rfl

theorem slice_splice_disjoint {xs src : List α} {offset at' len : Nat}
    (hw : at' + src.length ≤ xs.length) (hd : offset + len ≤ at' ∨ at' + src.length ≤ offset) :
    slice (splice xs at' src) offset len = slice xs offset len := by
  apply slice_congr (length_splice xs at' src hw)
  intro i hlo hhi
  rw [getElem?_splice xs at' src hw, if_neg (by omega)]

theorem slice_splice_self {xs src : List α} {offset : Nat} (hw : offset + src.length ≤ xs.length) :
    slice (splice xs offset src) offset src.length = some src := by
  rw [slice_eq_some (by rw [length_splice xs offset src hw]; exact hw)]
  congr 1
  apply List.ext_getElem?
  intro i
  by_cases hi : i < src.length
  · rw [List.getElem?_take_of_lt hi, List.getElem?_drop, getElem?_splice xs offset src hw,
      if_pos (by omega), Nat.add_sub_cancel_left]
  · rw [List.getElem?_eq_none (by simp only [List.length_take]; omega), List.getElem?_eq_none (by omega)]

/-- A write inside a slice is the same write to the slice. -/
theorem slice_splice_inside {xs ys src : List α} {offset len at' : Nat} (h : slice xs offset len = some ys)
    (hw : at' + src.length ≤ len) : slice (splice xs (offset + at') src) offset len = some (splice ys at' src) := by
  have hl := slice_length h
  obtain ⟨hle, _⟩ := slice_isSome_iff.mp h
  rw [slice_eq_some (by rw [length_splice _ _ _ (by omega)]; exact hle)]
  congr 1
  apply List.ext_getElem?
  intro i
  by_cases hi : i < len
  · rw [List.getElem?_take_of_lt hi, List.getElem?_drop, getElem?_splice _ _ _ (by omega),
      getElem?_splice _ _ _ (by omega), slice_getElem? h hi]
    by_cases hin : at' ≤ i ∧ i < at' + src.length
    · rw [if_pos (by omega), if_pos hin]
      congr 1
      omega
    · rw [if_neg (by omega), if_neg hin]
  · rw [List.getElem?_eq_none (by simp only [List.length_take]; omega),
      List.getElem?_eq_none (by rw [length_splice _ _ _ (by omega)]; omega)]

/-- Writing back what a window already holds changes nothing. -/
theorem splice_slice {xs ys : List α} {offset len : Nat} (h : slice xs offset len = some ys) :
    splice xs offset ys = xs := by
  have hl := slice_length h
  obtain ⟨hle, _⟩ := slice_isSome_iff.mp h
  apply List.ext_getElem?
  intro i
  rw [getElem?_splice xs offset ys (by omega)]
  split
  · next hi =>
      rw [slice_getElem? h (by omega)]
      congr 1
      omega
  · rfl

theorem splice_append {xs src src' : List α} {offset : Nat} (h : offset + (src ++ src').length ≤ xs.length) :
    splice (splice xs offset src) (offset + src.length) src' = splice xs offset (src ++ src') := by
  rw [List.length_append] at h
  have hl := length_splice xs offset src (by omega)
  apply List.ext_getElem?
  intro i
  rw [getElem?_splice _ _ _ (by omega), getElem?_splice _ _ _ (by omega),
    getElem?_splice _ _ _ (by rw [List.length_append]; omega), List.length_append]
  by_cases hlo : offset + src.length ≤ i ∧ i < offset + src.length + src'.length
  · rw [if_pos hlo, if_pos (by omega), List.getElem?_append_right (by omega)]
    congr 1
    omega
  · rw [if_neg hlo]
    by_cases hin : offset ≤ i ∧ i < offset + src.length
    · rw [if_pos hin, if_pos (by omega), List.getElem?_append_left (by omega)]
    · rw [if_neg hin, if_neg (by omega)]

theorem splice_splice_same {xs src src' : List α} {offset : Nat} (h : offset + src.length ≤ xs.length)
    (hl : src'.length = src.length) : splice (splice xs offset src) offset src' = splice xs offset src' := by
  have hs := length_splice xs offset src h
  apply List.ext_getElem?
  intro i
  rw [getElem?_splice _ _ _ (by omega), getElem?_splice _ _ _ (by omega), getElem?_splice _ _ _ (by omega)]
  by_cases hin : offset ≤ i ∧ i < offset + src'.length
  · rw [if_pos hin, if_pos hin]
  · rw [if_neg hin, if_neg hin, if_neg (by omega)]

theorem splice_splice_inside {xs src src' : List α} {offset part : Nat} (h : offset + src.length ≤ xs.length)
    (hpart : part + src'.length ≤ src.length) :
    splice (splice xs offset src) (offset + part) src' = splice xs offset (splice src part src') := by
  have hl := length_splice xs offset src h
  have hl' := length_splice src part src' hpart
  apply List.ext_getElem?
  intro i
  rw [getElem?_splice _ _ _ (by omega), getElem?_splice _ _ _ h, getElem?_splice _ _ _ (by omega), hl']
  by_cases hin : offset ≤ i ∧ i < offset + src.length
  · rw [if_pos hin, if_pos hin, getElem?_splice _ _ _ hpart]
    by_cases hpart' : offset + part ≤ i ∧ i < offset + part + src'.length
    · rw [if_pos hpart', if_pos (by omega), Nat.sub_sub]
    · rw [if_neg hpart', if_neg (by omega)]
  · rw [if_neg hin, if_neg hin, if_neg (by omega)]

theorem copyFromSlice_eq_some {xs src ys : List α} {offset : Nat} :
    copyFromSlice xs offset src = some ys ↔ offset + src.length ≤ xs.length ∧ ys = splice xs offset src := by
  unfold copyFromSlice
  split <;> simp_all [eq_comm]

theorem slice_middle {front xs back : List α} {offset len : Nat} (hfront : front.length = offset)
    (hlen : xs.length = len) : slice (front ++ (xs ++ back)) offset len = some xs := by
  subst hfront hlen
  rw [slice_eq_some (by simp only [List.length_append]; omega), List.drop_left, List.take_left]

theorem copyFromSlice_middle {front xs back src : List α} {offset : Nat} (hfront : front.length = offset)
    (hlen : src.length = xs.length) :
    copyFromSlice (front ++ (xs ++ back)) offset src = some (front ++ (src ++ back)) := by
  subst hfront
  rw [copyFromSlice_eq_some]
  refine ⟨by simp only [List.length_append]; omega, ?_⟩
  rw [splice, List.take_left, hlen, ← List.drop_drop, List.drop_left, List.drop_left, List.append_assoc]

/-- The `width` little-endian bytes of a value, truncated to that width. -/
def toLeBytes : (width : Nat) → Nat → List UInt8
  | 0, _ => []
  | width + 1, value => UInt8.ofNat value :: toLeBytes width (value / 256)

/-- The unsigned value of little-endian bytes. -/
def fromLeBytes : List UInt8 → Nat
  | [] => 0
  | b :: bs => b.toNat + 256 * fromLeBytes bs

@[simp] theorem length_toLeBytes (width value : Nat) : (toLeBytes width value).length = width := by
  induction width generalizing value with
  | zero => rfl
  | succ width ih => simp [toLeBytes, ih]

theorem fromLeBytes_toLeBytes (width value : Nat) :
    fromLeBytes (toLeBytes width value) = value % 256 ^ width := by
  induction width generalizing value with
  | zero => simp [toLeBytes, fromLeBytes, Nat.mod_one]
  | succ width ih =>
      have hm : value % (256 * 256 ^ width) = value % 256 + 256 * (value / 256 % 256 ^ width) := Nat.mod_mul
      rw [toLeBytes, fromLeBytes, ih, UInt8.toNat_ofNat', pow_succ' 256 width, hm]

theorem fromLeBytes_lt (bs : List UInt8) : fromLeBytes bs < 256 ^ bs.length := by
  induction bs with
  | nil => simp [fromLeBytes]
  | cons b bs ih =>
      have hb := b.toNat_lt
      rw [fromLeBytes, List.length_cons, pow_succ']
      omega

theorem toLeBytes_fromLeBytes (bs : List UInt8) : toLeBytes bs.length (fromLeBytes bs) = bs := by
  induction bs with
  | nil => rfl
  | cons b bs ih =>
      have hb := b.toNat_lt
      have hm : UInt8.ofNat (b.toNat + 256 * fromLeBytes bs) = b := by
        apply UInt8.toNat_inj.mp
        rw [UInt8.toNat_ofNat']
        omega
      have hd : (b.toNat + 256 * fromLeBytes bs) / 256 = fromLeBytes bs := by omega
      rw [List.length_cons, toLeBytes, fromLeBytes, hm, hd, ih]

/-- The unsigned little-endian field of `width` bytes at `offset`, if it is inside the buffer. -/
def readLe (width : Nat) (bytes : List UInt8) (offset : Nat) : Option Nat :=
  (slice bytes offset width).map fromLeBytes

def writeLe (width : Nat) (bytes : List UInt8) (offset value : Nat) : Option (List UInt8) :=
  copyFromSlice bytes offset (toLeBytes width value)

theorem readLe_lt {width : Nat} {bytes : List UInt8} {offset value : Nat}
    (h : readLe width bytes offset = some value) : value < 256 ^ width := by
  obtain ⟨ys, hs, rfl⟩ := Option.map_eq_some_iff.mp h
  have hl := fromLeBytes_lt ys
  rwa [slice_length hs] at hl

theorem readLe_append {width value offset : Nat} {front rest : List UInt8} (hoffset : front.length = offset)
    (hvalue : value < 256 ^ width) : readLe width (front ++ (toLeBytes width value ++ rest)) offset = some value := by
  subst hoffset
  rw [readLe, slice_eq_some (by simp), List.drop_left, List.take_left' (length_toLeBytes width value), Option.map_some,
    fromLeBytes_toLeBytes, Nat.mod_eq_of_lt hvalue]

theorem readLe_inside {width offset word : Nat} {bytes : List UInt8} (h : readLe width bytes offset = some word) :
    offset + width ≤ bytes.length := by
  obtain ⟨_, hslice, -⟩ := Option.map_eq_some_iff.mp h
  exact (slice_isSome_iff.mp hslice).1

theorem readLe_congr {width offset : Nat} {bytes other : List UInt8} (hl : bytes.length = other.length)
    (h : ∀ i, offset ≤ i → i < offset + width → bytes[i]? = other[i]?) : readLe width bytes offset = readLe width other offset := by
  rw [readLe, slice_congr hl h, readLe]

theorem readLe_isSome {width : Nat} {bytes : List UInt8} {offset : Nat}
    (h : offset + width ≤ bytes.length) : ∃ value, readLe width bytes offset = some value := by
  rw [readLe, slice_eq_some h]
  exact ⟨_, rfl⟩

theorem writeLe_eq_some {width : Nat} {bytes out : List UInt8} {offset value : Nat} :
    writeLe width bytes offset value = some out ↔
      offset + width ≤ bytes.length ∧ out = splice bytes offset (toLeBytes width value) := by
  rw [writeLe, copyFromSlice_eq_some, length_toLeBytes]

theorem readLe_splice_self {width : Nat} {bytes : List UInt8} {offset value : Nat}
    (hw : offset + width ≤ bytes.length) (hv : value < 256 ^ width) :
    readLe width (splice bytes offset (toLeBytes width value)) offset = some value := by
  have hw' : offset + (toLeBytes width value).length ≤ bytes.length := by simpa using hw
  have hs : slice (splice bytes offset (toLeBytes width value)) offset width =
      some (toLeBytes width value) := by
    simpa only [length_toLeBytes] using slice_splice_self hw'
  rw [readLe, hs, Option.map_some, fromLeBytes_toLeBytes, Nat.mod_eq_of_lt hv]

/-- What a write puts into a buffer is read from there as it is read from what is written. -/
theorem readLe_splice_inside {width at' part value : Nat} {bytes src : List UInt8} (hw : at' + src.length ≤ bytes.length)
    (h : readLe width src part = some value) : readLe width (splice bytes at' src) (at' + part) = some value := by
  rw [readLe, Option.map_eq_some_iff] at h ⊢
  obtain ⟨word, hword, hvalue⟩ := h
  exact ⟨word, slice_slice (slice_splice_self hw) hword, hvalue⟩

theorem readLe_splice_disjoint {width : Nat} {bytes src : List UInt8} {offset at' : Nat}
    (hw : at' + src.length ≤ bytes.length) (hd : offset + width ≤ at' ∨ at' + src.length ≤ offset) :
    readLe width (splice bytes at' src) offset = readLe width bytes offset := by
  rw [readLe, slice_splice_disjoint hw hd, readLe]

/-- Several writes into one buffer, in order. -/
def patch (xs : List α) (ps : List (Nat × List α)) : List α := ps.foldl (fun xs p => splice xs p.1 p.2) xs

@[simp] theorem patch_nil (xs : List α) : patch xs [] = xs := rfl

@[simp] theorem patch_cons (xs : List α) (p : Nat × List α) (ps : List (Nat × List α)) :
    patch xs (p :: ps) = patch (splice xs p.1 p.2) ps := rfl

theorem length_patch {xs : List α} {ps : List (Nat × List α)} (h : ∀ p ∈ ps, p.1 + p.2.length ≤ xs.length) :
    (patch xs ps).length = xs.length := by
  induction ps generalizing xs with
  | nil => rfl
  | cons p ps ih =>
      have hl := length_splice xs p.1 p.2 (h p (by simp))
      rw [patch_cons, ih (fun q hq => hl ▸ h q (by simp [hq])), hl]

theorem slice_patch_disjoint {xs : List α} {ps : List (Nat × List α)} {offset len : Nat}
    (h : ∀ p ∈ ps, p.1 + p.2.length ≤ xs.length)
    (hd : ∀ p ∈ ps, offset + len ≤ p.1 ∨ p.1 + p.2.length ≤ offset) :
    slice (patch xs ps) offset len = slice xs offset len := by
  induction ps generalizing xs with
  | nil => rfl
  | cons p ps ih =>
      have hl := length_splice xs p.1 p.2 (h p (by simp))
      rw [patch_cons, ih (fun q hq => hl ▸ h q (by simp [hq])) (fun q hq => hd q (by simp [hq])),
        slice_splice_disjoint (h p (by simp)) (hd p (by simp))]

theorem getElem?_patch_disjoint {xs : List α} {ps : List (Nat × List α)} {i : Nat}
    (h : ∀ p ∈ ps, p.1 + p.2.length ≤ xs.length) (hd : ∀ p ∈ ps, i < p.1 ∨ p.1 + p.2.length ≤ i) :
    (patch xs ps)[i]? = xs[i]? := by
  induction ps generalizing xs with
  | nil => rfl
  | cons p ps ih =>
      have hl := length_splice xs p.1 p.2 (h p (by simp))
      have hp := hd p (by simp)
      rw [patch_cons, ih (fun q hq => hl ▸ h q (by simp [hq])) (fun q hq => hd q (by simp [hq])),
        getElem?_splice _ _ _ (h p (by simp)), if_neg (by omega)]

/-- Every write of a patch without overlaps is found again. -/
theorem slice_patch_mem {xs : List α} {ps : List (Nat × List α)} {p : Nat × List α}
    (h : ∀ q ∈ ps, q.1 + q.2.length ≤ xs.length)
    (hd : ps.Pairwise fun q r => q.1 + q.2.length ≤ r.1 ∨ r.1 + r.2.length ≤ q.1) (hp : p ∈ ps) :
    slice (patch xs ps) p.1 p.2.length = some p.2 := by
  induction ps generalizing xs with
  | nil => cases hp
  | cons q ps ih =>
      obtain ⟨hq, hps⟩ := List.pairwise_cons.mp hd
      have hl := length_splice xs q.1 q.2 (h q (by simp))
      have h' : ∀ r ∈ ps, r.1 + r.2.length ≤ (splice xs q.1 q.2).length := fun r hr => hl ▸ h r (by simp [hr])
      rw [patch_cons]
      rcases List.mem_cons.mp hp with rfl | hp
      · rw [slice_patch_disjoint h' hq, slice_splice_self (h p (by simp))]
      · exact ih h' hps hp

/-- Writes are undone by others that cover them and write what was there before. -/
theorem patch_undo {xs : List α} {ps qs : List (Nat × List α)} (hps : ∀ p ∈ ps, p.1 + p.2.length ≤ xs.length)
    (hqs : ∀ q ∈ qs, slice xs q.1 q.2.length = some q.2)
    (hd : qs.Pairwise fun q r => q.1 + q.2.length ≤ r.1 ∨ r.1 + r.2.length ≤ q.1)
    (hcover : ∀ p ∈ ps, ∃ q ∈ qs, q.1 ≤ p.1 ∧ p.1 + p.2.length ≤ q.1 + q.2.length) : patch (patch xs ps) qs = xs := by
  have hl := length_patch hps
  have hqs' : ∀ q ∈ qs, q.1 + q.2.length ≤ (patch xs ps).length := fun q hq => by
    rw [hl]
    exact (slice_isSome_iff.mp (hqs q hq)).1
  apply List.ext_getElem?
  intro i
  by_cases hin : ∃ q ∈ qs, q.1 ≤ i ∧ i < q.1 + q.2.length
  · obtain ⟨q, hq, hlo, hhi⟩ := hin
    have hback := slice_getElem? (slice_patch_mem hqs' hd hq) (show i - q.1 < q.2.length by omega)
    have hxs := slice_getElem? (hqs q hq) (show i - q.1 < q.2.length by omega)
    rw [Nat.add_sub_cancel' hlo] at hback hxs
    rw [← hback, hxs]
  · have hout : ∀ q ∈ qs, i < q.1 ∨ q.1 + q.2.length ≤ i := fun q hq => by
      by_contra hcon
      exact hin ⟨q, hq, by omega, by omega⟩
    rw [getElem?_patch_disjoint hqs' hout, getElem?_patch_disjoint hps]
    intro p hp
    obtain ⟨q, hq, hlo, hhi⟩ := hcover p hp
    have hq' := hout q hq
    omega

theorem readLe_patch_disjoint {width offset : Nat} {bytes : List UInt8} {ps : List (Nat × List UInt8)}
    (h : ∀ p ∈ ps, p.1 + p.2.length ≤ bytes.length)
    (hd : ∀ p ∈ ps, offset + width ≤ p.1 ∨ p.1 + p.2.length ≤ offset) :
    readLe width (patch bytes ps) offset = readLe width bytes offset := by
  rw [readLe, slice_patch_disjoint h hd, readLe]

theorem readLe_patch_mem {width offset value : Nat} {bytes : List UInt8} {ps : List (Nat × List UInt8)}
    (h : ∀ p ∈ ps, p.1 + p.2.length ≤ bytes.length)
    (hd : ps.Pairwise fun q r => q.1 + q.2.length ≤ r.1 ∨ r.1 + r.2.length ≤ q.1)
    (hp : (offset, toLeBytes width value) ∈ ps) (hv : value < 256 ^ width) :
    readLe width (patch bytes ps) offset = some value := by
  have hs := slice_patch_mem h hd hp
  rw [length_toLeBytes] at hs
  rw [readLe, hs, Option.map_some, fromLeBytes_toLeBytes, Nat.mod_eq_of_lt hv]

/-- The whole chunks of `width` cells; a shorter rest is left out. -/
def chunksExact (width : Nat) (xs : List α) : List (List α) :=
  (List.range (xs.length / width)).map fun i => (xs.drop (i * width)).take width

/-- All chunks of `width` cells, the last of which may be shorter. -/
def chunks (width : Nat) (xs : List α) : List (List α) :=
  (List.range ((xs.length + (width - 1)) / width)).map fun i => (xs.drop (i * width)).take width

theorem length_of_mem_chunks {width : Nat} {xs chunk : List α} (hmod : xs.length % width = 0) (h : chunk ∈ chunks width xs) :
    chunk.length = width := by
  rcases Nat.eq_zero_or_pos width with rfl | hpos
  · rw [chunks, Nat.div_zero] at h
    cases h
  · obtain ⟨i, hi, rfl⟩ := List.mem_map.mp h
    obtain ⟨k, hk⟩ := Nat.dvd_of_mod_eq_zero hmod
    rw [List.mem_range, hk, Nat.mul_add_div hpos, Nat.div_eq_of_lt (by omega), Nat.add_zero] at hi
    have hle := Nat.mul_le_mul_right width hi
    rw [Nat.succ_mul, Nat.mul_comm k] at hle
    rw [List.length_take, List.length_drop]
    omega

theorem flatten_chunks {width : Nat} {xs : List α} (hwidth : 0 < width) : (chunks width xs).flatten = xs := by
  have hfront : ∀ count, ((List.range count).map fun i => (xs.drop (i * width)).take width).flatten = xs.take (count * width) := by
    intro count
    induction count with
    | zero => rw [Nat.zero_mul]; rfl
    | succ count ih =>
        rw [List.range_succ, List.map_append, List.flatten_append, ih, Nat.succ_mul, List.take_add]
        simp
  rw [chunks, hfront, List.take_of_length_le]
  have hceil := Nat.div_add_mod (xs.length + (width - 1)) width
  have hmod := Nat.mod_lt (xs.length + (width - 1)) hwidth
  rw [Nat.mul_comm] at hceil
  omega

end NextBoot.Bytes
