import NextBoot.Rewriting
import Mathlib.Data.Set.Card

namespace NextBoot.Boot.Bcd

open Bytes Rewriting

def toAsciiLowercase (b : UInt8) : UInt8 := if 0x41 ≤ b ∧ b ≤ 0x5A then b + 0x20 else b

def eqIgnoreAsciiCase (a b : UInt8) : Bool := toAsciiLowercase a = toAsciiLowercase b

/-- `b".exe"` -/
def search : List UInt8 := [0x2E, 0x65, 0x78, 0x65]

/-- `b".efi"` -/
def replacement : List UInt8 := [0x2E, 0x65, 0x66, 0x69]

def utf16SearchLen : Nat := search.length * 2

def utf16leAsciiEqIgnoreCase (candidate expected : List UInt8) : Bool :=
  if candidate.length ≠ expected.length * 2 then false
  else expected.zipIdx.all fun e =>
    candidate[e.2 * 2 + 1]? = some 0 ∧ (candidate[e.2 * 2]?).any (eqIgnoreAsciiCase e.1)

/-- The inner loop of the patch: the replacement with a zero behind each of its bytes. -/
def writeReplacement (data : List UInt8) (offset : Nat) : List UInt8 :=
  replacement.zipIdx.foldl (fun data e => (data.set (offset + e.2 * 2) e.1).set (offset + e.2 * 2 + 1) 0) data

def patchStep (s : Nat × List UInt8) (offset : Nat) : Nat × List UInt8 :=
  if !utf16leAsciiEqIgnoreCase ((s.2.drop offset).take utf16SearchLen) search then s
  else (s.1 + 1, writeReplacement s.2 offset)

/-- The number of patched names, and the buffer behind the call. -/
def patchBcdForEfi (data : List UInt8) : Nat × List UInt8 :=
  if data.length < utf16SearchLen then (0, data)
  else (List.range (data.length - utf16SearchLen + 1)).foldl patchStep (0, data)

/-- The UTF-16LE bytes of an ASCII text. -/
def utf16le (text : List UInt8) : List UInt8 := text.flatMap fun b => [b, 0]

/-- A spelling of `.exe` as UTF-16LE stands in the buffer at a byte offset. -/
def ExeAt (data : List UInt8) (offset : Nat) : Prop :=
  ∃ text, slice data offset utf16SearchLen = some (utf16le text) ∧
    text.map toAsciiLowercase = search.map toAsciiLowercase

theorem length_utf16le (text : List UInt8) : (utf16le text).length = text.length * 2 := by
  induction text with
  | nil => rfl
  | cons b text ih =>
      rw [utf16le, List.flatMap_cons, List.length_append, ← utf16le, ih, List.length_cons]
      simp only [List.length_cons, List.length_nil]
      omega

theorem eqIgnoreCase_cons {a z e : UInt8} {candidate expected : List UInt8} :
    utf16leAsciiEqIgnoreCase (a :: z :: candidate) (e :: expected) = true ↔
      z = 0 ∧ eqIgnoreAsciiCase e a = true ∧ utf16leAsciiEqIgnoreCase candidate expected = true := by
  have hlen : (a :: z :: candidate).length = (e :: expected).length * 2 ↔ candidate.length = expected.length * 2 := by
    simp only [List.length_cons]
    omega
  unfold utf16leAsciiEqIgnoreCase
  by_cases h : candidate.length = expected.length * 2
  · rw [if_neg (not_not.mpr (hlen.mpr h)), if_neg (not_not.mpr h), List.zipIdx_cons']
    simp [List.all_map, Function.comp_def, Nat.add_mul]
    tauto
  · rw [if_pos (fun he => h (hlen.mp he)), if_pos h]
    simp

theorem utf16leAsciiEqIgnoreCase_iff {candidate expected : List UInt8} :
    utf16leAsciiEqIgnoreCase candidate expected = true ↔
      ∃ text, candidate = utf16le text ∧ text.map toAsciiLowercase = expected.map toAsciiLowercase := by
  induction expected generalizing candidate with
  | nil =>
      constructor
      · intro h
        have hnil : candidate = [] := by
          by_contra hne
          simp [utf16leAsciiEqIgnoreCase, hne] at h
        exact ⟨[], hnil, rfl⟩
      · rintro ⟨text, rfl, htext⟩
        obtain rfl : text = [] := by simpa using htext
        rfl
  | cons e expected ih =>
      constructor
      · intro h
        match candidate, h with
        | [], h => simp [utf16leAsciiEqIgnoreCase] at h
        | [a], h => simp [utf16leAsciiEqIgnoreCase] at h
        | a :: z :: candidate, h =>
            obtain ⟨rfl, ha, h⟩ := eqIgnoreCase_cons.mp h
            obtain ⟨text, rfl, htext⟩ := ih.mp h
            have ha : toAsciiLowercase e = toAsciiLowercase a := by simpa [eqIgnoreAsciiCase] using ha
            exact ⟨a :: text, rfl, by rw [List.map_cons, List.map_cons, htext, ha]⟩
      · rintro ⟨text, rfl, htext⟩
        cases text with
        | nil => simp at htext
        | cons a text =>
            rw [List.map_cons, List.map_cons, List.cons.injEq] at htext
            refine eqIgnoreCase_cons.mpr ⟨rfl, ?_, ih.mpr ⟨text, rfl, htext.2⟩⟩
            simp [eqIgnoreAsciiCase, htext.1]

theorem lowercase_eq_dot {b : UInt8} (h : toAsciiLowercase b = 0x2E) : b = 0x2E := by
  unfold toAsciiLowercase at h
  split at h
  · next hup =>
      obtain ⟨hlo, hhi⟩ := hup
      rw [UInt8.le_iff_toNat_le] at hlo hhi
      have hsum := congrArg UInt8.toNat h
      rw [UInt8.toNat_add] at hsum
      simp only [UInt8.reduceToNat] at hlo hhi hsum
      omega
  · exact h

theorem ne_dot_of_lowercase {b c : UInt8} (h : toAsciiLowercase b = c) (hc : c ≠ 0x2E) : b ≠ 0x2E := by
  rintro rfl
  exact hc h.symm

def isExe (window : List UInt8) : Bool := utf16leAsciiEqIgnoreCase window search

/-- The dot stands at the start of a match and nowhere else in it. -/
theorem isExe_dot {window : List UInt8} (h : isExe window = true) (k : Nat) :
    window[k]? = some 0x2E ↔ k = 0 := by
  obtain ⟨text, rfl, htext⟩ := utf16leAsciiEqIgnoreCase_iff.mp h
  have hlen := congrArg List.length htext
  rw [List.length_map, List.length_map] at hlen
  obtain ⟨a, b, c, d, rfl⟩ := List.length_eq_four.mp hlen
  simp only [search, List.map_cons, List.map_nil, List.cons.injEq, and_true] at htext
  obtain ⟨ha, hb, hc, hd⟩ := htext
  have ha := lowercase_eq_dot ha
  have hb := ne_dot_of_lowercase hb (by decide)
  have hc := ne_dot_of_lowercase hc (by decide)
  have hd := ne_dot_of_lowercase hd (by decide)
  clear h hlen
  match k with
  | 0 => simp [utf16le, ha]
  | 2 | 4 | 6 => simp [utf16le, hb, hc, hd]
  | 1 | 3 | 5 | 7 | _ + 8 => simp [utf16le]

theorem replacement_dot (k : Nat) : (utf16le replacement)[k]? = some 0x2E ↔ k = 0 := by
  match k with
  | 0 | 1 | 2 | 3 | 4 | 5 | 6 | 7 => decide
  | k + 8 => simp [utf16le, replacement]

theorem occursAt_dot {data : List UInt8} {offset d : Nat} (h : occursAt utf16SearchLen isExe data offset = true)
    (hd : d < utf16SearchLen) : data[offset + d]? = some 0x2E ↔ d = 0 := by
  unfold occursAt at h
  cases hw : slice data offset utf16SearchLen with
  | none => simp [hw] at h
  | some window =>
      rw [hw] at h
      rw [← slice_getElem? hw hd]
      exact isExe_dot h d

def exeToEfi : Rule UInt8 where
  size := utf16SearchLen
  test := isExe
  replacement := utf16le replacement
  size_pos := by decide
  length_replacement := rfl
  apart := by
    intro data i j hij hji hi
    by_contra hj
    rw [Bool.not_eq_false] at hj
    have hdot := (occursAt_dot hj (by decide : 0 < utf16SearchLen)).mpr rfl
    obtain ⟨d, rfl⟩ := Nat.exists_eq_add_of_lt hij
    have hzero := (occursAt_dot hi (d := d + 1) (by omega)).mp hdot
    omega
  settled := by
    intro data i j hin hij hji
    by_contra hj
    rw [Bool.not_eq_false] at hj
    have hbyte : ∀ k, i ≤ k → k < i + utf16SearchLen →
        (splice data i (utf16le replacement))[k]? = (utf16le replacement)[k - i]? := by
      intro k hlo hhi
      rw [getElem?_splice _ _ _ hin]
      exact if_pos ⟨hlo, hhi⟩
    rcases Nat.lt_trichotomy i j with hlt | rfl | hgt
    · have hdot := (occursAt_dot hj (by decide : 0 < utf16SearchLen)).mpr rfl
      rw [Nat.add_zero, hbyte j (by omega) hji, replacement_dot] at hdot
      omega
    · have hself : slice (splice data i (utf16le replacement)) i utf16SearchLen = some (utf16le replacement) :=
        slice_splice_self hin
      rw [occursAt, hself] at hj
      exact absurd hj (by decide)
    · have hdot := occursAt_dot hj (d := i - j) (by omega)
      rw [Nat.add_sub_cancel' (by omega), hbyte i (Nat.le_refl i) (by omega), Nat.sub_self, replacement_dot] at hdot
      have hzero := hdot.mp rfl
      omega

theorem set_eq_splice {data : List UInt8} {i : Nat} (b : UInt8) (h : i < data.length) :
    data.set i b = splice data i [b] := by
  rw [splice, List.set_eq_take_append_cons_drop, if_pos h, List.append_assoc]
  rfl

theorem set_set_eq_splice {data : List UInt8} {i : Nat} (b : UInt8) (h : i + 1 < data.length) :
    (data.set i b).set (i + 1) 0 = splice data i [b, 0] := by
  rw [set_eq_splice b (by omega), set_eq_splice 0 (by rw [length_splice _ _ _ (Nat.lt_of_succ_lt h)]; exact h)]
  exact splice_append (Nat.succ_le_of_lt h)

theorem writeReplacement_eq {data : List UInt8} {offset : Nat} (h : offset + utf16SearchLen ≤ data.length) :
    writeReplacement data offset = splice data offset (utf16le replacement) := by
  have hrun : ∀ (text : List UInt8) (data : List UInt8) (n : Nat), offset + (n + text.length) * 2 ≤ data.length →
      (text.zipIdx n).foldl (fun data e => (data.set (offset + e.2 * 2) e.1).set (offset + e.2 * 2 + 1) 0) data =
        splice data (offset + n * 2) (utf16le text) := by
    intro text
    induction text with
    | nil =>
        intro data n hin
        simp [utf16le, splice]
    | cons b text ih =>
        intro data n hin
        rw [List.length_cons] at hin
        have hlen : (splice data (offset + n * 2) [b, 0]).length = data.length :=
          length_splice _ _ _ (by simp only [List.length_cons, List.length_nil]; omega)
        have hnext : offset + (n + 1) * 2 = offset + n * 2 + [b, 0].length := by
          simp only [List.length_cons, List.length_nil]
          omega
        rw [List.zipIdx_cons, List.foldl_cons, set_set_eq_splice b (by omega), ih _ _ (by rw [hlen]; omega), hnext]
        apply splice_append
        rw [List.length_append, length_utf16le]
        simp only [List.length_cons, List.length_nil]
        omega
  have hall := hrun replacement data 0 h
  rwa [Nat.zero_mul, Nat.add_zero] at hall

theorem patchStep_eq (s : Nat × List UInt8) {offset : Nat} (h : offset + utf16SearchLen ≤ s.2.length) :
    patchStep s offset = exeToEfi.step s offset := by
  have hocc : exeToEfi.Occurs s.2 offset ↔
      utf16leAsciiEqIgnoreCase ((s.2.drop offset).take utf16SearchLen) search = true := by
    have hslice : slice s.2 offset exeToEfi.size = some ((s.2.drop offset).take utf16SearchLen) := slice_eq_some h
    unfold Rule.Occurs occursAt
    rw [hslice]
    rfl
  unfold patchStep Rule.step
  by_cases hexe : utf16leAsciiEqIgnoreCase ((s.2.drop offset).take utf16SearchLen) search = true
  · rw [if_pos (hocc.mpr hexe), hexe, writeReplacement_eq h]
    rfl
  · rw [if_neg (hocc.not.mpr hexe), if_pos (by simpa using hexe)]

/-- The loop of the patch is the scan of its rule. -/
theorem patchBcdForEfi_eq (data : List UInt8) : patchBcdForEfi data = exeToEfi.scan data := by
  have hrun : ∀ n, n + utf16SearchLen ≤ data.length + 1 →
      (List.range n).foldl patchStep (0, data) = (List.range n).foldl exeToEfi.step (0, data) := by
    intro n
    induction n with
    | zero =>
        intro _
        rfl
    | succ n ih =>
        intro hn
        have hlen := (@scanned_range _ exeToEfi data n).length_eq
        rw [List.range_succ, List.foldl_append, List.foldl_append, ih (by omega), List.foldl_cons, List.foldl_cons,
          patchStep_eq _ (by omega)]
        rfl
  unfold patchBcdForEfi Rule.scan
  have hsize : exeToEfi.size = utf16SearchLen := rfl
  split
  · next hshort =>
      have hzero : data.length + 1 - exeToEfi.size = 0 := by omega
      rw [hzero]
      rfl
  · next hlong =>
      have hcount : data.length + 1 - exeToEfi.size = data.length - utf16SearchLen + 1 := by omega
      rw [hcount]
      exact hrun _ (by omega)

theorem exeAt_iff {data : List UInt8} {offset : Nat} : ExeAt data offset ↔ exeToEfi.Occurs data offset := by
  have hocc : exeToEfi.Occurs data offset ↔ (slice data offset utf16SearchLen).any isExe = true := Iff.rfl
  rw [hocc, Option.any_eq_true]
  constructor
  · rintro ⟨text, hslice, htext⟩
    exact ⟨_, hslice, utf16leAsciiEqIgnoreCase_iff.mpr ⟨text, rfl, htext⟩⟩
  · rintro ⟨window, hslice, hexe⟩
    obtain ⟨text, rfl, htext⟩ := utf16leAsciiEqIgnoreCase_iff.mp hexe
    exact ⟨text, hslice, htext⟩

/-- Every spelling of `.exe` in the store becomes `.efi`, at odd offsets too, and nothing else changes. -/
theorem patch_bcd_exact (data : List UInt8) :
    let (patched, after) := patchBcdForEfi data
    (∀ offset, ¬ ExeAt after offset) ∧
      after.length = data.length ∧
      (∀ offset, ExeAt data offset → slice after offset utf16SearchLen = some (utf16le replacement)) ∧
      (∀ i, (∀ offset, ExeAt data offset → i < offset ∨ offset + utf16SearchLen ≤ i) → after[i]? = data[i]?) ∧
      patched = {offset | ExeAt data offset}.ncard ∧
      patchBcdForEfi after = (0, after) := by
  have hscan := scan_scanned (R := exeToEfi) data
  rw [patchBcdForEfi_eq]
  refine ⟨?_, hscan.length_eq, ?_, ?_, ?_, ?_⟩
  · intro offset hexe
    exact not_occurs_scan offset (exeAt_iff.mp hexe)
  · intro offset hexe
    have hocc := exeAt_iff.mp hexe
    exact hscan.replaced offset hocc.lt hocc
  · intro i hout
    exact hscan.frame i fun offset _ hocc => hout offset (exeAt_iff.mpr hocc)
  · have hset : {offset | ExeAt data offset} =
        ((Finset.range (data.length + 1 - exeToEfi.size)).filter (exeToEfi.Occurs data) : Finset Nat) := by
      ext offset
      rw [Set.mem_ofPred_eq, exeAt_iff, Finset.coe_filter, Set.mem_ofPred_eq, Finset.mem_range]
      exact ⟨fun hocc => ⟨hocc.lt, hocc⟩, fun h => h.2⟩
    rw [hset, Set.ncard_coe_finset]
    exact hscan.count
  · rw [patchBcdForEfi_eq]
    exact scan_scan data

example : patchBcdForEfi [0x5C, 0x2E, 0, 0x45, 0, 0x78, 0, 0x45, 0] = (1, [0x5C, 0x2E, 0, 0x65, 0, 0x66, 0, 0x69, 0]) := by
  decide

end NextBoot.Boot.Bcd
