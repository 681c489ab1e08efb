import Mathlib.Data.List.TakeWhile
import NextBoot.Globs
import NextBoot.Strings

namespace NextBoot.Config

open Globs Strings

def star : UInt8 := 42

def separator : UInt8 := 47

def lowercaseByte (b : UInt8) : UInt8 := if 0x41 ≤ b.toNat ∧ b.toNat ≤ 0x5A then UInt8.ofNat (b.toNat + 0x20) else b

def asciiByteEq (left right : UInt8) : Bool :=
  if left.toNat < 0x80 ∧ right.toNat < 0x80 then lowercaseByte left = lowercaseByte right else left = right

section Matcher

variable (pattern path : List UInt8) (starMatchesSeparator : Bool)

/-- The loop goes on from the last star only; its match is never behind the place that is being compared. -/
def globLoop (p s : Nat) (starPos : Option Nat) (starMatch : Nat) (h : starMatch ≤ s) : Bool :=
  if hs : s < path.length then
    if hp : pattern[p]? = some star then globLoop (p + 1) s (some p) s (Nat.le_refl s)
    else if hp : pattern[p]?.any (asciiByteEq · path[s]) then
      globLoop (p + 1) (s + 1) starPos starMatch (Nat.le_succ_of_le h)
    else
      match starPos with
      | some pos =>
          if starMatchesSeparator = false ∧ path[starMatch]? = some separator then false
          else globLoop (pos + 1) (starMatch + 1) starPos (starMatch + 1) (Nat.le_refl _)
      | none => false
  else (pattern.drop p).dropWhile (· = star) = []
termination_by (path.length - starMatch, pattern.length - p)
decreasing_by
  · have hlt := (List.getElem?_eq_some_iff.mp hp).1
    rcases Nat.eq_or_lt_of_le h with rfl | hless
    · exact Prod.Lex.right _ (by omega)
    · exact Prod.Lex.left _ _ (by omega)
  · obtain ⟨c, hc, -⟩ := Option.any_eq_true _ _ |>.mp hp
    have hlt := (List.getElem?_eq_some_iff.mp hc).1
    exact Prod.Lex.right _ (by omega)
  · exact Prod.Lex.left _ _ (by omega)

def globBytesMatch : Bool := globLoop pattern path starMatchesSeparator 0 0 none 0 (Nat.le_refl 0)

end Matcher

def normalizeConfigPath (path : Text) : Text :=
  let trimmed := trim path
  if trimmed = [] then []
  else (if trimmed.head? ≠ some '/' ∧ trimmed.head? ≠ some '\\' then ['/'] else []) ++
    trimmed.map fun ch => if ch = '\\' then '/' else ch

def pathPatternEq (pattern path : Text) : Bool :=
  globBytesMatch (asBytes (normalizeConfigPath pattern)) (asBytes (normalizeConfigPath path)) true

def globRules (starMatchesSeparator : Bool) : Rules UInt8 UInt8 where
  star p := p = star
  free b := starMatchesSeparator = true ∨ b ≠ separator
  literal p b := lowercaseByte p = lowercaseByte b

variable {pattern path : List UInt8} {starMatchesSeparator : Bool} {p s starMatch : Nat} {starPos : Option Nat} {b c : UInt8}

theorem toNat_lowercaseByte :
    (lowercaseByte b).toNat = if 0x41 ≤ b.toNat ∧ b.toNat ≤ 0x5A then b.toNat + 0x20 else b.toNat := by
  rw [lowercaseByte]
  split
  · next h => exact UInt8.toNat_ofNat_of_lt' (show b.toNat + 0x20 < 256 by omega)
  · rfl

/-- A byte that is no letter has no other byte that is the same without case. -/
theorem eq_of_lowercaseByte (h : lowercaseByte b = lowercaseByte c)
    (hc : ¬ (0x41 ≤ c.toNat ∧ c.toNat ≤ 0x5A ∨ 0x61 ≤ c.toNat ∧ c.toNat ≤ 0x7A)) : b = c := by
  have hnumber := congrArg UInt8.toNat h
  rw [toNat_lowercaseByte, toNat_lowercaseByte] at hnumber
  apply UInt8.toNat_inj.mp
  split at hnumber <;> split at hnumber <;> omega

theorem asciiByteEq_iff : asciiByteEq b c = true ↔ lowercaseByte b = lowercaseByte c := by
  rw [asciiByteEq]
  split
  · rw [decide_eq_true_eq]
  · next h =>
      rw [decide_eq_true_eq]
      refine ⟨congrArg lowercaseByte, fun heq => ?_⟩
      have hnumber := congrArg UInt8.toNat heq
      rw [toNat_lowercaseByte, toNat_lowercaseByte] at hnumber
      apply UInt8.toNat_inj.mp
      split at hnumber <;> split at hnumber <;> omega

theorem globRules_uniform : (globRules starMatchesSeparator).Uniform := by
  rintro p b c hb hc (hfree | hfree)
  · exact .inl hfree
  · refine .inr fun hseparator => hfree ?_
    rw [← hseparator]
    exact eq_of_lowercaseByte (hb.symm.trans hc) (by rw [hseparator]; decide)

/-- A state of the loop: the whole answer is that of the rest from here, or of the rest from behind the last star with more
taken by that star; what stands between has been compared and there is no star in it. -/
structure Scan (pattern path : List UInt8) (starMatchesSeparator : Bool) (p s : Nat) (starPos : Option Nat)
    (starMatch : Nat) : Prop where
  whole : (globRules starMatchesSeparator).Matches pattern path ↔
    (globRules starMatchesSeparator).Matches (pattern.drop p) (path.drop s) ∨
      ∃ pos ∈ starPos, (globRules starMatchesSeparator).AbsorbsMore (pattern.drop (pos + 1)) (path.drop starMatch)
  compared : ∀ pos ∈ starPos, ∃ ps front, pattern.drop (pos + 1) = ps ++ pattern.drop p ∧
    path.drop starMatch = front ++ path.drop s ∧ (globRules starMatchesSeparator).Literally ps front

theorem scan_start : Scan pattern path starMatchesSeparator 0 0 none 0 :=
  ⟨by simp, fun _ h => nomatch h⟩

theorem drop_eq_cons {xs : List UInt8} {i : Nat} (h : xs[i]? = some b) : xs.drop i = b :: xs.drop (i + 1) := by
  obtain ⟨hi, rfl⟩ := List.getElem?_eq_some_iff.mp h
  exact List.drop_eq_getElem_cons hi

/-- At a new star the old one is done with. -/
theorem Scan.meetStar (h : Scan pattern path starMatchesSeparator p s starPos starMatch) (hp : pattern[p]? = some star) :
    Scan pattern path starMatchesSeparator (p + 1) s (some p) s := by
  have hstar : (globRules starMatchesSeparator).star star := rfl
  refine ⟨?_, ?_⟩
  · have hone : (∃ pos ∈ some p,
          (globRules starMatchesSeparator).AbsorbsMore (pattern.drop (pos + 1)) (path.drop s)) ↔
        (globRules starMatchesSeparator).AbsorbsMore (pattern.drop (p + 1)) (path.drop s) := by simp
    rw [hone, ← absorbs_iff, h.whole, drop_eq_cons hp, matches_star hstar]
    refine or_iff_left_of_imp ?_
    rintro ⟨pos, hpos, hmore⟩
    obtain ⟨ps, front, hps, hfront, hliterally⟩ := h.compared pos hpos
    rw [hps, hfront, drop_eq_cons hp] at hmore
    exact absorbs_of_later globRules_uniform hliterally hstar hmore
  · rintro pos ⟨⟩
    exact ⟨[], [], rfl, rfl, .nil⟩

theorem Scan.compare (h : Scan pattern path starMatchesSeparator p s starPos starMatch) (hp : pattern[p]? = some c)
    (hs : path[s]? = some b) (hstar : c ≠ star) (heq : lowercaseByte c = lowercaseByte b) :
    Scan pattern path starMatchesSeparator (p + 1) (s + 1) starPos starMatch := by
  refine ⟨?_, ?_⟩
  · rw [h.whole, drop_eq_cons hp, drop_eq_cons hs, matches_literal hstar]
    refine or_congr_left ?_
    constructor
    · rintro ⟨b', rest, hrest, -, hmatches⟩
      obtain ⟨rfl, rfl⟩ := List.cons.inj hrest
      exact hmatches
    · exact fun hmatches => ⟨b, _, rfl, heq, hmatches⟩
  · intro pos hpos
    obtain ⟨ps, front, hps, hfront, hliterally⟩ := h.compared pos hpos
    refine ⟨ps ++ [c], front ++ [b], ?_, ?_, hliterally.snoc hstar heq⟩
    · rw [hps, drop_eq_cons hp, List.append_cons]
    · rw [hfront, drop_eq_cons hs, List.append_cons]

/-- A byte that the pattern does not take here. -/
theorem not_matches_here (hs : s < path.length) (hp : ¬ pattern[p]? = some star)
    (hany : ¬ pattern[p]?.any (asciiByteEq · path[s]) = true) :
    ¬ (globRules starMatchesSeparator).Matches (pattern.drop p) (path.drop s) := by
  rw [List.drop_eq_getElem_cons hs]
  intro hmatches
  cases hc : pattern[p]? with
  | none =>
      rw [List.drop_eq_nil_of_le (List.getElem?_eq_none_iff.mp hc), matches_nil] at hmatches
      exact List.cons_ne_nil _ _ hmatches
  | some c =>
      rw [hc] at hp hany
      rw [drop_eq_cons hc, matches_literal fun hstar => hp (congrArg some hstar)] at hmatches
      obtain ⟨b, rest, hrest, heq, -⟩ := hmatches
      obtain ⟨rfl, rfl⟩ := List.cons.inj hrest
      exact hany (asciiByteEq_iff.mpr heq)

theorem Scan.whole_of_mismatch {pos : Nat} (h : Scan pattern path starMatchesSeparator p s (some pos) starMatch)
    (hstar : starMatch < path.length) (hhere : ¬ (globRules starMatchesSeparator).Matches (pattern.drop p) (path.drop s)) :
    (globRules starMatchesSeparator).Matches pattern path ↔
      (globRules starMatchesSeparator).free path[starMatch] ∧
        (globRules starMatchesSeparator).Absorbs (pattern.drop (pos + 1)) (path.drop (starMatch + 1)) := by
  have hone : (∃ pos' ∈ some pos,
        (globRules starMatchesSeparator).AbsorbsMore (pattern.drop (pos' + 1)) (path.drop starMatch)) ↔
      (globRules starMatchesSeparator).AbsorbsMore (pattern.drop (pos + 1)) (path.drop starMatch) := by simp
  rw [h.whole, hone, List.drop_eq_getElem_cons hstar, absorbsMore_cons]
  exact or_iff_right hhere

theorem Scan.retry {pos : Nat} (h : Scan pattern path starMatchesSeparator p s (some pos) starMatch) (hle : starMatch ≤ s)
    (hs : s < path.length) (hhere : ¬ (globRules starMatchesSeparator).Matches (pattern.drop p) (path.drop s))
    (hfree : ¬ (starMatchesSeparator = false ∧ path[starMatch]? = some separator)) :
    Scan pattern path starMatchesSeparator (pos + 1) (starMatch + 1) (some pos) (starMatch + 1) := by
  have hlt : starMatch < path.length := Nat.lt_of_le_of_lt hle hs
  rw [List.getElem?_eq_getElem hlt, Option.some_inj, not_and_or, Bool.not_eq_false] at hfree
  refine ⟨?_, ?_⟩
  · rw [h.whole_of_mismatch hlt hhere, absorbs_iff]
    simp only [Option.mem_some_iff, exists_eq_left']
    exact and_iff_right hfree
  · rintro pos ⟨⟩
    exact ⟨[], [], rfl, rfl, .nil⟩

/-- At the end of the path only stars may be left. -/
theorem Scan.finish (h : Scan pattern path starMatchesSeparator p s starPos starMatch) (hs : path.length ≤ s) :
    (globRules starMatchesSeparator).Matches pattern path ↔ (pattern.drop p).dropWhile (· = star) = [] := by
  have hend : path.drop s = [] := List.drop_eq_nil_of_le hs
  have hnone : ¬ ∃ pos ∈ starPos,
      (globRules starMatchesSeparator).AbsorbsMore (pattern.drop (pos + 1)) (path.drop starMatch) := by
    rintro ⟨pos, hpos, hmore⟩
    obtain ⟨ps, front, hps, hfront, hliterally⟩ := h.compared pos hpos
    rw [hend, List.append_nil] at hfront
    rw [hps, hfront] at hmore
    exact not_absorbsMore_of_end hliterally hmore
  rw [h.whole, or_iff_left hnone, hend, matches_empty, List.dropWhile_eq_nil_iff]
  simp only [decide_eq_true_eq]
  rfl

theorem globLoop_iff {h : starMatch ≤ s} (hscan : Scan pattern path starMatchesSeparator p s starPos starMatch) :
    globLoop pattern path starMatchesSeparator p s starPos starMatch h = true ↔
      (globRules starMatchesSeparator).Matches pattern path := by
  induction p, s, starPos, starMatch, h using globLoop.induct pattern path starMatchesSeparator with
  | case1 p s starPos starMatch h hs hp ih =>
      rw [globLoop, dif_pos hs, dif_pos hp]
      exact ih (hscan.meetStar hp)
  | case2 p s starPos starMatch h hs hp hany ih =>
      rw [globLoop, dif_pos hs, dif_neg hp, dif_pos hany]
      obtain ⟨c, hc, heq⟩ := (Option.any_eq_true _ _).mp hany
      exact ih (hscan.compare hc (List.getElem?_eq_getElem hs) (fun hstar => hp (hstar ▸ hc)) (asciiByteEq_iff.mp heq))
  | case3 p s starMatch h hs hp hany pos _ hblocked =>
      rw [globLoop, dif_pos hs, dif_neg hp, dif_neg hany]
      dsimp only
      rw [if_pos hblocked, hscan.whole_of_mismatch (Nat.lt_of_le_of_lt h hs) (not_matches_here hs hp hany)]
      rw [List.getElem?_eq_getElem (Nat.lt_of_le_of_lt h hs), Option.some_inj] at hblocked
      refine iff_of_false Bool.false_ne_true ?_
      rintro ⟨hfree | hfree, -⟩
      · rw [hblocked.1] at hfree
        cases hfree
      · exact hfree hblocked.2
  | case4 p s starMatch h hs hp hany pos _ hfree ih =>
      rw [globLoop, dif_pos hs, dif_neg hp, dif_neg hany]
      dsimp only
      rw [if_neg hfree]
      exact ih (hscan.retry h hs (not_matches_here hs hp hany) hfree)
  | case5 p s starMatch h hs hp hany _ =>
      rw [globLoop, dif_pos hs, dif_neg hp, dif_neg hany]
      refine iff_of_false Bool.false_ne_true fun hmatches => ?_
      rcases hscan.whole.mp hmatches with hhere | ⟨pos, hpos, -⟩
      · exact not_matches_here hs hp hany hhere
      · cases hpos
  | case6 p s starPos starMatch h hs =>
      rw [globLoop, dif_neg hs, decide_eq_true_eq, hscan.finish (Nat.le_of_not_lt hs)]

theorem globBytesMatch_iff : globBytesMatch pattern path starMatchesSeparator = true ↔
    (globRules starMatchesSeparator).Matches pattern path :=
  globLoop_iff scan_start

section Spelling

/-- A character without its case, where both kinds of separators are one. -/
def fold (ch : Char) : Char := toAsciiLowercase (if ch = '\\' then '/' else ch)

variable {ch : Char} {text : Text}

theorem lowercaseByte_of_high (h : 0x80 ≤ b.toNat) : lowercaseByte b = b := if_neg (by omega)

/-- A byte of a character that is no letter is no letter either. -/
theorem lowercaseByte_of_mem (hch : ¬ (0x41 ≤ ch.toNat ∧ ch.toNat ≤ 0x5A)) (hb : b ∈ String.utf8EncodeChar ch) :
    lowercaseByte b = b := by
  have hval : ch.val.toNat = ch.toNat := rfl
  simp only [String.utf8EncodeChar, hval] at hb
  split at hb
  · rw [List.mem_singleton.mp hb]
    apply if_neg
    rwa [UInt8.toNat_ofNat_of_lt' (show ch.toNat < 256 by omega)]
  · apply lowercaseByte_of_high
    split at hb
    · simp only [List.mem_cons, List.not_mem_nil, or_false] at hb
      rcases hb with rfl | rfl <;> rw [UInt8.toNat_ofNat'] <;> omega
    · split at hb
      · simp only [List.mem_cons, List.not_mem_nil, or_false] at hb
        rcases hb with rfl | rfl | rfl <;> rw [UInt8.toNat_ofNat'] <;> omega
      · simp only [List.mem_cons, List.not_mem_nil, or_false] at hb
        rcases hb with rfl | rfl | rfl | rfl <;> rw [UInt8.toNat_ofNat'] <;> omega

theorem utf8EncodeChar_toAsciiLowercase :
    String.utf8EncodeChar (toAsciiLowercase ch) = (String.utf8EncodeChar ch).map lowercaseByte := by
  by_cases hletter : 0x41 ≤ ch.toNat ∧ ch.toNat ≤ 0x5A
  · have hch : ch.val.toNat = ch.toNat := rfl
    have hlower : (toAsciiLowercase ch).val.toNat = ch.toNat + 0x20 := by
      have hnumber := @toNat_toAsciiLowercase ch
      rwa [if_pos hletter] at hnumber
    have hbyte : (UInt8.ofNat ch.toNat).toNat = ch.toNat := UInt8.toNat_ofNat_of_lt' (show ch.toNat < 256 by omega)
    simp only [String.utf8EncodeChar, hlower, hch]
    rw [if_pos (by omega), if_pos (by omega), List.map_singleton, lowercaseByte, hbyte, if_pos hletter]
  · rw [toAsciiLowercase, if_neg hletter]
    have hid : (String.utf8EncodeChar ch).map lowercaseByte = (String.utf8EncodeChar ch).map id :=
      List.map_congr_left fun _ hb => lowercaseByte_of_mem hletter hb
    rw [hid, List.map_id]

theorem asBytes_toAsciiLowercase : asBytes (text.map toAsciiLowercase) = (asBytes text).map lowercaseByte := by
  simp only [asBytes, List.flatMap_map, List.map_flatMap, utf8EncodeChar_toAsciiLowercase]

theorem isWhitespace_fold : isWhitespace (fold ch) = isWhitespace ch := by
  rw [fold]
  split
  · next h => rw [h]; decide
  · rw [toAsciiLowercase]
    split
    · next hletter =>
        have hlower : (Char.ofNat (ch.toNat + 0x20)).toNat = ch.toNat + 0x20 := by
          have hnumber := @toNat_toAsciiLowercase ch
          rwa [toAsciiLowercase, if_pos hletter, if_pos hletter] at hnumber
        simp only [isWhitespace, hlower]
        rw [decide_eq_decide]
        omega
    · rfl

theorem trim_fold : trim (text.map fold) = (trim text).map fold := trim_map fun _ => isWhitespace_fold

theorem fold_eq_slash : fold ch = '/' ↔ ch = '/' ∨ ch = '\\' := by
  rw [fold]
  split
  · next h => exact iff_of_true (by decide) (.inr h)
  · next h =>
      rw [or_iff_left h]
      refine ⟨fun hslash => eq_of_toAsciiLowercase (d := '/') (hslash.trans (by decide)) (by decide), ?_⟩
      rintro rfl
      decide

theorem fold_ne_backslash : fold ch ≠ '\\' := by
  rw [fold]
  split
  · decide
  · next h => exact fun hback => h (eq_of_toAsciiLowercase (d := '\\') (hback.trans (by decide)) (by decide))

theorem normalizeConfigPath_fold :
    normalizeConfigPath (text.map fold) = (normalizeConfigPath text).map toAsciiLowercase := by
  simp only [normalizeConfigPath, trim_fold]
  have hslashes : ((trim text).map fold).map (fun ch => if ch = '\\' then '/' else ch) = (trim text).map fold := by
    rw [List.map_map]
    exact List.map_congr_left fun ch _ => if_neg fold_ne_backslash
  have hletters : ((trim text).map fun ch => if ch = '\\' then '/' else ch).map toAsciiLowercase = (trim text).map fold :=
    List.map_map
  rw [hslashes]
  by_cases hnil : trim text = []
  · rw [hnil]
    rfl
  · rw [if_neg hnil, if_neg (mt List.map_eq_nil_iff.mp hnil), List.map_append, hletters]
    congr 1
    obtain ⟨ch, rest, htext⟩ := List.exists_cons_of_ne_nil hnil
    rw [htext]
    simp only [List.map_cons, List.head?_cons, ne_eq, Option.some_inj, fold_eq_slash, fold_ne_backslash, not_or,
      not_false_eq_true, and_true]
    split <;> rfl

theorem lowercaseByte_eq_iff (hc : ¬ (0x41 ≤ c.toNat ∧ c.toNat ≤ 0x5A ∨ 0x61 ≤ c.toNat ∧ c.toNat ≤ 0x7A)) :
    lowercaseByte b = c ↔ b = c := by
  rw [← UInt8.toNat_inj, ← UInt8.toNat_inj, toNat_lowercaseByte]
  split <;> omega

theorem lowercaseByte_lowercaseByte : lowercaseByte (lowercaseByte b) = lowercaseByte b := by
  apply if_neg
  rw [toNat_lowercaseByte]
  split <;> omega

theorem matches_lowercase : (globRules starMatchesSeparator).Matches (pattern.map lowercaseByte) (path.map lowercaseByte) ↔
    (globRules starMatchesSeparator).Matches pattern path := by
  apply matches_map
  · exact fun p => lowercaseByte_eq_iff (by decide)
  · exact fun b => or_congr_right (not_congr (lowercaseByte_eq_iff (by decide)))
  · intro p b
    simp only [globRules, lowercaseByte_lowercaseByte]

theorem pathPatternEq_fold {pattern path : Text} :
    pathPatternEq (pattern.map fold) (path.map fold) = pathPatternEq pattern path := by
  rw [Bool.eq_iff_iff, pathPatternEq, pathPatternEq, globBytesMatch_iff, globBytesMatch_iff, normalizeConfigPath_fold,
    normalizeConfigPath_fold, asBytes_toAsciiLowercase, asBytes_toAsciiLowercase, matches_lowercase]

end Spelling

/-- The matcher decides the matches of a pattern, and a path rule does not depend on the case of letters or the kind of
separators in it. -/
theorem glob_matching : (∀ pattern path starMatchesSeparator, globBytesMatch pattern path starMatchesSeparator = true ↔
      (globRules starMatchesSeparator).Matches pattern path) ∧
    ∀ pattern pattern' path path' : Text, pattern.map fold = pattern'.map fold → path.map fold = path'.map fold →
      pathPatternEq pattern path = pathPatternEq pattern' path' := by
  refine ⟨fun _ _ _ => globBytesMatch_iff, fun pattern pattern' path path' hpattern hpath => ?_⟩
  rw [← pathPatternEq_fold, hpattern, hpath, pathPatternEq_fold]

theorem winImages_matched :
    pathPatternEq "/ISO/Win*.iso".toList "iso\\WIN11.ISO".toList =
      pathPatternEq "\\iso/wIN*.ISO".toList "iso/Win11.iso".toList :=
  glob_matching.2 _ _ _ _ (by decide) (by decide)

end NextBoot.Config
