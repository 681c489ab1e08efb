import Mathlib.Data.List.Forall2

namespace NextBoot.Globs

/-- The rules of a kind of patterns: which symbols stand for any sequence, what such a sequence is free to hold, and what
any other symbol stands for. -/
structure Rules (α β : Type) where
  star : α → Prop
  free : β → Prop
  literal : α → β → Prop

variable {α β : Type} (R : Rules α β)

def Rules.Takes (p : α) (piece : List β) : Prop :=
  (R.star p ∧ ∀ b ∈ piece, R.free b) ∨ (¬ R.star p ∧ ∃ b, piece = [b] ∧ R.literal p b)

/-- The text can be cut into pieces that the symbols of the pattern take in their order. -/
def Rules.Matches (ps : List α) (bs : List β) : Prop :=
  ∃ pieces : List (List β), pieces.flatten = bs ∧ List.Forall₂ R.Takes ps pieces

/-- The text begins with a sequence that a star takes. -/
def Rules.Absorbs (ps : List α) (bs : List β) : Prop :=
  ∃ piece rest, bs = piece ++ rest ∧ (∀ b ∈ piece, R.free b) ∧ R.Matches ps rest

/-- As above, and the sequence is not empty. -/
def Rules.AbsorbsMore (ps : List α) (bs : List β) : Prop := ∃ b rest, bs = b :: rest ∧ R.free b ∧ R.Absorbs ps rest

/-- Symbols other than stars, and what they stand for. -/
def Rules.Literally (ps : List α) (bs : List β) : Prop := List.Forall₂ (fun p b => ¬ R.star p ∧ R.literal p b) ps bs

variable {R} {p : α} {ps qs : List α} {b : β} {bs cs rest : List β}

theorem matches_nil : R.Matches [] bs ↔ bs = [] := by
  constructor
  · rintro ⟨pieces, rfl, hpieces⟩
    cases hpieces
    rfl
  · rintro rfl
    exact ⟨[], rfl, .nil⟩

theorem matches_cons : R.Matches (p :: ps) bs ↔
    ∃ piece rest, bs = piece ++ rest ∧ R.Takes p piece ∧ R.Matches ps rest := by
  constructor
  · rintro ⟨pieces, rfl, hpieces⟩
    cases hpieces with
    | cons hpiece hpieces => exact ⟨_, _, List.flatten_cons, hpiece, _, rfl, hpieces⟩
  · rintro ⟨piece, rest, rfl, hpiece, pieces, rfl, hpieces⟩
    exact ⟨piece :: pieces, List.flatten_cons, .cons hpiece hpieces⟩

theorem matches_star (hp : R.star p) : R.Matches (p :: ps) bs ↔ R.Absorbs ps bs := by
  rw [matches_cons, Rules.Absorbs]
  simp only [Rules.Takes, hp, true_and, not_true_eq_false, false_and, or_false]

theorem matches_literal (hp : ¬ R.star p) : R.Matches (p :: ps) bs ↔
    ∃ b rest, bs = b :: rest ∧ R.literal p b ∧ R.Matches ps rest := by
  rw [matches_cons]
  constructor
  · rintro ⟨piece, rest, rfl, htakes, hrest⟩
    obtain ⟨hstar, -⟩ | ⟨-, b, rfl, hb⟩ := htakes
    · exact absurd hstar hp
    · exact ⟨b, rest, rfl, hb, hrest⟩
  · rintro ⟨b, rest, rfl, hb, hrest⟩
    exact ⟨[b], rest, rfl, .inr ⟨hp, b, rfl, hb⟩, hrest⟩

theorem absorbs_iff : R.Absorbs ps bs ↔ R.Matches ps bs ∨ R.AbsorbsMore ps bs := by
  constructor
  · rintro ⟨piece, rest, rfl, hfree, hrest⟩
    cases piece with
    | nil => exact .inl hrest
    | cons b piece =>
        rw [List.forall_mem_cons] at hfree
        exact .inr ⟨b, piece ++ rest, rfl, hfree.1, piece, rest, rfl, hfree.2, hrest⟩
  · rintro (h | ⟨b, rest, rfl, hb, piece, rest', rfl, hfree, hrest⟩)
    · exact ⟨[], bs, rfl, fun _ h => (nomatch h), h⟩
    · exact ⟨b :: piece, rest', rfl, List.forall_mem_cons.mpr ⟨hb, hfree⟩, hrest⟩

theorem absorbsMore_cons : R.AbsorbsMore ps (b :: bs) ↔ R.free b ∧ R.Absorbs ps bs := by
  constructor
  · rintro ⟨b', rest, heq, hb, hrest⟩
    obtain ⟨rfl, rfl⟩ := List.cons.inj heq
    exact ⟨hb, hrest⟩
  · rintro ⟨hb, hrest⟩
    exact ⟨b, bs, rfl, hb, hrest⟩

theorem Rules.Literally.snoc (h : R.Literally ps bs) (hp : ¬ R.star p) (hb : R.literal p b) :
    R.Literally (ps ++ [p]) (bs ++ [b]) :=
  List.rel_append h (.cons ⟨hp, hb⟩ .nil)

theorem Rules.Literally.notStar (h : R.Literally ps bs) : ∀ p ∈ ps, ¬ R.star p := by
  induction h with
  | nil => exact fun _ h => nomatch h
  | cons hp _ ih => exact List.forall_mem_cons.mpr ⟨hp.1, ih⟩

/-- A pattern that begins with symbols other than stars takes as many symbols of the text. -/
theorem matches_append_literally (hps : ∀ p ∈ ps, ¬ R.star p) (h : R.Matches (ps ++ qs) bs) :
    ∃ front rest, bs = front ++ rest ∧ R.Literally ps front ∧ R.Matches qs rest := by
  induction ps generalizing bs with
  | nil => exact ⟨[], bs, rfl, .nil, h⟩
  | cons p ps ih =>
      rw [List.forall_mem_cons] at hps
      obtain ⟨b, rest, rfl, hb, h⟩ := (matches_literal hps.1).mp h
      obtain ⟨front, rest, rfl, hfront, h⟩ := ih hps.2 h
      exact ⟨b :: front, rest, rfl, .cons ⟨hps.1, hb⟩ hfront, h⟩

section Exchange

/-- What a symbol stands for is all free or not at all. -/
def Rules.Uniform (R : Rules α β) : Prop := ∀ p b c, R.literal p b → R.literal p c → R.free b → R.free c

variable {piece front : List β}

/-- Where the same symbols match at the front of a text and once more behind a free piece, the second match is free: each
of its places is as free as the one that lies a piece before it. -/
theorem free_of_shifted (hR : R.Uniform) (hpiece : piece ≠ []) (hfree : ∀ b ∈ piece, R.free b)
    (hfront : R.Literally ps front) (hagain : R.Literally ps cs) (heq : front ++ bs = piece ++ cs ++ rest) :
    ∀ b ∈ cs, R.free b := by
  induction ps generalizing piece front cs with
  | nil =>
      cases hagain
      exact fun _ h => nomatch h
  | cons p ps ih =>
      cases hfront with
      | @cons _ b _ front hb hfront =>
          cases hagain with
          | @cons _ c _ cs hc hagain =>
              cases piece with
              | nil => exact absurd rfl hpiece
              | cons d piece =>
                  rw [List.forall_mem_cons] at hfree
                  obtain ⟨rfl, htail⟩ := List.cons.inj heq
                  have hcfree : R.free c := hR p b c hb.2 hc.2 hfree.1
                  have hfree' : ∀ b ∈ piece ++ [c], R.free b := by
                    intro e he
                    rcases List.mem_append.mp he with he | he
                    · exact hfree.2 e he
                    · rwa [List.mem_singleton.mp he]
                  refine List.forall_mem_cons.mpr ⟨hcfree, ih (by simp) hfree' hfront hagain ?_⟩
                  rw [List.append_assoc piece [c] cs]
                  exact htail

/-- The exchange: symbols that match at the front of a text need not be matched further on, if a star follows them. -/
theorem absorbs_of_later (hR : R.Uniform) (hfront : R.Literally ps front) (hp : R.star p)
    (h : R.AbsorbsMore (ps ++ p :: qs) (front ++ bs)) : R.Absorbs qs bs := by
  obtain ⟨b, rest, heq, hb, piece, rest', rfl, hpiece, h⟩ := h
  obtain ⟨cs, rest, rfl, hagain, h⟩ := matches_append_literally hfront.notStar h
  obtain ⟨last, tail, rfl, hlast, h⟩ := (matches_star hp).mp h
  have hlength := hfront.length_eq
  have hlength' := hagain.length_eq
  have hpiece' : ∀ c ∈ b :: piece, R.free c := List.forall_mem_cons.mpr ⟨hb, hpiece⟩
  have heq' : front ++ bs = (b :: piece) ++ cs ++ (last ++ tail) := by simp [heq]
  have hcs := free_of_shifted hR (List.cons_ne_nil b piece) hpiece' hfront hagain heq'
  rcases List.append_eq_append_iff.mp heq'.symm with ⟨between, hlong, -⟩ | ⟨between, hfront', rfl⟩
  · have hle := congrArg List.length hlong
    simp only [List.length_append, List.length_cons] at hle
    omega
  · refine ⟨between ++ last, tail, by rw [List.append_assoc], ?_, h⟩
    intro c hc
    rcases List.mem_append.mp hc with hc | hc
    · rcases List.mem_append.mp (hfront' ▸ List.mem_append_right front hc) with hc | hc
      · exact hpiece' c hc
      · exact hcs c hc
    · exact hlast c hc

/-- Behind symbols that reach to the end of a text nothing is left to match them further on. -/
theorem not_absorbsMore_of_end (hfront : R.Literally ps front) : ¬ R.AbsorbsMore (ps ++ qs) front := by
  rintro ⟨b, rest, rfl, -, piece, rest, rfl, -, h⟩
  obtain ⟨cs, rest, rfl, hagain, -⟩ := matches_append_literally hfront.notStar h
  have hlength := hfront.length_eq
  have hlength' := hagain.length_eq
  simp only [List.length_append, List.length_cons] at hlength
  omega

end Exchange

theorem matches_empty : R.Matches ps [] ↔ ∀ p ∈ ps, R.star p := by
  induction ps with
  | nil => simp [matches_nil]
  | cons p ps ih =>
      rw [List.forall_mem_cons, ← ih]
      by_cases hp : R.star p
      · rw [matches_star hp, absorbs_iff]
        simp [hp, Rules.AbsorbsMore]
      · simp [matches_literal hp, hp]

/-- What the rules do not tell apart may be replaced. -/
theorem matches_map {f : α → α} {g : β → β} (hstar : ∀ p, R.star (f p) ↔ R.star p)
    (hfree : ∀ b, R.free (g b) ↔ R.free b) (hliteral : ∀ p b, R.literal (f p) (g b) ↔ R.literal p b) :
    R.Matches (ps.map f) (bs.map g) ↔ R.Matches ps bs := by
  have htakes : ∀ p piece, R.Takes (f p) (piece.map g) ↔ R.Takes p piece := by
    intro p piece
    rw [Rules.Takes, Rules.Takes, hstar, List.forall_mem_map]
    simp only [hfree]
    cases piece with
    | nil => simp
    | cons b piece => cases piece <;> simp [hliteral]
  induction ps generalizing bs with
  | nil => rw [List.map_nil, matches_nil, matches_nil, List.map_eq_nil_iff]
  | cons p ps ih =>
      rw [List.map_cons, matches_cons, matches_cons]
      constructor
      · rintro ⟨piece, rest, heq, htake, h⟩
        obtain ⟨piece, rest, rfl, rfl, rfl⟩ := List.map_eq_append_iff.mp heq
        exact ⟨piece, rest, rfl, (htakes p piece).mp htake, ih.mp h⟩
      · rintro ⟨piece, rest, rfl, htake, h⟩
        exact ⟨piece.map g, rest.map g, List.map_append, (htakes p piece).mpr htake, ih.mpr h⟩

end NextBoot.Globs
