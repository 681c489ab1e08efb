import Mathlib.Data.List.Basic

namespace NextBoot.Strings

/-- The characters of a `str`. -/
abbrev Text := List Char

def isWhitespace (c : Char) : Bool :=
  let n := c.toNat
  (9 ≤ n ∧ n ≤ 13) ∨ n = 0x20 ∨ n = 0x85 ∨ n = 0xA0 ∨ n = 0x1680 ∨ (0x2000 ≤ n ∧ n ≤ 0x200A) ∨ n = 0x2028 ∨ n = 0x2029 ∨
    n = 0x202F ∨ n = 0x205F ∨ n = 0x3000

def isAsciiAlphanumeric (c : Char) : Bool :=
  let n := c.toNat
  (0x30 ≤ n ∧ n ≤ 0x39) ∨ (0x41 ≤ n ∧ n ≤ 0x5A) ∨ (0x61 ≤ n ∧ n ≤ 0x7A)

def toAsciiLowercase (c : Char) : Char :=
  if 0x41 ≤ c.toNat ∧ c.toNat ≤ 0x5A then Char.ofNat (c.toNat + 0x20) else c

def eqIgnoreAsciiCase (a b : Text) : Bool := a.map toAsciiLowercase = b.map toAsciiLowercase

def trimEndWhile (p : Char → Bool) (t : Text) : Text := (t.reverse.dropWhile p).reverse

def trimWhile (p : Char → Bool) (t : Text) : Text := trimEndWhile p (t.dropWhile p)

def trim (t : Text) : Text := trimWhile isWhitespace t

def trimMatches (c : Char) (t : Text) : Text := trimWhile (· = c) t

def stripPrefix (p t : Text) : Option Text := if p.isPrefixOf t then some (t.drop p.length) else none

def stripSuffix (p t : Text) : Option Text := if p.isSuffixOf t then some (t.take (t.length - p.length)) else none

def containsText (p t : Text) : Bool := t.tails.any p.isPrefixOf

/-- `split_once` at a character. -/
def splitOnce (c : Char) : Text → Option (Text × Text)
  | [] => none
  | d :: t => if d = c then some ([], t) else (splitOnce c t).map fun s => (d :: s.1, s.2)

/-- `split_once` at the last occurrence of a character. -/
def rsplitOnce (c : Char) (t : Text) : Option (Text × Text) :=
  (splitOnce c t.reverse).map fun s => (s.2.reverse, s.1.reverse)

/-- `split` at a character: the pieces between its occurrences. -/
def split (c : Char) : Text → List Text
  | [] => [[]]
  | d :: t =>
      if d = c then [] :: split c t
      else
        match split c t with
        | [] => [[d]]
        | piece :: pieces => (d :: piece) :: pieces

/-- A line behind which a newline stood, less the carriage return before that. -/
def stripCarriageReturn (line : Text) : Text := (stripSuffix ['\r'] line).getD line

/-- `lines`, with the part of the line that has been read. -/
def linesFrom (line : Text) : Text → List Text
  | [] => if line = [] then [] else [line]
  | c :: t => if c = '\n' then stripCarriageReturn line :: linesFrom [] t else linesFrom (line ++ [c]) t

def lines (t : Text) : List Text := linesFrom [] t

def unlines (ls : List Text) : Text := ls.flatMap fun line => line ++ ['\n']

/-- What a line can be that a newline ends. -/
def IsLine (line : Text) : Prop := '\n' ∉ line ∧ line.getLast? ≠ some '\r'

/-- `as_bytes` of a `str`. -/
def asBytes (t : Text) : List UInt8 := t.flatMap String.utf8EncodeChar

def trimEnd (t : Text) : Text := trimEndWhile isWhitespace t

/-- `char::from_u32`: surrogates and numbers past the last plane are no characters. -/
def charFromU32 (n : Nat) : Option Char := if n < 0xD800 ∨ (0xE000 ≤ n ∧ n < 0x110000) then some (Char.ofNat n) else none

def replacementChar : Char := Char.ofNat 0xFFFD

/-- Whether a byte can continue a character, in the range that the bytes before it leave. -/
def continues (low high : Nat) (b : UInt8) : Bool := low ≤ b.toNat ∧ b.toNat ≤ high

/-- The next character of a byte sequence and how many bytes behind the first it takes. An ill-formed sequence is one
replacement character for as many bytes as could still begin a character. -/
def decodeOne (b : UInt8) (rest : List UInt8) : Char × Nat :=
  let n := b.toNat
  let second := rest[0]?
  let third := rest[1]?
  let fourth := rest[2]?
  let tail (o : Option UInt8) : Nat := ((o.map UInt8.toNat).getD 0) % 0x40
  if n < 0x80 then (Char.ofNat n, 0)
  else if 0xC2 ≤ n ∧ n ≤ 0xDF then
    if second.any (continues 0x80 0xBF) then (Char.ofNat (n % 0x20 * 0x40 + tail second), 1) else (replacementChar, 0)
  else if 0xE0 ≤ n ∧ n ≤ 0xEF then
    if ¬ second.any (continues (if n = 0xE0 then 0xA0 else 0x80) (if n = 0xED then 0x9F else 0xBF)) then
      (replacementChar, 0)
    else if ¬ third.any (continues 0x80 0xBF) then (replacementChar, 1)
    else (Char.ofNat (n % 0x10 * 0x1000 + tail second * 0x40 + tail third), 2)
  else if 0xF0 ≤ n ∧ n ≤ 0xF4 then
    if ¬ second.any (continues (if n = 0xF0 then 0x90 else 0x80) (if n = 0xF4 then 0x8F else 0xBF)) then
      (replacementChar, 0)
    else if ¬ third.any (continues 0x80 0xBF) then (replacementChar, 1)
    else if ¬ fourth.any (continues 0x80 0xBF) then (replacementChar, 2)
    else (Char.ofNat (n % 8 * 0x40000 + tail second * 0x1000 + tail third * 0x40 + tail fourth), 3)
  else (replacementChar, 0)

/-- `from_utf8_lossy`, with the number of bytes that the last character has taken already. -/
def lossyFrom : Nat → List UInt8 → Text
  | _, [] => []
  | taken + 1, _ :: rest => lossyFrom taken rest
  | 0, b :: rest => (decodeOne b rest).1 :: lossyFrom (decodeOne b rest).2 rest

def fromUtf8Lossy (bytes : List UInt8) : Text := lossyFrom 0 bytes

variable {c : Char} {t a b line rest : Text} {ls : List Text}

theorem splitOnce_eq_some {before after : Text} (h : splitOnce c t = some (before, after)) :
    t = before ++ c :: after := by
  induction t generalizing before with
  | nil => cases h
  | cons d t ih =>
      rw [splitOnce] at h
      split at h
      · next hd =>
          obtain ⟨rfl, rfl⟩ := Prod.mk.inj (Option.some.inj h)
          rw [hd, List.nil_append]
      · obtain ⟨⟨before', after'⟩, ht, heq⟩ := Option.map_eq_some_iff.mp h
        obtain ⟨rfl, rfl⟩ := Prod.mk.inj heq
        rw [ih ht, List.cons_append]

theorem splitOnce_eq_none (h : c ∉ t) : splitOnce c t = none := by
  induction t with
  | nil => rfl
  | cons d t ih =>
      rw [List.mem_cons, not_or] at h
      rw [splitOnce, if_neg (Ne.symm h.1), ih h.2, Option.map_none]

theorem splitOnce_append (h : c ∉ a) : splitOnce c (a ++ c :: b) = some (a, b) := by
  induction a with
  | nil => rw [List.nil_append, splitOnce, if_pos rfl]
  | cons d a ih =>
      rw [List.mem_cons, not_or] at h
      rw [List.cons_append, splitOnce, if_neg (Ne.symm h.1), ih h.2, Option.map_some]

theorem rsplitOnce_eq_none (h : c ∉ t) : rsplitOnce c t = none := by
  rw [rsplitOnce, splitOnce_eq_none (mt List.mem_reverse.mp h), Option.map_none]

theorem rsplitOnce_append (h : c ∉ b) : rsplitOnce c (a ++ c :: b) = some (a, b) := by
  rw [rsplitOnce, List.reverse_append, List.reverse_cons, List.append_assoc, List.singleton_append,
    splitOnce_append (mt List.mem_reverse.mp h), Option.map_some, List.reverse_reverse, List.reverse_reverse]

theorem split_ne_nil : split c t ≠ [] := by
  cases t with
  | nil => exact List.cons_ne_nil _ _
  | cons d t =>
      rw [split]
      split
      · exact List.cons_ne_nil _ _
      · split <;> exact List.cons_ne_nil _ _

theorem split_of_notMem (h : c ∉ t) : split c t = [t] := by
  induction t with
  | nil => rfl
  | cons d t ih =>
      rw [List.mem_cons, not_or] at h
      rw [split, if_neg (Ne.symm h.1), ih h.2]

theorem split_append : split c (a ++ c :: b) = split c a ++ split c b := by
  induction a with
  | nil =>
      show split c (c :: b) = [] :: split c b
      rw [split, if_pos rfl]
  | cons d a ih =>
      rw [List.cons_append, split, split]
      split
      · rw [ih, List.cons_append]
      · rw [ih]
        cases hsplit : split c a with
        | nil => exact absurd hsplit split_ne_nil
        | cons piece pieces => rfl

theorem notMem_of_mem_split {piece : Text} (h : piece ∈ split c t) : c ∉ piece := by
  induction t generalizing piece with
  | nil =>
      rw [List.mem_singleton.mp h]
      exact List.not_mem_nil
  | cons d t ih =>
      rw [split] at h
      split at h
      · rcases List.mem_cons.mp h with rfl | h
        · exact List.not_mem_nil
        · exact ih h
      · next hne =>
          cases hsplit : split c t with
          | nil => exact absurd hsplit split_ne_nil
          | cons first pieces =>
              rw [hsplit] at h ih
              rcases List.mem_cons.mp h with rfl | h
              · exact fun hmem => (List.mem_cons.mp hmem).elim (fun heq => hne heq.symm) (ih List.mem_cons_self)
              · exact ih (List.mem_cons_of_mem _ h)

theorem mem_of_mem_split {piece : Text} {d : Char} (h : piece ∈ split c t) (hd : d ∈ piece) : d ∈ t := by
  induction t generalizing piece with
  | nil =>
      rw [List.mem_singleton.mp h] at hd
      exact hd
  | cons e t ih =>
      rw [split] at h
      split at h
      · rcases List.mem_cons.mp h with rfl | h
        · exact absurd hd List.not_mem_nil
        · exact List.mem_cons_of_mem _ (ih h hd)
      · cases hsplit : split c t with
        | nil => exact absurd hsplit split_ne_nil
        | cons first pieces =>
            rw [hsplit] at h ih
            rcases List.mem_cons.mp h with rfl | h
            · rcases List.mem_cons.mp hd with rfl | hd
              · exact List.mem_cons_self
              · exact List.mem_cons_of_mem _ (ih List.mem_cons_self hd)
            · exact List.mem_cons_of_mem _ (ih (List.mem_cons_of_mem _ h) hd)

theorem toNat_toAsciiLowercase : (toAsciiLowercase c).toNat =
    if 0x41 ≤ c.toNat ∧ c.toNat ≤ 0x5A then c.toNat + 0x20 else c.toNat := by
  rw [toAsciiLowercase]
  split
  · next h =>
      rw [Char.ofNat, dif_pos (show (c.toNat + 0x20).isValidChar from .inl (by omega))]
      rfl
  · rfl

theorem charFromU32_toNat (c : Char) : charFromU32 c.toNat = some c := by
  have hvalid := c.valid
  simp only [UInt32.isValidChar, Nat.isValidChar] at hvalid
  have hrange : c.toNat < 0xD800 ∨ (0xE000 ≤ c.toNat ∧ c.toNat < 0x110000) := by
    unfold Char.toNat
    omega
  rw [charFromU32, if_pos hrange, Char.ofNat_toNat]

theorem charFromU32_spec {n : Nat} (h : charFromU32 n = some c) : c.toNat = n := by
  unfold charFromU32 at h
  split at h
  · next hvalid =>
      cases h
      rw [Char.ofNat, dif_pos (show n.isValidChar from hvalid.imp id fun h => ⟨by omega, h.2⟩)]
      rfl
  · cases h

/-- A character that is no letter has no other character that is the same without case. -/
theorem eq_of_toAsciiLowercase {d : Char} (h : toAsciiLowercase c = toAsciiLowercase d)
    (hd : ¬ (0x41 ≤ d.toNat ∧ d.toNat ≤ 0x5A ∨ 0x61 ≤ d.toNat ∧ d.toNat ≤ 0x7A)) : c = d := by
  have hnumber := congrArg Char.toNat h
  rw [toNat_toAsciiLowercase, toNat_toAsciiLowercase] at hnumber
  apply Char.toNat_inj.mp
  split at hnumber <;> split at hnumber <;> omega

theorem toAsciiLowercase_eq_slash : toAsciiLowercase c = '/' ↔ c = '/' := by
  constructor
  · intro h
    exact @eq_of_toAsciiLowercase c '/' (h.trans (by decide)) (by decide)
  · rintro rfl
    decide

theorem linesFrom_append {read : Text} (h : '\n' ∉ line) :
    linesFrom read (line ++ '\n' :: rest) = stripCarriageReturn (read ++ line) :: linesFrom [] rest := by
  induction line generalizing read with
  | nil => rw [List.nil_append, linesFrom, if_pos rfl, List.append_nil]
  | cons c line ih =>
      rw [List.mem_cons, not_or] at h
      rw [List.cons_append, linesFrom, if_neg (Ne.symm h.1), ih h.2, List.append_assoc, List.singleton_append]

theorem stripCarriageReturn_eq (h : line.getLast? ≠ some '\r') : stripCarriageReturn line = line := by
  rw [stripCarriageReturn, stripSuffix, if_neg, Option.getD_none]
  intro hsuffix
  obtain ⟨init, rfl⟩ := List.isSuffixOf_iff_suffix.mp hsuffix
  exact h List.getLast?_concat

theorem lines_unlines (h : ∀ line ∈ ls, IsLine line) : lines (unlines ls) = ls := by
  induction ls with
  | nil => rfl
  | cons line ls ih =>
      rw [List.forall_mem_cons] at h
      rw [lines, unlines, List.flatMap_cons, List.append_assoc, List.singleton_append, linesFrom_append h.1.1,
        List.nil_append, stripCarriageReturn_eq h.1.2]
      exact congrArg _ (ih h.2)

/-- No character that could be trimmed stands at either end. -/
def Trimmed (t : Text) : Prop := (∀ c ∈ t.head?, isWhitespace c = false) ∧ ∀ c ∈ t.getLast?, isWhitespace c = false

theorem head?_dropWhile {p : Char → Bool} : ∀ c ∈ (t.dropWhile p).head?, p c = false := by
  intro c hc
  have hnot := List.head?_dropWhile_not p t
  rw [Option.mem_def.mp hc] at hnot
  exact hnot

theorem dropWhile_eq_self {p : Char → Bool} (h : ∀ c ∈ t.head?, p c = false) : t.dropWhile p = t := by
  cases t with
  | nil => rfl
  | cons c t => exact List.dropWhile_cons_of_neg (by rw [h c rfl]; exact Bool.false_ne_true)

theorem trimEndWhile_eq_self {p : Char → Bool} (h : ∀ c ∈ t.getLast?, p c = false) : trimEndWhile p t = t := by
  rw [trimEndWhile, dropWhile_eq_self (by rwa [List.head?_reverse]), List.reverse_reverse]

theorem trimmed_trim : Trimmed (trim t) := by
  constructor
  · intro c hc
    have hprefix : trim t <+: t.dropWhile isWhitespace :=
      List.reverse_suffix.mp (by rw [trim, trimWhile, trimEndWhile, List.reverse_reverse]; exact List.dropWhile_suffix _)
    obtain ⟨rest, hrest⟩ := hprefix
    apply @head?_dropWhile t isWhitespace c
    rw [← hrest, List.head?_append, Option.mem_def.mp hc]
    rfl
  · intro c hc
    rw [trim, trimWhile, trimEndWhile, List.getLast?_reverse] at hc
    exact head?_dropWhile c hc

theorem trim_of_trimmed (h : Trimmed t) : trim t = t := by
  rw [trim, trimWhile, dropWhile_eq_self h.1, trimEndWhile_eq_self h.2]

theorem trimEndWhile_cons {p : Char → Bool} : trimEndWhile p (c :: t) =
    if trimEndWhile p t = [] ∧ p c = true then [] else c :: trimEndWhile p t := by
  simp only [trimEndWhile, List.reverse_cons, List.dropWhile_append, List.isEmpty_iff, List.reverse_eq_nil_iff]
  by_cases hnil : t.reverse.dropWhile p = []
  · rw [if_pos hnil, hnil]
    cases hc : p c with
    | false => simp [hc]
    | true => simp [hc]
  · rw [if_neg hnil, if_neg (fun h => hnil h.1), List.reverse_append]
    rfl

/-- White space may be dropped behind a text first, and in front of it then. -/
theorem trim_eq_dropWhile : trim t = (trimEnd t).dropWhile isWhitespace := by
  induction t with
  | nil => rfl
  | cons c t ih =>
      rw [trimEnd, trimEndWhile_cons]
      cases hc : isWhitespace c with
      | false =>
          rw [if_neg (by simp), List.dropWhile_cons_of_neg (by simp [hc]), trim, trimWhile,
            List.dropWhile_cons_of_neg (by simp [hc]), trimEndWhile_cons, if_neg (by simp [hc])]
      | true =>
          have hskip : trim (c :: t) = trim t := by
            rw [trim, trimWhile, List.dropWhile_cons_of_pos hc]
            rfl
          rw [hskip, ih]
          split
          · next h =>
              rw [trimEnd, h.1]
          · rw [List.dropWhile_cons_of_pos hc]
            rfl

theorem trim_map {f : Char → Char} (h : ∀ c, isWhitespace (f c) = isWhitespace c) : trim (t.map f) = (trim t).map f := by
  have hcomp : isWhitespace ∘ f = isWhitespace := funext h
  rw [trim, trim, trimWhile, trimWhile, trimEndWhile, trimEndWhile, List.dropWhile_map, hcomp, ← List.map_reverse,
    List.dropWhile_map, hcomp, List.map_reverse]

theorem flatten_split : (split c t).flatten = t.filter (· ≠ c) := by
  induction t with
  | nil => rfl
  | cons d t ih =>
      rw [split]
      split
      · next hd =>
          rw [List.flatten_cons, List.nil_append, ih, List.filter_cons_of_neg (by simpa using hd)]
      · next hd =>
          rw [List.filter_cons_of_pos (by simpa using hd), ← ih]
          cases h : split c t with
          | nil => exact absurd h split_ne_nil
          | cons piece pieces => rfl

end NextBoot.Strings
