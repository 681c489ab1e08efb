import NextBoot.Results
import NextBoot.Strings
import NextBoot.Words

namespace NextBoot.Config.JsonStrings

open Words Strings Results

inductive VentoyConfigError where
  | notFound
  | fileTooLarge
  | invalidJson
  | outOfMemory
deriving DecidableEq, Repr

section parser

variable (input : List UInt8)

def isAsciiWhitespace (b : UInt8) : Bool := b = 0x20 ∨ b = 0x09 ∨ b = 0x0A ∨ b = 0x0C ∨ b = 0x0D

def skipWs (pos : Nat) : Nat := pos + ((input.drop pos).takeWhile isAsciiWhitespace).length

def expect (pos : Nat) (expected : UInt8) : Except VentoyConfigError Nat :=
  if input[skipWs input pos]? = some expected then .ok (skipWs input pos + 1) else .error .invalidJson

def hexValue (ch : UInt8) : Option Nat :=
  if 0x30 ≤ ch ∧ ch ≤ 0x39 then some (ch.toNat - 0x30)
  else if 0x61 ≤ ch ∧ ch ≤ 0x66 then some (ch.toNat - 0x61 + 10)
  else if 0x41 ≤ ch ∧ ch ≤ 0x46 then some (ch.toNat - 0x41 + 10)
  else none

/-- The loop of `parse_unicode_escape`, with the digits that it still has to read. -/
def readHex : Nat → Nat → Nat → Except VentoyConfigError (Nat × Nat)
  | 0, value, pos => .ok (value, pos)
  | digits + 1, value, pos => do
      let ch ← someOr input[pos]? .invalidJson
      let value ← someOr ((checkedMul 32 value 16).bind fun base => (hexValue ch).bind (checkedAdd 32 base)) .invalidJson
      readHex digits value (pos + 1)

def parseUnicodeEscape (pos : Nat) : Except VentoyConfigError (Char × Nat) := do
  let (value, pos) ← readHex input 4 0 pos
  let ch ← someOr (charFromU32 value) .invalidJson
  pure (ch, pos)

/-- `core::str::from_utf8`. -/
def fromUtf8 (bytes : List UInt8) : Option Text := (String.fromUTF8? bytes.toByteArray).map String.toList

/-- The character whose first byte has been read; all the rest of the input has to be valid. -/
def consumeUtf8Char (pos : Nat) : Except VentoyConfigError (Char × Nat) := do
  let start := pos - 1
  let text ← someOr (fromUtf8 (input.drop start)) .invalidJson
  let ch ← someOr text.head? .invalidJson
  pure (ch, start + ch.utf8Size)

/-- The escapes of one letter: its byte and the character that it stands for. -/
def shortEscape (escaped : UInt8) : Option Char :=
  if escaped = 0x22 then some '"'
  else if escaped = 0x5C then some '\\'
  else if escaped = 0x2F then some '/'
  else if escaped = 0x62 then some (Char.ofNat 0x08)
  else if escaped = 0x66 then some (Char.ofNat 0x0C)
  else if escaped = 0x6E then some '\n'
  else if escaped = 0x72 then some '\r'
  else if escaped = 0x74 then some '\t'
  else none

def parseEscape (pos : Nat) : Except VentoyConfigError (Char × Nat) := do
  let escaped ← someOr input[pos]? .invalidJson
  match shortEscape escaped with
  | some ch => pure (ch, pos + 1)
  | none => if escaped = 0x75 then parseUnicodeEscape input (pos + 1) else .error .invalidJson

/-- One round of the loop of `parse_string`: the character it pushes, or nothing at the closing quote. -/
def stringStep (pos : Nat) : Except VentoyConfigError (Option Char × Nat) := do
  let ch ← someOr input[pos]? .invalidJson
  if ch = 0x22 then pure (none, pos + 1)
  else if ch = 0x5C then (parseEscape input (pos + 1)).map fun r => (some r.1, r.2)
  else if ch < 0x20 then .error .invalidJson
  else if ch < 0x80 then pure (some (Char.ofNat ch.toNat), pos + 1)
  else (consumeUtf8Char input (pos + 1)).map fun r => (some r.1, r.2)

end parser

variable {input : List UInt8} {pos next : Nat} {ch c : Char}

theorem readHex_pos {digits value : Nat} {r : Nat × Nat} (h : readHex input digits value pos = .ok r) :
    r.2 = pos + digits := by
  induction digits generalizing value pos with
  | zero =>
      cases h
      rfl
  | succ digits ih =>
      obtain ⟨b, -, h⟩ := bind_eq_ok.mp h
      obtain ⟨v, -, h⟩ := bind_eq_ok.mp h
      rw [ih h]
      omega

theorem parseEscape_pos {r : Char × Nat} (h : parseEscape input pos = .ok r) : pos < r.2 := by
  obtain ⟨escaped, -, h⟩ := bind_eq_ok.mp h
  split at h
  · rw [pure_eq_ok] at h
    rw [← h]
    exact Nat.lt_succ_self pos
  · split at h
    · obtain ⟨⟨value, pos'⟩, hhex, h⟩ := bind_eq_ok.mp h
      obtain ⟨ch, -, h⟩ := bind_eq_ok.mp h
      rw [pure_eq_ok] at h
      rw [← h, show pos' = pos + 1 + 4 from readHex_pos hhex]
      omega
    · cases h

/-- Every round reads at least one byte of the input. -/
theorem stringStep_pos (h : stringStep input pos = .ok (some ch, next)) : pos < input.length ∧ pos < next := by
  obtain ⟨b, hb, h⟩ := bind_eq_ok.mp h
  rw [someOr_eq_ok] at hb
  refine ⟨(List.getElem?_eq_some_iff.mp hb).1, ?_⟩
  split at h
  · rw [pure_eq_ok] at h
    cases h
  · split at h
    · obtain ⟨r, hr, he⟩ := map_eq_ok.mp h
      cases he
      have hlt := parseEscape_pos hr
      omega
    · split at h
      · cases h
      · split at h
        · rw [pure_eq_ok] at h
          cases h
          exact Nat.lt_succ_self pos
        · obtain ⟨r, hr, he⟩ := map_eq_ok.mp h
          cases he
          obtain ⟨text, -, hr⟩ := bind_eq_ok.mp hr
          obtain ⟨ch, -, hr⟩ := bind_eq_ok.mp hr
          rw [pure_eq_ok] at hr
          rw [← hr]
          have hsize := ch.utf8Size_pos
          simp only
          omega

def stringLoop (input : List UInt8) (pos : Nat) (out : Text) : Except VentoyConfigError (Text × Nat) :=
  match _h : stringStep input pos with
  | .error e => .error e
  | .ok (none, next) => .ok (out, next)
  | .ok (some ch, next) => stringLoop input next (out ++ [ch])
termination_by input.length - pos
decreasing_by
  have hpos := stringStep_pos _h
  omega

def parseString (input : List UInt8) (pos : Nat) : Except VentoyConfigError (Text × Nat) := do
  let pos ← expect input (skipWs input pos) 0x22
  stringLoop input pos []

section literals

/-- A hexadecimal digit in one of its cases. -/
def hexDigit (upper : Bool) (d : Nat) : Char :=
  if d < 10 then Char.ofNat (0x30 + d) else Char.ofNat ((if upper then 0x41 else 0x61) + (d - 10))

/-- The four hexadecimal digits of a number, each in a case of its own. -/
def hexText (upper : Nat → Bool) (value : Nat) : Text := [3, 2, 1, 0].map fun i => hexDigit (upper i) (value / 16 ^ i % 16)

/-- The letters of the short escapes and what they stand for. -/
def shortEscapes : List (Char × Char) :=
  [('"', '"'), ('\\', '\\'), ('/', '/'), ('b', Char.ofNat 0x08), ('f', Char.ofNat 0x0C), ('n', '\n'), ('r', '\r'),
    ('t', '\t')]

/-- The ways to write a character in a string of a document. -/
inductive Spelling (c : Char) : Type
  | raw (allowed : 0x20 ≤ c.toNat ∧ c ≠ '"' ∧ c ≠ '\\')
  | short (letter : Char) (escape : (letter, c) ∈ shortEscapes)
  | unicode (upper : Nat → Bool) (basic : c.toNat < 0x10000)
  | pair (upperHigh upperLow : Nat → Bool) (beyond : 0x10000 ≤ c.toNat)

def Spelling.text : Spelling c → Text
  | .raw _ => [c]
  | .short letter _ => ['\\', letter]
  | .unicode upper _ => '\\' :: 'u' :: hexText upper c.toNat
  | .pair upperHigh upperLow _ =>
      '\\' :: 'u' :: hexText upperHigh (0xD800 + (c.toNat - 0x10000) / 0x400) ++
        '\\' :: 'u' :: hexText upperLow (0xDC00 + (c.toNat - 0x10000) % 0x400)

/-- The character is written as the two halves of a surrogate pair. -/
def Spelling.IsPair : Spelling c → Prop
  | .pair _ _ _ => True
  | _ => False

instance (s : Spelling c) : Decidable s.IsPair :=
  match s with
  | .pair _ _ _ => .isTrue trivial
  | .raw _ | .short _ _ | .unicode _ _ => .isFalse id

structure SpelledChar where
  char : Char
  spelling : Spelling char

def body (s : List SpelledChar) : Text := s.flatMap fun p => p.spelling.text

def literal (s : List SpelledChar) : Text := '"' :: body s ++ ['"']

/-- The string that a literal denotes. -/
def denoted (s : List SpelledChar) : Text := s.map SpelledChar.char

/-- The white space of a document. -/
structure Space where
  char : Char
  allowed : char ∈ [' ', '\t', '\n', '\r']

end literals

section encoding

variable {t rest : Text} {b : UInt8} {bytes : List UInt8}

theorem asBytes_append (t rest : Text) : asBytes (t ++ rest) = asBytes t ++ asBytes rest := List.flatMap_append

theorem asBytes_cons (c : Char) (t : Text) : asBytes (c :: t) = String.utf8EncodeChar c ++ asBytes t := List.flatMap_cons

theorem encode_ascii (h : c.toNat < 0x80) : String.utf8EncodeChar c = [UInt8.ofNat c.toNat] := by
  rw [String.utf8EncodeChar]
  exact if_pos (Nat.le_of_lt_succ h)

theorem asBytes_ascii (h : c.toNat < 0x80) : asBytes (c :: t) = UInt8.ofNat c.toNat :: asBytes t := by
  rw [asBytes_cons, encode_ascii h]
  rfl

theorem encode_high (h : 0x80 ≤ c.toNat) : ∃ b bytes, String.utf8EncodeChar c = b :: bytes ∧ 0x80 ≤ b.toNat := by
  have hval : c.val.toNat = c.toNat := rfl
  simp only [String.utf8EncodeChar, hval]
  rw [if_neg (by omega)]
  split
  · exact ⟨_, _, rfl, by rw [UInt8.toNat_ofNat']; omega⟩
  · split
    · exact ⟨_, _, rfl, by rw [UInt8.toNat_ofNat']; omega⟩
    · exact ⟨_, _, rfl, by rw [UInt8.toNat_ofNat']; omega⟩

theorem fromUtf8_asBytes (t : Text) : fromUtf8 (asBytes t) = some t := by
  have hbytes : (asBytes t).toByteArray = (String.ofList t).toByteArray := rfl
  rw [fromUtf8, hbytes, String.fromUTF8?, dif_pos (String.ofList t).isValidUTF8, Option.map_some]
  exact congrArg some String.toList_ofList

theorem getElem?_of_drop (h : input.drop pos = b :: bytes) : input[pos]? = some b ∧ input.drop (pos + 1) = bytes := by
  constructor
  · rw [← Nat.add_zero pos, ← List.getElem?_drop, h]
    rfl
  · rw [← List.drop_drop, h]
    rfl

/-- A character of one byte at the position. -/
theorem ascii_at (hc : c.toNat < 0x80) (h : input.drop pos = asBytes (c :: rest)) :
    input[pos]? = some (UInt8.ofNat c.toNat) ∧ input.drop (pos + 1) = asBytes rest := by
  rw [asBytes_ascii hc] at h
  exact getElem?_of_drop h

theorem drop_append (h : input.drop pos = asBytes (t ++ rest)) : input.drop (pos + (asBytes t).length) = asBytes rest := by
  rw [← List.drop_drop, h, asBytes_append, List.drop_left]

end encoding

section rounds

variable {t rest : Text} {value d : Nat} {upper : Nat → Bool}

theorem hexValue_digit : ∀ (upper : Bool) (d : Fin 16), (hexDigit upper d).toNat < 0x80 ∧
    hexValue (UInt8.ofNat (hexDigit upper d).toNat) = some d.val := by
  decide

theorem readHex_digit {upper : Bool} (n value : Nat) (hd : d < 16) (hvalue : value < 2 ^ 16)
    (h : input.drop pos = asBytes (hexDigit upper d :: rest)) :
    readHex input (n + 1) value pos = readHex input n (value * 16 + d) (pos + 1) ∧ input.drop (pos + 1) = asBytes rest := by
  obtain ⟨hascii, hdigit⟩ := hexValue_digit upper ⟨d, hd⟩
  obtain ⟨hget, hdrop⟩ := ascii_at hascii h
  refine ⟨?_, hdrop⟩
  have hbase : checkedMul 32 value 16 = some (value * 16) := checkedMul_eq_some.mpr ⟨by omega, rfl⟩
  have hnext : checkedAdd 32 (value * 16) d = some (value * 16 + d) := checkedAdd_eq_some.mpr ⟨by omega, rfl⟩
  have hdigit : hexValue (UInt8.ofNat (hexDigit upper d).toNat) = some d := hdigit
  rw [readHex, hget, someOr_some, ok_bind, hbase, Option.bind_some, hdigit, Option.bind_some, hnext]
  rfl

theorem readHex_text (hvalue : value < 2 ^ 16) (h : input.drop pos = asBytes (hexText upper value ++ rest)) :
    readHex input 4 0 pos = .ok (value, pos + 4) := by
  have hlt : ∀ x, x % 16 < 16 := fun x => Nat.mod_lt x (by decide)
  simp only [hexText, List.map_cons, List.map_nil, List.cons_append, List.nil_append] at h
  obtain ⟨h₁, hd₁⟩ := readHex_digit 3 0 (hlt _) (by decide) h
  obtain ⟨h₂, hd₂⟩ := readHex_digit 2 (0 * 16 + value / 16 ^ 3 % 16) (hlt _) (by omega) hd₁
  obtain ⟨h₃, hd₃⟩ := readHex_digit 1 (value / 16 ^ 2) (hlt _) (by omega) hd₂
  obtain ⟨h₄, -⟩ := readHex_digit 0 (value / 16) (hlt _) (by omega) hd₃
  have hacc₂ : (0 * 16 + value / 16 ^ 3 % 16) * 16 + value / 16 ^ 2 % 16 = value / 16 ^ 2 := by omega
  have hacc₃ : value / 16 ^ 2 * 16 + value / 16 ^ 1 % 16 = value / 16 := by omega
  have hacc₄ : value / 16 * 16 + value / 16 ^ 0 % 16 = value := by omega
  rw [h₁, h₂, hacc₂, h₃, hacc₃, h₄, hacc₄, readHex]

theorem parseUnicodeEscape_basic (hc : c.toNat < 0x10000) (h : input.drop pos = asBytes (hexText upper c.toNat ++ rest)) :
    parseUnicodeEscape input pos = .ok (c, pos + 4) := by
  rw [parseUnicodeEscape, readHex_text hc h, ok_bind]
  simp only
  rw [charFromU32_toNat]
  rfl

/-- Half of a pair is no character. -/
theorem parseUnicodeEscape_surrogate (hlo : 0xD800 ≤ value) (hhi : value < 0xE000)
    (h : input.drop pos = asBytes (hexText upper value ++ rest)) :
    parseUnicodeEscape input pos = .error .invalidJson := by
  have hnone : charFromU32 value = none := by
    rw [charFromU32, if_neg]
    omega
  rw [parseUnicodeEscape, readHex_text (by omega) h, ok_bind]
  simp only
  rw [hnone]
  rfl

theorem toNat_byte (h : c.toNat < 0x80) : (UInt8.ofNat c.toNat).toNat = c.toNat :=
  UInt8.toNat_ofNat_of_lt' (show c.toNat < 256 by omega)

theorem stringStep_raw (hc : 0x20 ≤ c.toNat ∧ c ≠ '"' ∧ c ≠ '\\') (h : input.drop pos = asBytes (c :: rest)) :
    stringStep input pos = .ok (some c, pos + (String.utf8EncodeChar c).length) := by
  obtain ⟨hlow, hquote, hback⟩ := hc
  by_cases hascii : c.toNat < 0x80
  · obtain ⟨hget, -⟩ := ascii_at hascii h
    have hbyte := toNat_byte hascii
    have hchar : Char.ofNat (UInt8.ofNat c.toNat).toNat = c := by rw [hbyte, Char.ofNat_toNat]
    rw [encode_ascii hascii, stringStep, hget, someOr_some, ok_bind, hchar]
    generalize UInt8.ofNat c.toNat = b at hbyte
    have hb : b ≠ 0x22 ∧ b ≠ 0x5C := by
      constructor
      · rintro rfl
        exact hquote (Char.toNat_inj.mp hbyte.symm)
      · rintro rfl
        exact hback (Char.toNat_inj.mp hbyte.symm)
    have hlow' : ¬ b < 0x20 := by
      rw [UInt8.lt_iff_toNat_lt, hbyte]
      exact Nat.not_lt.mpr hlow
    have hhigh' : b < 0x80 := by
      rw [UInt8.lt_iff_toNat_lt, hbyte]
      exact hascii
    rw [if_neg hb.1, if_neg hb.2, if_neg hlow', if_pos hhigh']
    rfl
  · obtain ⟨b, bytes, hencode, hb⟩ := encode_high (Nat.not_lt.mp hascii)
    have hfirst : input.drop pos = b :: (bytes ++ asBytes rest) := by
      rw [h, asBytes_cons, hencode]
      rfl
    have hget := (getElem?_of_drop hfirst).1
    have hne : ∀ n : UInt8, n < 0x80 → ¬ b = n ∧ ¬ b < n := by
      intro n hn
      rw [UInt8.lt_iff_toNat_lt] at hn ⊢
      have hn : n.toNat < 0x80 := hn
      refine ⟨?_, by omega⟩
      rintro rfl
      omega
    have hhigh : ¬ b < 0x80 := by
      rw [UInt8.lt_iff_toNat_lt]
      exact Nat.not_lt.mpr hb
    have hstart : pos + 1 - 1 = pos := rfl
    rw [stringStep, hget, someOr_some, ok_bind, if_neg (hne 0x22 (by decide)).1, if_neg (hne 0x5C (by decide)).1,
      if_neg (hne 0x20 (by decide)).2, if_neg hhigh, consumeUtf8Char]
    simp only [hstart]
    rw [h, fromUtf8_asBytes, someOr_some, ok_bind, List.head?_cons, someOr_some, ok_bind, String.length_utf8EncodeChar]
    rfl

theorem stringStep_escape (h : input.drop pos = asBytes ('\\' :: rest)) :
    stringStep input pos = (parseEscape input (pos + 1)).map (fun r => (some r.1, r.2)) ∧
      input.drop (pos + 1) = asBytes rest := by
  obtain ⟨hget, hdrop⟩ := ascii_at (by decide) h
  refine ⟨?_, hdrop⟩
  rw [stringStep, hget, someOr_some, ok_bind]
  rfl

theorem shortEscape_letter : ∀ p ∈ shortEscapes, p.1.toNat < 0x80 ∧ shortEscape (UInt8.ofNat p.1.toNat) = some p.2 := by
  decide

theorem stringStep_unicode (h : input.drop pos = asBytes ('\\' :: 'u' :: rest)) :
    stringStep input pos = (parseUnicodeEscape input (pos + 2)).map (fun r => (some r.1, r.2)) ∧
      input.drop (pos + 2) = asBytes rest := by
  obtain ⟨hstep, hdrop⟩ := stringStep_escape h
  obtain ⟨hget, hdrop⟩ := ascii_at (by decide) hdrop
  refine ⟨?_, hdrop⟩
  rw [hstep, parseEscape, hget, someOr_some, ok_bind]
  rfl

theorem length_hexText (upper : Nat → Bool) (value : Nat) : (asBytes (hexText upper value)).length = 4 := by
  have hdigit : ∀ i, (String.utf8EncodeChar (hexDigit (upper i) (value / 16 ^ i % 16))).length = 1 := by
    intro i
    rw [encode_ascii (hexValue_digit (upper i) ⟨value / 16 ^ i % 16, Nat.mod_lt _ (by decide)⟩).1]
    rfl
  simp only [hexText, asBytes, List.map_cons, List.map_nil, List.flatMap_cons, List.flatMap_nil, List.length_append, hdigit,
    List.length_nil]

/-- A character that is no pair is read in one round, whatever way it is written. -/
theorem stringStep_spelled (s : Spelling c) (hs : ¬ s.IsPair) (h : input.drop pos = asBytes (s.text ++ rest)) :
    stringStep input pos = .ok (some c, pos + (asBytes s.text).length) := by
  cases s with
  | raw allowed =>
      rw [stringStep_raw allowed h]
      rw [Spelling.text, asBytes, List.flatMap_singleton]
  | short letter escape =>
      obtain ⟨hascii, hletter⟩ := shortEscape_letter _ escape
      obtain ⟨hstep, hdrop⟩ := stringStep_escape h
      have hget := (ascii_at hascii hdrop).1
      have hlen : (asBytes (Spelling.short letter escape).text).length = 2 := by
        rw [Spelling.text, asBytes_ascii (by decide), asBytes_ascii hascii]
        rfl
      rw [hstep, parseEscape, hget, someOr_some, ok_bind, hletter, hlen]
      rfl
  | unicode upper basic =>
      obtain ⟨hstep, hdrop⟩ := stringStep_unicode h
      have hlen : (asBytes (Spelling.unicode upper basic).text).length = 6 := by
        rw [Spelling.text, asBytes_ascii (by decide), asBytes_ascii (by decide), List.length_cons, List.length_cons,
          length_hexText]
      rw [hstep, parseUnicodeEscape_basic basic hdrop, hlen]
      rfl
  | pair upperHigh upperLow beyond => exact absurd trivial hs

theorem stringStep_pair (s : Spelling c) (hs : s.IsPair) (h : input.drop pos = asBytes (s.text ++ rest)) :
    stringStep input pos = .error .invalidJson := by
  cases s with
  | raw allowed => exact hs.elim
  | short letter escape => exact hs.elim
  | unicode upper basic => exact hs.elim
  | pair upperHigh upperLow beyond =>
      rw [Spelling.text, List.append_assoc] at h
      obtain ⟨hstep, hdrop⟩ := stringStep_unicode h
      have hlt : c.toNat < 0x110000 := by
        have hvalid := c.valid
        simp only [UInt32.isValidChar, Nat.isValidChar] at hvalid
        unfold Char.toNat
        omega
      rw [hstep, parseUnicodeEscape_surrogate (by omega) (by omega) hdrop]
      rfl

theorem stringStep_quote (h : input.drop pos = asBytes ('"' :: rest)) : stringStep input pos = .ok (none, pos + 1) := by
  have hget := (ascii_at (by decide) h).1
  rw [stringStep, hget, someOr_some, ok_bind]
  rfl

end rounds

section runs

variable {s : List SpelledChar} {out after : Text}

theorem stringLoop_more (h : stringStep input pos = .ok (some ch, next)) :
    stringLoop input pos out = stringLoop input next (out ++ [ch]) := by
  rw [stringLoop]
  split
  · simp_all
  · simp_all
  · rename_i heq
    rw [h] at heq
    cases heq
    rfl

theorem stringLoop_done (h : stringStep input pos = .ok (none, next)) : stringLoop input pos out = .ok (out, next) := by
  rw [stringLoop]
  split
  · simp_all
  · rename_i heq
    rw [h] at heq
    cases heq
    rfl
  · simp_all

theorem stringLoop_error {e : VentoyConfigError} (h : stringStep input pos = .error e) :
    stringLoop input pos out = .error e := by
  rw [stringLoop]
  split
  · rename_i heq
    rw [h] at heq
    cases heq
    rfl
  · simp_all
  · simp_all

/-- Without a pair the loop reads the whole of a literal. -/
theorem stringLoop_body (hs : ∀ p ∈ s, ¬ p.spelling.IsPair) (h : input.drop pos = asBytes (body s ++ '"' :: after)) :
    stringLoop input pos out = .ok (out ++ denoted s, pos + (asBytes (body s)).length + 1) := by
  induction s generalizing pos out with
  | nil =>
      rw [stringLoop_done (stringStep_quote h)]
      simp [denoted, body, asBytes]
  | cons p s ih =>
      have hbody : body (p :: s) = p.spelling.text ++ body s := List.flatMap_cons
      rw [hbody, List.append_assoc] at h
      have hstep := stringStep_spelled p.spelling (hs p List.mem_cons_self) h
      have htail : ∀ q ∈ s, ¬ q.spelling.IsPair := fun q hq => hs q (List.mem_cons_of_mem p hq)
      rw [stringLoop_more hstep, ih htail (drop_append h), hbody, asBytes_append, List.length_append, denoted, denoted, List.map_cons,
        List.append_assoc out [p.char], List.singleton_append, Nat.add_assoc pos]

theorem stringLoop_pair (hs : ∃ p ∈ s, p.spelling.IsPair) (h : input.drop pos = asBytes (body s ++ '"' :: after)) :
    stringLoop input pos out = .error .invalidJson := by
  induction s generalizing pos out with
  | nil =>
      obtain ⟨p, hp, -⟩ := hs
      cases hp
  | cons p s ih =>
      have hbody : body (p :: s) = p.spelling.text ++ body s := List.flatMap_cons
      rw [hbody, List.append_assoc] at h
      by_cases hp : p.spelling.IsPair
      · exact stringLoop_error (stringStep_pair p.spelling hp h)
      · rw [stringLoop_more (stringStep_spelled p.spelling hp h)]
        apply ih _ (drop_append h)
        obtain ⟨q, hq, hpair⟩ := hs
        cases hq with
        | head => exact absurd hpair hp
        | tail _ hq => exact ⟨q, hq, hpair⟩

theorem space_ascii : ∀ c ∈ [' ', '\t', '\n', '\r'], c.toNat < 0x80 ∧ isAsciiWhitespace (UInt8.ofNat c.toNat) := by
  simp only [List.forall_mem_cons, List.not_mem_nil, false_implies, implies_true, and_true]
  decide

theorem length_takeWhile_space (space : List Space) {bytes : List UInt8} (hb : isAsciiWhitespace b = false) :
    ((asBytes (space.map Space.char) ++ b :: bytes).takeWhile isAsciiWhitespace).length =
      (asBytes (space.map Space.char)).length := by
  induction space with
  | nil =>
      rw [List.map_nil, asBytes, List.flatMap_nil, List.nil_append, List.takeWhile_cons_of_neg (by simp [hb])]
  | cons c space ih =>
      obtain ⟨hascii, hspace⟩ := space_ascii c.char c.allowed
      rw [List.map_cons, asBytes_ascii hascii, List.cons_append, List.takeWhile_cons_of_pos hspace, List.length_cons,
        List.length_cons, ih]

theorem skipWs_of_space {space : List Space} (h : input.drop pos = asBytes (space.map Space.char) ++ asBytes ('"' :: after)) :
    skipWs input pos = pos + (asBytes (space.map Space.char)).length := by
  have hquote : asBytes ('"' :: after) = 0x22 :: asBytes after := asBytes_ascii (by decide)
  rw [skipWs, h, hquote, length_takeWhile_space space (by decide)]

/-- The white space is passed over once, and there is none behind it. -/
theorem parseString_literal {space : List Space}
    (h : input.drop pos = asBytes (space.map Space.char ++ '"' :: (body s ++ '"' :: after))) :
    parseString input pos = stringLoop input (pos + (asBytes (space.map Space.char)).length + 1) [] ∧
      input.drop (pos + (asBytes (space.map Space.char)).length + 1) = asBytes (body s ++ '"' :: after) := by
  have hquote := drop_append h
  obtain ⟨hget, hdrop⟩ := ascii_at (by decide) hquote
  have hstay : ∀ p, input.drop p = asBytes ('"' :: (body s ++ '"' :: after)) → skipWs input p = p := by
    intro p hp
    have hnone : asBytes (([] : List Space).map Space.char) = [] := rfl
    apply @skipWs_of_space input p (body s ++ '"' :: after) []
    rw [hp, hnone, List.nil_append]
  rw [asBytes_append] at h
  refine ⟨?_, hdrop⟩
  rw [parseString, skipWs_of_space h, expect, hstay _ hquote, hget]
  rfl

/-- A literal is read back as the string it denotes exactly when no character of it is a surrogate pair. -/
theorem parse_string_exact (before after : Text) (space : List Space) (s : List SpelledChar) :
    parseString (asBytes (before ++ space.map Space.char ++ literal s ++ after)) (asBytes before).length =
        .ok (denoted s, (asBytes (before ++ space.map Space.char ++ literal s)).length) ↔
      ∀ p ∈ s, ¬ p.spelling.IsPair := by
  have hat : (asBytes (before ++ space.map Space.char ++ literal s ++ after)).drop (asBytes before).length =
      asBytes (space.map Space.char ++ '"' :: (body s ++ '"' :: after)) := by
    rw [List.append_assoc, List.append_assoc, asBytes_append, List.drop_left, literal]
    simp only [List.cons_append, List.append_assoc, List.nil_append]
  obtain ⟨hparse, hbody⟩ := parseString_literal hat
  rw [hparse]
  constructor
  · intro hok p hp hpair
    rw [stringLoop_pair ⟨p, hp, hpair⟩ hbody] at hok
    cases hok
  · intro hs
    have hend : (asBytes (before ++ space.map Space.char ++ literal s)).length =
        (asBytes before).length + (asBytes (space.map Space.char)).length + 1 + (asBytes (body s)).length + 1 := by
      have hquote : (asBytes ['"']).length = 1 := rfl
      rw [literal, asBytes_append, asBytes_append, List.cons_append, asBytes_ascii (by decide), List.length_append,
        List.length_append, List.length_cons, asBytes_append, List.length_append, hquote]
      omega
    rw [stringLoop_body hs hbody, hend]
    rfl

/-- An emoji in the document of a tool that writes ASCII only. -/
def emoji : SpelledChar where
  char := Char.ofNat 0x1F600
  spelling := .pair (fun _ => false) (fun _ => false) (by decide)

theorem pair_rejected :
    literal [emoji] = "\"\\ud83d\\ude00\"".toList ∧
      parseString (asBytes (literal [emoji])) 0 = .error .invalidJson ∧
      parseString (asBytes (literal [emoji])) 0 ≠ .ok (denoted [emoji], (asBytes (literal [emoji])).length) := by
  have hat : (asBytes (literal [emoji])).drop 0 =
      asBytes (([] : List Space).map Space.char ++ '"' :: (body [emoji] ++ '"' :: [])) := rfl
  obtain ⟨hparse, hbody⟩ := parseString_literal hat
  have herror : parseString (asBytes (literal [emoji])) 0 = .error .invalidJson := by
    rw [hparse]
    exact stringLoop_pair ⟨emoji, List.mem_singleton_self emoji, trivial⟩ hbody
  refine ⟨by decide, herror, ?_⟩
  rw [herror]
  intro hok
  cases hok

end runs

end NextBoot.Config.JsonStrings
