import NextBoot.Config.Parser

namespace NextBoot.Config

open Words Strings Results JsonStrings

/-- A value of a document. -/
inductive Json
  | string (text : Text)
  | scalar (text : Text)
  | array (items : List Json)
  | object (members : List (Text × Json))

section grammar

def spaces (space : List Space) : Text := space.map Space.char

/-- A character of a number or of a word such as `true`. -/
def IsScalarChar (c : Char) : Prop := isAsciiAlphanumeric c = true ∨ c ∈ ['+', '-', '.']

/-- A member of an object as it is written: the key and the white space around the colon. -/
structure Member where
  key : List SpelledChar
  beforeColon : List Space
  afterColon : List Space
  value : Json
  text : Text

def Member.written (m : Member) : Text := literal m.key ++ (spaces m.beforeColon ++ ':' :: (spaces m.afterColon ++ m.text))

def Member.entry (m : Member) : Text × Json := (denoted m.key, m.value)

/-- Elements with commas between them, up to the closing bracket; a comma may stand behind the last one. -/
inductive Separated (close : Char) : List Text → Text → Prop
  | none (space : List Space) : Separated close [] (spaces space ++ [close])
  | last (before after : List Space) (text : Text) :
      Separated close [text] (spaces before ++ (text ++ (spaces after ++ [close])))
  | more (before after : List Space) {text written : Text} {texts : List Text} :
      Separated close texts written →
      Separated close (text :: texts) (spaces before ++ (text ++ (spaces after ++ ',' :: written)))

/-- The texts that a value can be written as, its strings without surrogate pairs. -/
inductive Written : Json → Text → Prop
  | string {s : List SpelledChar} : (∀ p ∈ s, ¬ p.spelling.IsPair) → Written (.string (denoted s)) (literal s)
  | scalar {text : Text} : text ≠ [] → (∀ c ∈ text, IsScalarChar c) → Written (.scalar text) text
  | array {items : List (Json × Text)} {text : Text} : (∀ item ∈ items, Written item.1 item.2) →
      Separated ']' (items.map Prod.snd) text → Written (.array (items.map Prod.fst)) ('[' :: text)
  | object {members : List Member} {text : Text} : (∀ m ∈ members, ∀ p ∈ m.key, ¬ p.spelling.IsPair) →
      (∀ m ∈ members, Written m.value m.text) → Separated '}' (members.map Member.written) text →
      Written (.object (members.map Member.entry)) ('{' :: text)

end grammar

section positions

/-- What remains to be read from a position on. -/
structure At (input : List UInt8) (pos : Nat) (rest : Text) : Prop where
  le : pos ≤ input.length
  drop_eq : input.drop pos = asBytes rest

/-- A character of one byte that is no white space. -/
def IsSolid (c : Char) : Prop := c.toNat < 0x80 ∧ isAsciiWhitespace (UInt8.ofNat c.toNat) = false

/-- A text that begins with a character of a token, or does not begin at all. -/
def Solid (rest : Text) : Prop := ∀ c, rest.head? = some c → IsSolid c

def Delimits (c : Char) : Prop := c ∈ [' ', '\t', '\n', '\r', ',', '}', ']']

/-- What can stand behind a value. -/
def Delimited (rest : Text) : Prop := ∃ c after, rest = c :: after ∧ Delimits c

/-- Nothing goes on from here: neither a comma nor a closing bracket stands at the next token. -/
def Stuck (input : List UInt8) (pos : Nat) : Prop :=
  ∀ byte, input[skipWs input pos]? = some byte → isDelimiter byte = false

/-- The result of reading: what is read and the rest behind it, or a failure, at once or at the next delimiter. -/
def Gives {α : Type} (input : List UInt8) (r : Except VentoyConfigError (α × Nat)) (result : Option α) (rest : Text) : Prop :=
  match result with
  | some a => ∃ pos, r = .ok (a, pos) ∧ At input pos rest
  | none => r = .error .invalidJson ∨ ∃ a pos, r = .ok (a, pos) ∧ Stuck input pos

/-- The parser reads every way to write a value as `meaning` has it. -/
def Reads {α : Type} (input : List UInt8) (parser : JsonParser α) (meaning : Json → Option α) : Prop :=
  ∀ ⦃v text rest space pos⦄, Written v text → Delimited rest → At input pos (spaces space ++ (text ++ rest)) →
    Gives input (parser pos) (meaning v) rest

variable {input : List UInt8} {pos : Nat} {rest t : Text} {c : Char} {space : List Space} {s : List SpelledChar}

theorem At.next (h : At input pos (c :: rest)) (hc : c.toNat < 0x80) :
    input[pos]? = some (UInt8.ofNat c.toNat) ∧ At input (pos + 1) rest := by
  obtain ⟨hget, hdrop⟩ := ascii_at hc h.drop_eq
  exact ⟨hget, (List.getElem?_eq_some_iff.mp hget).1, hdrop⟩

theorem At.append (h : At input pos (t ++ rest)) : At input (pos + (asBytes t).length) rest := by
  refine ⟨?_, drop_append h.drop_eq⟩
  have hlength := congrArg List.length h.drop_eq
  rw [List.length_drop, asBytes_append, List.length_append] at hlength
  have hle := h.le
  omega

theorem At.fits (h : At input pos rest) : (asBytes rest).length ≤ input.length := by
  rw [← h.drop_eq, List.length_drop]
  exact Nat.sub_le _ _

theorem length_le_asBytes (t : Text) : t.length ≤ (asBytes t).length := by
  induction t with
  | nil => exact Nat.le_refl _
  | cons c t ih =>
      rw [asBytes_cons, List.length_append, List.length_cons, String.length_utf8EncodeChar]
      have hpos := c.utf8Size_pos
      omega

theorem solid_cons : Solid (c :: rest) ↔ IsSolid c := by
  simp [Solid]

/-- The white space is passed over up to the next token. -/
theorem At.skipWs (h : At input pos (spaces space ++ rest)) (hrest : Solid rest) :
    At input (skipWs input pos) rest := by
  have hlength : ((asBytes (spaces space) ++ asBytes rest).takeWhile isAsciiWhitespace).length =
      (asBytes (spaces space)).length := by
    cases rest with
    | nil =>
        have hnil : asBytes ([] : Text) = [] := rfl
        rw [hnil, List.append_nil, List.takeWhile_eq_self_iff.mpr]
        intro b hb
        obtain ⟨c, hc, hb⟩ := List.mem_flatMap.mp hb
        obtain ⟨w, -, rfl⟩ := List.mem_map.mp hc
        obtain ⟨hascii, hwhite⟩ := space_ascii w.char w.allowed
        rw [encode_ascii hascii, List.mem_singleton] at hb
        rw [hb]
        exact hwhite
    | cons c rest =>
        obtain ⟨hascii, hsolid⟩ := solid_cons.mp hrest
        rw [asBytes_ascii hascii]
        exact length_takeWhile_space space hsolid
  rw [JsonStrings.skipWs, h.drop_eq, asBytes_append, hlength]
  exact h.append

theorem At.skipWs_self (h : At input pos rest) (hrest : Solid rest) : JsonStrings.skipWs input pos = pos := by
  cases rest with
  | nil =>
      have hnil : input.drop pos = [] := h.drop_eq
      rw [JsonStrings.skipWs, hnil]
      rfl
  | cons c rest =>
      obtain ⟨hascii, hsolid⟩ := solid_cons.mp hrest
      rw [JsonStrings.skipWs, h.drop_eq, asBytes_ascii hascii, List.takeWhile_cons_of_neg (by simp [hsolid])]
      rfl

theorem takeWhile_drop_takeWhile {α : Type} (p : α → Bool) (as : List α) : (as.drop (as.takeWhile p).length).takeWhile p = [] := by
  induction as with
  | nil => rfl
  | cons a as ih =>
      by_cases ha : p a
      · rw [List.takeWhile_cons_of_pos ha, List.length_cons, List.drop_succ_cons, ih]
      · rw [List.takeWhile_cons_of_neg ha, List.length_nil, List.drop_zero, List.takeWhile_cons_of_neg ha]

theorem skipWs_skipWs (input : List UInt8) (pos : Nat) : skipWs input (skipWs input pos) = skipWs input pos := by
  have hnone := takeWhile_drop_takeWhile isAsciiWhitespace (input.drop pos)
  rw [List.drop_drop] at hnone
  have hstay : ((input.drop (skipWs input pos)).takeWhile isAsciiWhitespace).length = 0 := congrArg List.length hnone
  rw [skipWs, hstay, Nat.add_zero]

theorem At.expect (h : At input pos (spaces space ++ c :: rest)) (hc : IsSolid c) :
    JsonStrings.expect input (JsonStrings.skipWs input pos) (UInt8.ofNat c.toNat) = .ok (JsonStrings.skipWs input pos + 1) ∧
      At input (JsonStrings.skipWs input pos + 1) rest := by
  obtain ⟨hget, hnext⟩ := (h.skipWs (solid_cons.mpr hc)).next hc.1
  refine ⟨?_, hnext⟩
  rw [JsonStrings.expect, skipWs_skipWs, if_pos hget]

theorem expect_ne {byte : UInt8} (h : input[skipWs input pos]? ≠ some byte) :
    expect input (skipWs input pos) byte = .error .invalidJson := by
  rw [expect, skipWs_skipWs, if_neg h]

theorem expect_other {byte found : UInt8} (hget : input[skipWs input pos]? = some found) (hne : found ≠ byte) :
    expect input (skipWs input pos) byte = .error .invalidJson := by
  apply expect_ne
  rwa [hget, Ne, Option.some.injEq]

theorem isSolid_of_mem : ∀ c ∈ ['"', '{', '}', '[', ']', ',', ':', '+', '-', '.'], IsSolid c := by
  simp only [List.forall_mem_cons, List.not_mem_nil, false_implies, implies_true, and_true, IsSolid]
  decide

/-- The byte of a scalar's character stands for itself in the loops over white space and delimiters. -/
theorem IsScalarChar.byte (h : IsScalarChar c) : IsSolid c ∧ isDelimiter (UInt8.ofNat c.toNat) = false := by
  have hall : ∀ n : Fin 128, (0x30 ≤ n.val ∧ n.val ≤ 0x39) ∨ (0x41 ≤ n.val ∧ n.val ≤ 0x5A) ∨ (0x61 ≤ n.val ∧ n.val ≤ 0x7A) ∨
      n.val = 0x2B ∨ n.val = 0x2D ∨ n.val = 0x2E →
      isAsciiWhitespace (UInt8.ofNat n.val) = false ∧ isDelimiter (UInt8.ofNat n.val) = false := by decide
  have hclass : (0x30 ≤ c.toNat ∧ c.toNat ≤ 0x39) ∨ (0x41 ≤ c.toNat ∧ c.toNat ≤ 0x5A) ∨ (0x61 ≤ c.toNat ∧ c.toNat ≤ 0x7A) ∨
      c.toNat = 0x2B ∨ c.toNat = 0x2D ∨ c.toNat = 0x2E := by
    rcases h with hdigit | hsign
    · simp only [isAsciiAlphanumeric, decide_eq_true_eq] at hdigit
      tauto
    · simp only [List.mem_cons, List.not_mem_nil, or_false] at hsign
      rcases hsign with rfl | rfl | rfl <;> decide
  have hlt : c.toNat < 128 := by omega
  obtain ⟨hwhite, hdelimiter⟩ := hall ⟨c.toNat, hlt⟩ hclass
  exact ⟨⟨hlt, hwhite⟩, hdelimiter⟩

/-- A string that is written without pairs is read as what it denotes. -/
theorem At.parseString (h : At input pos (spaces space ++ (literal s ++ rest))) (hs : ∀ p ∈ s, ¬ p.spelling.IsPair) :
    ∃ next, JsonStrings.parseString input pos = .ok (denoted s, next) ∧ At input next rest := by
  have hliteral : spaces space ++ (literal s ++ rest) = spaces space ++ '"' :: (body s ++ '"' :: rest) := by
    simp only [literal, List.cons_append, List.append_assoc, List.nil_append]
  rw [hliteral] at h
  obtain ⟨hparse, hbody⟩ := parseString_literal h.drop_eq
  refine ⟨_, hparse.trans (stringLoop_body hs hbody), ?_⟩
  have hquote : At input (pos + (asBytes (spaces space)).length) ('"' :: (body s ++ '"' :: rest)) := h.append
  obtain ⟨-, hbody⟩ := hquote.next (by decide)
  exact (hbody.append.next (by decide)).2

end positions

section elements

variable {input : List UInt8} {pos fuel : Nat} {rest text : Text} {σ α : Type} {close c : Char} {element : σ → JsonParser σ}
  {state : σ} {space : List Space}

theorem delimited_spaces (hc : Delimits c) : Delimited (spaces space ++ c :: rest) := by
  cases space with
  | nil => exact ⟨c, rest, rfl, hc⟩
  | cons w space =>
      refine ⟨w.char, _, rfl, ?_⟩
      have hw := w.allowed
      simp only [List.mem_cons, List.not_mem_nil, or_false, Delimits] at hw ⊢
      tauto

/-- A round of the loop, behind an element that has been read. -/
theorem elementLoop_round {next : σ} {behind : Nat} {byte : UInt8} (hopen : input[skipWs input pos]? ≠ some byte)
    (helement : element state (skipWs input pos) = .ok (next, behind)) :
    elementLoop input byte element (fuel + 1) state pos =
      if input[skipWs input behind]? = some 0x2C then elementLoop input byte element fuel next (skipWs input behind + 1)
      else (expect input (skipWs input behind) byte).map fun stop => (next, stop) := by
  rw [elementLoop, if_neg hopen, helement, ok_bind]
  dsimp only
  split
  · rfl
  · cases expect input (skipWs input behind) byte <;> rfl

/-- A failure stops the loop, at once or where the next delimiter should be. -/
theorem elementLoop_fails {byte : UInt8} (hbyte : isDelimiter byte = true) (hopen : input[skipWs input pos]? ≠ some byte)
    (helement : Gives input (element state (skipWs input pos)) none rest) :
    elementLoop input byte element (fuel + 1) state pos = .error .invalidJson := by
  rcases helement with herror | ⟨next, behind, hok, hstuck⟩
  · rw [elementLoop, if_neg hopen, herror]
    rfl
  · have hne : ∀ b, isDelimiter b = true → input[skipWs input behind]? ≠ some b := by
      intro b hb hget
      rw [hstuck b hget] at hb
      cases hb
    rw [elementLoop_round hopen hok, if_neg (hne 0x2C rfl), expect_ne (hne byte hbyte)]
    rfl

theorem toByte_inj {d : Char} (hc : c.toNat < 0x80) (hd : d.toNat < 0x80) : UInt8.ofNat c.toNat = UInt8.ofNat d.toNat ↔ c = d := by
  refine ⟨fun h => ?_, fun h => h ▸ rfl⟩
  have hbytes := congrArg UInt8.toNat h
  rw [toNat_byte hc, toNat_byte hd] at hbytes
  exact Char.toNat_inj.mp hbytes

theorem Separated.cons {first : Text} {texts : List Text} (h : Separated close (first :: texts) text) :
    ∃ before after last behind, text = spaces before ++ (first ++ (spaces after ++ last :: behind)) ∧
      (last = close ∧ behind = [] ∧ texts = [] ∨ last = ',' ∧ Separated close texts behind) := by
  cases h with
  | last before after => exact ⟨before, after, close, [], rfl, .inl ⟨rfl, rfl, rfl⟩⟩
  | more before after hrest => exact ⟨before, after, ',', _, rfl, .inr ⟨rfl, hrest⟩⟩

/-- What a loop over elements comes to: the elements are read one after the other, and a failure stops the loop. -/
theorem elementLoop_reads {pieces : List (α × Text)} {meaning : σ → α → Option σ} (hclose : close = '}' ∨ close = ']')
    (hstarts : ∀ piece ∈ pieces, ∃ c after, piece.2 = c :: after ∧ IsSolid c ∧ c ≠ close)
    (helement : ∀ piece ∈ pieces, ∀ state pos rest, Delimited rest → At input pos (piece.2 ++ rest) →
      Gives input (element state pos) (meaning state piece.1) rest)
    (hwritten : Separated close (pieces.map Prod.snd) text) (hfuel : pieces.length < fuel) (hat : At input pos (text ++ rest)) :
    match (pieces.map Prod.fst).foldlM meaning state with
    | some out => ∃ next, elementLoop input (UInt8.ofNat close.toNat) element fuel state pos = .ok (out, next) ∧ At input next rest
    | none => elementLoop input (UInt8.ofNat close.toNat) element fuel state pos = .error .invalidJson := by
  have hsolid : IsSolid close := by rcases hclose with rfl | rfl <;> exact isSolid_of_mem _ (by simp)
  have hdelimits : Delimits close := by rcases hclose with rfl | rfl <;> simp [Delimits]
  have hbyte : isDelimiter (UInt8.ofNat close.toNat) = true := by rcases hclose with rfl | rfl <;> rfl
  have hcomma : some (UInt8.ofNat close.toNat) ≠ some 0x2C := by rcases hclose with rfl | rfl <;> decide
  have hcommaSolid : IsSolid ',' := isSolid_of_mem _ (by simp)
  induction pieces generalizing state pos text fuel with
  | nil =>
      cases hwritten
      obtain ⟨fuel, rfl⟩ : ∃ n, fuel = n + 1 := ⟨fuel - 1, by simp at hfuel; omega⟩
      rw [List.append_assoc] at hat
      obtain ⟨hget, hnext⟩ := (hat.skipWs (solid_cons.mpr hsolid)).next hsolid.1
      refine ⟨_, ?_, hnext⟩
      rw [elementLoop, if_pos hget]
  | cons piece pieces ih =>
      obtain ⟨fuel, rfl⟩ : ∃ n, fuel = n + 1 := ⟨fuel - 1, by simp at hfuel; omega⟩
      obtain ⟨c, after, hpiece, hc, hne⟩ := hstarts piece List.mem_cons_self
      obtain ⟨before, between, last, behind, rfl, hlast⟩ := hwritten.cons
      simp only [List.append_assoc, List.cons_append] at hat
      -- the loop is at the element, which is not the bracket
      have hopen : input[skipWs input pos]? ≠ some (UInt8.ofNat close.toNat) := by
        rw [hpiece, List.cons_append] at hat
        rw [((hat.skipWs (solid_cons.mpr hc)).next hc.1).1, Ne, Option.some.injEq, toByte_inj hc.1 hsolid.1]
        exact hne
      have hlastSolid : IsSolid last := by
        rcases hlast with ⟨rfl, -⟩ | ⟨rfl, -⟩
        · exact hsolid
        · exact hcommaSolid
      have hdelimited : Delimited (spaces between ++ last :: (behind ++ rest)) := by
        apply delimited_spaces
        rcases hlast with ⟨rfl, -⟩ | ⟨rfl, -⟩
        · exact hdelimits
        · simp [Delimits]
      have hat : At input (skipWs input pos) (piece.2 ++ (spaces between ++ last :: (behind ++ rest))) := by
        rw [hpiece, List.cons_append] at hat ⊢
        exact hat.skipWs (solid_cons.mpr hc)
      have hfirst := helement piece List.mem_cons_self state _ _ hdelimited hat
      rw [List.map_cons, List.foldlM_cons]
      cases hmeaning : meaning state piece.1 with
      | none =>
          rw [hmeaning] at hfirst
          exact elementLoop_fails hbyte hopen hfirst
      | some next =>
          rw [hmeaning] at hfirst
          obtain ⟨stop, hok, hstop⟩ := hfirst
          obtain ⟨hget, hnext⟩ := (hstop.skipWs (solid_cons.mpr hlastSolid)).next hlastSolid.1
          rw [elementLoop_round hopen hok, hget]
          rcases hlast with ⟨rfl, rfl, hnone⟩ | ⟨rfl, hrest⟩
          · rw [List.map_eq_nil_iff.mp hnone, if_neg hcomma, (hstop.expect hsolid).1]
            exact ⟨_, rfl, hnext⟩
          · rw [if_pos (show some (UInt8.ofNat ','.toNat) = some 0x2C from rfl)]
            exact ih (fun p hp => hstarts p (List.mem_cons_of_mem _ hp)) (fun p hp => helement p (List.mem_cons_of_mem _ hp)) hrest
              (by simp at hfuel; omega) hnext

theorem IsScalarChar.byte_ne (h : IsScalarChar c) :
    UInt8.ofNat c.toNat ≠ 0x22 ∧ UInt8.ofNat c.toNat ≠ 0x7B ∧ UInt8.ofNat c.toNat ≠ 0x5B := by
  have hother : ∀ d, d.toNat < 0x80 → ¬ IsScalarChar d → UInt8.ofNat c.toNat ≠ UInt8.ofNat d.toNat := by
    intro d hd hnot hsame
    rw [toByte_inj h.byte.1.1 hd] at hsame
    exact hnot (hsame ▸ h)
  refine ⟨hother '"' (by decide) ?_, hother '{' (by decide) ?_, hother '[' (by decide) ?_⟩ <;>
    · simp [IsScalarChar]
      decide

/-- There are no more elements than characters, and each of them is shorter than the whole. -/
theorem Separated.length_le {texts : List Text} (h : Separated close texts text) :
    texts.length ≤ text.length ∧ ∀ t ∈ texts, t.length ≤ text.length := by
  induction h with
  | none space => simp
  | last before after t =>
      simp only [List.length_append, List.length_cons, List.length_nil, List.mem_singleton, forall_eq]
      omega
  | more before after hrest ih =>
      obtain ⟨hcount, hshorter⟩ := ih
      simp only [List.length_append, List.length_cons, List.mem_cons, forall_eq_or_imp]
      refine ⟨by omega, by omega, fun t ht => ?_⟩
      have := hshorter t ht
      omega

/-- No value begins with white space, with a comma or with a closing bracket. -/
theorem Written.starts {v : Json} (h : Written v text) :
    ∃ c after, text = c :: after ∧ IsSolid c ∧ isDelimiter (UInt8.ofNat c.toNat) = false := by
  cases h with
  | string hs => exact ⟨'"', _, rfl, isSolid_of_mem _ (by simp), rfl⟩
  | scalar hne hall =>
      obtain ⟨c, after, rfl⟩ := List.exists_cons_of_ne_nil hne
      exact ⟨c, after, rfl, (hall c List.mem_cons_self).byte⟩
  | array hitems hseparated => exact ⟨'[', _, rfl, isSolid_of_mem _ (by simp), rfl⟩
  | object hkeys hmembers hseparated => exact ⟨'{', _, rfl, isSolid_of_mem _ (by simp), rfl⟩

/-- A parser of an array reads the elements that are written in it. -/
theorem parseArrayElements_reads {items : List (Json × Text)} {meaning : σ → Json → Option σ}
    (hitems : ∀ item ∈ items, Written item.1 item.2)
    (helement : ∀ item ∈ items, ∀ state pos rest, Delimited rest → At input pos (item.2 ++ rest) →
      Gives input (element state pos) (meaning state item.1) rest)
    (hseparated : Separated ']' (items.map Prod.snd) text) (hat : At input pos (spaces space ++ '[' :: (text ++ rest))) :
    match (items.map Prod.fst).foldlM meaning state with
    | some out => ∃ next, parseArrayElements input element state pos = .ok (out, next) ∧ At input next rest
    | none => parseArrayElements input element state pos = .error .invalidJson := by
  obtain ⟨hexpect, hat⟩ := hat.expect (isSolid_of_mem _ (by simp))
  have hfuel : items.length < input.length + 1 := by
    have hcount := hseparated.length_le.1
    have hfits := (length_le_asBytes _).trans hat.fits
    rw [List.length_map] at hcount
    rw [List.length_append] at hfits
    omega
  have hparse : parseArrayElements input element state pos =
      elementLoop input (UInt8.ofNat ']'.toNat) element (input.length + 1) state (skipWs input pos + 1) := by
    rw [parseArrayElements, show (0x5B : UInt8) = UInt8.ofNat '['.toNat from rfl, hexpect]
    rfl
  rw [hparse]
  refine elementLoop_reads (.inr rfl) (fun item hitem => ?_) helement hseparated hfuel hat
  obtain ⟨c, after, htext, hc, hnot⟩ := (hitems item hitem).starts
  refine ⟨c, after, htext, hc, ?_⟩
  rintro rfl
  cases hnot

/-- A parser of an object reads the members that are written in it, each by its key. -/
theorem parseObjectFields_reads {members : List Member} {field : Text → σ → JsonParser σ} {meaning : Text → σ → Json → Option σ}
    (hkeys : ∀ m ∈ members, ∀ p ∈ m.key, ¬ p.spelling.IsPair)
    (hfield : ∀ m ∈ members, ∀ state pos rest, Delimited rest → At input pos (spaces m.afterColon ++ (m.text ++ rest)) →
      Gives input (field (denoted m.key) state pos) (meaning (denoted m.key) state m.value) rest)
    (hseparated : Separated '}' (members.map Member.written) text) (hat : At input pos (spaces space ++ '{' :: (text ++ rest))) :
    match (members.map Member.entry).foldlM (fun state m => meaning m.1 state m.2) state with
    | some out => ∃ next, parseObjectFields input field state pos = .ok (out, next) ∧ At input next rest
    | none => parseObjectFields input field state pos = .error .invalidJson := by
  obtain ⟨hexpect, hat⟩ := hat.expect (isSolid_of_mem _ (by simp))
  let pieces := members.map fun m => (m, m.written)
  have hpieces : pieces.map Prod.snd = members.map Member.written := by simp [pieces]
  have hentries : (members.map Member.entry).foldlM (fun state m => meaning m.1 state m.2) state =
      (pieces.map Prod.fst).foldlM (fun state m => meaning (denoted m.key) state m.value) state := by
    rw [List.foldlM_map, List.foldlM_map, List.foldlM_map]
    rfl
  have hfuel : pieces.length < input.length + 1 := by
    have hcount := hseparated.length_le.1
    have hfits := (length_le_asBytes _).trans hat.fits
    rw [List.length_map] at hcount ⊢
    rw [List.length_append] at hfits
    omega
  have hparse : parseObjectFields input field state pos =
      elementLoop input (UInt8.ofNat '}'.toNat) (fun state pos => parseString input pos >>= fun r =>
        expect input (skipWs input r.2) 0x3A >>= fun pos => field r.1 state pos)
        (input.length + 1) state (skipWs input pos + 1) := by
    rw [parseObjectFields, show (0x7B : UInt8) = UInt8.ofNat '{'.toNat from rfl, hexpect]
    rfl
  rw [hentries, hparse]
  rw [← hpieces] at hseparated
  refine elementLoop_reads (.inl rfl) (fun piece hpiece => ?_) (fun piece hpiece state pos rest hrest hat => ?_) hseparated hfuel hat
  · obtain ⟨m, hm, rfl⟩ := List.mem_map.mp hpiece
    exact ⟨'"', _, rfl, isSolid_of_mem _ (by simp), by decide⟩
  · obtain ⟨m, hm, rfl⟩ := List.mem_map.mp hpiece
    simp only [Member.written, List.append_assoc, List.cons_append] at hat
    obtain ⟨afterKey, hkey, hat⟩ := @At.parseString input _ _ [] _ hat (hkeys m hm)
    obtain ⟨hcolon, hat⟩ := hat.expect (isSolid_of_mem _ (by simp))
    have hresult := hfield m hm state _ rest hrest hat
    have hcolon : expect input (skipWs input afterKey) 0x3A = .ok (skipWs input afterKey + 1) := hcolon
    dsimp only
    rw [hkey, ok_bind]
    dsimp only
    rw [hcolon, ok_bind]
    exact hresult

theorem foldlM_some {f : σ → α → Option σ} (hf : ∀ s a, f s a = some s) (as : List α) : as.foldlM f state = some state := by
  induction as with
  | nil => rfl
  | cons a as ih => rw [List.foldlM_cons, hf, Option.bind_eq_bind, Option.bind_some, ih]

theorem takeWhile_append_stop {β : Type} {p : β → Bool} {as bs : List β} (hstop : ∀ b, bs.head? = some b → p b = false) :
    (as ++ bs).takeWhile p = as.takeWhile p := by
  induction as with
  | nil =>
      cases bs with
      | nil => rfl
      | cons b bs => rw [List.nil_append, List.takeWhile_cons_of_neg (by simp [hstop b rfl]), List.takeWhile_nil]
  | cons a as ih =>
      rw [List.cons_append]
      by_cases ha : p a
      · rw [List.takeWhile_cons_of_pos ha, List.takeWhile_cons_of_pos ha, ih]
      · rw [List.takeWhile_cons_of_neg ha, List.takeWhile_cons_of_neg ha]

/-- The first byte behind a value ends a scalar. -/
theorem Delimited.byte (h : Delimited rest) : ∃ b bytes, asBytes rest = b :: bytes ∧
    (isDelimiter b = true ∨ isAsciiWhitespace b = true) ∧ isAsciiDigit b = false := by
  obtain ⟨c, after, rfl, hc⟩ := h
  have hall : ∀ c ∈ [' ', '\t', '\n', '\r', ',', '}', ']'], c.toNat < 0x80 ∧
      (isDelimiter (UInt8.ofNat c.toNat) = true ∨ isAsciiWhitespace (UInt8.ofNat c.toNat) = true) ∧
        isAsciiDigit (UInt8.ofNat c.toNat) = false := by
    simp only [List.forall_mem_cons, List.not_mem_nil, false_implies, implies_true, and_true]
    decide
  obtain ⟨hascii, hends, hdigit⟩ := hall c hc
  exact ⟨_, _, asBytes_ascii hascii, hends, hdigit⟩

/-- A byte of a scalar is the byte of one of its characters. -/
theorem scalar_byte {b : UInt8} (hall : ∀ c ∈ text, IsScalarChar c) (hb : b ∈ asBytes text) :
    isAsciiWhitespace b = false ∧ isDelimiter b = false := by
  obtain ⟨c, hc, hb⟩ := List.mem_flatMap.mp hb
  obtain ⟨⟨hascii, hwhite⟩, hdelimiter⟩ := (hall c hc).byte
  rw [encode_ascii hascii, List.mem_singleton] at hb
  rw [hb]
  exact ⟨hwhite, hdelimiter⟩

/-- A value of any kind is passed over exactly, however deep its brackets go. -/
theorem skipValueAt_reads {v : Json} {depth : Nat} (h : Written v text) (hdepth : text.length < depth) (hrest : Delimited rest)
    (hat : At input pos (spaces space ++ (text ++ rest))) :
    ∃ next, skipValueAt input depth pos = .ok next ∧ At input next rest := by
  induction h generalizing depth pos rest space with
  | string hs =>
      obtain ⟨depth, rfl⟩ : ∃ d, depth = d + 1 := ⟨depth - 1, by omega⟩
      have hat := hat.skipWs (solid_cons.mpr (isSolid_of_mem _ (by simp)))
      obtain ⟨next, hparse, hnext⟩ := @At.parseString input _ _ [] _ hat hs
      refine ⟨next, ?_, hnext⟩
      rw [skipValueAt, (hat.next (by decide)).1]
      exact congrArg (Except.map Prod.snd) hparse
  | scalar hne hall =>
      rename_i text
      obtain ⟨depth, rfl⟩ : ∃ d, depth = d + 1 := ⟨depth - 1, by omega⟩
      obtain ⟨c, after, rfl⟩ := List.exists_cons_of_ne_nil hne
      have hc := hall c List.mem_cons_self
      have hat := hat.skipWs (solid_cons.mpr hc.byte.1)
      have hlength : ((asBytes (c :: after) ++ asBytes rest).takeWhile fun ch =>
          decide ¬ (isDelimiter ch = true ∨ isAsciiWhitespace ch = true)) = asBytes (c :: after) := by
        obtain ⟨b, bytes, hbytes, hends, -⟩ := hrest.byte
        rw [takeWhile_append_stop, List.takeWhile_eq_self_iff]
        · intro b hb
          obtain ⟨hwhite, hdelimiter⟩ := scalar_byte hall hb
          simp [hwhite, hdelimiter]
        · intro b' hb'
          rw [hbytes, List.head?_cons, Option.some.injEq] at hb'
          rw [← hb']
          rcases hends with hends | hends <;> simp [hends]
      obtain ⟨hquote, hbrace, hbracket⟩ := hc.byte_ne
      refine ⟨_, ?_, hat.append⟩
      rw [skipValueAt, (hat.next hc.byte.1.1).1]
      dsimp only
      rw [if_neg hquote, if_neg hbrace, if_neg hbracket, hat.drop_eq, asBytes_append, hlength]
      rfl
  | array hitems hseparated ih =>
      obtain ⟨depth, rfl⟩ : ∃ d, depth = d + 1 := ⟨depth - 1, by omega⟩
      have hat := hat.skipWs (solid_cons.mpr (isSolid_of_mem _ (by simp)))
      rw [List.length_cons] at hdepth
      have hparse := @parseArrayElements_reads input (skipWs input pos) rest _ Unit
        (fun _ pos => (skipValueAt input depth pos).map fun pos => ((), pos)) () [] _ (fun _ _ => some ()) hitems
        (fun item hitem state pos rest hrest hat => ?_) hseparated hat
      · rw [foldlM_some fun _ _ => rfl] at hparse
        obtain ⟨next, hparse, hnext⟩ := hparse
        refine ⟨next, ?_, hnext⟩
        rw [skipValueAt, (hat.next (by decide)).1]
        exact congrArg (Except.map Prod.snd) hparse
      · have hshorter := hseparated.length_le.2 item.2 (List.mem_map_of_mem hitem)
        obtain ⟨next, hskip, hnext⟩ := @ih item hitem pos rest [] depth (by omega) hrest hat
        refine ⟨next, ?_, hnext⟩
        rw [hskip]
        rfl
  | object hkeys hmembers hseparated ih =>
      obtain ⟨depth, rfl⟩ : ∃ d, depth = d + 1 := ⟨depth - 1, by omega⟩
      have hat := hat.skipWs (solid_cons.mpr (isSolid_of_mem _ (by simp)))
      rw [List.length_cons] at hdepth
      have hparse := @parseObjectFields_reads input (skipWs input pos) rest _ Unit () [] _
        (fun _ _ pos => (skipValueAt input depth pos).map fun pos => ((), pos)) (fun _ _ _ => some ()) hkeys
        (fun m hm state pos rest hrest hat => ?_) hseparated hat
      · rw [foldlM_some fun _ _ => rfl] at hparse
        obtain ⟨next, hparse, hnext⟩ := hparse
        refine ⟨next, ?_, hnext⟩
        rw [skipValueAt, (hat.next (by decide)).1]
        exact congrArg (Except.map Prod.snd) hparse
      · have hshorter := hseparated.length_le.2 m.written (List.mem_map_of_mem hm)
        simp only [Member.written, List.length_append, List.length_cons] at hshorter
        obtain ⟨next, hskip, hnext⟩ := @ih m hm pos rest m.afterColon depth (by omega) hrest hat
        refine ⟨next, ?_, hnext⟩
        rw [hskip]
        rfl

end elements

end NextBoot.Config
