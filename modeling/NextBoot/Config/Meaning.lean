import NextBoot.Config.Documents

namespace NextBoot.Config

open Words Strings Results JsonStrings

namespace Json

variable {σ : Type}

def asString : Json → Option Text
  | .string text => some text
  | _ => none

def elements : Json → Option (List Json)
  | .array items => some items
  | _ => none

def members : Json → Option (List (Text × Json))
  | .object members => some members
  | _ => none

def foldElements (meaning : σ → Json → Option σ) (state : σ) (v : Json) : Option σ :=
  v.elements.bind fun items => items.foldlM meaning state

def foldMembers (meaning : Text → σ → Json → Option σ) (state : σ) (v : Json) : Option σ :=
  v.members.bind fun members => members.foldlM (fun state m => meaning m.1 state m.2) state

/-- An array of strings and of nothing else. -/
def strings (v : Json) : Option (List Text) := v.elements.bind fun items => items.mapM asString

def target (kind : VentoyTargetKind) (v : Json) : Option VentoyPathTarget :=
  (v.asString.bind cleanPluginPath).map kind.target

/-- A string or an array of strings; a value of another kind says nothing. -/
def pathList : Json → Option (Option (List Text))
  | .string text => some (some [text])
  | .array items => (items.mapM asString).map some
  | _ => some none

/-- A number is its digits and nothing behind them; a scalar without digits says nothing. -/
def integer : Json → Option (Option Int)
  | .scalar text =>
      let negative : Bool := text.head? = some '-'
      let body := asBytes (if negative then text.tail else text)
      let digits := body.takeWhile isAsciiDigit
      if digits = [] then some none
      else if digits ≠ body then none
      else (digitsFrom 31 0 digits).map fun value => some (if negative then -(value : Int) else value)
  | _ => some none

def natural (v : Json) : Option (Option Nat) :=
  v.integer.map fun n => n.bind fun value => if 0 ≤ value then some value.toNat else none

def password (v : Json) : Option VentoyPassword := v.asString.bind VentoyPassword.parse

def configPath (v : Json) : Option Text := v.asString.bind cleanPluginPath

end Json

section meaning

variable (key : Text) (v : Json)

def controlMeaning (config : VentoyConfig) : Option VentoyConfig :=
  v.foldElements (Json.foldMembers fun key config v => some (v.asString.elim config (applyControl config key))) config

def passwordRuleMeaning (fields : PasswordRuleFields) : Option PasswordRuleFields :=
  if key = "file".toList then some { fields with target := (v.target .image).or fields.target }
  else if key = "parent".toList then some { fields with target := fields.target.or (v.target .parent) }
  else if key = "pwd".toList then some { fields with password := v.password }
  else some fields

def passwordRulesMeaning : Option (List (VentoyPathRule VentoyPassword)) :=
  v.foldElements (fun rules v =>
    (v.foldMembers (fun key fields v => passwordRuleMeaning key v fields) {}).map fun fields => rules ++ fields.rules) []

def passwordFieldMeaning (password : VentoyPasswordConfig) : Option VentoyPasswordConfig :=
  if key = "bootpwd".toList then some { password with boot := v.password }
  else if key = "isopwd".toList then some { password with iso := v.password }
  else if key = "wimpwd".toList then some { password with wim := v.password }
  else if key = "efipwd".toList then some { password with efi := v.password }
  else if key = "imgpwd".toList then some { password with img := v.password }
  else if key = "vhdpwd".toList then some { password with vhd := v.password }
  else if key = "vtoypwd".toList then some { password with vtoy := v.password }
  else if key = "menupwd".toList then (passwordRulesMeaning v).map fun rules => { password with menu := rules }
  else some password

/-- The passwords of a section. -/
def passwords : Option VentoyPasswordConfig :=
  v.foldMembers (fun key password v => passwordFieldMeaning key v password) {}

def passwordMeaning (config : VentoyConfig) : Option VentoyConfig :=
  (passwords v).map fun password => { config with password := password }

def menuTipFieldMeaning (fields : MenuTipFields) : Option MenuTipFields :=
  if key = "image".toList then some { fields with target := (v.configPath.map .image).or fields.target }
  else if key = "dir".toList then
    if fields.target = none then some { fields with target := v.configPath.map .dir } else some fields
  else if key = "tip".toList ∨ key = "tip1".toList then some { fields with tip1 := v.asString.getD fields.tip1 }
  else if key = "tip2".toList then some { fields with tip2 := v.asString.getD fields.tip2 }
  else some fields

def menuTipRulesMeaning : Option (List VentoyMenuTipRule) :=
  v.foldElements (fun rules v =>
    (v.foldMembers (fun key fields v => menuTipFieldMeaning key v fields) {}).map fun fields => rules ++ fields.rules) []

/-- The rules of a section of tips. -/
def menuTips : Option (List VentoyMenuTipRule) :=
  v.foldMembers (fun key tips v => if key = "tips".toList then menuTipRulesMeaning v else some tips) []

def menuTipMeaning (config : VentoyConfig) : Option VentoyConfig :=
  (menuTips v).map fun tips => { config with menuTips := tips }

def menuClassFieldMeaning (fields : MenuClassFields) : Option MenuClassFields :=
  if key = "key".toList then some { fields with target := (v.asString.map .key).or fields.target }
  else if key = "parent".toList then
    if fields.target = none then some { fields with target := v.configPath.map .parent } else some fields
  else if key = "dir".toList then
    if fields.target = none then some { fields with target := v.asString.map .dir } else some fields
  else if key = "class".toList then some { fields with cls := v.asString.or fields.cls }
  else some fields

/-- The rules of a section of classes. -/
def menuClasses : Option (List VentoyMenuClassRule) :=
  v.foldElements (fun rules v =>
    (v.foldMembers (fun key fields v => menuClassFieldMeaning key v fields) {}).map fun fields => rules ++ fields.rules) []

def menuClassMeaning (config : VentoyConfig) : Option VentoyConfig :=
  (menuClasses v).map fun rules => { config with menuClasses := rules }

def menuAliasMeaning (config : VentoyConfig) : Option VentoyConfig :=
  v.foldElements (fun config v =>
    (v.foldMembers (fun key fields v => some (v.asString.elim fields (applyMenuAlias fields key))) {}).map fun fields =>
      { config with menuAliases := config.menuAliases ++ fields.aliases }) config

def autoInstallFieldMeaning (fields : PathListFields) : Option PathListFields :=
  if key = "image".toList then some { fields with target := (v.target .image).or fields.target }
  else if key = "parent".toList then some { fields with target := fields.target.or (v.target .parent) }
  else if key = "template".toList then v.pathList.map fun paths => { fields with paths := paths.getD [] }
  else if key = "autosel".toList then v.natural.map fun n => { fields with autosel := n }
  else if key = "timeout".toList then v.natural.map fun n => { fields with timeout := n }
  else some fields

def autoInstallMeaning (config : VentoyConfig) : Option VentoyConfig :=
  v.foldElements (fun config v =>
    (v.foldMembers (fun key fields v => autoInstallFieldMeaning key v fields) {}).map fun fields =>
      { config with autoInstall := config.autoInstall ++ fields.rules PathListFields.autoInstall }) config

def autoMemdiskMeaning (config : VentoyConfig) : Option VentoyConfig :=
  v.strings.map fun paths => { config with autoMemdisk := config.autoMemdisk ++ cleanPluginPaths paths }

def persistenceFieldMeaning (fields : PathListFields) : Option PathListFields :=
  if key = "image".toList then some { fields with target := v.target .image }
  else if key = "backend".toList then v.pathList.map fun paths => { fields with paths := paths.getD [] }
  else if key = "autosel".toList then v.natural.map fun n => { fields with autosel := n }
  else if key = "timeout".toList then v.natural.map fun n => { fields with timeout := n }
  else some fields

def persistenceMeaning (config : VentoyConfig) : Option VentoyConfig :=
  v.foldElements (fun config v =>
    (v.foldMembers (fun key fields v => persistenceFieldMeaning key v fields) {}).map fun fields =>
      { config with persistence := config.persistence ++ fields.rules PathListFields.persistence }) config

def injectionFieldMeaning (fields : InjectionFields) : Option InjectionFields :=
  if key = "image".toList then some { fields with target := (v.target .image).or fields.target }
  else if key = "parent".toList then some { fields with target := fields.target.or (v.target .parent) }
  else if key = "archive".toList then v.asString.map fun path => { fields with archive := cleanPluginPath path }
  else some fields

def injectionMeaning (config : VentoyConfig) : Option VentoyConfig :=
  v.foldElements (fun config v =>
    (v.foldMembers (fun key fields v => injectionFieldMeaning key v fields) {}).map fun fields =>
      { config with injection := config.injection ++ fields.rules }) config

def dudFieldMeaning (fields : PathListFields) : Option PathListFields :=
  if key = "image".toList then some { fields with target := v.target .image }
  else if key = "dud".toList then v.pathList.map fun paths => { fields with paths := paths.getD [] }
  else some fields

def dudMeaning (config : VentoyConfig) : Option VentoyConfig :=
  v.foldElements (fun config v =>
    (v.foldMembers (fun key fields v => dudFieldMeaning key v fields) {}).map fun fields =>
      { config with dud := config.dud ++ fields.rules PathListFields.dud }) config

def confReplaceFieldMeaning (fields : ConfReplaceFields) : Option ConfReplaceFields :=
  if key = "iso".toList then some { fields with target := v.target .image }
  else if key = "org".toList then v.asString.map fun path => { fields with org := cleanPluginPath path }
  else if key = "new".toList then v.asString.map fun path => { fields with newPath := cleanPluginPath path }
  else if key = "img".toList then v.integer.map fun n => { fields with img := n }
  else some fields

def confReplaceMeaning (config : VentoyConfig) : Option VentoyConfig :=
  v.foldElements (fun config v =>
    (v.foldMembers (fun key fields v => confReplaceFieldMeaning key v fields) {}).map fun fields =>
      { config with confReplace := config.confReplace ++ fields.rules }) config

/-- What a section of the document does to the configuration. -/
def sectionMeaning (platform : Platform) (key : Text) (state : ConfigState) (v : Json) : Option ConfigState :=
  let into (meaning : VentoyConfig → Option VentoyConfig) (state : ConfigState) : Option ConfigState :=
    (meaning state.config).map fun config => { state with config := config }
  if key = "control".toList then into (controlMeaning v) state
  else if key = "menu_alias".toList then into (menuAliasMeaning v) state
  else if isCurrentPlatformPluginKey platform key "menu_tip".toList then
    into (menuTipMeaning v) { state with parsedPlatformMenuTip := true }
  else if key = "menu_tip".toList ∧ state.parsedPlatformMenuTip = false then into (menuTipMeaning v) state
  else if isCurrentPlatformPluginKey platform key "menu_class".toList then
    into (menuClassMeaning v) { state with parsedPlatformMenuClass := true }
  else if key = "menu_class".toList ∧ state.parsedPlatformMenuClass = false then into (menuClassMeaning v) state
  else if key = "password_uefi".toList ∨ key = "password_aa64".toList then
    into (passwordMeaning v) { state with parsedPlatformPassword := true }
  else if key = "password".toList ∧ state.parsedPlatformPassword = false then into (passwordMeaning v) state
  else if key = "auto_install".toList then into (autoInstallMeaning v) state
  else if key = "persistence".toList then into (persistenceMeaning v) state
  else if key = "injection".toList then into (injectionMeaning v) state
  else if key = "dud".toList then into (dudMeaning v) state
  else if key = "conf_replace".toList then into (confReplaceMeaning v) state
  else if isCurrentPlatformPluginKey platform key "auto_memdisk".toList then
    into (autoMemdiskMeaning v) { state with parsedPlatformAutoMemdisk := true }
  else if key = "auto_memdisk".toList ∧ state.parsedPlatformAutoMemdisk = false then into (autoMemdiskMeaning v) state
  else if key = "image_list".toList then
    into (fun config => v.strings.map fun paths => { config with imageListMode := .allow, imageList := paths }) state
  else if key = "image_blacklist".toList then
    into (fun config => v.strings.map fun paths => { config with imageListMode := .deny, imageList := paths }) state
  else some state

end meaning

/-- What a document means: its sections one after the other, or nothing where one of them is not as it has to be. -/
def documentMeaning (platform : Platform) (sections : List (Text × Json)) : Option VentoyConfig :=
  (sections.foldlM (fun state s => sectionMeaning platform s.1 state s.2) {}).map ConfigState.config

section readers

variable {input : List UInt8} {α β σ : Type} {pos : Nat} {rest text : Text} {space : List Space} {v : Json}
  {r : Except VentoyConfigError (α × Nat)} {result : Option α} {parser parser' : JsonParser α} {meaning meaning' : Json → Option α}

theorem Gives.map (h : Gives input r result rest) (f : α → β) :
    Gives input (r.map fun r => (f r.1, r.2)) (result.map f) rest := by
  cases result with
  | none =>
      rcases h with rfl | ⟨a, pos, rfl, hstuck⟩
      · exact .inl rfl
      · exact .inr ⟨f a, pos, rfl, hstuck⟩
  | some a =>
      obtain ⟨pos, rfl, hat⟩ := h
      exact ⟨pos, rfl, hat⟩

theorem Reads.map (h : Reads input parser meaning) (f : α → β) :
    Reads input (fun pos => (parser pos).map fun r => (f r.1, r.2)) (fun v => (meaning v).map f) :=
  fun _ _ _ _ _ hwritten hrest hat => (h hwritten hrest hat).map f

theorem Reads.ite {c : Prop} [Decidable c] (h : Reads input parser meaning) (h' : Reads input parser' meaning') :
    Reads input (fun pos => if c then parser pos else parser' pos) (fun v => if c then meaning v else meaning' v) := by
  intro v text rest space pos hwritten hrest hat
  by_cases hc : c
  · simp only [if_pos hc]
    exact h hwritten hrest hat
  · simp only [if_neg hc]
    exact h' hwritten hrest hat

theorem skipValue_reads (h : Written v text) (hrest : Delimited rest) (hat : At input pos (spaces space ++ (text ++ rest))) :
    ∃ next, skipValue input pos = .ok next ∧ At input next rest := by
  refine skipValueAt_reads h ?_ hrest hat
  have hfits := (length_le_asBytes _).trans hat.fits
  rw [List.length_append, List.length_append] at hfits
  omega

theorem reads_skipped (state : α) : Reads input (skipped input state) fun _ => some state := by
  intro v text rest space pos hwritten hrest hat
  obtain ⟨next, hskip, hnext⟩ := skipValue_reads hwritten hrest hat
  refine ⟨next, ?_, hnext⟩
  rw [skipped, hskip]
  rfl

/-- The first byte of a value tells of what kind it is. -/
theorem Written.peek (h : Written v text) (hat : At input pos (spaces space ++ (text ++ rest))) :
    At input (skipWs input pos) (text ++ rest) ∧ ∃ byte, input[skipWs input pos]? = some byte ∧ isDelimiter byte = false ∧
      (byte = 0x22 ↔ v.asString ≠ none) ∧ (byte = 0x5B ↔ v.elements ≠ none) ∧ (byte = 0x7B ↔ v.members ≠ none) := by
  obtain ⟨c, after, htext, hc, hdelimiter⟩ := h.starts
  have hat : At input (skipWs input pos) (text ++ rest) := by
    rw [htext, List.cons_append] at hat ⊢
    exact hat.skipWs (solid_cons.mpr hc)
  refine ⟨hat, UInt8.ofNat c.toNat, ?_, hdelimiter, ?_⟩
  · rw [htext, List.cons_append] at hat
    exact (hat.next hc.1).1
  cases h with
  | string hs =>
      cases htext
      refine ⟨?_, ?_, ?_⟩ <;> simp [Json.asString, Json.elements, Json.members]
  | scalar hne hall =>
      have hscalar := hall c (htext ▸ List.mem_cons_self)
      obtain ⟨hquote, hbrace, hbracket⟩ := hscalar.byte_ne
      simp [Json.asString, Json.elements, Json.members, hquote, hbrace, hbracket]
  | array hitems hseparated =>
      cases htext
      refine ⟨?_, ?_, ?_⟩ <;> simp [Json.asString, Json.elements, Json.members]
  | object hkeys hmembers hseparated =>
      cases htext
      refine ⟨?_, ?_, ?_⟩ <;> simp [Json.asString, Json.elements, Json.members]

theorem Json.asString_eq_some {s : Text} : v.asString = some s ↔ v = .string s := by
  cases v <;> simp [Json.asString]

theorem Json.elements_eq_some {items : List Json} : v.elements = some items ↔ v = .array items := by
  cases v <;> simp [Json.elements]

theorem Json.members_eq_some {members : List (Text × Json)} : v.members = some members ↔ v = .object members := by
  cases v <;> simp [Json.members]

theorem reads_parseString : Reads input (parseString input) Json.asString := by
  intro v text rest space pos hwritten hrest hat
  obtain ⟨-, byte, hget, -, hquote, -⟩ := hwritten.peek hat
  cases hstring : v.asString with
  | none =>
      left
      rw [parseString, expect_other hget (by rw [Ne, hquote, hstring]; simp)]
      rfl
  | some s =>
      rw [Json.asString_eq_some] at hstring
      subst hstring
      cases hwritten with
      | string hs => exact hat.parseString hs

/-- A string is read; before a value of another kind only the white space is passed over. -/
theorem parseOptionalString_reads (hwritten : Written v text) (hrest : Delimited rest)
    (hat : At input pos (spaces space ++ (text ++ rest))) :
    (∀ s, v.asString = some s → ∃ next, parseOptionalString input pos = .ok (some s, next) ∧ At input next rest) ∧
      (v.asString = none → parseOptionalString input pos = .ok (none, skipWs input pos)) := by
  obtain ⟨hpeek, byte, hget, -, hquote, -⟩ := hwritten.peek hat
  constructor
  · intro s hstring
    obtain ⟨next, hparse, hnext⟩ : Gives input (parseString input (skipWs input pos)) (some s) rest :=
      hstring ▸ @reads_parseString input v text rest [] _ hwritten hrest hpeek
    rw [hstring] at hquote
    refine ⟨next, ?_, hnext⟩
    rw [parseOptionalString, hget, if_pos (by simpa using hquote), hparse]
    rfl
  · intro hstring
    rw [hstring] at hquote
    rw [parseOptionalString, hget, if_neg]
    simpa using hquote

theorem reads_stringOrSkip : Reads input (parseStringOrSkip input) fun v => some v.asString := by
  intro v text rest space pos hwritten hrest hat
  obtain ⟨hsome, hnone⟩ := parseOptionalString_reads hwritten hrest hat
  dsimp only
  cases hstring : v.asString with
  | none =>
      obtain ⟨next, hskip, hnext⟩ := @reads_skipped input _ none v text rest [] _ hwritten hrest (hwritten.peek hat).1
      refine ⟨next, ?_, hnext⟩
      rw [parseStringOrSkip, hnone hstring]
      exact hskip
  | some s =>
      obtain ⟨next, hparse, hnext⟩ := hsome s hstring
      refine ⟨next, ?_, hnext⟩
      rw [parseStringOrSkip, hparse]
      rfl

/-- A path that has to be a string: a value of another kind is left standing, and what stands there is no delimiter. -/
theorem reads_stringPath : Reads input (parseStringPath input) fun v => v.asString.map cleanPluginPath := by
  intro v text rest space pos hwritten hrest hat
  obtain ⟨hsome, hnone⟩ := parseOptionalString_reads hwritten hrest hat
  obtain ⟨-, byte, hget, hdelimiter, -⟩ := hwritten.peek hat
  dsimp only
  cases hstring : v.asString with
  | none =>
      right
      refine ⟨none, skipWs input pos, ?_, fun b hb => ?_⟩
      · rw [parseStringPath, hnone hstring]
        rfl
      · rw [skipWs_skipWs, hget] at hb
        cases hb
        exact hdelimiter
  | some s =>
      obtain ⟨next, hparse, hnext⟩ := hsome s hstring
      refine ⟨next, ?_, hnext⟩
      rw [parseStringPath, hparse]
      rfl

theorem reads_arrayElements {element : σ → JsonParser σ} {meaning : σ → Json → Option σ} {state : σ}
    (h : ∀ state, Reads input (element state) (meaning state)) :
    Reads input (parseArrayElements input element state) (Json.foldElements meaning state) := by
  intro v text rest space pos hwritten hrest hat
  obtain ⟨-, byte, hget, -, -, hbracket, -⟩ := hwritten.peek hat
  cases helements : v.elements with
  | none =>
      rw [Json.foldElements, helements]
      left
      rw [parseArrayElements, expect_other hget (by rw [Ne, hbracket, helements]; simp)]
      rfl
  | some items =>
      rw [Json.elements_eq_some] at helements
      subst helements
      cases hwritten with
      | array hitems hseparated =>
          have hread := @parseArrayElements_reads _ _ _ _ _ _ state _ _ _ hitems
            (fun item hitem state pos rest hrest hat => @h state item.1 item.2 rest [] pos (hitems item hitem) hrest hat)
            hseparated hat
          rw [Json.foldElements, Json.elements, Option.bind_some]
          split at hread
          · next out hout =>
              rw [hout]
              exact hread
          · next hout =>
              rw [hout]
              exact .inl hread

theorem reads_objectFields {field : Text → σ → JsonParser σ} {meaning : Text → σ → Json → Option σ} {state : σ}
    (h : ∀ key state, Reads input (field key state) (meaning key state)) :
    Reads input (parseObjectFields input field state) (Json.foldMembers meaning state) := by
  intro v text rest space pos hwritten hrest hat
  obtain ⟨-, byte, hget, -, -, -, hbrace⟩ := hwritten.peek hat
  cases hmembers : v.members with
  | none =>
      rw [Json.foldMembers, hmembers]
      left
      rw [parseObjectFields, expect_other hget (by rw [Ne, hbrace, hmembers]; simp)]
      rfl
  | some members =>
      rw [Json.members_eq_some] at hmembers
      subst hmembers
      cases hwritten with
      | object hkeys hmembers hseparated =>
          have hread := @parseObjectFields_reads _ _ _ _ _ state _ _ _ _ hkeys
            (fun m hm state pos rest hrest hat => h (denoted m.key) state (hmembers m hm) hrest hat) hseparated hat
          rw [Json.foldMembers, Json.members, Option.bind_some]
          split at hread
          · next out hout =>
              rw [hout]
              exact hread
          · next hout =>
              rw [hout]
              exact .inl hread

theorem foldlM_mapM {f : α → Option β} {as : List α} {before : List β} :
    as.foldlM (fun out a => (f a).map fun b => out ++ [b]) before = (as.mapM f).map (before ++ ·) := by
  induction as generalizing before with
  | nil => simp
  | cons a as ih =>
      rw [List.foldlM_cons, List.mapM_cons]
      cases f a with
      | none => rfl
      | some b =>
          simp only [Option.map_some, Option.bind_eq_bind, Option.bind_some, ih]
          cases as.mapM f <;> simp

theorem reads_stringArray : Reads input (parseStringArray input) Json.strings := by
  have hmeaning : Json.strings = Json.foldElements (fun values v => v.asString.map fun s => values ++ [s]) [] := by
    funext v
    rw [Json.strings, Json.foldElements]
    congr 1
    funext items
    rw [foldlM_mapM]
    simp
  rw [hmeaning]
  exact reads_arrayElements fun values => reads_parseString.map fun s => values ++ [s]

theorem reads_pathListValue : Reads input (parsePathListValue input) Json.pathList := by
  intro v text rest space pos hwritten hrest hat
  obtain ⟨hpeek, byte, hget, -, hquote, hbracket, -⟩ := hwritten.peek hat
  have hstring := @reads_parseString input v text rest [] _ hwritten hrest hpeek
  have harray := @reads_stringArray input v text rest [] _ hwritten hrest hpeek
  have hskipped := @reads_skipped input (Option (List Text)) none v text rest [] _ hwritten hrest hpeek
  rw [parsePathListValue, hget]
  cases v with
  | string s =>
      rw [if_pos (by simpa [Json.asString] using hquote)]
      exact hstring.map fun s => some [s]
  | array items =>
      have hbyte : byte = 0x5B := hbracket.mpr (by simp [Json.elements])
      rw [if_neg (by rw [hbyte]; decide), if_pos (by rw [hbyte])]
      exact harray.map some
  | scalar s =>
      rw [if_neg (by simpa [Json.asString] using hquote), if_neg (by simpa [Json.elements] using hbracket)]
      exact hskipped
  | object members =>
      rw [if_neg (by simpa [Json.asString] using hquote), if_neg (by simpa [Json.elements] using hbracket)]
      exact hskipped

/-- A position at a byte that neither is white space nor ends a value. -/
theorem stuck_of_byte {byte : UInt8} {bytes : List UInt8} (h : input.drop pos = byte :: bytes)
    (hwhite : isAsciiWhitespace byte = false) (hdelimiter : isDelimiter byte = false) : Stuck input pos := by
  have hstay : skipWs input pos = pos := by
    rw [skipWs, h, List.takeWhile_cons_of_neg (by simp [hwhite])]
    rfl
  intro found hfound
  rw [hstay, (getElem?_of_drop h).1] at hfound
  cases hfound
  exact hdelimiter

/-- The digits of a number end with it, or before a byte that cannot stand behind it. -/
theorem digits_reads {body : Text} (hall : ∀ c ∈ body, IsScalarChar c) (hrest : Delimited rest) (hat : At input pos (body ++ rest)) :
    (input.drop pos).takeWhile isAsciiDigit = (asBytes body).takeWhile isAsciiDigit ∧
      if (asBytes body).takeWhile isAsciiDigit ≠ asBytes body then
        Stuck input (pos + ((asBytes body).takeWhile isAsciiDigit).length)
      else At input (pos + ((asBytes body).takeWhile isAsciiDigit).length) rest := by
  constructor
  · obtain ⟨b, bytes, hbytes, -, hdigit⟩ := hrest.byte
    rw [hat.drop_eq, asBytes_append]
    apply takeWhile_append_stop
    intro b' hb'
    rw [hbytes, List.head?_cons, Option.some.injEq] at hb'
    rw [← hb']
    exact hdigit
  · split
    · next hjunk =>
        have hsplit := List.takeWhile_append_dropWhile (p := isAsciiDigit) (l := asBytes body)
        obtain ⟨b, bytes, hbytes⟩ : ∃ b bytes, (asBytes body).dropWhile isAsciiDigit = b :: bytes := by
          apply List.exists_cons_of_ne_nil
          intro hnil
          rw [hnil, List.append_nil] at hsplit
          exact hjunk hsplit
        have hmem : b ∈ asBytes body := by
          rw [← hsplit, hbytes]
          exact List.mem_append_right _ List.mem_cons_self
        obtain ⟨hwhite, hdelimiter⟩ := scalar_byte hall hmem
        refine @stuck_of_byte input _ b (bytes ++ asBytes rest) ?_ hwhite hdelimiter
        rw [hbytes] at hsplit
        generalize (asBytes body).takeWhile isAsciiDigit = digits at hsplit
        rw [← List.drop_drop, hat.drop_eq, asBytes_append, ← hsplit, List.append_assoc, List.drop_left]
        rfl
    · next hwhole =>
        rw [not_not.mp hwhole]
        exact hat.append

/-- A scalar behind its sign: where no digit is there it is passed over. -/
theorem signed_gives {negative : Bool} {start : Nat} {body : Text} {digits : List UInt8}
    {skipResult : Except VentoyConfigError (Option Int × Nat)} (hskip : Gives input skipResult (some none) rest)
    (hall : ∀ c ∈ body, IsScalarChar c) (hrest : Delimited rest) (hat : At input start (body ++ rest))
    (hdigits : digits = (asBytes body).takeWhile isAsciiDigit) :
    Gives input
      (if (input.drop start).takeWhile isAsciiDigit = [] then skipResult
      else do
        let value ← someOr (digitsFrom 31 0 ((input.drop start).takeWhile isAsciiDigit)) .invalidJson
        pure (some (if negative then -(value : Int) else value), start + ((input.drop start).takeWhile isAsciiDigit).length))
      (if digits = [] then some none
      else if digits ≠ asBytes body then none
      else (digitsFrom 31 0 digits).map fun value => some (if negative then -(value : Int) else value)) rest := by
  obtain ⟨htake, hend⟩ := digits_reads hall hrest hat
  rw [← hdigits] at htake hend
  rw [htake]
  by_cases hnone : digits = []
  · rw [if_pos hnone, if_pos hnone]
    exact hskip
  · rw [if_neg hnone, if_neg hnone]
    by_cases hjunk : digits ≠ asBytes body
    · rw [if_pos hjunk] at hend ⊢
      cases digitsFrom 31 0 digits with
      | none => exact .inl rfl
      | some value => exact .inr ⟨_, _, rfl, hend⟩
    · rw [if_neg hjunk] at hend ⊢
      cases digitsFrom 31 0 digits with
      | none => exact .inl rfl
      | some value => exact ⟨_, rfl, hend⟩

/-- A value with neither a sign nor a digit in front is passed over. -/
theorem parseOptionalI32_skipped {byte : UInt8} (hget : input[skipWs input pos]? = some byte) (hsign : byte ≠ 0x2D)
    (hdigit : isAsciiDigit byte = false) : parseOptionalI32 input pos = skipped input none (skipWs input pos) := by
  have hnegative : decide (some byte = some 0x2D) = false := by simpa using hsign
  have hdigits : (input.drop (skipWs input pos)).takeWhile isAsciiDigit = [] := by
    rw [drop_eq_cons hget, List.takeWhile_cons_of_neg (by simp [hdigit])]
  rw [parseOptionalI32, hget, hnegative]
  exact if_pos hdigits

theorem reads_optionalI32 : Reads input (parseOptionalI32 input) Json.integer := by
  intro v text rest space pos hwritten hrest hat
  obtain ⟨hpeek, byte, hget, -, hquote, hbracket, hbrace⟩ := hwritten.peek hat
  have hskipped : Gives input (skipped input none (skipWs input pos)) (some (none : Option Int)) rest :=
    @reads_skipped input (Option Int) none v text rest [] _ hwritten hrest hpeek
  have hother : byte = 0x22 ∨ byte = 0x5B ∨ byte = 0x7B → v.integer = some none →
      Gives input (parseOptionalI32 input pos) v.integer rest := by
    intro hbyte hnone
    rw [hnone, parseOptionalI32_skipped hget (by rcases hbyte with rfl | rfl | rfl <;> decide)
      (by rcases hbyte with rfl | rfl | rfl <;> rfl)]
    exact hskipped
  cases hwritten with
  | scalar hne hall =>
      obtain ⟨c, after, rfl⟩ := List.exists_cons_of_ne_nil hne
      have hc := (hall c List.mem_cons_self).byte.1
      obtain ⟨hfirst, hafter⟩ := hpeek.next hc.1
      by_cases hsign : c = '-'
      · subst hsign
        have hresult := @signed_gives input _ true _ _ _ _ hskipped (fun c hc => hall c (List.mem_cons_of_mem _ hc)) hrest hafter rfl
        rw [parseOptionalI32, hfirst]
        exact hresult
      · have hbyte : UInt8.ofNat c.toNat ≠ 0x2D := fun h => hsign ((@toByte_inj c '-' hc.1 (by decide)).mp h)
        have hresult := @signed_gives input _ false _ _ _ _ hskipped hall hrest hpeek rfl
        have hnegative : decide (some (UInt8.ofNat c.toNat) = some 0x2D) = false := by simpa using hbyte
        have hhead : decide ((c :: after).head? = some '-') = false := by simpa using hsign
        rw [parseOptionalI32, hfirst, hnegative, Json.integer, hhead]
        exact hresult
  | string hs => exact hother (.inl (hquote.mpr (by simp [Json.asString]))) rfl
  | array hitems hseparated => exact hother (.inr (.inl (hbracket.mpr (by simp [Json.elements])))) rfl
  | object hkeys hmembers hseparated => exact hother (.inr (.inr (hbrace.mpr (by simp [Json.members])))) rfl

end readers

section fields

variable {input : List UInt8} {key : Text}

theorem reads_target (kind : VentoyTargetKind) : Reads input (parseTarget input kind) fun v => some (v.target kind) :=
  reads_stringOrSkip.map fun r => (r.bind cleanPluginPath).map kind.target

theorem reads_optionalPassword : Reads input (parseOptionalPassword input) fun v => some v.password :=
  reads_stringOrSkip.map fun r => r.bind VentoyPassword.parse

theorem reads_optionalConfigPath : Reads input (parseOptionalConfigPath input) fun v => some v.configPath :=
  reads_stringOrSkip.map fun r => r.bind cleanPluginPath

theorem reads_optionalNat : Reads input (parseOptionalNat input) Json.natural :=
  reads_optionalI32.map fun r => r.bind fun value => if 0 ≤ value then some value.toNat else none

theorem reads_control (config : VentoyConfig) : Reads input (parseControl input config) fun v => controlMeaning v config :=
  reads_arrayElements fun _ => reads_objectFields fun key config => reads_stringOrSkip.map fun r =>
    r.elim config (applyControl config key)

theorem reads_passwordRuleField (fields : PasswordRuleFields) :
    Reads input (passwordRuleField input key fields) fun v => passwordRuleMeaning key v fields :=
  .ite ((reads_target .image).map fun r => { fields with target := r.or fields.target })
    (.ite ((reads_target .parent).map fun r => { fields with target := fields.target.or r })
      (.ite (reads_optionalPassword.map fun r => { fields with password := r }) (reads_skipped fields)))

theorem reads_passwordRules : Reads input (parsePasswordRules input) passwordRulesMeaning :=
  reads_arrayElements fun rules => (reads_objectFields fun _ fields => reads_passwordRuleField fields).map fun fields =>
    rules ++ fields.rules

theorem reads_passwordField (password : VentoyPasswordConfig) :
    Reads input (passwordField input key password) fun v => passwordFieldMeaning key v password :=
  .ite (reads_optionalPassword.map fun r => { password with boot := r })
    (.ite (reads_optionalPassword.map fun r => { password with iso := r })
      (.ite (reads_optionalPassword.map fun r => { password with wim := r })
        (.ite (reads_optionalPassword.map fun r => { password with efi := r })
          (.ite (reads_optionalPassword.map fun r => { password with img := r })
            (.ite (reads_optionalPassword.map fun r => { password with vhd := r })
              (.ite (reads_optionalPassword.map fun r => { password with vtoy := r })
                (.ite (reads_passwordRules.map fun rules => { password with menu := rules }) (reads_skipped password))))))))

theorem reads_password (config : VentoyConfig) : Reads input (parsePassword input config) fun v => passwordMeaning v config :=
  (reads_objectFields fun _ password => reads_passwordField password).map fun password => { config with password := password }

theorem reads_menuTipField (fields : MenuTipFields) :
    Reads input (menuTipField input key fields) fun v => menuTipFieldMeaning key v fields :=
  .ite (reads_optionalConfigPath.map fun r => { fields with target := (r.map VentoyMenuTipTarget.image).or fields.target })
    (.ite (.ite (reads_optionalConfigPath.map fun r => { fields with target := r.map .dir }) (reads_skipped fields))
      (.ite (reads_stringOrSkip.map fun r => { fields with tip1 := r.getD fields.tip1 })
        (.ite (reads_stringOrSkip.map fun r => { fields with tip2 := r.getD fields.tip2 }) (reads_skipped fields))))

theorem reads_menuTipRules : Reads input (parseMenuTipRules input) menuTipRulesMeaning :=
  reads_arrayElements fun rules => (reads_objectFields fun _ fields => reads_menuTipField fields).map fun fields =>
    rules ++ fields.rules

theorem reads_menuTip (config : VentoyConfig) : Reads input (parseMenuTip input config) fun v => menuTipMeaning v config :=
  (reads_objectFields fun _ tips => .ite reads_menuTipRules (reads_skipped tips)).map fun tips => { config with menuTips := tips }

theorem reads_menuClassField (fields : MenuClassFields) :
    Reads input (menuClassField input key fields) fun v => menuClassFieldMeaning key v fields :=
  .ite (reads_stringOrSkip.map fun r => { fields with target := (r.map VentoyMenuClassTarget.key).or fields.target })
    (.ite (.ite (reads_optionalConfigPath.map fun r => { fields with target := r.map .parent }) (reads_skipped fields))
      (.ite (.ite (reads_stringOrSkip.map fun r => { fields with target := r.map .dir }) (reads_skipped fields))
        (.ite (reads_stringOrSkip.map fun r => { fields with cls := r.or fields.cls }) (reads_skipped fields))))

theorem reads_menuClass (config : VentoyConfig) : Reads input (parseMenuClass input config) fun v => menuClassMeaning v config :=
  (reads_arrayElements fun rules => (reads_objectFields fun _ fields => reads_menuClassField fields).map fun fields =>
    rules ++ fields.rules).map fun rules => { config with menuClasses := rules }

theorem reads_menuAlias (config : VentoyConfig) : Reads input (parseMenuAlias input config) fun v => menuAliasMeaning v config :=
  reads_arrayElements fun config => (reads_objectFields fun key fields => reads_stringOrSkip.map fun r =>
    r.elim fields (applyMenuAlias fields key)).map fun fields =>
      { config with menuAliases := config.menuAliases ++ fields.aliases }

theorem reads_autoInstallField (fields : PathListFields) :
    Reads input (autoInstallField input key fields) fun v => autoInstallFieldMeaning key v fields :=
  .ite ((reads_target .image).map fun r => { fields with target := r.or fields.target })
    (.ite ((reads_target .parent).map fun r => { fields with target := fields.target.or r })
      (.ite (reads_pathListValue.map fun r => { fields with paths := r.getD [] })
        (.ite (reads_optionalNat.map fun r => { fields with autosel := r })
          (.ite (reads_optionalNat.map fun r => { fields with timeout := r }) (reads_skipped fields)))))

theorem reads_autoInstall (config : VentoyConfig) :
    Reads input (parseAutoInstall input config) fun v => autoInstallMeaning v config :=
  reads_arrayElements fun config => (reads_objectFields fun _ fields => reads_autoInstallField fields).map fun fields =>
    { config with autoInstall := config.autoInstall ++ fields.rules PathListFields.autoInstall }

theorem reads_autoMemdisk (config : VentoyConfig) :
    Reads input (parseAutoMemdisk input config) fun v => autoMemdiskMeaning v config :=
  reads_stringArray.map fun paths => { config with autoMemdisk := config.autoMemdisk ++ cleanPluginPaths paths }

theorem reads_persistenceField (fields : PathListFields) :
    Reads input (persistenceField input key fields) fun v => persistenceFieldMeaning key v fields :=
  .ite ((reads_target .image).map fun r => { fields with target := r })
    (.ite (reads_pathListValue.map fun r => { fields with paths := r.getD [] })
      (.ite (reads_optionalNat.map fun r => { fields with autosel := r })
        (.ite (reads_optionalNat.map fun r => { fields with timeout := r }) (reads_skipped fields))))

theorem reads_persistence (config : VentoyConfig) :
    Reads input (parsePersistence input config) fun v => persistenceMeaning v config :=
  reads_arrayElements fun config => (reads_objectFields fun _ fields => reads_persistenceField fields).map fun fields =>
    { config with persistence := config.persistence ++ fields.rules PathListFields.persistence }

theorem reads_injectionField (fields : InjectionFields) :
    Reads input (injectionField input key fields) fun v => injectionFieldMeaning key v fields := by
  refine .ite ((reads_target .image).map fun r => { fields with target := r.or fields.target })
    (.ite ((reads_target .parent).map fun r => { fields with target := fields.target.or r })
      (.ite ?_ (reads_skipped fields)))
  simpa only [Option.map_map, Function.comp_def] using reads_stringPath.map fun r => { fields with archive := r }

theorem reads_injection (config : VentoyConfig) :
    Reads input (parseInjection input config) fun v => injectionMeaning v config :=
  reads_arrayElements fun config => (reads_objectFields fun _ fields => reads_injectionField fields).map fun fields =>
    { config with injection := config.injection ++ fields.rules }

theorem reads_dudField (fields : PathListFields) : Reads input (dudField input key fields) fun v => dudFieldMeaning key v fields :=
  .ite ((reads_target .image).map fun r => { fields with target := r })
    (.ite (reads_pathListValue.map fun r => { fields with paths := r.getD [] }) (reads_skipped fields))

theorem reads_dud (config : VentoyConfig) : Reads input (parseDud input config) fun v => dudMeaning v config :=
  reads_arrayElements fun config => (reads_objectFields fun _ fields => reads_dudField fields).map fun fields =>
    { config with dud := config.dud ++ fields.rules PathListFields.dud }

theorem reads_confReplaceField (fields : ConfReplaceFields) :
    Reads input (confReplaceField input key fields) fun v => confReplaceFieldMeaning key v fields := by
  refine .ite ((reads_target .image).map fun r => { fields with target := r })
    (.ite ?_ (.ite ?_ (.ite (reads_optionalI32.map fun r => { fields with img := r }) (reads_skipped fields))))
  · simpa only [Option.map_map, Function.comp_def] using reads_stringPath.map fun r => { fields with org := r }
  · simpa only [Option.map_map, Function.comp_def] using reads_stringPath.map fun r => { fields with newPath := r }

theorem reads_confReplace (config : VentoyConfig) :
    Reads input (parseConfReplace input config) fun v => confReplaceMeaning v config :=
  reads_arrayElements fun config => (reads_objectFields fun _ fields => reads_confReplaceField fields).map fun fields =>
    { config with confReplace := config.confReplace ++ fields.rules }

theorem reads_section (platform : Platform) (state : ConfigState) :
    Reads input (configField platform input key state) fun v => sectionMeaning platform key state v :=
  .ite ((reads_control _).map fun config => { state with config := config })
    (.ite ((reads_menuAlias _).map fun config => { state with config := config })
    (.ite ((reads_menuTip _).map fun config => { state with parsedPlatformMenuTip := true, config := config })
    (.ite ((reads_menuTip _).map fun config => { state with config := config })
    (.ite ((reads_menuClass _).map fun config => { state with parsedPlatformMenuClass := true, config := config })
    (.ite ((reads_menuClass _).map fun config => { state with config := config })
    (.ite ((reads_password _).map fun config => { state with parsedPlatformPassword := true, config := config })
    (.ite ((reads_password _).map fun config => { state with config := config })
    (.ite ((reads_autoInstall _).map fun config => { state with config := config })
    (.ite ((reads_persistence _).map fun config => { state with config := config })
    (.ite ((reads_injection _).map fun config => { state with config := config })
    (.ite ((reads_dud _).map fun config => { state with config := config })
    (.ite ((reads_confReplace _).map fun config => { state with config := config })
    (.ite ((reads_autoMemdisk _).map fun config => { state with parsedPlatformAutoMemdisk := true, config := config })
    (.ite ((reads_autoMemdisk _).map fun config => { state with config := config })
    (.ite ((reads_stringArray.map fun paths => { state.config with imageListMode := .allow, imageList := paths }).map
      fun config => { state with config := config })
    (.ite ((reads_stringArray.map fun paths => { state.config with imageListMode := .deny, imageList := paths }).map
      fun config => { state with config := config })
    (reads_skipped state)))))))))))))))))

end fields

section documents

variable {platform : Platform} {sections : List (Text × Json)} {text : Text} {before after : List Space}

/-- The text of a document between white space, as bytes. -/
def documentBytes (before : List Space) (text : Text) (after : List Space) : List UInt8 :=
  asBytes (spaces before ++ (text ++ spaces after))

theorem parseConfig_document (hwritten : Written (.object sections) text) :
    parseConfig platform (documentBytes before text after) = someOr (documentMeaning platform sections) .invalidJson := by
  have hat : At (documentBytes before text after) 0 (spaces before ++ (text ++ spaces after)) := ⟨Nat.zero_le _, rfl⟩
  cases hwritten with
  | object hkeys hmembers hseparated =>
      have hread := @parseObjectFields_reads _ _ _ _ _ ({} : ConfigState) _ _ _ _ hkeys
        (fun m hm state pos rest hrest hat => @reads_section _ (denoted m.key) platform state _ _ _ _ _ (hmembers m hm) hrest hat)
        hseparated hat
      rw [parseConfig, documentMeaning]
      split at hread
      · next out hout =>
          obtain ⟨next, hparse, hnext⟩ := hread
          have hend : At (documentBytes before _ after) (skipWs (documentBytes before _ after) next) [] :=
            At.skipWs (by rwa [List.append_nil]) (by simp [Solid])
          have hlength : skipWs (documentBytes before _ after) next = (documentBytes before _ after).length :=
            Nat.le_antisymm hend.le (List.drop_eq_nil_iff.mp hend.drop_eq)
          rw [hout, hparse, ok_bind]
          dsimp only
          rw [if_pos hlength]
          rfl
      · next hout =>
          rw [hout, hread]
          rfl

/-- No document begins like a byte order mark. -/
theorem documentBytes_ascii (hwritten : Written (.object sections) text) :
    ∃ byte bytes, documentBytes before text after = byte :: bytes ∧ byte.toNat < 0x80 := by
  obtain ⟨c, rest, htext, hc⟩ : ∃ c rest, spaces before ++ (text ++ spaces after) = c :: rest ∧ c.toNat < 0x80 := by
    cases before with
    | nil =>
        obtain ⟨c, rest, rfl, hc, -⟩ := hwritten.starts
        exact ⟨c, _, rfl, hc.1⟩
    | cons w before => exact ⟨w.char, _, rfl, (space_ascii w.char w.allowed).1⟩
  refine ⟨UInt8.ofNat c.toNat, asBytes rest, ?_, ?_⟩
  · rw [documentBytes, htext, asBytes_ascii hc]
  · rw [toNat_byte hc]
    exact hc

/-- The byte order mark and the bound on the size leave the parser of the sections what the document is. -/
theorem parse_eq_parseConfig (bom : Bool) (hwritten : Written (.object sections) text)
    (hsize : ((if bom then utf8Bom else []) ++ documentBytes before text after).length ≤ ventoyJsonMaxSize) :
    VentoyConfig.parse platform ((if bom then utf8Bom else []) ++ documentBytes before text after) =
      parseConfig platform (documentBytes before text after) := by
  have hvalid : refuseIf (fromUtf8 (documentBytes before text after) = none) VentoyConfigError.invalidJson = .ok () := by
    rw [documentBytes, fromUtf8_asBytes, refuseIf_eq_ok]
    simp
  have hfits : refuseIf (ventoyJsonMaxSize < ((if bom then utf8Bom else []) ++ documentBytes before text after).length)
      VentoyConfigError.fileTooLarge = .ok () := refuseIf_eq_ok.mpr (Nat.not_lt.mpr hsize)
  rw [VentoyConfig.parse, hfits, ok_bind]
  cases bom with
  | true =>
      have hprefix : utf8Bom.isPrefixOf (utf8Bom ++ documentBytes before text after) = true := by simp
      have hdrop : (utf8Bom ++ documentBytes before text after).drop 3 = documentBytes before text after := rfl
      rw [if_pos rfl, if_pos hprefix, hdrop, pure_bind]
      dsimp only
      rw [hvalid, ok_bind]
  | false =>
      obtain ⟨byte, bytes, hbytes, hlow⟩ := @documentBytes_ascii sections text before after hwritten
      have hne : ∀ mark, 0x80 ≤ UInt8.toNat mark → mark ≠ byte := by
        rintro mark hmark rfl
        omega
      have hnone : (if false = true then utf8Bom else []) ++ documentBytes before text after = documentBytes before text after := rfl
      rw [hnone, if_neg, if_neg, pure_bind]
      · dsimp only
        rw [hvalid, ok_bind]
      · rw [hbytes]
        simp [List.isPrefixOf, hne 0xFF (by decide), hne 0xFE (by decide)]
      · rw [hbytes]
        simp [utf8Bom, List.isPrefixOf, hne 0xEF (by decide)]

/-- Every document, however it is written and with a byte order mark or without, is read as what it means. -/
theorem parse_document (bom : Bool) (hwritten : Written (.object sections) text)
    (hsize : ((if bom then utf8Bom else []) ++ documentBytes before text after).length ≤ ventoyJsonMaxSize) :
    VentoyConfig.parse platform ((if bom then utf8Bom else []) ++ documentBytes before text after) =
      someOr (documentMeaning platform sections) .invalidJson := by
  rw [parse_eq_parseConfig bom hwritten hsize, parseConfig_document hwritten]

/-- The characters of a text as they stand. -/
def rawSpelled (text : Text) : List SpelledChar :=
  text.filterMap fun c => if h : 0x20 ≤ c.toNat ∧ c ≠ '"' ∧ c ≠ '\\' then some ⟨c, .raw h⟩ else none

theorem rawSpelled_plain (text : Text) : ∀ p ∈ rawSpelled text, ¬ p.spelling.IsPair := by
  intro p hp
  obtain ⟨c, -, hc⟩ := List.mem_filterMap.mp hp
  split at hc
  · cases hc
    exact id
  · cases hc

/-- A list of images, with a comma behind the last one. -/
def imageListMember : Member where
  key := rawSpelled "image_list".toList
  beforeColon := []
  afterColon := [⟨' ', by decide⟩]
  value := .array [.string (denoted (rawSpelled "/a.iso".toList))]
  text := '[' :: (literal (rawSpelled "/a.iso".toList) ++ ",]".toList)

def imageListText : Text := '{' :: (imageListMember.written ++ "\n\x7d".toList)

theorem imageList_written : Written (.object ([imageListMember].map Member.entry)) imageListText := by
  have harray : Written imageListMember.value imageListMember.text :=
    @Written.array [(.string (denoted (rawSpelled "/a.iso".toList)), literal (rawSpelled "/a.iso".toList))] _
      (fun item hitem => by
        rw [List.mem_singleton.mp hitem]
        exact .string (rawSpelled_plain _))
      (.more [] [] (.none []))
  refine .object (fun m hm => ?_) (fun m hm => ?_) (.last [] [⟨'\n', by decide⟩] _)
  · rw [List.mem_singleton.mp hm]
    exact rawSpelled_plain _
  · rw [List.mem_singleton.mp hm]
    exact harray

theorem imageList_parsed : VentoyConfig.parse .x8664 (asBytes imageListText) =
    .ok { imageListMode := .allow, imageList := ["/a.iso".toList] } := by
  have hbytes : asBytes imageListText = (if false then utf8Bom else []) ++ documentBytes [] imageListText [] := by
    rw [documentBytes, if_neg (by decide)]
    simp [spaces]
  have hmeaning : documentMeaning .x8664 ([imageListMember].map Member.entry) =
      some { imageListMode := .allow, imageList := ["/a.iso".toList] } := by decide +kernel
  rw [hbytes, parse_document false imageList_written (by decide +kernel), hmeaning]
  rfl

end documents

end NextBoot.Config
