import Mathlib.Data.List.Induction
import NextBoot.Config.Meaning

namespace NextBoot.Config

open Words Strings Results JsonStrings

section governing

variable {σ α β : Type}

/-- The last item of the first kind or, where there is none, the last of the second. -/
def governing (own general : α → Bool) (items : List α) : Option α :=
  (items.reverse.find? own).or (items.reverse.find? general)

/-- The items of the first kind are always taken, those of the second as long as none of the first was met. -/
structure Overrides (step : σ → α → Option σ) (own general : α → Bool) (meaning : α → Option β) (value : σ → β) (met : σ → Bool) :
    Prop where
  takesOwn : ∀ {state item next}, step state item = some next → own item = true → meaning item = some (value next) ∧ met next = true
  takesGeneral : ∀ {state item next}, step state item = some next → own item = false → general item = true → met state = false →
    meaning item = some (value next) ∧ met next = false
  keeps : ∀ {state item next}, step state item = some next → own item = false → (general item = true → met state = true) →
    value next = value state ∧ met next = met state

variable {step : σ → α → Option σ} {own general : α → Bool} {meaning : α → Option β} {value : σ → β} {met : σ → Bool}
  {items : List α} {start final : σ}

theorem governing_concat_own {item : α} (h : own item = true) : governing own general (items ++ [item]) = some item := by
  simp [governing, h]

theorem governing_concat_general {item : α} (hown : own item = false) (h : general item = true) (hnone : items.any own = false) :
    governing own general (items ++ [item]) = some item := by
  have hfind : items.reverse.find? own = none := by
    rw [List.find?_eq_none]
    intro x hx
    simpa using List.any_eq_false.mp hnone x (List.mem_reverse.mp hx)
  rw [governing, List.reverse_append, List.reverse_singleton, List.singleton_append, List.find?_cons_of_neg (by simp [hown]), hfind,
    Option.none_or, List.find?_cons_of_pos h]

theorem governing_concat_kept {item : α} (hown : own item = false) (h : general item = true → items.any own = true) :
    governing own general (items ++ [item]) = governing own general items := by
  rw [governing, governing, List.reverse_append, List.reverse_singleton, List.singleton_append,
    List.find?_cons_of_neg (by simp [hown])]
  cases hgeneral : general item with
  | false => rw [List.find?_cons_of_neg (by simp [hgeneral])]
  | true =>
      obtain ⟨x, hx, hxown⟩ := List.any_eq_true.mp (h hgeneral)
      obtain ⟨y, hy⟩ := Option.isSome_iff_exists.mp (List.find?_isSome.mpr ⟨x, List.mem_reverse.mpr hx, hxown⟩)
      rw [hy, Option.some_or, Option.some_or]

/-- After a run the value is that of the governing item. -/
theorem Overrides.run (h : Overrides step own general meaning value met) (hstart : met start = false)
    (hrun : items.foldlM step start = some final) :
    met final = items.any own ∧ value final = ((governing own general items).bind meaning).getD (value start) := by
  induction items using List.reverseRecOn generalizing final with
  | nil =>
      cases hrun
      simp [governing, hstart]
  | append_singleton items item ih =>
      rw [List.foldlM_append] at hrun
      obtain ⟨state, hstate, hlast⟩ := Option.bind_eq_some_iff.mp hrun
      have hstep : step state item = some final := by simpa using hlast
      obtain ⟨hmet, hvalue⟩ := ih hstate
      have hany : (items ++ [item]).any own = (items.any own || own item) := by simp
      rw [hany, ← hmet]
      cases hown : own item with
      | true =>
          obtain ⟨hmeaning, hnext⟩ := h.takesOwn hstep hown
          rw [governing_concat_own hown, Option.bind_some, hmeaning, hnext, Bool.or_true]
          exact ⟨rfl, rfl⟩
      | false =>
          by_cases htaken : general item = true ∧ met state = false
          · obtain ⟨hmeaning, hnext⟩ := h.takesGeneral hstep hown htaken.1 htaken.2
            rw [governing_concat_general hown htaken.1 (hmet ▸ htaken.2), Option.bind_some, hmeaning, hnext, htaken.2]
            exact ⟨rfl, rfl⟩
          · have hpassed : general item = true → met state = true := fun hgeneral => by simpa [hgeneral] using htaken
            obtain ⟨hsame, hnext⟩ := h.keeps hstep hown hpassed
            rw [governing_concat_kept hown (fun hgeneral => hmet ▸ hpassed hgeneral), hsame, hnext, Bool.or_false]
            exact ⟨rfl, hvalue⟩

end governing

/-- The sections that a section for the platform takes the place of. -/
inductive PlatformPlugin
  | menuTip
  | menuClass
  | password

namespace PlatformPlugin

def Value : PlatformPlugin → Type
  | menuTip => List VentoyMenuTipRule
  | menuClass => List VentoyMenuClassRule
  | password => VentoyPasswordConfig

/-- What a section holds. -/
def meaning : (f : PlatformPlugin) → Json → Option f.Value
  | menuTip, v => menuTips v
  | menuClass, v => menuClasses v
  | password, v => passwords v

/-- What the configuration has of it. -/
def value : (f : PlatformPlugin) → VentoyConfig → f.Value
  | menuTip, config => config.menuTips
  | menuClass, config => config.menuClasses
  | password, config => config.password

def put : (f : PlatformPlugin) → VentoyConfig → f.Value → VentoyConfig
  | menuTip, config, x => { config with menuTips := x }
  | menuClass, config, x => { config with menuClasses := x }
  | password, config, x => { config with password := x }

def met : PlatformPlugin → ConfigState → Bool
  | menuTip, state => state.parsedPlatformMenuTip
  | menuClass, state => state.parsedPlatformMenuClass
  | password, state => state.parsedPlatformPassword

def markMet : PlatformPlugin → ConfigState → ConfigState
  | menuTip, state => { state with parsedPlatformMenuTip := true }
  | menuClass, state => { state with parsedPlatformMenuClass := true }
  | password, state => { state with parsedPlatformPassword := true }

def general : PlatformPlugin → Text
  | menuTip => "menu_tip".toList
  | menuClass => "menu_class".toList
  | password => "password".toList

/-- The names of a section for the platform; those of the passwords count on every platform. -/
def own (platform : Platform) : PlatformPlugin → Text → Bool
  | menuTip, key => isCurrentPlatformPluginKey platform key "menu_tip".toList
  | menuClass, key => isCurrentPlatformPluginKey platform key "menu_class".toList
  | password, key => key = "password_uefi".toList ∨ key = "password_aa64".toList

/-- All names that a section of it can have. -/
def keys (platform : Platform) : PlatformPlugin → List Text
  | menuTip => ["menu_tip".toList, "menu_tip".toList ++ '_' :: ventoyPlatformSuffix platform]
  | menuClass => ["menu_class".toList, "menu_class".toList ++ '_' :: ventoyPlatformSuffix platform]
  | password => ["password".toList, "password_uefi".toList, "password_aa64".toList]

end PlatformPlugin

section frames

variable {config config' : VentoyConfig} {key : Text} {v : Json}

/-- Tips, classes and passwords are as they were. -/
structure KeepsChosen (config config' : VentoyConfig) : Prop where
  menuTips : config'.menuTips = config.menuTips
  menuClasses : config'.menuClasses = config.menuClasses
  password : config'.password = config.password

theorem KeepsChosen.value (h : KeepsChosen config config') (f : PlatformPlugin) : f.value config' = f.value config := by
  cases f with
  | menuTip => exact h.menuTips
  | menuClass => exact h.menuClasses
  | password => exact h.password

theorem KeepsChosen.refl (config : VentoyConfig) : KeepsChosen config config := ⟨rfl, rfl, rfl⟩

theorem KeepsChosen.trans {config'' : VentoyConfig} (h : KeepsChosen config config') (h' : KeepsChosen config' config'') :
    KeepsChosen config config'' :=
  ⟨h'.menuTips.trans h.menuTips, h'.menuClasses.trans h.menuClasses, h'.password.trans h.password⟩

theorem KeepsChosen.ite {c : Prop} [Decidable c] {config'' : VentoyConfig} (h : KeepsChosen config config')
    (h' : KeepsChosen config config'') : KeepsChosen config (if c then config' else config'') := by
  split
  · exact h
  · exact h'

theorem foldlM_keepsChosen {α : Type} {step : VentoyConfig → α → Option VentoyConfig} {items : List α}
    (h : ∀ config item config', step config item = some config' → KeepsChosen config config')
    (hrun : items.foldlM step config = some config') : KeepsChosen config config' := by
  induction items generalizing config with
  | nil =>
      cases hrun
      exact .refl _
  | cons item items ih =>
      rw [List.foldlM_cons] at hrun
      obtain ⟨between, hstep, hrest⟩ := Option.bind_eq_some_iff.mp hrun
      exact (h _ _ _ hstep).trans (ih hrest)

theorem foldElements_keepsChosen {meaning : VentoyConfig → Json → Option VentoyConfig}
    (h : ∀ config v config', meaning config v = some config' → KeepsChosen config config')
    (hmeaning : v.foldElements meaning config = some config') : KeepsChosen config config' := by
  obtain ⟨items, -, hrun⟩ := Option.bind_eq_some_iff.mp hmeaning
  exact foldlM_keepsChosen h hrun

theorem foldMembers_keepsChosen {meaning : Text → VentoyConfig → Json → Option VentoyConfig}
    (h : ∀ key config v config', meaning key config v = some config' → KeepsChosen config config')
    (hmeaning : v.foldMembers meaning config = some config') : KeepsChosen config config' := by
  obtain ⟨members, -, hrun⟩ := Option.bind_eq_some_iff.mp hmeaning
  exact foldlM_keepsChosen (fun config m config' => h m.1 config m.2 config') hrun

theorem applyControl_keepsChosen (value : Text) : KeepsChosen config (applyControl config key value) := by
  rw [applyControl]
  dsimp only
  repeat' apply KeepsChosen.ite
  all_goals exact ⟨rfl, rfl, rfl⟩

theorem controlMeaning_keepsChosen (h : controlMeaning v config = some config') : KeepsChosen config config' := by
  refine foldElements_keepsChosen (fun _ _ _ h => foldMembers_keepsChosen (fun key config v config' h => ?_) h) h
  cases h
  cases v.asString with
  | none => exact .refl config
  | some value => exact applyControl_keepsChosen value

/-- Elements that add to a list of their own. -/
theorem foldElements_map_keepsChosen {β : Type} {read : Json → Option β} {put : VentoyConfig → β → VentoyConfig}
    (h : v.foldElements (fun config v => (read v).map (put config)) config = some config')
    (hput : ∀ config b, KeepsChosen config (put config b)) : KeepsChosen config config' := by
  refine foldElements_keepsChosen (fun config v config' h => ?_) h
  obtain ⟨b, -, rfl⟩ := Option.map_eq_some_iff.mp h
  exact hput config b

theorem menuAliasMeaning_keepsChosen (h : menuAliasMeaning v config = some config') : KeepsChosen config config' :=
  foldElements_map_keepsChosen h fun _ _ => ⟨rfl, rfl, rfl⟩

theorem autoInstallMeaning_keepsChosen (h : autoInstallMeaning v config = some config') : KeepsChosen config config' :=
  foldElements_map_keepsChosen h fun _ _ => ⟨rfl, rfl, rfl⟩

theorem persistenceMeaning_keepsChosen (h : persistenceMeaning v config = some config') : KeepsChosen config config' :=
  foldElements_map_keepsChosen h fun _ _ => ⟨rfl, rfl, rfl⟩

theorem injectionMeaning_keepsChosen (h : injectionMeaning v config = some config') : KeepsChosen config config' :=
  foldElements_map_keepsChosen h fun _ _ => ⟨rfl, rfl, rfl⟩

theorem dudMeaning_keepsChosen (h : dudMeaning v config = some config') : KeepsChosen config config' :=
  foldElements_map_keepsChosen h fun _ _ => ⟨rfl, rfl, rfl⟩

theorem confReplaceMeaning_keepsChosen (h : confReplaceMeaning v config = some config') : KeepsChosen config config' :=
  foldElements_map_keepsChosen h fun _ _ => ⟨rfl, rfl, rfl⟩

end frames

section sections

variable {platform : Platform} {key base : Text} {state next : ConfigState} {v : Json} {f g : PlatformPlugin}

/-- A section for the platform is named like the general one, with the platform behind it. -/
theorem isCurrentPlatformPluginKey_eq (h : isCurrentPlatformPluginKey platform key base = true) :
    key = base ++ '_' :: ventoyPlatformSuffix platform := by
  have hstrip := of_decide_eq_true h
  obtain ⟨rest, hbase, hrest⟩ := Option.bind_eq_some_iff.mp hstrip
  rw [stripPrefix, Option.ite_none_right_eq_some] at hbase hrest
  obtain ⟨hbasePrefix, hbase⟩ := hbase
  obtain ⟨hunderscore, hrest⟩ := hrest
  obtain ⟨rest', rfl⟩ := List.isPrefixOf_iff_prefix.mp hbasePrefix
  cases hbase
  rw [List.drop_left] at hunderscore hrest
  obtain ⟨suffix, rfl⟩ := List.isPrefixOf_iff_prefix.mp hunderscore
  cases hrest
  rfl

theorem PlatformPlugin.general_mem : f.general ∈ f.keys platform := by cases f <;> exact List.mem_cons_self

theorem PlatformPlugin.own_mem (h : f.own platform key = true) : key ∈ f.keys platform := by
  cases f with
  | menuTip => simp [keys, isCurrentPlatformPluginKey_eq h]
  | menuClass => simp [keys, isCurrentPlatformPluginKey_eq h]
  | password =>
      rcases of_decide_eq_true h with rfl | rfl
      · simp [keys]
      · simp [keys]

/-- No name is one of two of them. -/
theorem PlatformPlugin.eq_of_mem (h : key ∈ f.keys platform) (h' : key ∈ g.keys platform) : f = g := by
  have happart : ∀ key ∈ f.keys platform, key ∈ g.keys platform → f = g := by
    cases platform <;> cases f <;> cases g <;> first | exact fun _ _ _ => rfl | simp [keys, ventoyPlatformSuffix]
  exact happart key h h'

/-- The general name is not the one for a platform. -/
theorem PlatformPlugin.own_general : f.own platform f.general = false := by
  cases platform <;> cases f <;> decide

/-- What a section does to tips, classes and passwords. -/
inductive Taken (platform : Platform) (key : Text) (v : Json) (state next : ConfigState) : Prop
  | own (f : PlatformPlugin) : f.own platform key = true → f.meaning v = some (f.value next.config) → f.met next = true →
      (∀ g, g ≠ f → g.value next.config = g.value state.config ∧ g.met next = g.met state) → Taken platform key v state next
  | general (f : PlatformPlugin) : key = f.general → f.met state = false → f.meaning v = some (f.value next.config) →
      (∀ g, (g ≠ f → g.value next.config = g.value state.config) ∧ g.met next = g.met state) → Taken platform key v state next
  | other : (∀ f : PlatformPlugin, f.own platform key = false ∧ ¬ (key = f.general ∧ f.met state = false)) →
      (∀ f : PlatformPlugin, f.value next.config = f.value state.config ∧ f.met next = f.met state) → Taken platform key v state next

/-- A section that none of them is named like. -/
theorem Taken.of_key (hkey : ∀ f : PlatformPlugin, key ∉ f.keys platform) (h : KeepsChosen state.config next.config)
    (hmet : ∀ f : PlatformPlugin, f.met next = f.met state) : Taken platform key v state next := by
  refine .other (fun f => ⟨?_, ?_⟩) fun f => ⟨h.value f, hmet f⟩
  · exact Bool.eq_false_iff.mpr fun hown => hkey f (PlatformPlugin.own_mem hown)
  · rintro ⟨rfl, -⟩
    exact hkey f PlatformPlugin.general_mem

/-- A section for the platform. -/
theorem Taken.of_own (f : PlatformPlugin) (hown : f.own platform key = true)
    (h : (((f.meaning v).map (f.put state.config)).map fun config => { f.markMet state with config := config }) = some next) :
    Taken platform key v state next := by
  obtain ⟨config, hconfig, rfl⟩ := Option.map_eq_some_iff.mp h
  obtain ⟨x, hx, rfl⟩ := Option.map_eq_some_iff.mp hconfig
  refine .own f hown ?_ (by cases f <;> rfl) fun g hg => ?_
  · rw [hx]
    cases f <;> rfl
  · cases f <;> cases g <;> first | exact absurd rfl hg | exact ⟨rfl, rfl⟩

/-- A general section that counts. -/
theorem Taken.of_general (f : PlatformPlugin) (hkey : key = f.general) (hmet : f.met state = false)
    (h : (((f.meaning v).map (f.put state.config)).map fun config => { state with config := config }) = some next) :
    Taken platform key v state next := by
  obtain ⟨config, hconfig, rfl⟩ := Option.map_eq_some_iff.mp h
  obtain ⟨x, hx, rfl⟩ := Option.map_eq_some_iff.mp hconfig
  refine .general f hkey hmet ?_ fun g => ⟨fun hg => ?_, by cases g <;> rfl⟩
  · rw [hx]
    cases f <;> rfl
  · cases f <;> cases g <;> first | exact absurd rfl hg | rfl

/-- A section that writes other fields. -/
theorem kept_of_map {meaning : Option VentoyConfig} (hmeaning : ∀ config, meaning = some config → KeepsChosen state.config config)
    (h : (meaning.map fun config => { state with config := config }) = some next) :
    KeepsChosen state.config next.config ∧ ∀ f : PlatformPlugin, f.met next = f.met state := by
  obtain ⟨config, hconfig, rfl⟩ := Option.map_eq_some_iff.mp h
  exact ⟨hmeaning config hconfig, fun f => by cases f <;> rfl⟩

theorem taken_of_sectionMeaning (h : sectionMeaning platform key state v = some next) : Taken platform key v state next := by
  rw [sectionMeaning] at h
  dsimp only at h
  by_cases hcontrol : key = "control".toList
  · rw [if_pos hcontrol] at h
    obtain ⟨hkept, hmet⟩ := kept_of_map (fun _ => controlMeaning_keepsChosen) h
    subst hcontrol
    exact .of_key (fun f => by cases platform <;> cases f <;> decide) hkept hmet
  rw [if_neg hcontrol] at h
  by_cases halias : key = "menu_alias".toList
  · rw [if_pos halias] at h
    obtain ⟨hkept, hmet⟩ := kept_of_map (fun _ => menuAliasMeaning_keepsChosen) h
    subst halias
    exact .of_key (fun f => by cases platform <;> cases f <;> decide) hkept hmet
  rw [if_neg halias] at h
  by_cases hownTip : isCurrentPlatformPluginKey platform key "menu_tip".toList = true
  · rw [if_pos hownTip] at h
    exact .of_own .menuTip hownTip h
  rw [if_neg hownTip] at h
  by_cases htip : key = "menu_tip".toList ∧ state.parsedPlatformMenuTip = false
  · rw [if_pos htip] at h
    exact .of_general .menuTip htip.1 htip.2 h
  rw [if_neg htip] at h
  by_cases hownClass : isCurrentPlatformPluginKey platform key "menu_class".toList = true
  · rw [if_pos hownClass] at h
    exact .of_own .menuClass hownClass h
  rw [if_neg hownClass] at h
  by_cases hclass : key = "menu_class".toList ∧ state.parsedPlatformMenuClass = false
  · rw [if_pos hclass] at h
    exact .of_general .menuClass hclass.1 hclass.2 h
  rw [if_neg hclass] at h
  by_cases hownPassword : key = "password_uefi".toList ∨ key = "password_aa64".toList
  · rw [if_pos hownPassword] at h
    exact .of_own .password (decide_eq_true hownPassword) h
  rw [if_neg hownPassword] at h
  by_cases hpassword : key = "password".toList ∧ state.parsedPlatformPassword = false
  · rw [if_pos hpassword] at h
    exact .of_general .password hpassword.1 hpassword.2 h
  rw [if_neg hpassword] at h
  -- the sections that are left write other fields
  have hkeys : ∀ f : PlatformPlugin, f.own platform key = false ∧ ¬ (key = f.general ∧ f.met state = false) := by
    intro f
    cases f with
    | menuTip => exact ⟨Bool.eq_false_iff.mpr hownTip, htip⟩
    | menuClass => exact ⟨Bool.eq_false_iff.mpr hownClass, hclass⟩
    | password => exact ⟨decide_eq_false hownPassword, hpassword⟩
  suffices hkept : KeepsChosen state.config next.config ∧ ∀ f : PlatformPlugin, f.met next = f.met state from
    .other hkeys fun f => ⟨hkept.1.value f, hkept.2 f⟩
  split_ifs at h
  · exact kept_of_map (fun _ => autoInstallMeaning_keepsChosen) h
  · exact kept_of_map (fun _ => persistenceMeaning_keepsChosen) h
  · exact kept_of_map (fun _ => injectionMeaning_keepsChosen) h
  · exact kept_of_map (fun _ => dudMeaning_keepsChosen) h
  · exact kept_of_map (fun _ => confReplaceMeaning_keepsChosen) h
  all_goals
    first
    | obtain ⟨config, hconfig, rfl⟩ := Option.map_eq_some_iff.mp h
      obtain ⟨paths, -, rfl⟩ := Option.map_eq_some_iff.mp hconfig
      exact ⟨⟨rfl, rfl, rfl⟩, fun f => by cases f <;> rfl⟩
    | cases h
      exact ⟨.refl _, fun f => rfl⟩

/-- The sections of a document, one after the other, take a section for the platform before the general one. -/
theorem overrides_section (f : PlatformPlugin) :
    Overrides (fun state (s : Text × Json) => sectionMeaning platform s.1 state s.2) (fun s => f.own platform s.1)
      (fun s => s.1 = f.general) (fun s => f.meaning s.2) (fun state => f.value state.config) f.met where
  takesOwn := by
    intro state s next hstep hown
    cases taken_of_sectionMeaning hstep with
    | own g hkey hmeaning hmet _ =>
        cases PlatformPlugin.eq_of_mem (PlatformPlugin.own_mem hown) (PlatformPlugin.own_mem hkey)
        exact ⟨hmeaning, hmet⟩
    | general g hkey _ _ _ =>
        have hmem : s.1 ∈ g.keys platform := hkey ▸ PlatformPlugin.general_mem
        cases PlatformPlugin.eq_of_mem (PlatformPlugin.own_mem hown) hmem
        rw [hkey, PlatformPlugin.own_general] at hown
        cases hown
    | other hkeys _ =>
        rw [(hkeys f).1] at hown
        cases hown
  takesGeneral := by
    intro state s next hstep hown hgeneral hmet
    have hgeneral : s.1 = f.general := of_decide_eq_true hgeneral
    have hmem : s.1 ∈ f.keys platform := hgeneral ▸ PlatformPlugin.general_mem
    cases taken_of_sectionMeaning hstep with
    | own g hkey _ _ _ =>
        cases PlatformPlugin.eq_of_mem hmem (PlatformPlugin.own_mem hkey)
        rw [hkey] at hown
        cases hown
    | general g hkey _ hmeaning hkept =>
        cases PlatformPlugin.eq_of_mem hmem (hkey ▸ PlatformPlugin.general_mem)
        exact ⟨hmeaning, (hkept f).2.trans hmet⟩
    | other hkeys _ => exact absurd ⟨hgeneral, hmet⟩ (hkeys f).2
  keeps := by
    intro state s next hstep hown hpassed
    cases taken_of_sectionMeaning hstep with
    | own g hkey _ _ hkept =>
        refine hkept f ?_
        rintro rfl
        rw [hkey] at hown
        cases hown
    | general g hkey hmet _ hkept =>
        refine ⟨(hkept f).1 ?_, (hkept f).2⟩
        rintro rfl
        rw [hpassed (decide_eq_true hkey)] at hmet
        cases hmet
    | other _ hkept => exact hkept f

end sections

section documents

variable {platform : Platform} {sections : List (Text × Json)} {text : Text} {before after : List Space} {config : VentoyConfig}

/-- Tips, classes and passwords of a configuration file are those of its last section for the platform or, where there is
none, of its last general section, in whatever order they stand in the file. -/
theorem parse_governed (bom : Bool) (hwritten : Written (.object sections) text)
    (hsize : ((if bom then utf8Bom else []) ++ documentBytes before text after).length ≤ ventoyJsonMaxSize)
    (hparse : VentoyConfig.parse platform ((if bom then utf8Bom else []) ++ documentBytes before text after) = .ok config)
    (f : PlatformPlugin) :
    f.value config =
      ((governing (fun s => f.own platform s.1) (fun s => s.1 = f.general) sections).bind fun s => f.meaning s.2).getD (f.value {}) := by
  rw [parse_eq_parseConfig bom hwritten hsize, parseConfig_document hwritten, someOr_eq_ok, documentMeaning] at hparse
  obtain ⟨state, hrun, rfl⟩ := Option.map_eq_some_iff.mp hparse
  exact ((overrides_section f).run (by cases f <;> rfl) hrun).2

def bootPassword (password : Text) : Member where
  key := rawSpelled "bootpwd".toList
  beforeColon := []
  afterColon := []
  value := .string (denoted (rawSpelled password))
  text := literal (rawSpelled password)

def passwordSection (name password : Text) : Member where
  key := rawSpelled name
  beforeColon := []
  afterColon := []
  value := .object ([bootPassword password].map Member.entry)
  text := '{' :: ((bootPassword password).written ++ ['}'])

theorem passwordSection_written (name password : Text) :
    Written (passwordSection name password).value (passwordSection name password).text := by
  refine .object (fun m hm => ?_) (fun m hm => ?_) (.last [] [] _)
  · rw [List.mem_singleton.mp hm]
    exact rawSpelled_plain _
  · rw [List.mem_singleton.mp hm]
    exact .string (rawSpelled_plain _)

/-- The general passwords behind those for the platform. -/
def passwordMembers : List Member :=
  [passwordSection "password_uefi".toList "txt#own".toList, passwordSection "password".toList "txt#general".toList]

def passwordsText : Text :=
  '{' :: ((passwordSection "password_uefi".toList "txt#own".toList).written ++ ',' ::
    ((passwordSection "password".toList "txt#general".toList).written ++ ['}']))

theorem passwords_written : Written (.object (passwordMembers.map Member.entry)) passwordsText := by
  refine .object (fun m hm => ?_) (fun m hm => ?_) (.more [] [] (.last [] [] _))
  · rcases List.mem_pair.mp hm with rfl | rfl <;> exact rawSpelled_plain _
  · rcases List.mem_pair.mp hm with rfl | rfl <;> exact passwordSection_written _ _

theorem platformPassword_kept : ∃ config, VentoyConfig.parse .x8664 (asBytes passwordsText) = .ok config ∧
    config.password = { boot := VentoyPassword.parse "txt#own".toList } := by
  have hbytes : asBytes passwordsText = (if false then utf8Bom else []) ++ documentBytes [] passwordsText [] := by
    rw [documentBytes, if_neg (by decide)]
    simp [spaces]
  have hsize : ((if false then utf8Bom else []) ++ documentBytes [] passwordsText []).length ≤ ventoyJsonMaxSize := by
    decide +kernel
  have hmeaning : documentMeaning .x8664 (passwordMembers.map Member.entry) =
      some { password := { boot := VentoyPassword.parse "txt#own".toList } } := by decide +kernel
  have hparse := (@parse_eq_parseConfig .x8664 _ _ [] [] false passwords_written hsize).trans (parseConfig_document passwords_written)
  rw [hmeaning, someOr_some] at hparse
  rw [hbytes]
  refine ⟨_, hparse, ?_⟩
  have hgoverned := parse_governed false passwords_written hsize hparse .password
  exact hgoverned

end documents

end NextBoot.Config
