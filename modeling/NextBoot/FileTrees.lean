import Mathlib.Data.List.Infix
import Mathlib.Data.List.TakeWhile
import Mathlib.Data.Set.Defs

namespace NextBoot.FileTrees

/-- What a path leads to; links are seen as links. -/
inductive Node (Content : Type)
  | file (content : Content)
  | directory
  | link
  | special
deriving DecidableEq, Repr

variable {Name Content : Type}

abbrev Tree (Name Content : Type) := List Name → Option (Node Content)

def Tree.set [DecidableEq Name] (t : Tree Name Content) (path : List Name) (node : Option (Node Content)) :
    Tree Name Content := fun p => if p = path then node else t p

/-- The directories a path still needs, from the top. -/
def Tree.missing (t : Tree Name Content) (path : List Name) : List (List Name) :=
  (path.inits.reverse.takeWhile fun front => (t front).isNone).reverse

/-- No link and nothing special on the way to a path, and only directories above it. -/
structure Clear (t : Tree Name Content) (path : List Name) : Prop where
  above : ∀ front, front <+: path → front ≠ path → t front = none ∨ t front = some .directory
  here : t path = none ∨ t path = some .directory ∨ ∃ content, t path = some (.file content)

/-- A file may be put at the path, or be there already. -/
def Vacant (t : Tree Name Content) (path : List Name) : Prop := t path = none ∨ ∃ content, t path = some (.file content)

def Above (files : Set (List Name)) (path : List Name) : Prop := ∃ file ∈ files, path <+: file ∧ path ≠ file

/-- No file of the set lies below another. -/
def Apart (files : Set (List Name)) : Prop := ∀ p ∈ files, ∀ q ∈ files, p <+: q → p = q

/-- What has become of one path while only the files of a set are written or removed and directories made for them. -/
inductive Kept (files : Set (List Name)) (t₀ t : Tree Name Content) (path : List Name) : Prop
  | same (h : t path = t₀ path)
  | removed (hfile : path ∈ files) (h : t path = none)
  | written (hfile : path ∈ files) (content : Content) (h : t path = some (.file content))
  | made (habove : Above files path) (hnew : t₀ path = none) (h : t path = some .directory)

def Within (files : Set (List Name)) (t₀ t : Tree Name Content) : Prop := ∀ path, Kept files t₀ t path

variable {files : Set (List Name)} {t t₀ : Tree Name Content} {path : List Name}

theorem Apart.not_above (h : Apart files) (hpath : path ∈ files) : ¬ Above files path := by
  rintro ⟨file, hfile, hfront, hne⟩
  exact hne (h path hpath file hfile hfront)

theorem mem_missing {front : List Name} (h : front ∈ t.missing path) : front <+: path ∧ t front = none := by
  rw [Tree.missing, List.mem_reverse] at h
  constructor
  · apply (List.mem_inits front path).mp
    rw [← List.mem_reverse]
    exact (List.takeWhile_sublist _).subset h
  · have hnone : (t front).isNone = true := List.mem_takeWhile_imp (p := fun front => (t front).isNone) h
    exact Option.isNone_iff_eq_none.mp hnone

theorem Within.refl (files : Set (List Name)) (t : Tree Name Content) : Within files t t := fun _ => .same rfl

/-- A directory that is missing above a file was missing from the start. -/
theorem Within.missing (h : Within files t₀ t) (hapart : Apart files) (habove : Above files path)
    (hnone : t path = none) : t₀ path = none := by
  cases h path with
  | same hsame => rw [← hsame, hnone]
  | removed hfile => exact absurd habove (hapart.not_above hfile)
  | written _ content hcontent => rw [hnone] at hcontent; cases hcontent
  | made _ hnew => exact hnew

/-- A path that could be used can still be used, unless one of the files lies above it. -/
theorem Within.clear (h : Within files t₀ t) (hclear : Clear t₀ path)
    (hends : ∀ file ∈ files, file <+: path → file = path) : Clear t path := by
  constructor
  · intro front hfront hne
    cases h front with
    | same hsame => rw [hsame]; exact hclear.above front hfront hne
    | removed hfile => exact absurd (hends front hfile hfront) hne
    | written hfile => exact absurd (hends front hfile hfront) hne
    | made _ _ hmade => exact .inr hmade
  · cases h path with
    | same hsame => rw [hsame]; exact hclear.here
    | removed _ hnone => exact .inl hnone
    | written _ content hcontent => exact .inr (.inr ⟨content, hcontent⟩)
    | made _ _ hmade => exact .inr (.inl hmade)

theorem Within.vacant (h : Within files t₀ t) (hapart : Apart files) (hpath : path ∈ files) (hvacant : Vacant t₀ path) :
    Vacant t path := by
  cases h path with
  | same hsame => rw [Vacant, hsame]; exact hvacant
  | removed _ hnone => exact .inl hnone
  | written _ content hcontent => exact .inr ⟨content, hcontent⟩
  | made habove => exact absurd habove (hapart.not_above hpath)

theorem Within.elsewhere (h : Within files t₀ t) (hpath : path ∉ files) (habove : ¬ Above files path) :
    t path = t₀ path := by
  cases h path with
  | same hsame => exact hsame
  | removed hfile => exact absurd hfile hpath
  | written hfile => exact absurd hfile hpath
  | made hmade => exact absurd hmade habove

variable [DecidableEq Name]

@[simp]
theorem set_self {node : Option (Node Content)} : t.set path node path = node := if_pos rfl

theorem set_other {node : Option (Node Content)} {p : List Name} (h : p ≠ path) : t.set path node p = t p := if_neg h

theorem Within.set {node : Option (Node Content)} (h : Within files t₀ t)
    (hnode : Kept files t₀ (t.set path node) path) : Within files t₀ (t.set path node) := by
  intro p
  by_cases hp : p = path
  · rw [hp]
    exact hnode
  · have hother : t.set path node p = t p := set_other hp
    cases h p with
    | same hsame => exact .same (hother.trans hsame)
    | removed hfile hnone => exact .removed hfile (hother.trans hnone)
    | written hfile content hcontent => exact .written hfile content (hother.trans hcontent)
    | made habove hnew hmade => exact .made habove hnew (hother.trans hmade)

theorem Within.remove (h : Within files t₀ t) (hpath : path ∈ files) : Within files t₀ (t.set path none) :=
  h.set (.removed hpath set_self)

theorem Within.write (h : Within files t₀ t) (hpath : path ∈ files) (content : Content) :
    Within files t₀ (t.set path (some (.file content))) := h.set (.written hpath content set_self)

theorem Within.make (h : Within files t₀ t) (habove : Above files path) (hnew : t₀ path = none) :
    Within files t₀ (t.set path (some .directory)) := h.set (.made habove hnew set_self)

end NextBoot.FileTrees
