import Mathlib.Data.List.Induction
import NextBoot.Strings

namespace NextBoot.Fs.Paths

open Strings

def dot : Text := ['.']

def dotDot : Text := ['.', '.']

def rootPath : Text := ['/']

/-- The path behind which one more of its parts has been put; a part `.` or `..` is left out. -/
def pushPart (result part : Text) : Text :=
  if part = dot then result
  else if part = dotDot then result
  else if result ≠ [] ∧ result.getLast? ≠ some '/' then result ++ '/' :: part
  else result ++ part

def pathParts (path : Text) : List Text := (split '/' path).filter fun part => part ≠ []

def normalizePath (path : Text) : Text :=
  let result := (pathParts path).foldl pushPart []
  if result = [] then rootPath else result

/-- A path cut into its directory and its file name. -/
def splitPath (path : Text) : Text × Text :=
  let normalized := normalizePath path
  match rsplitOnce '/' normalized with
  | some (dir, name) => (if dir = [] then rootPath else dir, name)
  | none => (rootPath, normalized)

def IsRoot (path : Text) : Prop := path = rootPath ∨ path = []

instance (path : Text) : Decidable (IsRoot path) := inferInstanceAs (Decidable (_ ∨ _))

/-- The path of an entry, as the recursive scan builds it. -/
def fullPath (path name : Text) : Text := if IsRoot path then '/' :: name else path ++ '/' :: name

/-- A name that a path can have as a component. -/
def IsComponent (name : Text) : Prop := name ≠ [] ∧ '/' ∉ name ∧ name ≠ dot ∧ name ≠ dotDot

instance (name : Text) : Decidable (IsComponent name) := inferInstanceAs (Decidable (_ ∧ _ ∧ _ ∧ _))

def components (path : Text) : List Text := (split '/' path).filter fun part => IsComponent part

def joinPath (parts : List Text) : Text :=
  parts.foldl (fun result part => if result = [] then part else result ++ '/' :: part) []

variable {path name part : Text} {parts : List Text}

theorem isComponent_of_mem_components (h : part ∈ components path) : IsComponent part :=
  of_decide_eq_true (List.mem_filter.mp h).2

theorem isComponent_congr {other : Text} (h : eqIgnoreAsciiCase name other = true) (hother : IsComponent other) :
    IsComponent name := by
  rw [eqIgnoreAsciiCase, decide_eq_true_eq] at h
  refine ⟨?_, fun hslash => ?_, ?_, ?_⟩
  · rintro rfl
    exact hother.1 (List.map_eq_nil_iff.mp h.symm)
  · obtain ⟨c, hc, hlower⟩ := List.mem_map.mp (h ▸ List.mem_map_of_mem hslash)
    rw [eq_of_toAsciiLowercase hlower (by decide)] at hc
    exact hother.2.1 hc
  · rintro rfl
    obtain ⟨c, rest, rfl, hlower, hrest⟩ := List.map_eq_cons_iff.mp h.symm
    rw [eq_of_toAsciiLowercase hlower (by decide), List.map_eq_nil_iff.mp hrest] at hother
    exact hother.2.2.1 rfl
  · rintro rfl
    obtain ⟨c, rest, rfl, hlower, hrest⟩ := List.map_eq_cons_iff.mp h.symm
    obtain ⟨d, rest, rfl, hlower', hrest⟩ := List.map_eq_cons_iff.mp hrest
    rw [eq_of_toAsciiLowercase hlower (by decide), eq_of_toAsciiLowercase hlower' (by decide),
      List.map_eq_nil_iff.mp hrest] at hother
    exact hother.2.2.2 rfl

theorem components_append {rest : Text} : components (path ++ '/' :: rest) = components path ++ components rest := by
  rw [components, split_append, List.filter_append, components, components]

@[simp] theorem components_nil : components [] = [] := by decide

theorem components_of_isComponent (h : IsComponent name) : components name = [name] := by
  rw [components, split_of_notMem h.2.1, List.filter_cons, if_pos (decide_eq_true h), List.filter_nil]

@[simp] theorem components_fullPath : components (fullPath path name) = components path ++ components name := by
  unfold fullPath
  split
  · next h =>
      rw [show '/' :: name = [] ++ '/' :: name from rfl, components_append]
      rcases h with rfl | rfl
      · rfl
      · rfl
  · exact components_append

theorem isRoot_components (h : IsRoot path) : components path = [] := by
  rcases h with rfl | rfl
  · decide
  · decide

theorem joinPath_concat : joinPath (parts ++ [part]) =
    if joinPath parts = [] then part else joinPath parts ++ '/' :: part := by
  rw [joinPath, List.foldl_append, ← joinPath]
  rfl

theorem joinPath_eq_nil (h : ∀ part ∈ parts, IsComponent part) : joinPath parts = [] ↔ parts = [] := by
  refine ⟨fun hnil => ?_, fun h => by rw [h]; rfl⟩
  rcases List.eq_nil_or_concat parts with rfl | ⟨init, last, rfl⟩
  · rfl
  · have hlast := (h last (by simp)).1
    rw [List.concat_eq_append, joinPath_concat] at hnil
    split at hnil
    · exact absurd hnil hlast
    · exact absurd hnil (by simp)

theorem components_joinPath (h : ∀ part ∈ parts, IsComponent part) : components (joinPath parts) = parts := by
  induction parts using List.reverseRec with
  | nil => rfl
  | append_singleton init last ih =>
      have hinit : ∀ part ∈ init, IsComponent part := fun part hmem => h part (List.mem_append_left _ hmem)
      have hlast := components_of_isComponent (h last (by simp))
      rw [joinPath_concat]
      split
      · next hnil =>
          rw [(joinPath_eq_nil hinit).mp hnil, hlast, List.nil_append]
      · rw [components_append, ih hinit, hlast]

theorem getLast?_joinPath (h : ∀ part ∈ parts, IsComponent part) : (joinPath parts).getLast? ≠ some '/' := by
  rcases List.eq_nil_or_concat parts with rfl | ⟨init, last, rfl⟩
  · exact nofun
  · have hlast := h last (by simp)
    have hend : last.getLast? ≠ some '/' := fun hslash => hlast.2.1 (List.mem_of_getLast? hslash)
    rw [List.concat_eq_append, joinPath_concat]
    split
    · exact hend
    · rwa [List.getLast?_append, List.getLast?_cons_of_ne_nil hlast.1, Option.or_of_isSome
        (Option.isSome_iff_ne_none.mpr (mt List.getLast?_eq_none_iff.mp hlast.1))]

/-- Normalizing joins the components of a path. -/
theorem foldl_pushPart (hparts : ∀ part ∈ parts, part ≠ [] ∧ '/' ∉ part) {done : List Text}
    (hdone : ∀ part ∈ done, IsComponent part) :
    parts.foldl pushPart (joinPath done) = joinPath (done ++ parts.filter fun part => IsComponent part) := by
  induction parts generalizing done with
  | nil => rw [List.filter_nil, List.append_nil, List.foldl_nil]
  | cons part parts ih =>
      rw [List.forall_mem_cons] at hparts
      rw [List.foldl_cons]
      by_cases hpart : IsComponent part
      · have hpush : pushPart (joinPath done) part = joinPath (done ++ [part]) := by
          rw [pushPart, if_neg hpart.2.2.1, if_neg hpart.2.2.2, joinPath_concat]
          by_cases hnil : joinPath done = []
          · rw [if_neg (fun h => h.1 hnil), if_pos hnil, hnil, List.nil_append]
          · rw [if_pos ⟨hnil, getLast?_joinPath hdone⟩, if_neg hnil]
        have hmore : ∀ x ∈ done ++ [part], IsComponent x := by
          intro x hx
          rcases List.mem_append.mp hx with hx | hx
          · exact hdone x hx
          · rwa [List.mem_singleton.mp hx]
        rw [hpush, ih hparts.2 hmore, List.filter_cons, if_pos (decide_eq_true hpart), List.append_assoc,
          List.singleton_append]
      · have hdots : part = dot ∨ part = dotDot := by
          by_contra hnot
          exact hpart ⟨hparts.1.1, hparts.1.2, fun h => hnot (.inl h), fun h => hnot (.inr h)⟩
        have hpush : pushPart (joinPath done) part = joinPath done := by
          rcases hdots with rfl | rfl
          · rw [pushPart, if_pos rfl]
          · rw [pushPart, if_neg (by decide), if_pos rfl]
        rw [hpush, ih hparts.2 hdone, List.filter_cons, if_neg (by simpa using hpart)]

theorem filter_pathParts : (pathParts path).filter (fun part => IsComponent part) = components path := by
  rw [pathParts, List.filter_filter, components]
  refine List.filter_congr fun part _ => ?_
  rw [Bool.eq_iff_iff, Bool.and_eq_true, decide_eq_true_eq, decide_eq_true_eq]
  exact ⟨fun h => h.1, fun h => ⟨h, h.1⟩⟩

theorem normalizePath_eq :
    normalizePath path = if components path = [] then rootPath else joinPath (components path) := by
  have hparts : ∀ part ∈ pathParts path, part ≠ [] ∧ '/' ∉ part := by
    intro part hmem
    obtain ⟨hmem, hne⟩ := List.mem_filter.mp hmem
    exact ⟨of_decide_eq_true hne, notMem_of_mem_split hmem⟩
  have hfold := @foldl_pushPart (pathParts path) hparts [] (fun _ h => absurd h List.not_mem_nil)
  rw [filter_pathParts, List.nil_append] at hfold
  rw [joinPath, List.foldl_nil] at hfold
  simp only [normalizePath, hfold, joinPath_eq_nil fun _ => isComponent_of_mem_components]

theorem splitPath_nil (h : components path = []) : splitPath path = (rootPath, []) := by
  rw [splitPath, normalizePath_eq, if_pos h]
  decide

/-- The last component of a path is its file name, and the others are the components of its directory. -/
theorem splitPath_concat (h : components path = parts ++ [name]) : (splitPath path).2 = name ∧
    components (splitPath path).1 = parts ∧ (parts = [] → splitPath path = (rootPath, name)) := by
  have hall : ∀ part ∈ parts ++ [name], IsComponent part := by
    rw [← h]
    exact fun _ => isComponent_of_mem_components
  have hparts : ∀ part ∈ parts, IsComponent part := fun part hmem => hall part (List.mem_append_left _ hmem)
  have hname := hall name (by simp)
  rw [splitPath, normalizePath_eq, h, if_neg (by simp), joinPath_concat]
  by_cases hnil : parts = []
  · rw [if_pos ((joinPath_eq_nil hparts).mpr hnil), rsplitOnce_eq_none hname.2.1, hnil]
    exact ⟨rfl, show components rootPath = [] by decide, fun _ => rfl⟩
  · have hjoin := mt (joinPath_eq_nil hparts).mp hnil
    rw [if_neg hjoin, rsplitOnce_append hname.2.1]
    dsimp only
    rw [if_neg hjoin]
    exact ⟨rfl, components_joinPath hparts, fun h => absurd h hnil⟩

end NextBoot.Fs.Paths
