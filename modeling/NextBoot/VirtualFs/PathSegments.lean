import Mathlib.Data.List.Induction
import NextBoot.VirtualFs.FileProtocol

namespace NextBoot.VirtualFs

open Strings

section segments

def slash (c : Char) : Char := if c = '\\' then '/' else c

/-- The parts of a path between its separators. -/
def parts (path : Text) : List Text := (split '/' (path.map slash)).filter (· ≠ [])

def pushPart (kept : List Text) (part : Text) : List Text :=
  if part = ['.'] then kept else if part = ['.', '.'] then kept.dropLast else kept ++ [part]

def segments (path : Text) : List Text := (parts path).foldl pushPart []

def joined (segs : List Text) : Text := '/' :: List.intercalate ['/'] segs

/-- The path of what a directory calls by a name. -/
def childPath (dir name : Text) : Text := joined (segments dir ++ [name])

/-- A part of a path, of which none is empty. -/
def IsPart (part : Text) : Prop := part ≠ [] ∧ '/' ∉ part

instance (part : Text) : Decidable (IsPart part) := inferInstanceAs (Decidable (_ ∧ _))

/-- What a segment of a normalized path is. -/
structure Plain (part : Text) : Prop where
  isPart : IsPart part
  noBackslash : '\\' ∉ part
  ne_dot : part ≠ ['.']
  ne_dotdot : part ≠ ['.', '.']

variable {path dir name part base rest : Text} {segs kept init : List Text} {c : Char}

theorem normalizePathSegments_eq (path : Text) : normalizePathSegments path = joined (segments path) := rfl

theorem parts_append (base rest : Text) : parts (base ++ '/' :: rest) = parts base ++ parts rest := by
  have hslash : slash '/' = '/' := rfl
  rw [parts, List.map_append, List.map_cons, hslash, split_append, List.filter_append]
  rfl

theorem parts_concat_separator (h : isSeparator c = true) : parts (base ++ [c]) = parts base := by
  have hslash : slash c = '/' := by
    rcases decide_eq_true_iff.mp h with rfl | rfl <;> rfl
  have hempty : (split '/' []).filter (· ≠ []) = [] := rfl
  rw [parts, List.map_append, List.map_singleton, hslash, split_append, List.filter_append, hempty, List.append_nil]
  rfl

theorem parts_trimEndWhile (base : Text) : parts (trimEndWhile isSeparator base) = parts base := by
  induction base using List.reverseRecOn with
  | nil => rfl
  | append_singleton base c ih =>
      cases hc : isSeparator c with
      | true =>
          have htrim : trimEndWhile isSeparator (base ++ [c]) = trimEndWhile isSeparator base := by
            rw [trimEndWhile, List.reverse_concat, List.dropWhile_cons_of_pos hc]
            rfl
          rw [htrim, ih, parts_concat_separator hc]
      | false =>
          rw [trimEndWhile, List.reverse_concat, List.dropWhile_cons_of_neg (by simp [hc]), List.reverse_cons,
            List.reverse_reverse]

theorem notMem_of_mem_parts (h : part ∈ parts path) : IsPart part ∧ '\\' ∉ part := by
  obtain ⟨hsplit, hne⟩ := List.mem_filter.mp h
  refine ⟨⟨of_decide_eq_true hne, notMem_of_mem_split hsplit⟩, fun hback => ?_⟩
  obtain ⟨d, -, hd⟩ := List.mem_map.mp (mem_of_mem_split hsplit hback)
  unfold slash at hd
  split at hd
  · cases hd
  · next hne => exact hne hd

theorem plain_pushPart (hpart : IsPart part ∧ '\\' ∉ part) (hkept : ∀ p ∈ kept, Plain p) : ∀ p ∈ pushPart kept part, Plain p := by
  unfold pushPart
  split
  · exact hkept
  · split
    · exact fun p hp => hkept p (List.dropLast_sublist kept |>.subset hp)
    · next hdot hdotdot =>
        intro p hp
        rcases List.mem_append.mp hp with hp | hp
        · exact hkept p hp
        · rw [List.mem_singleton.mp hp]
          exact ⟨hpart.1, hpart.2, hdot, hdotdot⟩

theorem plain_of_mem_segments (h : part ∈ segments path) : Plain part := by
  have hfold : ∀ ps : List Text, (∀ p ∈ ps, IsPart p ∧ '\\' ∉ p) → ∀ kept, (∀ p ∈ kept, Plain p) →
      ∀ p ∈ ps.foldl pushPart kept, Plain p := by
    intro ps
    induction ps with
    | nil => exact fun _ _ hkept => hkept
    | cons q ps ih =>
        intro hps kept hkept
        rw [List.forall_mem_cons] at hps
        exact ih hps.2 _ (plain_pushPart hps.1 hkept)
  exact hfold (parts path) (fun p hp => notMem_of_mem_parts hp) [] (fun p hp => nomatch hp) part h

theorem foldl_pushPart (h : ∀ p ∈ segs, Plain p) (kept : List Text) : segs.foldl pushPart kept = kept ++ segs := by
  induction segs generalizing kept with
  | nil => rw [List.foldl_nil, List.append_nil]
  | cons p segs ih =>
      rw [List.forall_mem_cons] at h
      rw [List.foldl_cons, pushPart, if_neg h.1.ne_dot, if_neg h.1.ne_dotdot, ih h.2, List.append_assoc,
        List.singleton_append]

theorem split_joined (h : ∀ p ∈ segs, IsPart p) : (split '/' (joined segs)).filter (· ≠ []) = segs := by
  have hintercalate : (split '/' (List.intercalate ['/'] segs)).filter (· ≠ []) = segs := by
    induction segs with
    | nil => rfl
    | cons p segs ih =>
        rw [List.forall_mem_cons] at h
        have hfirst : (split '/' p).filter (· ≠ []) = [p] := by
          rw [split_of_notMem h.1.2]
          exact List.filter_cons_of_pos (by simpa using h.1.1)
        cases segs with
        | nil =>
            rw [List.intercalate_singleton]
            exact hfirst
        | cons q segs =>
            rw [List.intercalate_cons_cons, List.append_assoc, List.singleton_append, split_append, List.filter_append,
              hfirst, ih h.2]
            rfl
  rw [joined, split, if_pos rfl, List.filter_cons_of_neg (by simp), hintercalate]

theorem joined_eq_flatMap (h : segs ≠ []) : joined segs = segs.flatMap ('/' :: ·) := by
  induction segs with
  | nil => exact absurd rfl h
  | cons p segs ih =>
      rw [List.flatMap_cons]
      cases segs with
      | nil => rw [joined, List.intercalate_singleton, List.flatMap_nil, List.append_nil]
      | cons q segs =>
          rw [← ih (List.cons_ne_nil q segs), joined, List.intercalate_cons_cons, List.append_assoc]
          rfl

theorem joined_inj {other : List Text} (hsegs : ∀ p ∈ segs, IsPart p) (hother : ∀ p ∈ other, IsPart p) :
    joined segs = joined other ↔ segs = other := by
  constructor
  · intro h
    rw [← split_joined hsegs, h, split_joined hother]
  · exact congrArg joined

theorem joined_map (f : Char → Char) (hf : f '/' = '/') (segs : List Text) : (joined segs).map f = joined (segs.map (List.map f)) := by
  induction segs with
  | nil => exact congrArg (· :: []) hf
  | cons p segs ih =>
      cases segs with
      | nil =>
          simp only [joined, List.map_cons, List.map_nil, List.intercalate_singleton, hf]
      | cons q segs =>
          simp only [joined, List.map_cons, List.intercalate_cons_cons, List.map_append, hf, List.map_nil,
            List.cons.injEq, true_and] at ih ⊢
          rw [ih]

theorem segments_joined (h : ∀ p ∈ segs, Plain p) : segments (joined segs) = segs := by
  have hslash : segs.map (List.map slash) = segs := by
    rw [List.map_congr_left, List.map_id]
    intro p hp
    rw [List.map_congr_left, List.map_id]
    · rfl
    · intro c hc
      apply if_neg
      rintro rfl
      exact (h p hp).noBackslash hc
  rw [segments, parts, joined_map slash rfl, hslash, split_joined fun p hp => (h p hp).isPart, foldl_pushPart h,
    List.nil_append]

theorem segments_append (base rest : Text) : segments (base ++ '/' :: rest) = (parts rest).foldl pushPart (segments base) := by
  rw [segments, parts_append, List.foldl_append]
  rfl

theorem parts_plain (h : Plain name) : parts name = [name] := by
  have hslash : name.map slash = name := by
    rw [List.map_congr_left, List.map_id]
    intro c hc
    apply if_neg
    rintro rfl
    exact h.noBackslash hc
  rw [parts, hslash, split_of_notMem h.isPart.2]
  exact List.filter_cons_of_pos (by simpa using h.isPart.1)

theorem segments_trimEndWhile (base : Text) : segments (trimEndWhile isSeparator base) = segments base := by
  rw [segments, parts_trimEndWhile]
  rfl

theorem plain_childPath (h : Plain name) : ∀ p ∈ segments dir ++ [name], Plain p := by
  intro p hp
  rcases List.mem_append.mp hp with hp | hp
  · exact plain_of_mem_segments hp
  · rw [List.mem_singleton.mp hp]
    exact h

theorem segments_childPath (h : Plain name) : segments (childPath dir name) = segments dir ++ [name] :=
  segments_joined (plain_childPath h)

theorem head?_isSeparator (h : Plain name) : name.head?.any isSeparator = false := by
  cases name with
  | nil => rfl
  | cons c name =>
      have hslash : c ≠ '/' := fun hc => h.isPart.2 (hc ▸ List.mem_cons_self)
      have hback : c ≠ '\\' := fun hc => h.noBackslash (hc ▸ List.mem_cons_self)
      simp [isSeparator, hslash, hback]

/-- A name is looked up in its directory. -/
theorem resolveChildPath_plain (h : Plain name) : resolveChildPath dir name = childPath dir name := by
  rw [resolveChildPath, if_neg (not_or.mpr ⟨h.isPart.1, h.ne_dot⟩), if_neg (by simp [head?_isSeparator h]),
    normalizePathSegments_eq, segments_append, parts_plain h, segments_trimEndWhile, foldl_pushPart (by simpa using h)]
  rfl

theorem segments_of_childPath (hname : IsPart name) (h : normalizePathSegments path = childPath dir name) :
    segments path = segments dir ++ [name] := by
  refine (joined_inj (fun p hp => (plain_of_mem_segments hp).isPart) fun p hp => ?_).mp h
  rcases List.mem_append.mp hp with hp | hp
  · exact (plain_of_mem_segments hp).isPart
  · rw [List.mem_singleton.mp hp]
    exact hname

/-- Without separators in it, what is asked for is no other name than the one it resolves to. -/
theorem resolveChildPath_inj {requested : Text} (hname : IsPart name) (hslash : '/' ∉ requested) (hback : '\\' ∉ requested)
    (h : resolveChildPath dir requested = childPath dir name) : requested = name := by
  unfold resolveChildPath at h
  split at h
  · have hlen := congrArg List.length (segments_of_childPath hname h)
    rw [List.length_append, List.length_singleton] at hlen
    omega
  · next hne =>
      rw [not_or] at hne
      split at h
      · next hsep =>
          cases requested with
          | nil => cases hsep
          | cons c requested =>
              rcases decide_eq_true_iff.mp hsep with rfl | rfl
              · exact absurd List.mem_cons_self hslash
              · exact absurd List.mem_cons_self hback
      · have hsegs := segments_of_childPath hname h
        rw [segments_append, segments_trimEndWhile] at hsegs
        by_cases hdots : requested = ['.', '.']
        · have hup : (parts requested).foldl pushPart (segments dir) = (segments dir).dropLast := by
            rw [hdots]
            rfl
          rw [hup] at hsegs
          have hlen := congrArg List.length hsegs
          rw [List.length_append, List.length_singleton, List.length_dropLast] at hlen
          omega
        · have hplain : Plain requested := ⟨⟨hne.1, hslash⟩, hback, hne.2, hdots⟩
          rw [parts_plain hplain, foldl_pushPart (by simpa using hplain)] at hsegs
          exact List.singleton_inj.mp (List.append_cancel_left hsegs)

end segments

section keys

variable {path other dir name : Text} {init : List Text} {r : FileReplacementEntry}

def lowered (part : Text) : Text := part.map toAsciiLowercase

theorem isPart_lowered {part : Text} (h : IsPart part) : IsPart (lowered part) := by
  refine ⟨fun hnil => h.1 (List.map_eq_nil_iff.mp hnil), fun hslash => h.2 ?_⟩
  obtain ⟨c, hc, hlower⟩ := List.mem_map.mp hslash
  rw [toAsciiLowercase_eq_slash] at hlower
  exact hlower ▸ hc

theorem pathKey_eq (path : Text) : pathKey path = joined ((segments path).map lowered) :=
  joined_map toAsciiLowercase (toAsciiLowercase_eq_slash.mpr rfl) (segments path)

/-- Two paths have one key when their segments are the same without case. -/
theorem pathKey_eq_iff : pathKey path = pathKey other ↔ (segments path).map lowered = (segments other).map lowered := by
  have hparts : ∀ path, ∀ p ∈ (segments path).map lowered, IsPart p := by
    intro path p hp
    obtain ⟨q, hq, rfl⟩ := List.mem_map.mp hp
    exact isPart_lowered (plain_of_mem_segments hq).isPart
  rw [pathKey_eq, pathKey_eq, joined_inj (hparts path) (hparts other)]

theorem splitNormalizedPath_concat (h : segments path = init ++ [name]) : splitNormalizedPath path = (joined init, name) := by
  have hname : '/' ∉ name := by
    have hmem : name ∈ segments path := h ▸ List.mem_append_right _ (List.mem_singleton_self name)
    exact (plain_of_mem_segments hmem).isPart.2
  rw [splitNormalizedPath, normalizePathSegments_eq, h]
  cases init with
  | nil =>
      have hjoin : joined ([] ++ [name]) = [] ++ '/' :: name := by
        rw [List.nil_append, joined, List.intercalate_singleton, List.nil_append]
      rw [hjoin, rsplitOnce_append hname]
      rfl
  | cons p init =>
      have hjoin : joined (p :: init ++ [name]) = joined (p :: init) ++ '/' :: name := by
        rw [joined_eq_flatMap (by simp), joined_eq_flatMap (List.cons_ne_nil p init), List.flatMap_append,
          List.flatMap_singleton]
      rw [hjoin, rsplitOnce_append hname]
      rfl

theorem splitNormalizedPath_root (h : segments path = []) : splitNormalizedPath path = (['/'], []) := by
  rw [splitNormalizedPath, normalizePathSegments_eq, h]
  rfl

/-- A replacement is one for a name of a directory exactly when its path is that of the name. -/
theorem replaces_iff (h : Plain name) :
    r.parentKey = pathKey dir ∧ eqIgnoreAsciiCase name r.fileName = true ↔ r.key = pathKey (childPath dir name) := by
  have hkey : r.key = pathKey (childPath dir name) ↔
      (segments r.path).map lowered = (segments dir).map lowered ++ [lowered name] := by
    rw [FileReplacementEntry.key, pathKey_eq_iff, segments_childPath h, List.map_append, List.map_singleton]
  rw [hkey, FileReplacementEntry.parentKey, FileReplacementEntry.fileName, eqIgnoreAsciiCase, decide_eq_true_eq]
  rcases List.eq_nil_or_concat (segments r.path) with hnil | ⟨init, last, hconcat⟩
  · rw [splitNormalizedPath_root hnil, hnil]
    refine iff_of_false (fun hfile => h.isPart.1 (List.map_eq_nil_iff.mp hfile.2)) fun hlist => ?_
    exact List.append_ne_nil_of_right_ne_nil _ (List.cons_ne_nil _ _) hlist.symm
  · rw [List.concat_eq_append] at hconcat
    have hinit : ∀ p ∈ init, Plain p := by
      intro p hp
      exact plain_of_mem_segments (hconcat ▸ List.mem_append_left _ hp : p ∈ segments r.path)
    rw [splitNormalizedPath_concat hconcat, hconcat, pathKey_eq_iff, segments_joined hinit, List.map_append,
      List.map_singleton]
    constructor
    · rintro ⟨hparent, hname⟩
      rw [hparent]
      exact congrArg (fun t => _ ++ [t]) hname.symm
    · intro hlist
      obtain ⟨hparent, hlast⟩ := List.append_inj' hlist rfl
      exact ⟨hparent, (List.singleton_inj.mp hlast).symm⟩

end keys

end NextBoot.VirtualFs
