import Mathlib.Data.List.Basic
import Mathlib.Logic.Relation

namespace NextBoot.LexicalPaths

open Relation

/-- The components of paths: those that stay where they are, those that go up, and all others, which are names. -/
structure Components (α : Type) where
  Stays : α → Prop
  Up : α → Prop
  apart : ∀ c, Stays c → ¬ Up c

variable {α : Type} (C : Components α) [DecidablePred C.Stays] [DecidablePred C.Up]

def Components.IsName (c : α) : Prop := ¬ C.Stays c ∧ ¬ C.Up c

instance : DecidablePred C.IsName := fun _ => inferInstanceAs (Decidable (_ ∧ _))

/-- A component that stays is left out, and a name goes together with the way up behind it. -/
inductive Components.Reduces : List α → List α → Prop
  | stays (front back : List α) {c : α} (hc : C.Stays c) : Components.Reduces (front ++ c :: back) (front ++ back)
  | cancel (front back : List α) {c u : α} (hc : C.IsName c) (hu : C.Up u) :
      Components.Reduces (front ++ c :: u :: back) (front ++ back)

/-- The names that nothing of a path can be left out of any more. -/
def Components.Resolves (cs names : List α) : Prop := ReflTransGen C.Reduces cs names ∧ ∀ c ∈ names, C.IsName c

/-- From a directory of some depth the path goes up more often than down. -/
def Components.Climbs (depth : Nat) (cs : List α) : Prop :=
  ∃ front, front <+: cs ∧ depth + front.countP (fun c => decide (C.IsName c)) < front.countP (fun c => decide (C.Up c))

/-- The components one by one, with the names so far. -/
def Components.walk : List α → List α → Option (List α)
  | names, [] => some names
  | names, c :: cs =>
      if C.Stays c then walk names cs
      else if C.Up c then (if names = [] then none else walk names.dropLast cs)
      else walk (names ++ [c]) cs

variable {C} {c u : α} {cs ds names out : List α}

theorem walk_append : C.walk names (cs ++ ds) = (C.walk names cs).bind fun names => C.walk names ds := by
  induction cs generalizing names with
  | nil => rfl
  | cons c cs ih =>
      simp only [List.cons_append, Components.walk, ih]
      split
      · rfl
      · split
        · split <;> rfl
        · rfl

theorem walk_names (h : ∀ c ∈ cs, C.IsName c) : C.walk names cs = some (names ++ cs) := by
  induction cs generalizing names with
  | nil => rw [Components.walk, List.append_nil]
  | cons c cs ih =>
      rw [List.forall_mem_cons] at h
      rw [Components.walk, if_neg h.1.1, if_neg h.1.2, ih h.2, List.append_assoc, List.singleton_append]

theorem walk_reduces (h : C.Reduces cs ds) : C.walk names cs = C.walk names ds := by
  cases h with
  | stays front back hc =>
      rw [walk_append, walk_append]
      congr 1
      funext names
      rw [Components.walk, if_pos hc]
  | cancel front back hc hu =>
      rw [walk_append, walk_append]
      congr 1
      funext names
      rw [Components.walk, if_neg hc.1, if_neg hc.2, Components.walk, if_neg fun hs => C.apart _ hs hu, if_pos hu,
        if_neg (by simp), List.dropLast_concat]

theorem reduces_of_walk (hnames : ∀ c ∈ names, C.IsName c) (h : C.walk names cs = some out) :
    C.Resolves (names ++ cs) out := by
  induction cs generalizing names with
  | nil =>
      obtain rfl := Option.some.inj h
      rw [List.append_nil]
      exact ⟨ReflTransGen.refl, hnames⟩
  | cons c cs ih =>
      rw [Components.walk] at h
      split at h
      · next hc =>
          obtain ⟨hreduces, hout⟩ := ih hnames h
          exact ⟨ReflTransGen.head (.stays names cs hc) hreduces, hout⟩
      · next hstays =>
          split at h
          · next hup =>
              split at h
              · cases h
              · next hne =>
                  have hsub : ∀ c ∈ names.dropLast, C.IsName c :=
                    fun c hc => hnames c ((List.dropLast_sublist _).subset hc)
                  obtain ⟨hreduces, hout⟩ := ih hsub h
                  refine ⟨ReflTransGen.head ?_ hreduces, hout⟩
                  have hcancel := Components.Reduces.cancel names.dropLast cs (hnames _ (List.getLast_mem hne)) hup
                  rwa [List.append_cons, List.dropLast_append_getLast] at hcancel
          · next hup =>
              rw [List.append_cons]
              refine ih ?_ h
              intro d hd
              rcases List.mem_append.mp hd with hd | hd
              · exact hnames d hd
              · rw [List.mem_singleton.mp hd]
                exact ⟨hstays, hup⟩

omit [DecidablePred C.Stays] [DecidablePred C.Up] in
theorem Components.Resolves.subset (h : C.Resolves cs out) : out ⊆ cs := by
  obtain ⟨hreduces, -⟩ := h
  induction hreduces using ReflTransGen.head_induction_on with
  | refl => exact List.Subset.refl _
  | head hstep _ ih =>
      refine List.Subset.trans ih ?_
      cases hstep with
      | stays front back hc => exact ((List.sublist_cons_self _ _).append_left front).subset
      | cancel front back hc hu =>
          exact (((List.sublist_cons_self _ _).trans (List.sublist_cons_self _ _)).append_left front).subset

/-- The walk finds the names that a path resolves to. -/
theorem walk_eq_some : C.walk [] cs = some out ↔ C.Resolves cs out := by
  constructor
  · exact reduces_of_walk fun _ h => nomatch h
  · rintro ⟨hreduces, hout⟩
    induction hreduces using ReflTransGen.head_induction_on with
    | refl => rw [walk_names hout, List.nil_append]
    | head hstep _ ih => rw [walk_reduces hstep, ih]

theorem climbs_cons {depth : Nat} : C.Climbs depth (c :: cs) ↔
    ∃ front, front <+: cs ∧ depth + (c :: front).countP (fun c => decide (C.IsName c)) <
      (c :: front).countP (fun c => decide (C.Up c)) := by
  constructor
  · rintro ⟨front, hfront, hlt⟩
    rcases List.prefix_cons_iff.mp hfront with rfl | ⟨front, rfl, hrest⟩
    · exact absurd hlt (Nat.not_lt_zero _)
    · exact ⟨front, hrest, hlt⟩
  · rintro ⟨front, hfront, hlt⟩
    exact ⟨c :: front, List.prefix_cons_iff.mpr (.inr ⟨front, rfl, hfront⟩), hlt⟩

/-- The walk finds none where the path climbs above its root. -/
theorem walk_eq_none : C.walk names cs = none ↔ C.Climbs names.length cs := by
  induction cs generalizing names with
  | nil =>
      refine iff_of_false nofun ?_
      rintro ⟨front, hfront, hlt⟩
      rw [List.prefix_nil.mp hfront] at hlt
      exact absurd hlt (Nat.not_lt_zero _)
  | cons c cs ih =>
      rw [Components.walk, climbs_cons]
      split
      · next hc =>
          rw [ih, Components.Climbs]
          have hname : ¬ C.IsName c := fun h => h.1 hc
          simp only [List.countP_cons, hname, C.apart c hc, decide_false, if_false, Bool.false_eq_true, Nat.add_zero]
      · next hstays =>
          split
          · next hup =>
              have hname : ¬ C.IsName c := fun h => h.2 hup
              simp only [List.countP_cons, hname, hup, decide_false, decide_true, if_true, if_false, Bool.false_eq_true,
                Nat.add_zero]
              split
              · next hnil => exact iff_of_true rfl ⟨[], List.nil_prefix, by simp [hnil]⟩
              · next hne =>
                  have hpos := List.length_pos_of_ne_nil hne
                  rw [ih, Components.Climbs, List.length_dropLast]
                  refine exists_congr fun front => and_congr_right fun _ => ?_
                  omega
          · next hup =>
              have hname : C.IsName c := ⟨hstays, hup⟩
              simp only [List.countP_cons, hname, hup, decide_false, decide_true, if_true, if_false, Bool.false_eq_true,
                Nat.add_zero]
              rw [ih, Components.Climbs, List.length_append, List.length_singleton]
              refine exists_congr fun front => and_congr_right fun _ => ?_
              omega

end NextBoot.LexicalPaths
