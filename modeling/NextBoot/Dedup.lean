import Mathlib.Data.List.Destutter
import Mathlib.Order.Basic
import Mathlib.Order.Defs.LinearOrder
import Mathlib.Order.Lattice

namespace NextBoot.Dedup

variable {α β : Type} [LinearOrder β] {key : α → β} {same : α → α → Prop} [DecidableRel same]

/-- What one pass over neighbours leaves of a list, the first of each run of equal ones. -/
def dedup (same : α → α → Prop) [DecidableRel same] (l : List α) : List α :=
  l.destutter fun kept next => ¬ same next kept

omit [DecidableRel same] in
/-- In a sorted list whose neighbours differ, any two elements differ when equal ones have only equal ones between them. -/
theorem pairwise_of_isChain {l : List α} (hchain : l.IsChain fun kept next => ¬ same next kept)
    (hsorted : l.Pairwise fun x y => key x ≤ key y)
    (hconvex : ∀ a ∈ l, ∀ b ∈ l, ∀ c ∈ l, same a b → key a ≤ key c → key c ≤ key b → same c a) :
    l.Pairwise fun a b => ¬ same a b := by
  induction l with
  | nil => exact List.Pairwise.nil
  | cons a l ih =>
      obtain ⟨hfirst, hrest⟩ := List.pairwise_cons.1 hsorted
      refine List.pairwise_cons.2 ⟨fun b hb hab => ?_, ih hchain.tail hrest fun x hx y hy z hz =>
        hconvex x (List.mem_cons_of_mem _ hx) y (List.mem_cons_of_mem _ hy) z (List.mem_cons_of_mem _ hz)⟩
      cases l with
      | nil => cases hb
      | cons c l =>
          have hca : ¬ same c a := (List.isChain_cons_cons.1 hchain).1
          have hcb : key c ≤ key b := by
            rcases List.mem_cons.1 hb with rfl | hb
            · exact le_refl _
            · exact (List.pairwise_cons.1 hrest).1 b hb
          exact hca (hconvex a List.mem_cons_self b (List.mem_cons_of_mem _ hb) c (by simp) hab
            (hfirst c List.mem_cons_self) hcb)

/-- Of elements that all differ, one that equals a given one is the only one that does. -/
theorem countP_eq_one (hequiv : Equivalence same) {l : List α} (hpair : l.Pairwise fun a b => ¬ same a b) {e : α}
    (h : ∃ r ∈ l, same r e) : l.countP (fun a => same a e) = 1 := by
  obtain ⟨r, hr, hre⟩ := h
  induction l with
  | nil => cases hr
  | cons a l ih =>
      obtain ⟨hfirst, hrest⟩ := List.pairwise_cons.1 hpair
      rcases List.mem_cons.1 hr with rfl | hmem
      · have hzero : l.countP (fun a => same a e) = 0 := by
          apply List.countP_eq_zero.2
          intro b hb hbe
          exact hfirst b hb (hequiv.trans hre (hequiv.symm (of_decide_eq_true hbe)))
        rw [List.countP_cons, hzero, if_pos (decide_eq_true hre)]
      · have hne : ¬ same a e := fun hae => hfirst r hmem (hequiv.trans hae (hequiv.symm hre))
        rw [List.countP_cons, if_neg (by simpa using hne)]
        exact ih hrest hmem

variable (hequiv : Equivalence same) (hkey : ∀ a b, key a = key b → same a b)
include hequiv hkey

/-- Every element has one before it in the pass's result, with only equal ones between the two. -/
theorem represented {a : α} {l : List α} (hsorted : (a :: l).Pairwise fun x y => key x ≤ key y) :
    ∀ e ∈ a :: l, ∃ r ∈ l.destutter' (fun kept next => ¬ same next kept) a, same r e ∧ key r ≤ key e ∧
      ∀ x ∈ a :: l, key r ≤ key x → key x ≤ key e → same x e := by
  induction l generalizing a with
  | nil =>
      intro e he
      rw [List.mem_singleton] at he
      subst he
      refine ⟨e, by simp, hequiv.refl e, le_refl _, fun x hx _ _ => ?_⟩
      rw [List.mem_singleton.1 hx]
      exact hequiv.refl e
  | cons h l ih =>
      obtain ⟨hfirst, hrest⟩ := List.pairwise_cons.1 hsorted
      obtain ⟨hsecond, hlast⟩ := List.pairwise_cons.1 hrest
      by_cases hsame : same h a
      · have hskip : (a :: l).Pairwise fun x y => key x ≤ key y :=
          List.pairwise_cons.2 ⟨fun x hx => hfirst x (List.mem_cons_of_mem _ hx), hlast⟩
        rw [List.destutter'_cons_neg _ (not_not.2 hsame)]
        -- the skipped element is between a representative and an element only if it equals that element
        have hbetween : ∀ e ∈ a :: l, ∃ r ∈ l.destutter' (fun kept next => ¬ same next kept) a, same r e ∧
            key r ≤ key e ∧ ∀ x ∈ a :: h :: l, key r ≤ key x → key x ≤ key e → same x e := by
          intro e he
          obtain ⟨r, hr, hre, hle, hrun⟩ := ih hskip e he
          refine ⟨r, hr, hre, hle, fun x hx hlo hhi => ?_⟩
          rcases List.mem_cons.1 hx with rfl | hx
          · exact hrun x List.mem_cons_self hlo hhi
          · rcases List.mem_cons.1 hx with rfl | hx
            · rcases List.mem_cons.1 ((List.destutter'_sublist _ _ _).subset hr) with rfl | hmem
              · exact hequiv.trans hsame hre
              · exact hequiv.trans (hkey x r (le_antisymm (hsecond r hmem) hlo)) hre
            · exact hrun x (List.mem_cons_of_mem _ hx) hlo hhi
        intro e he
        rcases List.mem_cons.1 he with rfl | he
        · exact hbetween e List.mem_cons_self
        · rcases List.mem_cons.1 he with rfl | he
          · obtain ⟨r, hr, hre, hle, hrun⟩ := hbetween a List.mem_cons_self
            refine ⟨r, hr, hequiv.trans hre (hequiv.symm hsame), le_trans hle (hfirst e List.mem_cons_self),
              fun x hx hlo hhi => ?_⟩
            rcases List.mem_cons.1 hx with rfl | hx
            · exact hequiv.symm hsame
            · rcases List.mem_cons.1 hx with rfl | hx
              · exact hequiv.refl x
              · exact hkey x e (le_antisymm hhi (hsecond x hx))
          · exact hbetween e (List.mem_cons_of_mem _ he)
      · rw [List.destutter'_cons_pos _ hsame]
        intro e he
        rcases List.mem_cons.1 he with rfl | he
        · refine ⟨e, List.mem_cons_self, hequiv.refl e, le_refl _, fun x hx hlo hhi => ?_⟩
          exact hkey x e (le_antisymm hhi hlo)
        · obtain ⟨r, hr, hre, hle, hrun⟩ := ih hrest e he
          refine ⟨r, List.mem_cons_of_mem _ hr, hre, hle, fun x hx hlo hhi => ?_⟩
          rcases List.mem_cons.1 hx with rfl | hx
          · have har := hfirst r ((List.destutter'_sublist _ _ _).subset hr)
            exact hequiv.trans (hkey x r (le_antisymm har hlo)) hre
          · exact hrun x hx hlo hhi

theorem represents {l : List α} (hsorted : l.Pairwise fun x y => key x ≤ key y) :
    ∀ e ∈ l, ∃ r ∈ dedup same l, same r e := by
  cases l with
  | nil => exact nofun
  | cons a l =>
      intro e he
      obtain ⟨r, hr, hre, -⟩ := represented hequiv hkey hsorted e he
      exact ⟨r, hr, hre⟩

/-- One pass over a sorted list leaves something of every class, and one element only exactly when the order keeps
every class together. -/
theorem pairwise_dedup_iff {l : List α} (hsorted : l.Pairwise fun x y => key x ≤ key y) :
    ((dedup same l).Pairwise (fun a b => ¬ same a b) ∧ ∀ e ∈ l, ∃ r ∈ dedup same l, same r e) ↔
      ∀ a ∈ l, ∀ b ∈ l, ∀ c ∈ l, same a b → key a ≤ key c → key c ≤ key b → same c a := by
  have hrep : ∀ e ∈ l, ∃ r ∈ dedup same l, same r e ∧ key r ≤ key e ∧
      ∀ x ∈ l, key r ≤ key x → key x ≤ key e → same x e := by
    cases l with
    | nil => exact nofun
    | cons a l => exact represented hequiv hkey hsorted
  constructor
  · rintro ⟨hpair, -⟩ a ha b hb c hc hab hac hcb
    by_contra hca
    obtain ⟨r, hr, hra, hrle, -⟩ := hrep a ha
    obtain ⟨s, hs, hsb, -, hrun⟩ := hrep b hb
    have hcs : key c < key s := by
      by_contra hle
      exact hca (hequiv.trans (hrun c hc (not_lt.1 hle) hcb) (hequiv.symm hab))
    have hne : r ≠ s := by
      rintro rfl
      exact absurd (le_trans hrle hac) (not_le.2 hcs)
    have hsymm : Std.Symm fun x y => ¬ same x y := ⟨fun x y hxy hyx => hxy (hequiv.symm hyx)⟩
    exact hpair.forall hr hs hne (hequiv.trans hra (hequiv.trans hab (hequiv.symm hsb)))
  · intro hconvex
    have hsub := List.destutter_sublist (fun kept next => ¬ same next kept) l
    refine ⟨pairwise_of_isChain (List.isChain_destutter _ l) (hsorted.sublist hsub) ?_,
      represents hequiv hkey hsorted⟩
    exact fun a ha b hb c hc => hconvex a (hsub.subset ha) b (hsub.subset hb) c (hsub.subset hc)

end NextBoot.Dedup
