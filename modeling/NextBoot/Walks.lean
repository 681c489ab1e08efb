import Mathlib.Computability.StateTransition
import Mathlib.Data.Set.Card
import NextBoot.Faults

namespace NextBoot.Walks

open StateTransition Relation Faults

section Orbits

variable {σ : Type} {f : σ → Option σ} {a b : σ}

/-- Steps that lead from a state to one that they come back to. -/
def Circles (f : σ → Option σ) (a : σ) : Prop := ∃ b, Reaches f a b ∧ Reaches₁ f b b

theorem not_reaches₁_self (h : b ∈ eval f a) : ¬ Reaches₁ f a a := by
  refine evalInduction h fun x _ ih hloop => ?_
  obtain ⟨x', hstep, hback⟩ := TransGen.head'_iff.mp hloop
  exact ih x' hstep (TransGen.tail' hback hstep)

theorem not_circles (h : b ∈ eval f a) : ¬ Circles f a := by
  rintro ⟨c, hreach, hloop⟩
  rw [reaches_eval hreach] at h
  exact not_reaches₁_self h hloop

/-- Steps into finitely many states come to an end unless they circle. -/
theorem eval_dom_iff (hfinite : {b | ∃ a, f a = some b}.Finite) : (eval f a).Dom ↔ ¬ Circles f a := by
  constructor
  · exact fun h => not_circles (Part.get_mem h)
  · have hsub : ∀ a, {c | Reaches₁ f a c} ⊆ {b | ∃ a, f a = some b} := by
      intro a c hc
      obtain ⟨b, -, hstep⟩ := TransGen.tail'_iff.mp hc
      exact ⟨b, hstep⟩
    induction hn : {c | Reaches₁ f a c}.ncard using Nat.strong_induction_on generalizing a with
    | _ n ih =>
        intro hcircle
        cases hstep : f a with
        | none => exact Part.dom_iff_mem.mpr ⟨a, mem_eval.mpr ⟨ReflTransGen.refl, hstep⟩⟩
        | some a' =>
            have hnext : Reaches f a a' := ReflTransGen.single hstep
            rw [reaches_eval hnext]
            have hless : {c | Reaches₁ f a' c} ⊂ {c | Reaches₁ f a c} := by
              refine Set.ssubset_iff_subset_ne.mpr ⟨fun c hc => TransGen.head hstep hc, fun heq => ?_⟩
              have hself : a' ∈ {c | Reaches₁ f a' c} := by
                rw [heq]
                exact TransGen.single hstep
              exact hcircle ⟨a', hnext, hself⟩
            refine ih _ (hn ▸ Set.ncard_lt_ncard hless (hfinite.subset (hsub a))) rfl ?_
            rintro ⟨b, hreach, hloop⟩
            exact hcircle ⟨b, hnext.trans hreach, hloop⟩

end Orbits

section Rounds

variable {σ κ ε β : Type}

/-- The state that a round goes on with. -/
def following (round : σ → Outcome ε (List β × Option σ)) (s : σ) : Option σ :=
  match round s with
  | .value (_, next) => next
  | _ => none

/-- Rounds one after the other, each adding to what the walk has found; `none` when they have not come to an end within
the fuel. -/
def walk (round : σ → Outcome ε (List β × Option σ)) : Nat → σ → Option (Outcome ε (List β))
  | 0, _ => none
  | fuel + 1, s =>
      match round s with
      | .value (found, some next) => (walk round fuel next).map fun rest => (found ++ ·) <$> rest
      | .value (found, none) => some (.value found)
      | .error e => some (.error e)
      | .fault => some .fault

variable {round : σ → Outcome ε (List β × Option σ)} {fuel : Nat} {s : σ} {out : Outcome ε (List β)}

theorem walk_of_following {next : σ} (h : following round s = some next) : ∃ found,
    walk round (fuel + 1) s = (walk round fuel next).map fun rest => (found ++ ·) <$> rest := by
  rw [following] at h
  split at h
  · next found rest hround =>
      subst h
      exact ⟨found, by rw [walk, hround]⟩
  · cases h

theorem walk_isSome_of_following_none (h : following round s = none) : (walk round (fuel + 1) s).isSome := by
  rw [following] at h
  rw [walk]
  cases hround : round s with
  | error e => rfl
  | fault => rfl
  | value found =>
      rw [hround] at h
      obtain ⟨found, next⟩ := found
      cases h
      rfl

/-- A walk comes to an end when its states do. -/
theorem exists_walk_iff : (∃ fuel, (walk round fuel s).isSome) ↔ (eval (following round) s).Dom := by
  constructor
  · rintro ⟨fuel, h⟩
    induction fuel generalizing s with
    | zero => cases h
    | succ fuel ih =>
        cases hnext : following round s with
        | none => exact Part.dom_iff_mem.mpr ⟨s, mem_eval.mpr ⟨ReflTransGen.refl, hnext⟩⟩
        | some next =>
            obtain ⟨found, hwalk⟩ := @walk_of_following σ ε β round fuel s next hnext
            rw [hwalk, Option.isSome_map] at h
            rw [reaches_eval (ReflTransGen.single hnext : Reaches (following round) s next)]
            exact ih h
  · intro h
    obtain ⟨last, hlast⟩ := Part.dom_iff_mem.mp h
    refine evalInduction hlast fun x _ ih => ?_
    cases hnext : following round x with
    | none => exact ⟨1, walk_isSome_of_following_none hnext⟩
    | some next =>
        obtain ⟨fuel, hfuel⟩ := ih next hnext
        obtain ⟨found, hwalk⟩ := @walk_of_following σ ε β round fuel x next hnext
        refine ⟨fuel + 1, ?_⟩
        rw [hwalk, Option.isSome_map]
        exact hfuel

theorem walk_succ (h : walk round fuel s = some out) : walk round (fuel + 1) s = some out := by
  induction fuel generalizing s out with
  | zero => cases h
  | succ fuel ih =>
      rw [walk] at h ⊢
      cases hround : round s with
      | error e =>
          rw [hround] at h
          exact h
      | fault =>
          rw [hround] at h
          exact h
      | value found =>
          rw [hround] at h
          obtain ⟨found, next⟩ := found
          cases next with
          | none => exact h
          | some next =>
              obtain ⟨rest, hrest, rfl⟩ := Option.map_eq_some_iff.mp h
              exact Option.map_eq_some_iff.mpr ⟨rest, ih hrest, rfl⟩

theorem walk_mono {more : Nat} (h : walk round fuel s = some out) (hle : fuel ≤ more) : walk round more s = some out := by
  induction hle with
  | refl => exact h
  | step _ ih => exact walk_succ ih

theorem walk_noFault (hround : ∀ s, (round s).NoFault) (h : walk round fuel s = some out) : out.NoFault := by
  induction fuel generalizing s out with
  | zero => cases h
  | succ fuel ih =>
      have hround' := hround s
      rw [walk] at h
      cases hs : round s with
      | error e =>
          rw [hs] at h
          cases h
          trivial
      | fault =>
          rw [hs] at hround'
          exact hround'.elim
      | value found =>
          rw [hs] at h
          obtain ⟨found, next⟩ := found
          cases next with
          | none =>
              cases h
              trivial
          | some next =>
              obtain ⟨rest, hrest, rfl⟩ := Option.map_eq_some_iff.mp h
              have := ih hrest
              cases rest with
              | fault => exact this.elim
              | value _ => trivial
              | error _ => trivial

/-- States that are followed by way of their keys come to an end when the keys do. -/
theorem eval_dom_key {key : σ → κ} {step : κ → Option κ} (h : ∀ s, (following round s).map key = step (key s)) :
    (eval (following round) s).Dom ↔ (eval step (key s)).Dom := by
  have hrespects : Respects (following round) step fun s k => key s = k := by
    rintro s _ rfl
    cases hnext : following round s with
    | none =>
        show step (key s) = none
        rw [← h, hnext, Option.map_none]
    | some next =>
        refine ⟨key next, rfl, TransGen.single ?_⟩
        show step (key s) = some (key next)
        rw [← h, hnext, Option.map_some]
  exact (tr_eval_dom hrespects rfl).symm

end Rounds

section Runs

variable {ε α β : Type}

/-- A bounded run, and what goes on from its value. -/
def chain (x : Option (Outcome ε α)) (f : α → Option (Outcome ε β)) : Option (Outcome ε β) :=
  match x with
  | none => none
  | some (.value a) => f a
  | some (.error e) => some (.error e)
  | some .fault => some .fault

@[simp] theorem chain_value (a : α) (f : α → Option (Outcome ε β)) : chain (some (.value a)) f = f a := rfl

/-- A run that returns, with a value or an error, once its bound is large enough. -/
def Ends (run : Nat → Option (Outcome ε α)) : Prop := ∃ fuel out, run fuel = some out ∧ out.NoFault

/-- A run that keeps what it has come to when its bound grows. -/
def Grows (run : Nat → Option (Outcome ε α)) : Prop :=
  ∀ ⦃fuel more out⦄, run fuel = some out → fuel ≤ more → run more = some out

variable {run : Nat → Option (Outcome ε α)} {next : Nat → α → Option (Outcome ε β)} {out : Outcome ε α}

theorem grows_some : Grows fun _ => some out := fun _ _ _ h _ => h

theorem ends_some (h : out.NoFault) : Ends fun _ => some out := ⟨0, out, rfl, h⟩

theorem Grows.chain (hrun : Grows run) (hnext : ∀ a, Grows fun fuel => next fuel a) :
    Grows fun fuel => chain (run fuel) (next fuel) := by
  intro fuel more out h hle
  dsimp only at h ⊢
  cases hfuel : run fuel with
  | none =>
      rw [hfuel] at h
      cases h
  | some found =>
      rw [hrun hfuel hle]
      rw [hfuel] at h
      cases found with
      | value a => exact hnext a h hle
      | error e => exact h
      | fault => exact h

theorem Ends.chain (hrun : Ends run) (hgrows : Grows run) (hnext : ∀ a, Ends fun fuel => next fuel a)
    (hgrows' : ∀ a, Grows fun fuel => next fuel a) : Ends fun fuel => chain (run fuel) (next fuel) := by
  obtain ⟨fuel, found, hfuel, hfault⟩ := hrun
  cases found with
  | fault => exact hfault.elim
  | error e => exact ⟨fuel, .error e, by dsimp only; rw [hfuel]; rfl, trivial⟩
  | value a =>
      obtain ⟨more, out, hmore, hout⟩ := hnext a
      refine ⟨max fuel more, out, ?_, hout⟩
      dsimp only
      rw [hgrows hfuel (Nat.le_max_left fuel more)]
      exact hgrows' a hmore (Nat.le_max_right fuel more)

end Runs

end NextBoot.Walks
