import NextBoot.Results

namespace NextBoot.Loops

open Results

variable {ε α β σ : Type}

/-- A run with a bound on its rounds; `none` is a run that has not come to an end within it. -/
abbrev Bounded (ε : Type) := ExceptT ε Option

def ofExcept (x : Except ε α) : Bounded ε α := ExceptT.mk (some x)

/-- Rounds of a loop, each of which fails, leaves the loop with a value or goes on from another state. -/
def loop (round : σ → Bounded ε (α ⊕ σ)) : Nat → σ → Bounded ε α
  | 0, _ => ExceptT.mk none
  | fuel + 1, s => do
      match ← round s with
      | .inl a => return a
      | .inr s => loop round fuel s

theorem ofExcept_bind (x : Except ε α) (f : α → Bounded ε β) :
    ofExcept x >>= f = match x with
      | .ok a => f a
      | .error e => ofExcept (.error e) := by
  cases x <;> rfl

theorem ofExcept_bind_congr {x : Except ε α} {f : α → Bounded ε β} {g : α → Except ε β}
    (h : ∀ a, x = .ok a → f a = ofExcept (g a)) : ofExcept x >>= f = ofExcept (x >>= g) := by
  cases x with
  | error e => rfl
  | ok a => exact h a rfl

/-- What the rest of a loop comes to after one of its rounds. -/
def after (f : σ → Except ε α) : α ⊕ σ → Except ε α
  | .inl a => .ok a
  | .inr s => f s

/-- A loop whose rounds unfold a function and lower a measure comes to an end with that function's value. -/
theorem loop_eq {round : σ → Bounded ε (α ⊕ σ)} (f : σ → Except ε α) (P : σ → Prop) (measure : σ → Nat)
    (hround : ∀ s, P s → ∃ out, round s = ofExcept out ∧ f s = out >>= after f ∧
      ∀ s', out = .ok (.inr s') → P s' ∧ measure s' < measure s)
    {fuel : Nat} {s : σ} (hs : P s) (hfuel : measure s < fuel) : loop round fuel s = ofExcept (f s) := by
  induction fuel generalizing s with
  | zero => omega
  | succ fuel ih =>
      obtain ⟨out, hout, hf, hnext⟩ := hround s hs
      rw [loop, hout, hf]
      apply ofExcept_bind_congr
      intro next hok
      cases next with
      | inl a => rfl
      | inr s' =>
          obtain ⟨hs', hless⟩ := hnext s' hok
          exact ih hs' (by omega)

end NextBoot.Loops
