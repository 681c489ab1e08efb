import NextBoot.Results

namespace NextBoot.Requests

open Results

variable {ρ ε α β : Type}

/-- A run that asks for one thing after the other, with a record of what it has asked for, oldest first. -/
abbrev Asking (ρ ε : Type) := ExceptT ε (StateM (List ρ))

/-- A request; its answer may depend on everything asked for before. -/
def ask (answer : List ρ → ρ → Except ε α) (r : ρ) : Asking ρ ε α := ExceptT.mk fun log => (answer log r, log ++ [r])

def outcome (x : Asking ρ ε α) (log : List ρ) : Except ε α × List ρ := x.run.run log

theorem outcome_lift (x : Except ε α) (log : List ρ) : outcome (liftM x : Asking ρ ε α) log = (x, log) := rfl

theorem outcome_bind (x : Asking ρ ε α) (f : α → Asking ρ ε β) (log : List ρ) :
    outcome (x >>= f) log =
      match outcome x log with
      | (.ok a, log') => outcome (f a) log'
      | (.error e, log') => (.error e, log') := by
  simp only [outcome, ExceptT.run_bind, StateT.run_bind]
  rcases StateT.run (ExceptT.run x) log with ⟨_ | _, _⟩ <;> rfl

/-- Whatever a run is answered, it asks for things with one property only, and comes to values with another. -/
def AsksOnly (P : ρ → Prop) (x : Asking ρ ε α) (Q : α → Prop) : Prop :=
  ∀ log, ∃ asked, (outcome x log).2 = log ++ asked ∧ (∀ r ∈ asked, P r) ∧ ∀ a, (outcome x log).1 = .ok a → Q a

variable {P : ρ → Prop} {Q : α → Prop} {R : β → Prop} {x y : Asking ρ ε α} {f : α → Asking ρ ε β}

theorem asksOnly_pure {a : α} (h : Q a) : AsksOnly P (pure a : Asking ρ ε α) Q := by
  intro log
  refine ⟨[], (List.append_nil log).symm, by simp, ?_⟩
  rintro b hb
  cases hb
  exact h

theorem asksOnly_lift {e : Except ε α} (h : ∀ a, e = .ok a → Q a) : AsksOnly P (liftM e : Asking ρ ε α) Q :=
  fun log => ⟨[], (List.append_nil log).symm, by simp, h⟩

theorem asksOnly_ask {answer : List ρ → ρ → Except ε α} {r : ρ} (h : P r) :
    AsksOnly P (ask answer r) fun _ => True :=
  fun _ => ⟨[r], rfl, by simpa using h, fun _ _ => trivial⟩

theorem AsksOnly.bind (h : AsksOnly P x Q) (hf : ∀ a, Q a → AsksOnly P (f a) R) : AsksOnly P (x >>= f) R := by
  intro log
  obtain ⟨asked, hlog, hasked, hvalue⟩ := h log
  rw [outcome_bind]
  cases hx : outcome x log with
  | mk result log' =>
      rw [hx] at hlog hvalue
      dsimp only at hlog hvalue
      subst hlog
      cases result with
      | error e => exact ⟨asked, rfl, hasked, fun _ h => nomatch h⟩
      | ok a =>
          obtain ⟨more, hlog, hmore, hvalue'⟩ := hf a (hvalue a rfl) (log ++ asked)
          refine ⟨asked ++ more, by rw [← List.append_assoc]; exact hlog, ?_, hvalue'⟩
          simp only [List.forall_mem_append]
          exact ⟨hasked, hmore⟩

theorem asksOnly_ite {p : Prop} [Decidable p] (h : p → AsksOnly P x Q) (h' : ¬ p → AsksOnly P y Q) :
    AsksOnly P (if p then x else y) Q := by
  split
  · next hp => exact h hp
  · next hp => exact h' hp

/-- The value of a run that is answered the same whatever it has asked for before. -/
def Gives (x : Asking ρ ε α) (e : Except ε α) : Prop := ∀ log, (outcome x log).1 = e

theorem gives_pure (a : α) : Gives (pure a : Asking ρ ε α) (pure a) := fun _ => rfl

theorem gives_lift (e : Except ε α) : Gives (liftM e : Asking ρ ε α) e := fun _ => rfl

theorem gives_ask {answer : ρ → Except ε α} (r : ρ) : Gives (ask (fun _ => answer) r) (answer r) := fun _ => rfl

theorem Gives.bind {e : Except ε α} {g : α → Except ε β} (h : Gives x e) (hf : ∀ a, Gives (f a) (g a)) :
    Gives (x >>= f) (e >>= g) := by
  intro log
  have hx := h log
  rw [outcome_bind]
  cases hout : outcome x log with
  | mk result log' =>
      rw [hout] at hx
      subst hx
      cases result with
      | error e => rfl
      | ok a => exact hf a log'

theorem gives_ite {p : Prop} [Decidable p] {e e' : Except ε α} (h : Gives x e) (h' : Gives y e') :
    Gives (if p then x else y) (if p then e else e') := by
  split
  · exact h
  · exact h'

end NextBoot.Requests
