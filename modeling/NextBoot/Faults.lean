import Mathlib.Data.List.Basic

namespace NextBoot.Faults

/-- What a run of code comes to that can fail and can fault: a panic, an overflow, an index out of range. -/
inductive Outcome (ε α : Type) where
  | value (a : α)
  | error (e : ε)
  | fault
deriving DecidableEq, Repr

namespace Outcome

variable {ε α β : Type}

def bind (x : Outcome ε α) (f : α → Outcome ε β) : Outcome ε β :=
  match x with
  | value a => f a
  | error e => error e
  | fault => fault

instance : Monad (Outcome ε) where
  pure := value
  bind := bind

instance : LawfulMonad (Outcome ε) := LawfulMonad.mk' (Outcome ε)
  (fun x => by cases x <;> rfl) (fun _ _ => rfl) (fun x _ _ => by cases x <;> rfl)

/-- An operation that faults where it has no result. -/
def ofOption : Option α → Outcome ε α
  | some a => value a
  | none => fault

def ofExcept : Except ε α → Outcome ε α
  | .ok a => value a
  | .error e => error e

def NoFault : Outcome ε α → Prop
  | fault => False
  | _ => True

instance : (x : Outcome ε α) → Decidable x.NoFault
  | fault => isFalse id
  | value _ => isTrue trivial
  | error _ => isTrue trivial

variable {x : Outcome ε α} {f : α → Outcome ε β} {a : α} {b : β}

@[simp] theorem noFault_value : (value a : Outcome ε α).NoFault := trivial

@[simp] theorem noFault_pure : (pure a : Outcome ε α).NoFault := trivial

@[simp] theorem noFault_error (e : ε) : (error e : Outcome ε α).NoFault := trivial

@[simp] theorem not_noFault_fault : ¬ (fault : Outcome ε α).NoFault := id

@[simp] theorem noFault_ofExcept (x : Except ε α) : (ofExcept x).NoFault := by
  cases x <;> trivial

@[simp] theorem noFault_ofOption {o : Option α} : (ofOption o : Outcome ε α).NoFault ↔ o.isSome := by
  cases o <;> simp [ofOption]

@[simp] theorem ofOption_some : (ofOption (some a) : Outcome ε α) = value a := rfl

@[simp] theorem ofExcept_ok : ofExcept (.ok a : Except ε α) = value a := rfl

@[simp] theorem value_bind : (value a : Outcome ε α) >>= f = f a := rfl

@[simp] theorem pure_bind' : (pure a : Outcome ε α) >>= f = f a := rfl

@[simp] theorem error_bind (e : ε) : (error e : Outcome ε α) >>= f = error e := rfl

theorem pure_eq : (pure a : Outcome ε α) = value a := rfl

theorem bind_eq_value : (x >>= f) = value b ↔ ∃ a, x = value a ∧ f a = value b := by
  constructor
  · intro h
    cases x with
    | value a => exact ⟨a, rfl, h⟩
    | error e => cases h
    | fault => cases h
  · rintro ⟨a, rfl, h⟩
    exact h

theorem ofOption_eq_value {o : Option α} : (ofOption o : Outcome ε α) = value a ↔ o = some a := by
  cases o <;> simp [ofOption]

theorem ofExcept_eq_value {y : Except ε α} : ofExcept y = value a ↔ y = .ok a := by
  cases y <;> simp [ofExcept]

/-- A sequence is free of faults when its first part is, and so is what follows on each of its values. -/
theorem noFault_bind : (x >>= f).NoFault ↔ x.NoFault ∧ ∀ a, x = value a → (f a).NoFault := by
  cases x with
  | value a =>
      refine ⟨fun h => ⟨trivial, ?_⟩, fun h => h.2 a rfl⟩
      intro b hb
      cases hb
      exact h
  | error e => exact ⟨fun _ => ⟨trivial, fun _ h => nomatch h⟩, fun _ => trivial⟩
  | fault => exact ⟨fun h => h.elim, fun h => h.1⟩

theorem noFault_ite {p : Prop} [Decidable p] {y : Outcome ε α} :
    (if p then x else y).NoFault ↔ (p → x.NoFault) ∧ (¬ p → y.NoFault) := by
  split <;> simp [*]

theorem noFault_ofOption_bind {o : Option α} :
    (ofOption o >>= f).NoFault ↔ ∃ a, o = some a ∧ (f a).NoFault := by
  constructor
  · intro h
    cases o with
    | none => exact h.elim
    | some a => exact ⟨a, rfl, h⟩
  · rintro ⟨a, rfl, h⟩
    exact h

theorem noFault_ofExcept_bind {y : Except ε α} :
    (ofExcept y >>= f).NoFault ↔ ∀ a, y = .ok a → (f a).NoFault := by
  rw [noFault_bind]
  simp only [noFault_ofExcept, true_and, ofExcept_eq_value]

/-- A run that neither fails nor faults. -/
def Returns (x : Outcome ε α) : Prop := ∃ a, x = value a

theorem Returns.noFault (h : x.Returns) : x.NoFault := by
  obtain ⟨a, rfl⟩ := h
  trivial

theorem returns_pure : (pure a : Outcome ε α).Returns := ⟨a, rfl⟩

theorem Returns.bind (h : x.Returns) (hf : ∀ a, x = value a → (f a).Returns) : (x >>= f).Returns := by
  obtain ⟨a, rfl⟩ := h
  exact hf a rfl

theorem returns_ofOption_bind {o : Option α} (h : o = some a) (hf : (f a).Returns) : (ofOption o >>= f).Returns := by
  rwa [h]

theorem returns_ite {p : Prop} [Decidable p] {y : Outcome ε α} (h : p → x.Returns) (h' : ¬ p → y.Returns) :
    (if p then x else y).Returns := by
  split
  · next hp => exact h hp
  · next hp => exact h' hp

theorem returns_mapM {γ : Type} {g : γ → Outcome ε β} {cs : List γ} (h : ∀ c ∈ cs, (g c).Returns) : (cs.mapM g).Returns := by
  induction cs with
  | nil => exact returns_pure
  | cons c cs ih =>
      rw [List.forall_mem_cons] at h
      rw [List.mapM_cons]
      exact h.1.bind fun b _ => (ih h.2).bind fun bs _ => returns_pure

/-- A run that does not fault, and comes to values with a property only. -/
def Ensures (x : Outcome ε α) (P : α → Prop) : Prop :=
  match x with
  | value a => P a
  | error _ => True
  | fault => False

theorem ensures_iff {P : α → Prop} : x.Ensures P ↔ x.NoFault ∧ ∀ a, x = value a → P a := by
  cases x with
  | value a =>
      refine ⟨fun h => ⟨trivial, ?_⟩, fun h => h.2 a rfl⟩
      rintro b hb
      cases hb
      exact h
  | error e => exact ⟨fun _ => ⟨trivial, fun _ h => nomatch h⟩, fun _ => trivial⟩
  | fault => exact ⟨fun h => h.elim, fun h => h.1⟩

theorem ensures_pure {P : α → Prop} (h : P a) : (pure a : Outcome ε α).Ensures P := h

theorem ensures_error {P : α → Prop} (e : ε) : (error e : Outcome ε α).Ensures P := trivial

theorem Ensures.mono {P Q : α → Prop} (h : x.Ensures P) (hPQ : ∀ a, P a → Q a) : x.Ensures Q := by
  cases x with
  | value a => exact hPQ a h
  | error e => exact trivial
  | fault => exact h

theorem Ensures.bind {P : α → Prop} {Q : β → Prop} (h : x.Ensures P) (hf : ∀ a, P a → (f a).Ensures Q) :
    (x >>= f).Ensures Q := by
  cases x with
  | value a => exact hf a h
  | error e => exact trivial
  | fault => exact h

theorem ensures_ite {p : Prop} [Decidable p] {y : Outcome ε α} {P : α → Prop} (h : p → x.Ensures P)
    (h' : ¬ p → y.Ensures P) : (if p then x else y).Ensures P := by
  split
  · next hp => exact h hp
  · next hp => exact h' hp

theorem ensures_ofOption_bind {o : Option α} {Q : β → Prop} (h : o = some a) (hf : (f a).Ensures Q) :
    (ofOption o >>= f).Ensures Q := by
  rwa [h]

theorem ensures_ofExcept_bind {y : Except ε α} {Q : β → Prop} (h : ∀ a, y = .ok a → (f a).Ensures Q) :
    (ofExcept y >>= f).Ensures Q := by
  cases y with
  | ok a => exact h a rfl
  | error e => exact trivial

end Outcome

end NextBoot.Faults
