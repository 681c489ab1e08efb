import Mathlib.Data.List.Basic

namespace NextBoot.Results

variable {ε α β : Type}

def refuseIf (bad : Prop) [Decidable bad] (error : ε) : Except ε Unit := if bad then .error error else .ok ()

def someOr (o : Option α) (error : ε) : Except ε α :=
  match o with
  | some a => .ok a
  | none => .error error

theorem bind_eq_ok {x : Except ε α} {f : α → Except ε β} {b : β} :
    (x >>= f) = .ok b ↔ ∃ a, x = .ok a ∧ f a = .ok b := by
  cases x with
  | error e => simp [bind, Except.bind]
  | ok a => simp [bind, Except.bind]

@[simp] theorem ok_bind {a : α} {f : α → Except ε β} : ((.ok a : Except ε α) >>= f) = f a := rfl

@[simp] theorem someOr_some {a : α} {error : ε} : someOr (some a) error = .ok a := rfl

theorem bind_congr_ok {x : Except ε α} {f g : α → Except ε β}
    (h : ∀ a, x = .ok a → f a = g a) : (x >>= f) = (x >>= g) := by
  cases x with
  | error e => rfl
  | ok a => exact h a rfl

theorem map_bind {γ : Type} (x : Except ε α) (f : α → Except ε β) (g : β → γ) :
    (x >>= f).map g = x >>= fun a => (f a).map g := by
  cases x <;> rfl

theorem bind_map {γ : Type} (x : Except ε α) (g : α → β) (f : β → Except ε γ) :
    x.map g >>= f = x >>= fun a => f (g a) := by
  cases x <;> rfl

theorem map_eq_ok {x : Except ε α} {f : α → β} {b : β} : x.map f = .ok b ↔ ∃ a, x = .ok a ∧ f a = b := by
  cases x <;> simp [Except.map]

theorem isOk_map {x : Except ε α} {f : α → β} : (∃ b, x.map f = .ok b) ↔ ∃ a, x = .ok a := by
  cases x with
  | error e => exact iff_of_false nofun nofun
  | ok a => exact iff_of_true ⟨f a, rfl⟩ ⟨a, rfl⟩

theorem pure_eq_ok {a b : α} : (pure a : Except ε α) = .ok b ↔ a = b := by
  simp [pure, Except.pure]

theorem someOr_eq_ok {o : Option α} {error : ε} {a : α} : someOr o error = .ok a ↔ o = some a := by
  cases o <;> simp [someOr]

theorem refuseIf_eq_ok {bad : Prop} [Decidable bad] {error : ε} {u : Unit} : refuseIf bad error = .ok u ↔ ¬ bad := by
  unfold refuseIf
  split <;> simp_all

theorem mapError_eq_ok {ε' : Type} {x : Except ε α} {f : ε → ε'} {a : α} : x.mapError f = .ok a ↔ x = .ok a := by
  cases x <;> simp [Except.mapError]

theorem foldlM_ok_invariant {f : β → α → Except ε β} {P : β → Prop} {as : List α} {b c : β}
    (hstep : ∀ b a c, a ∈ as → f b a = .ok c → P b → P c) (h : as.foldlM f b = .ok c) (hb : P b) : P c := by
  induction as generalizing b with
  | nil =>
      rw [List.foldlM_nil, pure_eq_ok] at h
      rwa [← h]
  | cons a as ih =>
      rw [List.foldlM_cons, bind_eq_ok] at h
      obtain ⟨b', hab, h⟩ := h
      exact ih (fun b a c ha => hstep b a c (by simp [ha])) h (hstep b a b' (by simp) hab hb)

/-- The rule of a loop for what holds of the items that it is done with. -/
theorem foldlM_ok_done {f : β → α → Except ε β} {P : List α → β → Prop} {as : List α} {b c : β}
    (hstep : ∀ done b a c, f b a = .ok c → P done b → P (done ++ [a]) c) (h : as.foldlM f b = .ok c) (hb : P [] b) :
    P as c := by
  have hrun : ∀ done, P done b → P (done ++ as) c := by
    clear hb
    induction as generalizing b with
    | nil =>
        intro done hdone
        rw [List.foldlM_nil, pure_eq_ok] at h
        rwa [← h, List.append_nil]
    | cons a as ih =>
        intro done hdone
        rw [List.foldlM_cons, bind_eq_ok] at h
        obtain ⟨b', hab, h⟩ := h
        rw [List.append_cons]
        exact ih h (done ++ [a]) (hstep done b a b' hab hdone)
  exact hrun [] hb

/-- A loop that adds something of each item to a list. -/
theorem foldlM_append_ok {f : List β → α → Except ε (List β)} {g : α → List β} {as : List α} {out : List β}
    (hstep : ∀ out, ∀ a ∈ as, f out a = .ok (out ++ g a)) : as.foldlM f out = .ok (out ++ as.flatMap g) := by
  induction as generalizing out with
  | nil => rw [List.foldlM_nil, List.flatMap_nil, List.append_nil, pure_eq_ok]
  | cons a as ih =>
      rw [List.foldlM_cons, hstep out a List.mem_cons_self, ok_bind, ih fun out b hb => hstep out b (List.mem_cons_of_mem a hb),
        List.flatMap_cons, List.append_assoc]

theorem foldlM_range_ok {f : β → Nat → Except ε β} {P : Nat → β → Prop} {n : Nat} {b c : β}
    (hstep : ∀ k b c, k < n → f b k = .ok c → P k b → P (k + 1) c) (h : (List.range n).foldlM f b = .ok c)
    (hb : P 0 b) : P n c := by
  induction n generalizing c with
  | zero =>
      rw [List.range_zero, List.foldlM_nil, pure_eq_ok] at h
      rwa [← h]
  | succ n ih =>
      rw [List.range_succ, List.foldlM_append, bind_eq_ok] at h
      obtain ⟨d, hd, h⟩ := h
      rw [List.foldlM_cons, bind_eq_ok] at h
      obtain ⟨e, he, h⟩ := h
      rw [List.foldlM_nil, pure_eq_ok] at h
      rw [← h]
      exact hstep n d e (by omega) he (ih (fun k b c hk => hstep k b c (by omega)) hd)

/-- Two folds whose steps agree up to a renaming of the state end in renamed states. -/
theorem foldlM_ok_rename {f g : β → α → Except ε β} {r : β → β} {as : List α} {b c : β}
    (hstep : ∀ b a c, a ∈ as → f b a = .ok c → g (r b) a = .ok (r c)) (h : as.foldlM f b = .ok c) :
    as.foldlM g (r b) = .ok (r c) := by
  induction as generalizing b with
  | nil =>
      rw [List.foldlM_nil, pure_eq_ok] at h
      rw [List.foldlM_nil, h, pure_eq_ok]
  | cons a as ih =>
      rw [List.foldlM_cons, bind_eq_ok] at h
      obtain ⟨b', hab, h⟩ := h
      rw [List.foldlM_cons, bind_eq_ok]
      exact ⟨r b', hstep b a b' (by simp) hab, ih (fun b a c ha => hstep b a c (by simp [ha])) h⟩

theorem forM_eq_ok {f : α → Except ε Unit} {as : List α} {u : Unit} :
    as.forM f = .ok u ↔ ∀ a ∈ as, f a = .ok () := by
  induction as with
  | nil => simp [pure, Except.pure]
  | cons a as ih =>
      have hcons : (a :: as).forM f = (f a >>= fun _ => as.forM f) := rfl
      rw [hcons, bind_eq_ok]
      simp only [ih, List.mem_cons, forall_eq_or_imp]
      exact ⟨fun ⟨_, ha, has⟩ => ⟨ha, has⟩, fun ⟨ha, has⟩ => ⟨(), ha, has⟩⟩

theorem foldlM_isOk {f : β → α → Except ε β} {P : α → Prop} {as : List α}
    (hstep : ∀ b, ∀ a ∈ as, (∃ c, f b a = .ok c) ↔ P a) (b : β) : (∃ c, as.foldlM f b = .ok c) ↔ ∀ a ∈ as, P a := by
  induction as generalizing b with
  | nil => exact iff_of_true ⟨b, rfl⟩ fun a ha => nomatch ha
  | cons a as ih =>
      have ih := fun b => ih (fun b a ha => hstep b a (List.mem_cons_of_mem _ ha)) b
      rw [List.forall_mem_cons, ← hstep b a List.mem_cons_self]
      constructor
      · rintro ⟨c, h⟩
        rw [List.foldlM_cons, bind_eq_ok] at h
        obtain ⟨b', hb', h⟩ := h
        exact ⟨⟨b', hb'⟩, (ih b').mp ⟨c, h⟩⟩
      · rintro ⟨⟨b', hb'⟩, hrest⟩
        obtain ⟨c, h⟩ := (ih b').mpr hrest
        exact ⟨c, by rw [List.foldlM_cons, hb', ok_bind, h]⟩

end NextBoot.Results
