import Mathlib.Data.List.Basic

namespace NextBoot.CrashLogic

/-- What becomes of one atomic step: it is done, it fails without or with its effect, or the process ends before it. -/
inductive Event
  | done
  | fails
  | failsAfter
  | stops
deriving DecidableEq, Repr

/-- How a program ends without a result. -/
inductive Stop (ε : Type)
  | raised (error : ε)
  | fault
  | interrupted
deriving DecidableEq, Repr

theorem Stop.fault_ne_raised {ε : Type} (error : ε) : Stop.fault ≠ .raised error := nofun

theorem Stop.interrupted_ne_raised {ε : Type} (error : ε) : Stop.interrupted ≠ .raised error := nofun

/-- A store, and what becomes of the coming steps; steps behind the list of events are done. -/
structure Session (σ : Type) where
  store : σ
  events : List Event

def Prog (σ ε α : Type) := Session σ → Except (Stop ε) α × Session σ

variable {σ ε α β : Type}

protected def Prog.bind (x : Prog σ ε α) (f : α → Prog σ ε β) : Prog σ ε β := fun session =>
  match x session with
  | (.ok a, after) => f a after
  | (.error stop, after) => (.error stop, after)

instance : Monad (Prog σ ε) where
  pure a := fun session => (.ok a, session)
  bind := Prog.bind

def fetch : Prog σ ε σ := fun session => (.ok session.store, session)

def raise (error : ε) : Prog σ ε α := fun session => (.error (.raised error), session)

def ofExcept : Except ε α → Prog σ ε α
  | .ok a => pure a
  | .error error => raise error

def raiseIf (condition : Prop) [Decidable condition] (error : ε) : Prog σ ε Unit :=
  if condition then raise error else pure ()

def atomically (effect : σ → σ) : Prog σ ε Unit := fun session =>
  match session.events with
  | [] => (.ok (), ⟨effect session.store, []⟩)
  | .done :: rest => (.ok (), ⟨effect session.store, rest⟩)
  | .fails :: rest => (.error .fault, ⟨session.store, rest⟩)
  | .failsAfter :: rest => (.error .fault, ⟨effect session.store, rest⟩)
  | .stops :: rest => (.error .interrupted, ⟨session.store, rest⟩)

/-- Errors and faults reach the handler; nothing runs once the process has ended. -/
def attempt (x : Prog σ ε α) (handler : Stop ε → Prog σ ε α) : Prog σ ε α := fun session =>
  match x session with
  | (.error .interrupted, after) => (.error .interrupted, after)
  | (.error stop, after) => handler stop after
  | (.ok a, after) => (.ok a, after)

def Smooth (events : List Event) : Prop := ∀ event ∈ events, event = .done

instance (events : List Event) : Decidable (Smooth events) := inferInstanceAs (Decidable (∀ _ ∈ _, _))

/-- From a store with `P`, the program returns with `Q` or ends with `X`; a run in which every step is done ends with
an error only when the program raises one. -/
def Triple (P : σ → Prop) (x : Prog σ ε α) (Q : α → σ → Prop) (X : Stop ε → σ → Prop) : Prop :=
  ∀ session, P session.store →
    (∀ a after, x session = (.ok a, after) → Q a after.store ∧ (Smooth session.events → Smooth after.events)) ∧
    ∀ stop after, x session = (.error stop, after) →
      X stop after.store ∧ (Smooth session.events → Smooth after.events ∧ ∃ error, stop = .raised error)

variable {P P' : σ → Prop} {Q Q' : α → σ → Prop} {R : β → σ → Prop} {X X' : Stop ε → σ → Prop} {x : Prog σ ε α}

theorem Triple.weaken (h : Triple P x Q X) (hp : ∀ s, P' s → P s) (hq : ∀ a s, Q a s → Q' a s)
    (hx : ∀ stop s, X stop s → X' stop s) : Triple P' x Q' X' := by
  intro session hs
  obtain ⟨hok, herr⟩ := h session (hp _ hs)
  refine ⟨fun a after hrun => ?_, fun stop after hrun => ?_⟩
  · exact ⟨hq _ _ (hok a after hrun).1, (hok a after hrun).2⟩
  · exact ⟨hx _ _ (herr stop after hrun).1, (herr stop after hrun).2⟩

/-- A program may be looked at from each store it can start in. -/
theorem Triple.of_stores (h : ∀ s, P s → Triple (· = s) x Q X) : Triple P x Q X :=
  fun session hs => h session.store hs session rfl

theorem Triple.pure {a : α} (h : ∀ s, P s → Q a s) : Triple P (pure a : Prog σ ε α) Q X := by
  intro session hs
  refine ⟨fun b after hrun => ?_, fun stop after hrun => ?_⟩
  · cases hrun
    exact ⟨h _ hs, id⟩
  · cases hrun

theorem Triple.bind {f : α → Prog σ ε β} (hx : Triple P x Q X) (hf : ∀ a, Triple (Q a) (f a) R X) :
    Triple P (x >>= f) R X := by
  intro session hs
  have hdef : (x >>= f) session = Prog.bind x f session := rfl
  obtain ⟨hok, herr⟩ := hx session hs
  rw [hdef, Prog.bind]
  cases hrun : x session with
  | mk result after =>
      cases result with
      | ok a =>
          obtain ⟨hq, hsmooth⟩ := hok a after hrun
          obtain ⟨hok', herr'⟩ := hf a after hq
          refine ⟨fun b last hlast => ?_, fun stop last hlast => ?_⟩
          · exact ⟨(hok' b last hlast).1, fun h => (hok' b last hlast).2 (hsmooth h)⟩
          · exact ⟨(herr' stop last hlast).1, fun h => (herr' stop last hlast).2 (hsmooth h)⟩
      | error stop =>
          refine ⟨fun b last hlast => ?_, fun stop' last hlast => ?_⟩
          · cases hlast
          · cases hlast
            exact herr stop after hrun

/-- What is read is the store itself, so the rest of the program starts from a known one. -/
theorem Triple.fetch_bind {f : σ → Prog σ ε β} (h : ∀ s, P s → Triple (· = s) (f s) R X) :
    Triple P (fetch >>= f) R X := by
  intro session hs
  exact h session.store hs session rfl

theorem Triple.raise {error : ε} (h : ∀ s, P s → X (.raised error) s) : Triple P (raise error : Prog σ ε α) Q X := by
  intro session hs
  refine ⟨fun b after hrun => ?_, fun stop after hrun => ?_⟩
  · cases hrun
  · cases hrun
    exact ⟨h _ hs, fun hsmooth => ⟨hsmooth, error, rfl⟩⟩

theorem Triple.ofExcept_bind {result : Except ε α} {f : α → Prog σ ε β} {a : α} (h : result = .ok a)
    (hf : Triple P (f a) R X) : Triple P (ofExcept result >>= f) R X := by
  subst h
  exact hf

theorem Triple.ofExcept_cases {result : Except ε α} {f : α → Prog σ ε β}
    (hok : ∀ a, result = .ok a → Triple P (f a) R X)
    (herr : ∀ error, result = .error error → ∀ s, P s → X (.raised error) s) : Triple P (ofExcept result >>= f) R X := by
  cases result with
  | ok a => exact hok a rfl
  | error error => exact Triple.raise (herr error rfl)

theorem Triple.raiseIf {condition : Prop} [Decidable condition] {error : ε} {Q : Unit → σ → Prop}
    (hraise : condition → ∀ s, P s → X (.raised error) s) (hpass : ¬ condition → ∀ s, P s → Q () s) :
    Triple P (raiseIf condition error) Q X := by
  unfold CrashLogic.raiseIf
  split
  · next hc => exact Triple.raise (hraise hc)
  · next hc => exact Triple.pure (hpass hc)

theorem Triple.atomically {effect : σ → σ} {Q : Unit → σ → Prop}
    (h : ∀ s, P s → Q () (effect s) ∧ X .fault s ∧ X .fault (effect s) ∧ X .interrupted s) :
    Triple P (atomically effect) Q X := by
  intro session hs
  obtain ⟨hdone, hfails, hafter, hstops⟩ := h _ hs
  obtain ⟨store, events⟩ := session
  unfold CrashLogic.atomically
  rcases events with _ | ⟨event, rest⟩
  · refine ⟨fun b last hlast => ?_, fun stop last hlast => ?_⟩ <;> cases hlast
    exact ⟨hdone, id⟩
  · have hrest : Smooth (event :: rest) → event = .done ∧ Smooth rest :=
      fun hsmooth => ⟨hsmooth _ (by simp), fun e he => hsmooth _ (by simp [he])⟩
    cases event with
    | done =>
        refine ⟨fun b last hlast => ?_, fun stop last hlast => ?_⟩ <;> cases hlast
        exact ⟨hdone, fun hsmooth => (hrest hsmooth).2⟩
    | fails =>
        refine ⟨fun b last hlast => ?_, fun stop last hlast => ?_⟩ <;> cases hlast
        exact ⟨hfails, fun hsmooth => nomatch (hrest hsmooth).1⟩
    | failsAfter =>
        refine ⟨fun b last hlast => ?_, fun stop last hlast => ?_⟩ <;> cases hlast
        exact ⟨hafter, fun hsmooth => nomatch (hrest hsmooth).1⟩
    | stops =>
        refine ⟨fun b last hlast => ?_, fun stop last hlast => ?_⟩ <;> cases hlast
        exact ⟨hstops, fun hsmooth => nomatch (hrest hsmooth).1⟩

theorem bind_of_ok {f : α → Prog σ ε β} {session after : Session σ} {a : α} (h : x session = (.ok a, after)) :
    (x >>= f) session = f a after := by
  have hdef : (x >>= f) session = Prog.bind x f session := rfl
  rw [hdef, Prog.bind, h]

theorem bind_of_error {f : α → Prog σ ε β} {session after : Session σ} {stop : Stop ε}
    (h : x session = (.error stop, after)) : (x >>= f) session = (.error stop, after) := by
  have hdef : (x >>= f) session = Prog.bind x f session := rfl
  rw [hdef, Prog.bind, h]

theorem attempt_of_stop {handler : Stop ε → Prog σ ε α} {session after : Session σ} {stop : Stop ε}
    (h : x session = (.error stop, after)) (hstop : stop ≠ .interrupted) :
    attempt x handler session = handler stop after := by
  cases stop with
  | interrupted => exact absurd rfl hstop
  | raised _ => rw [attempt, h]
  | fault => rw [attempt, h]

theorem Triple.attempt {handler : Stop ε → Prog σ ε α} {Y : Stop ε → σ → Prop} (hx : Triple P x Q Y)
    (hstop : ∀ s, Y .interrupted s → X .interrupted s)
    (hhandler : ∀ stop, stop ≠ .interrupted → Triple (Y stop) (handler stop) Q X) : Triple P (attempt x handler) Q X := by
  intro session hs
  obtain ⟨hok, herr⟩ := hx session hs
  unfold CrashLogic.attempt
  cases hrun : x session with
  | mk result after =>
      cases result with
      | ok a =>
          refine ⟨fun b last hlast => ?_, fun stop last hlast => ?_⟩ <;> cases hlast
          exact hok a after hrun
      | error stop =>
          obtain ⟨hy, hsmooth⟩ := herr stop after hrun
          by_cases hint : stop = .interrupted
          · subst hint
            refine ⟨fun b last hlast => ?_, fun stop last hlast => ?_⟩ <;> cases hlast
            exact ⟨hstop _ hy, hsmooth⟩
          · have hlater := hhandler stop hint after hy
            have hcase : CrashLogic.attempt x handler session = handler stop after := attempt_of_stop hrun hint
            rw [CrashLogic.attempt, hrun] at hcase
            rw [hcase]
            refine ⟨fun b last hlast => ?_, fun stop' last hlast => ?_⟩
            · exact ⟨(hlater.1 b last hlast).1, fun h => (hlater.1 b last hlast).2 (hsmooth h).1⟩
            · exact ⟨(hlater.2 stop' last hlast).1, fun h => (hlater.2 stop' last hlast).2 (hsmooth h).1⟩

/-- A loop with an invariant over the part of the list it has been through. -/
theorem Triple.forM {f : α → Prog σ ε Unit} {I : List α → σ → Prop} {l : List α}
    (h : ∀ before a rest, l = before ++ a :: rest → Triple (I before) (f a) (fun _ => I (before ++ [a])) X) :
    Triple (I []) (l.forM f) (fun _ => I l) X := by
  have hfrom : ∀ before rest, l = before ++ rest → Triple (I before) (rest.forM f) (fun _ => I l) X := by
    intro before rest hl
    induction rest generalizing before with
    | nil =>
        rw [List.append_nil] at hl
        subst hl
        exact Triple.pure fun s hs => hs
    | cons a rest ih =>
        have hstep : (a :: rest).forM f = (f a >>= fun _ => rest.forM f) := rfl
        rw [hstep]
        refine Triple.bind (h before a rest hl) fun _ => ih (before ++ [a]) ?_
        rw [hl, List.append_assoc, List.singleton_append]
  exact hfrom [] l rfl

/-- Every step of the program, done or not, leaves the invariant. -/
def Keeps (I : σ → Prop) (x : Prog σ ε α) : Prop := Triple I x (fun _ => I) fun _ => I

variable {I : σ → Prop}

theorem Keeps.pure (a : α) : Keeps I (Pure.pure a : Prog σ ε α) := Triple.pure fun _ hs => hs

theorem Keeps.bind {f : α → Prog σ ε β} (hx : Keeps I x) (hf : ∀ a, Keeps I (f a)) : Keeps I (x >>= f) :=
  Triple.bind hx hf

theorem Keeps.fetch_bind {f : σ → Prog σ ε β} (h : ∀ s, I s → Keeps I (f s)) : Keeps I (fetch >>= f) :=
  Triple.fetch_bind fun s hs => (h s hs).weaken (fun _ heq => heq ▸ hs) (fun _ _ h => h) fun _ _ h => h

theorem Keeps.raise (error : ε) : Keeps I (raise error : Prog σ ε α) := Triple.raise fun _ hs => hs

theorem Keeps.raiseIf (condition : Prop) [Decidable condition] (error : ε) : Keeps I (raiseIf condition error) :=
  Triple.raiseIf (fun _ _ hs => hs) fun _ _ hs => hs

theorem Keeps.ofExcept_bind {result : Except ε α} {f : α → Prog σ ε β} (h : ∀ a, result = .ok a → Keeps I (f a)) :
    Keeps I (ofExcept result >>= f) := Triple.ofExcept_cases h fun _ _ _ hs => hs

theorem Keeps.atomically {effect : σ → σ} (h : ∀ s, I s → I (effect s)) : Keeps I (atomically effect : Prog σ ε Unit) :=
  Triple.atomically fun s hs => ⟨h s hs, hs, h s hs, hs⟩

theorem Keeps.attempt {handler : Stop ε → Prog σ ε α} (hx : Keeps I x) (hh : ∀ stop, Keeps I (handler stop)) :
    Keeps I (attempt x handler) := Triple.attempt hx (fun _ hs => hs) fun stop _ => hh stop

theorem Keeps.forM {f : α → Prog σ ε Unit} {l : List α} (h : ∀ a ∈ l, Keeps I (f a)) : Keeps I (l.forM f) :=
  Triple.forM (I := fun _ => I) fun _ a _ hl => h a (by simp [hl])

/-- The store a program leaves behind, however it ends. -/
def finalStore (x : Prog σ ε α) (store : σ) (events : List Event) : σ := (x ⟨store, events⟩).2.store

theorem Triple.finalStore (h : Triple P x (fun _ => I) (fun _ => I)) {s : σ} (hs : P s)
    (events : List Event) : I (finalStore x s events) := by
  obtain ⟨hok, herr⟩ := h ⟨s, events⟩ hs
  unfold CrashLogic.finalStore
  cases hrun : x ⟨s, events⟩ with
  | mk result after =>
      cases result with
      | ok a => exact (hok a after hrun).1
      | error stop => exact (herr stop after hrun).1

/-- A program that raises nothing returns when every step is done. -/
theorem Triple.returns (h : Triple P x Q X) {s : σ} (hs : P s) {events : List Event} (hsmooth : Smooth events)
    (hraise : ∀ error s, ¬ X (.raised error) s) :
    ∃ a after, x ⟨s, events⟩ = (.ok a, after) ∧ Q a after.store := by
  obtain ⟨hok, herr⟩ := h ⟨s, events⟩ hs
  cases hrun : x ⟨s, events⟩ with
  | mk result after =>
      cases result with
      | ok a => exact ⟨a, after, rfl, (hok a after hrun).1⟩
      | error stop =>
          obtain ⟨hx, hlast⟩ := herr stop after hrun
          obtain ⟨_, error, rfl⟩ := hlast hsmooth
          exact absurd hx (hraise error _)

end NextBoot.CrashLogic
