import Mathlib.Data.Finset.Basic

namespace NextBoot.Lifetimes

/-- What happens to blocks of memory and to the entries of a table that point into them. -/
inductive Event (ι : Type)
  | allocated (block : Nat)
  | freed (block : Nat)
  | installed (entry : ι)
  | removed (entry : ι)
deriving DecidableEq, Repr

/-- The events so far, the blocks and calls that were numbered, and a state of the program's own. -/
structure Session (ι σ : Type) where
  events : List (Event ι)
  blocks : Nat
  calls : Nat
  own : σ

def Prog (ι σ α : Type) := Session ι σ → α × Session ι σ

variable {ι σ ε α β : Type}

instance : Monad (Prog ι σ) where
  pure a := fun s => (a, s)
  bind x f := fun s => f (x s).1 (x s).2

def record (event : Event ι) : Prog ι σ Unit := fun s => ((), { s with events := s.events ++ [event] })

def allocate : Prog ι σ Nat := fun s =>
  (s.blocks, { s with events := s.events ++ [.allocated s.blocks], blocks := s.blocks + 1 })

def free (block : Nat) : Prog ι σ Unit := record (.freed block)

/-- A call into code outside of the program, which numbers the calls and decides each one. -/
def call (outcomes : Nat → α) : Prog ι σ α := fun s => (outcomes s.calls, { s with calls := s.calls + 1 })

def getOwn : Prog ι σ σ := fun s => (s.own, s)

def setOwn (own : σ) : Prog ι σ Unit := fun s => ((), { s with own := own })

/-- A result that is an error is returned at once. -/
def orReturn (x : Prog ι σ (Except ε α)) (f : α → Prog ι σ (Except ε β)) : Prog ι σ (Except ε β) := x >>= fun
  | .ok a => f a
  | .error error => pure (.error error)

theorem bind_assoc {γ : Type} (x : Prog ι σ α) (f : α → Prog ι σ β) (g : β → Prog ι σ γ) :
    x >>= f >>= g = x >>= fun a => f a >>= g := rfl

theorem pure_bind (a : α) (f : α → Prog ι σ β) : pure a >>= f = f a := rfl

section replay

variable [DecidableEq ι]

def Event.apply (entries : Finset ι) : Event ι → Finset ι
  | allocated _ => entries
  | freed _ => entries
  | installed entry => insert entry entries
  | removed entry => entries.erase entry

/-- The entries that are in the table once the events have happened. -/
def replay (events : List (Event ι)) : Finset ι := events.foldl Event.apply ∅

/-- Whenever a block is freed, nothing in the table points into it. -/
def FreesSafely (owner : ι → Nat) (events : List (Event ι)) : Prop :=
  ∀ before block after, events = before ++ .freed block :: after → ∀ entry ∈ replay before, owner entry ≠ block

variable {owner : ι → Nat} {events : List (Event ι)} {event : Event ι}

@[simp] theorem replay_append : replay (events ++ [event]) = event.apply (replay events) := by
  rw [replay, List.foldl_append]
  rfl

theorem freesSafely_nil : FreesSafely owner ([] : List (Event ι)) := by
  intro before block after h
  simp at h

theorem freesSafely_append : FreesSafely owner (events ++ [event]) ↔
    FreesSafely owner events ∧ ∀ block, event = .freed block → ∀ entry ∈ replay events, owner entry ≠ block := by
  constructor
  · intro h
    refine ⟨?_, ?_⟩
    · rintro before block after rfl
      exact h before block (after ++ [event]) (by simp)
    · rintro block rfl
      exact h events block [] rfl
  · rintro ⟨hevents, hlast⟩ before block after heq
    rcases List.eq_nil_or_concat' after with rfl | ⟨front, last, rfl⟩
    · obtain ⟨rfl, hfreed⟩ := List.append_inj' heq rfl
      exact hlast block (List.singleton_inj.mp hfreed)
    · rw [← List.cons_append, ← List.append_assoc] at heq
      obtain ⟨rfl, -⟩ := List.append_inj' heq rfl
      exact hevents before block front rfl

end replay

section triples

def Triple (P : Session ι σ → Prop) (x : Prog ι σ α) (Q : α → Session ι σ → Prop) : Prop :=
  ∀ s, P s → Q (x s).1 (x s).2

variable {P : Session ι σ → Prop} {Q Q' : α → Session ι σ → Prop} {R : β → Session ι σ → Prop} {x : Prog ι σ α}

theorem Triple.pure {a : α} (h : ∀ s, P s → Q a s) : Triple P (pure a) Q := h

theorem Triple.bind {f : α → Prog ι σ β} (hx : Triple P x Q) (hf : ∀ a, Triple (Q a) (f a) R) : Triple P (x >>= f) R :=
  fun s hs => hf _ _ (hx s hs)

theorem Triple.weaken (hx : Triple P x Q) (hq : ∀ a s, Q a s → Q' a s) : Triple P x Q' := fun s hs => hq _ _ (hx s hs)

theorem Triple.strengthen {P' : Session ι σ → Prop} (hp : ∀ s, P' s → P s) (hx : Triple P x Q) : Triple P' x Q :=
  fun s hs => hx s (hp s hs)

theorem Triple.and_left {p : Prop} (h : p → Triple P x Q) : Triple (fun s => p ∧ P s) x Q := fun s hs => h hs.1 s hs.2

theorem Triple.exists_left {γ : Type} {P : γ → Session ι σ → Prop} (h : ∀ c, Triple (P c) x Q) :
    Triple (fun s => ∃ c, P c s) x Q := fun s hs => hs.elim fun c hc => h c s hc

theorem Triple.orReturn {x : Prog ι σ (Except ε α)} {f : α → Prog ι σ (Except ε β)}
    {Q : Except ε α → Session ι σ → Prop} {R : Except ε β → Session ι σ → Prop} (hx : Triple P x Q)
    (hok : ∀ a, Triple (Q (.ok a)) (f a) R) (herror : ∀ error s, Q (.error error) s → R (.error error) s) :
    Triple P (orReturn x f) R := by
  refine hx.bind fun result => ?_
  cases result with
  | ok a => exact hok a
  | error error => exact Triple.pure (herror error)

theorem Triple.ite {p : Prop} [Decidable p] {y : Prog ι σ α} (hx : p → Triple P x Q) (hy : ¬ p → Triple P y Q) :
    Triple P (if p then x else y) Q := by
  split
  next h => exact hx h
  next h => exact hy h

theorem Triple.getOwn_bind {f : σ → Prog ι σ β} (h : ∀ own, Triple P (f own) R) : Triple P (getOwn >>= f) R :=
  fun s hs => h s.own s hs

end triples

section within

variable [DecidableEq ι] {owner : ι → Nat} {entries : Set ι} {floor : Nat} {own : σ}

/-- So far no entry was left dangling; what is in the table is among `entries`, and blocks from `floor` on are new. -/
structure Within (owner : ι → Nat) (entries : Set ι) (floor : Nat) (own : σ) (s : Session ι σ) : Prop where
  safe : FreesSafely owner s.events
  subset : ∀ entry ∈ replay s.events, entry ∈ entries
  floor_le : floor ≤ s.blocks
  own_eq : s.own = own

variable {Q : β → Session ι σ → Prop}

theorem Triple.install {entry : ι} : Triple (Within owner entries floor own) (record (.installed entry))
    fun _ => Within owner (insert entry entries) floor own := by
  rintro s ⟨hsafe, hsubset, hfloor, hown⟩
  refine ⟨freesSafely_append.mpr ⟨hsafe, nofun⟩, fun e he => ?_, hfloor, hown⟩
  rw [record, replay_append, Event.apply, Finset.mem_insert] at he
  exact he.imp id (hsubset e)

theorem Triple.remove {entry : ι} : Triple (Within owner entries floor own) (record (.removed entry))
    fun _ => Within owner (entries \ {entry}) floor own := by
  rintro s ⟨hsafe, hsubset, hfloor, hown⟩
  refine ⟨freesSafely_append.mpr ⟨hsafe, nofun⟩, fun e he => ?_, hfloor, hown⟩
  rw [record, replay_append, Event.apply, Finset.mem_erase] at he
  exact ⟨hsubset e he.2, he.1⟩

theorem Triple.free {block : Nat} (h : ∀ entry ∈ entries, owner entry ≠ block) :
    Triple (Within owner entries floor own) (free block) fun _ => Within owner entries floor own := by
  rintro s ⟨hsafe, hsubset, hfloor, hown⟩
  refine ⟨freesSafely_append.mpr ⟨hsafe, ?_⟩, fun e he => ?_, hfloor, hown⟩
  · rintro _ ⟨rfl⟩ entry hentry
    exact h entry (hsubset entry hentry)
  · rw [Lifetimes.free, record, replay_append] at he
    exact hsubset e he

theorem Triple.allocate_bind {f : Nat → Prog ι σ β}
    (h : ∀ block, floor ≤ block → Triple (Within owner entries (block + 1) own) (f block) Q) :
    Triple (Within owner entries floor own) (allocate >>= f) Q := by
  rintro s ⟨hsafe, hsubset, hfloor, hown⟩
  refine h s.blocks hfloor _ ⟨freesSafely_append.mpr ⟨hsafe, nofun⟩, fun e he => ?_, le_rfl, hown⟩
  rw [allocate, replay_append] at he
  exact hsubset e he

theorem Triple.call_bind {outcomes : Nat → α} {f : α → Prog ι σ β}
    (h : ∀ number, Triple (Within owner entries floor own) (f (outcomes number)) Q) :
    Triple (Within owner entries floor own) (call outcomes >>= f) Q :=
  fun s hs => h s.calls _ ⟨hs.safe, hs.subset, hs.floor_le, hs.own_eq⟩

theorem Triple.setOwn {own' : σ} : Triple (Within owner entries floor own) (setOwn own')
    fun _ => Within owner entries floor own' := fun _ hs => ⟨hs.safe, hs.subset, hs.floor_le, rfl⟩

theorem Within.mono {entries' : Set ι} {floor' : Nat} {s : Session ι σ} (h : Within owner entries floor own s)
    (hsubset : entries ⊆ entries') (hfloor : floor' ≤ floor) : Within owner entries' floor' own s :=
  ⟨h.safe, fun entry hentry => hsubset (h.subset entry hentry), hfloor.trans h.floor_le, h.own_eq⟩

end within

end NextBoot.Lifetimes
