import NextBoot.MediaUpdate.Publish

namespace NextBoot.MediaUpdate

open Results CrashLogic

variable {host : Host} {roots : Roots} {u : Update host} {s s₀ : Store}

theorem planFrom_congr (h : s.file = s₀.file) (seen : List (Area × String)) (payload : List PayloadItem) :
    planFrom host roots s seen payload = planFrom host roots s₀ seen payload := by
  induction payload generalizing seen with
  | nil => rfl
  | cons item rest ih =>
      have hchange : item.change host s = item.change host s₀ := by rw [PayloadItem.change, PayloadItem.change, h]
      rw [planFrom, planFrom, ih, hchange]

/-- The states in which `apply` can end without a result. -/
def Ended (u : Update host) (s₀ s : Store) : Prop :=
  Waiting u s₀ s ∨ ∃ s₁, InFlight u s₀ s₁ ∧ Rolling u s₁ s ∧ (s₁.pending = none → s = s₁)

theorem InFlight.ended (h : InFlight u s₀ s) : Ended u s₀ s := .inr ⟨s, h, Rolling.refl u s, fun _ => rfl⟩

theorem Locked.early (h : Locked s₀ s) (hpend : s₀.pending = none) : Early u s₀ s := by
  rw [h]
  exact ⟨⟨⟨fun _ _ => rfl, fun _ _ _ => rfl, fun _ _ _ _ => rfl⟩, rfl, hpend⟩, rfl⟩

theorem applyLocked_spec (howned : Owned host roots u.changes) (hpend : s₀.pending = none) (hold : AllOld u.changes s₀) {payload : List PayloadItem}
    {changes : List Change} (hplan : plan host roots s₀ payload = .ok changes)
    (hchanges : u.changes = dependencyOrder changes) (free : Area → Nat) :
    Triple (· = s₀) (applyLocked host roots payload u.identifier free)
      (fun result s => result = .applied u.identifier ∧ InFlight u s₀ s ∧ AllNew u.changes s ∧ s.pending = none)
      fun _ s => Ended u s₀ s := by
  have hearly : ∀ s, Early u s₀ s → Ended u s₀ s := fun s hs => .inl ⟨hs.1, .inl hs.2⟩
  refine Triple.bind (lock_spec fun s hs => ⟨hearly s (hs.early hpend), hearly s (hs.early hpend)⟩) fun _ => ?_
  refine Triple.fetch_bind fun s hs => ?_
  have hstart : Early u s₀ s := hs.early hpend
  refine Triple.bind (Q := fun _ => (· = s)) (Triple.raiseIf (fun hne => absurd hstart.1.pending hne) fun _ s' h => h) fun _ => ?_
  have hplan' : plan host roots s payload = .ok changes := (planFrom_congr hstart.1.file [] payload).trans hplan
  refine Triple.ofExcept_bind hplan' ?_
  simp only
  rw [← hchanges, if_neg (by simpa using u.nonempty)]
  refine Triple.ofExcept_cases (fun _ _ => ?_) fun _ _ s' hs' => hs' ▸ hearly s hstart
  refine Triple.bind (Q := fun _ => Published u s₀ []) ?_ fun _ => Triple.bind (Q := fun _ s => InFlight u s₀ s ∧
    AllNew u.changes s ∧ s.pending = none) ?_ fun _ => Triple.pure fun s' h => ⟨rfl, h⟩
  · refine (prepare_spec hold).weaken (fun s' hs' => hs' ▸ hstart) (fun _ s' h => h) fun _ s' h => ?_
    exact h.2.elim .inl fun hin => hin.ended
  · refine Triple.attempt (publish_spec howned) (fun s' h => h.2.ended) fun stop _ => Triple.of_stores fun s₁ h => ?_
    exact (recover_spec howned h.2 stop).weaken (fun s' h => h) (fun _ s' h => h.elim) fun _ s' h' => .inr ⟨s₁, h.2, h'⟩

/-- The state an interrupted update can be restored from. -/
structure Recoverable (u : Update host) (s : Store) : Prop where
  pending : s.pending = some (u.journal .prepared)
  archived : Archived u s
  oldOrNew : OldOrNew u.changes s

/-- Whatever becomes of `apply`, its targets are all old or all new, or it can be restored. -/
theorem Ended.safe (h : Ended u s₀ s) (hold : AllOld u.changes s₀) :
    Recoverable u s ∨ s.pending = none ∧ (AllOld u.changes s ∨ AllNew u.changes s) := by
  rcases h with ⟨hprep, _⟩ | ⟨s₁, hin, hroll, hsame⟩
  · refine .inr ⟨hprep.pending, .inl fun c hc => ?_⟩
    rw [← hold c hc]
    exact congrFun (congrFun hprep.file _) _
  · rcases hin.phase with ⟨hpend, hon⟩ | ⟨hpend, hnew⟩
    · rcases hroll.pending with hp | hp
      · exact .inl ⟨hp.trans hpend, hroll.archived hin.archived, hroll.oldOrNew hon⟩
      · exact .inr ⟨hp.1, .inl hp.2⟩
    · rw [hsame hpend]
      exact .inr ⟨hpend, .inr hnew⟩

theorem Ended.elsewhere (h : Ended u s₀ s) {area : Area} {path : String} (hp : ¬ Targeted u.changes area path) :
    s.file area path = s₀.file area path := by
  rcases h with ⟨hprep, _⟩ | ⟨s₁, hin, hroll, _⟩
  · rw [hprep.file]
  · exact (hroll.elsewhere _ _ hp).trans (hin.elsewhere _ _ hp)

/-- A rollback that cannot read its journal only takes the lock. -/
theorem rollback_refused {identifier : Option String}
    (h : ∀ s, Locked s₀ s → ∀ journal, loadJournal host roots s identifier = .ok journal →
      s.pending.any (fun pending => pending.id ≠ journal.id) = true) :
    Triple (· = s₀) (rollback host roots identifier) (fun _ _ => False) fun _ s => Locked s₀ s := by
  refine Triple.bind (lock_spec fun s hs => ⟨hs, hs⟩) fun _ => Triple.fetch_bind fun s hs => ?_
  refine Triple.ofExcept_cases (fun journal hload => ?_) fun _ _ s' hs' => hs' ▸ hs
  refine Triple.bind (Q := fun _ _ => False) (Triple.raiseIf (fun _ s' hs' => hs' ▸ hs) fun hnot => ?_) fun _ => ?_
  · exact absurd (h s hs journal hload) hnot
  · exact fun session hfalse => hfalse.elim

theorem rollback_without_pending (hpend : s₀.pending = none) :
    Triple (· = s₀) (rollback host roots none) (fun _ _ => False) fun _ s => Locked s₀ s := by
  refine rollback_refused fun s hs journal hload => ?_
  obtain ⟨_, hread, _⟩ := bind_eq_ok.mp hload
  have hnone : s.pending = none := by
    rw [hs]
    exact hpend
  cases hnone.symm.trans (someOr_eq_ok.mp hread)

theorem Recoverable.rollback_spec (h : Recoverable u s₀) (howned : Owned host roots u.changes) :
    Triple (· = s₀) (rollback host roots none)
      (fun result s => result = u.identifier ∧ Rolling u s₀ s ∧ AllOld u.changes s ∧ s.pending = none)
      fun stop s => (∀ e, stop ≠ .raised e) ∧ Rolling u s₀ s := by
  refine MediaUpdate.rollback_spec howned h.oldOrNew h.archived (fun p hp => ?_) (.inl rfl) (someOr_eq_ok.mpr h.pending)
  rw [h.pending] at hp
  cases hp
  rfl

/-- What holds between two attempts to restore an update. -/
structure Resumable (u : Update host) (s₀ s : Store) : Prop where
  safe : Recoverable u s ∨ s.pending = none ∧ AllOld u.changes s
  elsewhere : ∀ area path, ¬ Targeted u.changes area path → s.file area path = s₀.file area path

theorem Resumable.rerun (howned : Owned host roots u.changes) (h : Resumable u s₀ s) (events : List Event) :
    Resumable u s₀ (finalStore (rollback host roots none) s events) := by
  rcases h.safe with hrec | ⟨hpend, hold⟩
  · refine Triple.finalStore (P := (· = s)) ((hrec.rollback_spec howned).weaken (fun s h => h) (fun _ s' hs' => ?_) fun _ s' hs' => ?_)
      rfl events
    · exact ⟨.inr ⟨hs'.2.2.2, hs'.2.2.1⟩, fun a p hp => (hs'.2.1.elsewhere a p hp).trans (h.elsewhere a p hp)⟩
    · refine ⟨?_, fun a p hp => (hs'.2.elsewhere a p hp).trans (h.elsewhere a p hp)⟩
      rcases hs'.2.pending with hp | hp
      · exact .inl ⟨hp.trans hrec.pending, hs'.2.archived hrec.archived, hs'.2.oldOrNew hrec.oldOrNew⟩
      · exact .inr hp
  · refine Triple.finalStore (P := (· = s)) ((rollback_without_pending hpend).weaken (fun s h => h) (fun _ s' hs' => hs'.elim)
      fun _ s' hs' => ?_) rfl events
    rw [hs']
    exact ⟨.inr ⟨hpend, hold⟩, h.elsewhere⟩

theorem Resumable.reruns (howned : Owned host roots u.changes) (h : Resumable u s₀ s) (attempts : List (List Event)) :
    Resumable u s₀ (attempts.foldl (finalStore (rollback host roots none)) s) := by
  induction attempts generalizing s with
  | nil => exact h
  | cons events attempts ih => exact ih (h.rerun howned events)

/-- The changes `apply` makes to the files as they are, in the order it makes them. -/
def plannedChanges (host : Host) (roots : Roots) (s : Store) (payload : List PayloadItem) : List Change :=
  match plan host roots s payload with
  | .ok changes => dependencyOrder changes
  | .error _ => []

section Apply

variable {payload : List PayloadItem} {identifier : String}

/-- A run that plans nothing, or only shows its plan, writes no file. -/
theorem apply_idle {dryRun : Bool} (h : dryRun = true ∨ plannedChanges host roots s₀ payload = []) (free : Area → Nat) :
    Triple (· = s₀) (apply host roots payload dryRun identifier free)
      (fun result s => Locked s₀ s ∧ ∀ id, result ≠ .applied id) fun _ s => Locked s₀ s := by
  have hself : Locked s₀ s₀ := rfl
  refine Triple.fetch_bind fun s hs => ?_
  subst hs
  refine Triple.ofExcept_cases (fun changes hplan => ?_) fun _ _ s' hs' => hs' ▸ hself
  split
  · refine Triple.bind (Q := fun _ => (· = s)) (Triple.raiseIf (fun _ s' hs' => hs' ▸ hself) fun _ s' hs' => hs') fun _ => ?_
    exact Triple.pure fun s' hs' => ⟨hs' ▸ hself, fun id h => by cases h⟩
  · next hdry =>
      have hempty : dependencyOrder changes = [] := by
        have := h.resolve_left hdry
        rwa [plannedChanges, hplan] at this
      refine Triple.bind (lock_spec fun s' hs' => ⟨hs', hs'⟩) fun _ => Triple.fetch_bind fun s₁ hs₁ => ?_
      refine Triple.bind (Q := fun _ => (· = s₁)) (Triple.raiseIf (fun _ s' hs' => hs' ▸ hs₁) fun _ s' hs' => hs') fun _ => ?_
      have hplan' : plan host roots s₁ payload = .ok changes := by
        refine (planFrom_congr ?_ [] payload).trans hplan
        rw [hs₁]
      refine Triple.ofExcept_bind hplan' ?_
      simp only [hempty, List.isEmpty_nil, if_true]
      exact Triple.pure fun s' hs' => ⟨hs' ▸ hs₁, fun id h => by cases h⟩

theorem apply_spec (howned : Owned host roots u.changes) (hpend : s₀.pending = none) (hold : AllOld u.changes s₀)
    {changes : List Change} (hplan : plan host roots s₀ payload = .ok changes)
    (hchanges : u.changes = dependencyOrder changes) (free : Area → Nat) :
    Triple (· = s₀) (apply host roots payload false u.identifier free)
      (fun result s => result = .applied u.identifier ∧ InFlight u s₀ s ∧ AllNew u.changes s ∧ s.pending = none)
      fun _ s => Ended u s₀ s := by
  refine Triple.fetch_bind fun s hs => ?_
  subst hs
  exact Triple.ofExcept_bind hplan (applyLocked_spec howned hpend hold hplan hchanges free)

theorem apply_update (hpend : s₀.pending = none) (hid : fullmatchHex 32 identifier = true)
    (hne : plannedChanges host roots s₀ payload ≠ []) (free : Area → Nat) :
    ∃ u : Update host, u.identifier = identifier ∧ u.changes = plannedChanges host roots s₀ payload ∧
      AllOld u.changes s₀ ∧ Owned host roots u.changes ∧
      Triple (· = s₀) (apply host roots payload false identifier free)
        (fun result s => result = .applied u.identifier ∧ InFlight u s₀ s ∧ AllNew u.changes s ∧ s.pending = none)
        fun _ s => Ended u s₀ s := by
  cases hplan : plan host roots s₀ payload with
  | error e =>
      rw [plannedChanges, hplan] at hne
      exact absurd rfl hne
  | ok changes =>
      rw [plannedChanges, hplan] at hne ⊢
      obtain ⟨u, rfl, hchanges, hold, howned⟩ := exists_update hplan hid hne
      exact ⟨u, rfl, hchanges, hold, howned, apply_spec howned hpend hold hplan hchanges free⟩

end Apply

theorem plannedChanges_allOld (host : Host) (roots : Roots) (s : Store) (payload : List PayloadItem) :
    AllOld (plannedChanges host roots s payload) s := by
  intro c hc
  unfold plannedChanges at hc
  split at hc
  · next changes hplan =>
      exact ((planFrom_spec hplan).1 c ((dependencyOrder_perm changes).mem_iff.mp hc)).2.1.symm
  · cases hc

theorem Locked.file (h : Locked s₀ s) : s.file = s₀.file := by
  rw [h]

theorem Locked.pending (h : Locked s₀ s) : s.pending = s₀.pending := by
  rw [h]

theorem InFlight.rollback_spec (howned : Owned host roots u.changes) (h : InFlight u s₀ s) (hnew : AllNew u.changes s) (hpend : s.pending = none) :
    Triple (· = s) (rollback host roots (some u.identifier))
      (fun result s' => result = u.identifier ∧ Rolling u s s' ∧ AllOld u.changes s' ∧ s'.pending = none)
      fun stop s' => (∀ e, stop ≠ .raised e) ∧ Rolling u s s' := by
  obtain ⟨status, hmanifest⟩ := h.manifest
  have hread : readJournal s (some u.identifier) = .ok (u.journal status) :=
    bind_eq_ok.mpr ⟨(), transactionPath_eq_ok.mpr u.named, someOr_eq_ok.mpr hmanifest⟩
  refine MediaUpdate.rollback_spec howned (fun c hc => .inr (hnew c hc)) h.archived (fun p hp => ?_) (.inr rfl) hread
  cases hpend.symm.trans hp

/-- An interrupted update leaves its targets all old, all new, or restorable by any number of attempts; a completed one
can be taken back; no other file is written. -/
theorem interrupted_update_recovers (host : Host) (roots : Roots) (payload : List PayloadItem) (dryRun : Bool)
    (identifier : String) (free : Area → Nat) (events : List Event) (s : Store)
    (hid : fullmatchHex 32 identifier = true) (hpend : s.pending = none) :
    let changes := plannedChanges host roots s payload
    let after := finalStore (apply host roots payload dryRun identifier free) s events
    AllOld changes s ∧
      (∀ area path, ¬ Targeted changes area path → after.file area path = s.file area path) ∧
      (after.pending = none → AllOld changes after ∨ AllNew changes after) ∧
      (after.pending ≠ none → ∀ attempts : List (List Event),
        let later := attempts.foldl (finalStore (rollback host roots none)) after
        (∀ area path, ¬ Targeted changes area path → later.file area path = s.file area path) ∧
          (later.pending = none → AllOld changes later) ∧
          (later.pending ≠ none → ∀ smooth, Smooth smooth →
            ∃ last, rollback host roots none ⟨later, smooth⟩ = (.ok identifier, last) ∧
              AllOld changes last.store ∧ last.store.pending = none)) ∧
      ((apply host roots payload dryRun identifier free ⟨s, events⟩).1 = .ok (.applied identifier) →
        AllNew changes after ∧
          (∀ others area path, ¬ Targeted changes area path →
            (finalStore (rollback host roots (some identifier)) after others).file area path = s.file area path) ∧
          ∀ smooth, Smooth smooth →
            ∃ last, rollback host roots (some identifier) ⟨after, smooth⟩ = (.ok identifier, last) ∧
              AllOld changes last.store) := by
  intro changes after
  have hstart : AllOld changes s := plannedChanges_allOld host roots s payload
  by_cases hidle : dryRun = true ∨ changes = []
  · have hspec : Triple (· = s) (apply host roots payload dryRun identifier free) _ _ := apply_idle hidle free
    have hlocked : Locked s after :=
      Triple.finalStore (hspec.weaken (fun _ h => h) (fun _ _ h => h.1) fun _ _ h => h) rfl events
    have hnone : after.pending = none := hlocked.pending.trans hpend
    refine ⟨hstart, fun area path _ => by rw [hlocked.file], fun _ => .inl fun c hc => ?_, fun h => absurd hnone h, fun h => ?_⟩
    · rw [Change.file, hlocked.file]
      exact hstart c hc
    · exact absurd rfl (((hspec ⟨s, events⟩ rfl).1 _ _ (Prod.ext h rfl)).1.2 identifier)
  · rw [not_or, Bool.not_eq_true] at hidle
    obtain ⟨rfl, hne⟩ := hidle
    obtain ⟨u, rfl, hchanges, hold, howned, hspec⟩ := apply_update hpend hid hne free
    have hended : Ended u s after :=
      Triple.finalStore (hspec.weaken (fun _ h => h) (fun _ _ h => h.2.1.ended) fun _ _ h => h) rfl events
    have hsame : changes = u.changes := hchanges.symm
    clear_value changes
    subst hsame
    refine ⟨hold, fun area path hp => hended.elsewhere hp, fun hnone => ?_, fun hsome attempts => ?_, fun hresult => ?_⟩
    · rcases hended.safe hold with hrec | hdone
      · cases hrec.pending.symm.trans hnone
      · exact hdone.2
    · have hresume : Resumable u s after := by
        refine ⟨.inl ?_, fun area path hp => hended.elsewhere hp⟩
        exact (hended.safe hold).resolve_right fun h => hsome h.1
      have hlater := hresume.reruns howned attempts
      refine ⟨hlater.elsewhere, fun hnone => ?_, fun hpending smooth hsmooth => ?_⟩
      · rcases hlater.safe with hrec | hdone
        · cases hrec.pending.symm.trans hnone
        · exact hdone.2
      · have hrec := hlater.safe.resolve_right fun h => hpending h.1
        obtain ⟨result, last, hrun, rfl, _, hall, hclear⟩ :=
          (hrec.rollback_spec howned).returns rfl hsmooth fun e _ h => h.1 e rfl
        exact ⟨last, hrun, hall, hclear⟩
    · obtain ⟨_, hin, hnew, hclear⟩ := ((hspec ⟨s, events⟩ rfl).1 _ _ (Prod.ext hresult rfl)).1
      have hback := hin.rollback_spec howned hnew hclear
      refine ⟨hnew, fun others area path hp => ?_, fun smooth hsmooth => ?_⟩
      · have hroll : Rolling u after (finalStore (rollback host roots (some u.identifier)) after others) :=
          Triple.finalStore (hback.weaken (fun _ h => h) (fun _ _ h => h.2.1) fun _ _ h => h.2) rfl others
        exact (hroll.elsewhere area path hp).trans (hended.elsewhere hp)
      · obtain ⟨result, last, hrun, rfl, _, hall, _⟩ := hback.returns rfl hsmooth fun e _ h => h.1 e rfl
        exact ⟨last, hrun, hall⟩

def oldLoader : List UInt8 := [0x6f, 0x6c, 0x64, 0x20, 0x6c, 0x6f, 0x61, 0x64, 0x65, 0x72]

def newLoader : List UInt8 := [0x6e, 0x65, 0x77, 0x20, 0x6c, 0x6f, 0x61, 0x64, 0x65, 0x72]

def newRuntime : List UInt8 := [0x6e, 0x65, 0x77, 0x20, 0x72, 0x75, 0x6e, 0x74, 0x69, 0x6d, 0x65]

def laterLoader : List UInt8 := [0x6c, 0x61, 0x74, 0x65, 0x72, 0x20, 0x6c, 0x6f, 0x61, 0x64, 0x65, 0x72]

/-- The digests of the few contents on the sample media. -/
def sampleDigest (content : List UInt8) : Sha256 :=
  if content = oldLoader then ⟨"9aa2bd801c7163b8dc8a6668b43928b3ad16a19124f4e3e8dfb3e0db6ca607d8", by decide +kernel⟩
  else if content = newLoader then ⟨"4c01886ed6d326da2d438270b4b2fdf192088c0e5304a9ed29a8449aa41048cf", by decide +kernel⟩
  else if content = newRuntime then ⟨"54369245da376bccdbf7e4c1d6f89de06c976f8c8a95a0a0059fe97d92bb9ac7", by decide +kernel⟩
  else if content = laterLoader then ⟨"94a6429e5b0a406653b20a02cf470ac4704f3fc0a368690f281ae51ba2ec187d", by decide +kernel⟩
  else ⟨"e3b0c44298fc1c149afbf4c8996fb92427ae41e4649b934ca495991b7852b855", by decide +kernel⟩

def sampleHost : Host :=
  ⟨fun
    | .esp => ["EFI/BOOT/BOOTX64.EFI", "EFI/BOOT/BOOTIA32.EFI", "EFI/BOOT/BOOTAA64.EFI"]
    | .data => ["ventoy/ventoy.cpio"],
    String.toLower, sampleDigest, true⟩

/-- Media with a loader and no runtime, never updated before. -/
def sampleMedia : Store where
  file area path := if area = .esp ∧ path = "EFI/BOOT/BOOTX64.EFI" then some oldLoader else none
  staged _ _ _ := none
  backup _ _ _ := none
  marker _ _ := none
  manifest _ := none
  pending := none
  lock := none

def samplePayload : List PayloadItem :=
  [⟨.esp, "EFI/BOOT/BOOTX64.EFI", newLoader⟩, ⟨.data, "ventoy/ventoy.cpio", newRuntime⟩]

def sampleIdentifier : String := "00112233445566778899aabbccddeeff"

def sampleApply : UpdateM Outcome := apply sampleHost ⟨true⟩ samplePayload false sampleIdentifier fun _ => 1000000

/-- The process ends before the step with this number. -/
def stopsAt (step : Nat) : List Event := List.replicate step .done ++ [.stops]

/-- Interrupted between the runtime and the loader, and restored. -/
theorem sampleApply_recovers :
    ∃ last, rollback sampleHost ⟨true⟩ none ⟨finalStore sampleApply sampleMedia (stopsAt 9), []⟩ =
        (.ok sampleIdentifier, last) ∧
      AllOld (plannedChanges sampleHost ⟨true⟩ sampleMedia samplePayload) last.store ∧ last.store.pending = none := by
  have h := interrupted_update_recovers sampleHost ⟨true⟩ samplePayload false sampleIdentifier (fun _ => 1000000)
    (stopsAt 9) sampleMedia (by decide +kernel) rfl
  have hpending : (finalStore sampleApply sampleMedia (stopsAt 9)).pending ≠ none := by decide +kernel
  exact (h.2.2.2.1 hpending []).2.2 hpending [] (by decide)

end NextBoot.MediaUpdate
