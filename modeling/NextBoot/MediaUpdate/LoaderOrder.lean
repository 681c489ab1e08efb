import NextBoot.MediaUpdate.Runs

namespace NextBoot.MediaUpdate

open Results CrashLogic

variable {host : Host} {roots : Roots} {u : Update host} {s s₀ : Store}

/-- A restoration that starts here shows no new loader with an old file it depends on: no loader is new, or only loaders
are restored. -/
def RestoreSafe (changes : List Change) (s : Store) : Prop :=
  (∀ c ∈ changes, c.entry.area = .esp → c.file s ≠ some c.content) ∨ ∀ c ∈ changes, c.entry.area = .esp

theorem Rolling.loaders (h : Rolling u s₀ s) (hsafe : RestoreSafe u.changes s₀) : LoadersFollow u.changes s := by
  intro c hc hesp hnew d hd hdata
  rcases hsafe with hold | honly
  · rcases h.targets c hc with hf | hf
    · exact absurd (hf.symm.trans hnew) (hold c hc hesp)
    · exact absurd (hf.symm.trans hnew) (u.valid c hc).original_ne
  · cases (honly d hd).symm.trans hdata

theorem AllOld.loaders (h : AllOld u.changes s) : LoadersFollow u.changes s :=
  fun c hc _ hnew => absurd ((h c hc).symm.trans hnew) (u.valid c hc).original_ne

/-- The publishing part of an `apply` fails in this state, and the failure recovery starts. -/
def RecoveryStarts (host : Host) (roots : Roots) (payload : List PayloadItem) (identifier : String) (s : Store)
    (events : List Event) (s₁ : Store) : Prop :=
  let changes := plannedChanges host roots s payload
  ∃ locked prepared failed stop, updateLock ⟨s, events⟩ = (.ok (), locked) ∧
    prepare host identifier changes locked = (.ok (), prepared) ∧
    publish host roots identifier changes prepared = (.error stop, failed) ∧ stop ≠ .interrupted ∧ failed.store = s₁

/-- A run of `apply` keeps the order when its recovery, if it comes to one, starts in a safe state. -/
theorem applyLocked_loaders (howned : Owned host roots u.changes) (hpend : s.pending = none) (hold : AllOld u.changes s)
    {payload : List PayloadItem} {changes : List Change} (hplan : plan host roots s payload = .ok changes)
    (hchanges : u.changes = dependencyOrder changes) (free : Area → Nat) (events : List Event)
    (hsafe : ∀ s₁, RecoveryStarts host roots payload u.identifier s events s₁ → RestoreSafe u.changes s₁) :
    LoadersFollow u.changes (finalStore (applyLocked host roots payload u.identifier free) s events) := by
  have hplanned : plannedChanges host roots s payload = u.changes := by rw [plannedChanges, hplan, hchanges]
  have hlocked : ∀ s', Locked s s' → LoadersFollow u.changes s' := by
    intro s' hs'
    refine AllOld.loaders fun c hc => ?_
    rw [Change.file, hs'.file]
    exact hold c hc
  have hwaiting : ∀ s', Waiting u s s' ∨ InFlight u s s' → LoadersFollow u.changes s' := by
    rintro s' (hs' | hs')
    · refine AllOld.loaders fun c hc => ?_
      rw [Change.file, hs'.1.file]
      exact hold c hc
    · exact hs'.loaders
  rw [finalStore, applyLocked]
  have hlock := lock_spec (X := fun _ => Locked s) (fun s' hs' => ⟨hs', hs'⟩) ⟨s, events⟩ rfl
  rcases hrun : updateLock ⟨s, events⟩ with ⟨_ | _, locked⟩
  · rw [bind_of_error hrun]
    exact hlocked _ (hlock.2 _ _ hrun).1
  rw [bind_of_ok hrun]
  have hstart : Locked s locked.store := (hlock.1 _ _ hrun).1
  have hearly : Early u s locked.store := hstart.early hpend
  have hplan' : plan host roots locked.store payload = .ok changes := (planFrom_congr hearly.1.file [] payload).trans hplan
  have hnone : ¬ locked.store.pending ≠ none := not_not.mpr hearly.1.pending
  have hfetch : (fetch : UpdateM Store) locked = (.ok locked.store, locked) := rfl
  rw [bind_of_ok hfetch, raiseIf, if_neg hnone, hplan']
  change LoadersFollow u.changes ((if (dependencyOrder changes).isEmpty = true then _ else _ : UpdateM Outcome) locked).2.store
  rw [← hchanges, if_neg (by simpa using u.nonempty)]
  rcases hspace : checkSpace host u.changes free with _ | _
  · exact hlocked _ hstart
  have hpass : (ofExcept (.ok ()) : UpdateM Unit) locked = (.ok (), locked) := rfl
  have hprep := prepare_spec hold locked hearly
  rcases hrun₁ : prepare host u.identifier u.changes locked with ⟨_ | _, prepared⟩
  · rw [bind_of_ok hpass, bind_of_error hrun₁]
    exact hwaiting _ (hprep.2 _ _ hrun₁).1.2
  rw [bind_of_ok hpass, bind_of_ok hrun₁]
  have hpub := publish_spec howned prepared (hprep.1 _ _ hrun₁).1
  rcases hrun₂ : publish host roots u.identifier u.changes prepared with ⟨stop | _, failed⟩
  · have hin := (hpub.2 _ _ hrun₂).1.2
    by_cases hstop : stop = .interrupted
    · subst hstop
      have hcut : attempt (publish host roots u.identifier u.changes) (recover host roots u.identifier) prepared =
          (.error .interrupted, failed) := by rw [attempt, hrun₂]
      rw [bind_of_error hcut]
      exact hin.loaders
    · have hstarts : RecoveryStarts host roots payload u.identifier s events failed.store := by
        refine ⟨locked, prepared, failed, stop, hrun, ?_, ?_, hstop, rfl⟩
        · rw [hplanned]
          exact hrun₁
        · rw [hplanned]
          exact hrun₂
      have hrec := (recover_spec howned hin stop) failed rfl
      rcases hrun₃ : recover host roots u.identifier stop failed with ⟨_ | _, last⟩
      · rw [bind_of_error ((attempt_of_stop hrun₂ hstop).trans hrun₃)]
        exact (hrec.2 _ _ hrun₃).1.1.loaders (hsafe _ hstarts)
      · exact (hrec.1 _ _ hrun₃).1.elim
  · have hdone : attempt (publish host roots u.identifier u.changes) (recover host roots u.identifier) prepared =
        (.ok (), failed) := by rw [attempt, hrun₂]
    rw [bind_of_ok hdone]
    exact (hpub.1 _ _ hrun₂).1.1.loaders

/-- What holds of an update while its loaders follow the files they depend on. -/
structure Orderly (u : Update host) (s : Store) : Prop where
  stored : Stored u s
  named : s.Names u.identifier → s.pending = some (u.journal .prepared)
  oldOrNew : OldOrNew u.changes s
  loaders : LoadersFollow u.changes s

theorem Tracked.orderly (h : Tracked u s) (hl : LoadersFollow u.changes s) : Orderly u s :=
  ⟨h.stored, fun hname => (h.named hname).1, h.oldOrNew, hl⟩

theorem Orderly.locked (h : Orderly u s₀) (hs : Locked s₀ s) : Orderly u s := by
  refine ⟨h.stored.locked hs, ?_, ?_, ?_⟩
  · rw [hs]
    exact h.named
  · rw [hs]
    exact h.oldOrNew
  · rw [hs]
    exact h.loaders

theorem Orderly.rolling (h : Orderly u s₀) (hs : Rolling u s₀ s) (hsafe : RestoreSafe u.changes s₀) {status : Status}
    (hm : s₀.manifest u.identifier = some (u.journal status)) (harch : Archived u s₀) : Orderly u s := by
  refine ⟨.inr (hs.stored hm harch), fun ⟨j, hj, hname⟩ => ?_, hs.oldOrNew h.oldOrNew, hs.loaders hsafe⟩
  rcases hs.pending with hsame | ⟨hnone, _⟩
  · exact hsame.trans (h.named ⟨j, hsame.symm.trans hj, hname⟩)
  · cases hnone.symm.trans hj

theorem Orderly.bystander (h : Orderly u s₀) (hs : Bystander u.identifier s₀ s)
    (hfiles : ∀ c ∈ u.changes, c.file s = c.file s₀) : Orderly u s := by
  refine ⟨h.stored.bystander hs, hs.pending_eq h.named, fun c hc => ?_, fun c hc hesp hnew d hd hdata => ?_⟩
  · rw [hfiles c hc]
    exact h.oldOrNew c hc
  · rw [hfiles d hd]
    exact h.loaders c hc hesp ((hfiles c hc).symm.trans hnew) d hd hdata

/-- Every restoration of the update starts in a safe state, and other operations leave its targets alone. -/
def RestoresSafely (host : Host) (id : String) (changes : List Change) : Store → List (Operation × List Event) → Prop
  | _, [] => True
  | s, q :: run =>
      (q.1.restores s = some id → RestoreSafe changes s) ∧
        (q.1.restores s ≠ some id → ∀ c ∈ changes, c.file (Operation.after host s q) = c.file s) ∧
        RestoresSafely host id changes (Operation.after host s q) run

theorem Orderly.after (h : Orderly u s) {op : Operation} {events : List Event} (hdrawn : op.drawn ≠ some u.identifier)
    (hown : op.restores s = some u.identifier → RestoreSafe u.changes s)
    (hother : op.restores s ≠ some u.identifier →
      ∀ c ∈ u.changes, c.file (Operation.after host s (op, events)) = c.file s) :
    Orderly u (Operation.after host s (op, events)) := by
  by_cases hrestores : op.restores s = some u.identifier
  · cases op with
    | apply roots payload dryRun identifier free => cases hrestores
    | rollback roots identifier =>
        have hcases := @rollback_cases host roots u s h.stored h.named h.oldOrNew identifier hrestores
        rcases hcases with hspec | ⟨⟨status, hm⟩, harch, hspec⟩
        · exact Triple.finalStore (P := (· = s)) (hspec.weaken (fun _ h => h) (fun _ _ h => h.elim)
            fun _ _ h' => h.locked h') rfl events
        · exact Triple.finalStore (P := (· = s)) (hspec.weaken (fun _ h => h)
            (fun _ _ h' => h.rolling h'.2.1 (hown hrestores) hm harch)
            fun _ _ h' => h.rolling h'.2 (hown hrestores) hm harch) rfl events
  · exact h.bystander (Operation.keeps hdrawn hrestores events) (hother hrestores)

theorem Orderly.exec (h : Orderly u s) {run : List (Operation × List Event)}
    (hdrawn : ∀ q ∈ run, q.1.drawn ≠ some u.identifier) (hrun : RestoresSafely host u.identifier u.changes s run) :
    Orderly u (exec host s run) := by
  induction run generalizing s with
  | nil => exact h
  | cons q run ih =>
      obtain ⟨hown, hother, hrest⟩ := hrun
      have hnext : Orderly u (Operation.after host s q) := h.after (hdrawn q List.mem_cons_self) hown hother
      exact ih hnext (fun p hp => hdrawn p (List.mem_cons_of_mem _ hp)) hrest

theorem orderly_apply {payload : List PayloadItem} {identifier : String} (hid : fullmatchHex 32 identifier = true)
    (hunused : Unused identifier s) (hne : plannedChanges host roots s payload ≠ []) (free : Area → Nat)
    (events : List Event) (hsafe : ∀ s₁, RecoveryStarts host roots payload identifier s events s₁ →
      RestoreSafe (plannedChanges host roots s payload) s₁) :
    ∃ u : Update host, u.identifier = identifier ∧ u.changes = plannedChanges host roots s payload ∧
      Orderly u (finalStore (apply host roots payload false identifier free) s events) := by
  obtain ⟨u, rfl, hchanges, htracked⟩ := tracked_apply hid hunused hne free events
  rw [← hchanges] at hsafe
  refine ⟨u, rfl, hchanges, htracked.orderly ?_⟩
  have hold : AllOld u.changes s := hchanges ▸ plannedChanges_allOld host roots s payload
  cases hplan : plan host roots s payload with
  | error e =>
      rw [plannedChanges, hplan] at hne
      exact absurd rfl hne
  | ok changes =>
      rw [plannedChanges, hplan] at hchanges
      have howned : Owned host roots u.changes := by
        intro c hc
        rw [hchanges] at hc
        exact (planFrom_spec hplan).2.2 c ((dependencyOrder_perm changes).mem_iff.mp hc)
      by_cases hpend : s.pending = none
      · have hstart : apply host roots payload false u.identifier free ⟨s, events⟩ =
            applyLocked host roots payload u.identifier free ⟨s, events⟩ := by
          have hfetch : (fetch : UpdateM Store) ⟨s, events⟩ = (.ok s, ⟨s, events⟩) := rfl
          rw [apply, bind_of_ok hfetch, hplan]
          rfl
        rw [finalStore, hstart]
        exact applyLocked_loaders howned hpend hold hplan hchanges free events hsafe
      · have hlocked : Locked s (finalStore (apply host roots payload false u.identifier free) s events) :=
          Triple.finalStore (P := (· = s)) ((apply_refused hpend payload false u.identifier free).weaken (fun _ h => h)
            (fun _ _ h => h.elim) fun _ _ h' => h') rfl events
        refine AllOld.loaders fun c hc => ?_
        rw [Change.file, hlocked.file]
        exact hold c hc

/-- In every run in which the update is only restored from safe states, no loader is new while a file it depends on is
not. -/
theorem loaders_follow_runtime (host : Host) (s : Store) (before later : List (Operation × List Event)) (roots : Roots)
    (payload : List PayloadItem) (identifier : String) (free : Area → Nat) (events : List Event)
    (hid : fullmatchHex 32 identifier = true) (hunused : Unused identifier s)
    (hdrawn : ∀ q ∈ before ++ later, q.1.drawn ≠ some identifier) :
    let start := exec host s before
    let changes := plannedChanges host roots start payload
    let applied := Operation.after host start (.apply roots payload false identifier free, events)
    (∀ s₁, RecoveryStarts host roots payload identifier start events s₁ → RestoreSafe changes s₁) →
      RestoresSafely host identifier changes applied later → LoadersFollow changes (exec host applied later) := by
  intro start changes applied hsafe hrun
  have hstart : Unused identifier start := hunused.exec fun q hq => hdrawn q (List.mem_append_left _ hq)
  by_cases hne : changes = []
  · intro c hc
    rw [hne] at hc
    cases hc
  obtain ⟨u, rfl, hchanges, horderly⟩ := orderly_apply hid hstart hne free events hsafe
  have hsame : changes = u.changes := hchanges.symm
  clear_value changes
  subst hsame
  exact (horderly.exec (fun q hq => hdrawn q (List.mem_append_right _ hq)) hrun).loaders

/-- Interrupted before its loader is replaced, and restored. -/
theorem sampleRun_follows_runtime :
    LoadersFollow (plannedChanges sampleHost ⟨true⟩ sampleMedia samplePayload)
      (exec sampleHost sampleMedia [(sampleFirst, stopsAt 9), (.rollback ⟨true⟩ none, [])]) := by
  have hpending : ((Operation.after sampleHost sampleMedia (sampleFirst, stopsAt 9)).pending.map (·.id)) =
      some sampleIdentifier := by decide +kernel
  have hcut : ((prepare sampleHost sampleIdentifier (plannedChanges sampleHost ⟨true⟩ sampleMedia samplePayload) >>=
      fun _ => publish sampleHost ⟨true⟩ sampleIdentifier (plannedChanges sampleHost ⟨true⟩ sampleMedia samplePayload))
      (updateLock ⟨sampleMedia, stopsAt 9⟩).2).1 = .error .interrupted := by decide +kernel
  refine loaders_follow_runtime sampleHost sampleMedia [] [(.rollback ⟨true⟩ none, [])] ⟨true⟩ samplePayload
    sampleIdentifier (fun _ => 1000000) (stopsAt 9) (by decide +kernel) ⟨rfl, fun ⟨_, h, _⟩ => nomatch h⟩ ?_ ?_ ?_
  · intro q hq
    rw [List.nil_append, List.mem_singleton] at hq
    subst hq
    nofun
  · rintro s₁ ⟨locked, prepared, failed, stop, hlock, hprep, hpub, hstop, -⟩
    rw [exec, List.foldl_nil] at hlock hprep hpub
    rw [hlock, bind_of_ok hprep, hpub] at hcut
    cases hcut
    exact absurd rfl hstop
  · refine ⟨fun _ => .inl ?_, fun hother => absurd hpending hother, trivial⟩
    decide +kernel

/-- Restoring in the order of publishing puts the runtime back first: after a rollback that is cut short, and after a
failure recovery that is, the new loader stands beside the old runtime. -/
theorem sampleRuns_loader_without_runtime :
    ¬ LoadersFollow (plannedChanges sampleHost ⟨true⟩ sampleMedia samplePayload)
        (exec sampleHost sampleMedia [(sampleFirst, stopsAt 10), (.rollback ⟨true⟩ none, stopsAt 1)]) ∧
      ¬ LoadersFollow (plannedChanges sampleHost ⟨true⟩ sampleMedia samplePayload)
        (exec sampleHost sampleMedia [(sampleFirst, List.replicate 10 .done ++ [.fails, .done, .stops])]) := by
  decide +kernel

end NextBoot.MediaUpdate
