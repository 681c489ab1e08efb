import NextBoot.MediaUpdate.Plans

namespace NextBoot.MediaUpdate

open Results CrashLogic

variable {host : Host} {roots : Roots} {u : Update host} {s s₀ : Store}

/-- What restoring an update may have changed so far. -/
structure Rolling (u : Update host) (s₀ s : Store) : Prop where
  targets : ∀ change ∈ u.changes, change.file s = change.file s₀ ∨ change.file s = change.original
  elsewhere : ∀ area path, ¬ Targeted u.changes area path → s.file area path = s₀.file area path
  backup : s.backup = s₀.backup
  marker : s.marker = s₀.marker
  ownManifest : s.manifest u.identifier = s₀.manifest u.identifier ∨
    s.manifest u.identifier = some (u.journal .rolledBack)
  manifests : ∀ t, t ≠ u.identifier → s.manifest t = s₀.manifest t
  pending : s.pending = s₀.pending ∨ s.pending = none ∧ AllOld u.changes s

theorem Rolling.refl (u : Update host) (s : Store) : Rolling u s s :=
  ⟨fun _ _ => .inl rfl, fun _ _ _ => rfl, rfl, rfl, .inl rfl, fun _ _ => rfl, .inl rfl⟩

theorem Rolling.oldOrNew (h : Rolling u s₀ s) (hold : OldOrNew u.changes s₀) : OldOrNew u.changes s := by
  intro c hc
  rcases h.targets c hc with hf | hf
  · rw [hf]
    exact hold c hc
  · exact .inl hf

theorem Rolling.archived (h : Rolling u s₀ s) (harch : Archived u s₀) : Archived u s := by
  refine ⟨?_, ?_⟩
  · rw [h.marker]
    exact harch.markers
  · intro q hq original horig
    rw [h.backup]
    exact harch.backups q hq original horig

theorem Rolling.trans {s₁ : Store} (h₁ : Rolling u s₀ s₁) (h₂ : Rolling u s₁ s) : Rolling u s₀ s := by
  refine ⟨fun c hc => ?_, fun a p hp => (h₂.elsewhere a p hp).trans (h₁.elsewhere a p hp), h₂.backup.trans h₁.backup,
    h₂.marker.trans h₁.marker, ?_, fun t ht => (h₂.manifests t ht).trans (h₁.manifests t ht), ?_⟩
  · rcases h₂.targets c hc with hf | hf
    · rw [hf]
      exact h₁.targets c hc
    · exact .inr hf
  · rcases h₂.ownManifest with hm | hm
    · rw [hm]
      exact h₁.ownManifest
    · exact .inr hm
  · rcases h₂.pending with hp | hp
    · rcases h₁.pending with hp₁ | ⟨hp₁, hold⟩
      · exact .inl (hp.trans hp₁)
      · refine .inr ⟨hp.trans hp₁, fun c hc => ?_⟩
        rcases h₂.targets c hc with hf | hf
        · exact hf.trans (hold c hc)
        · exact hf
    · exact .inr hp

theorem Change.file_setFile_self (c : Change) (s : Store) (content : Option (List UInt8)) :
    c.file (s.setFile c.entry.area c.entry.path content) = content := by
  simp [Change.file, Store.setFile]

theorem Update.file_setFile_other (u : Update host) {c d : Change} (hc : c ∈ u.changes) (hd : d ∈ u.changes)
    (hne : d ≠ c) (s : Store) (content : Option (List UInt8)) :
    d.file (s.setFile c.entry.area c.entry.path content) = d.file s := by
  have hnot : ¬ (d.entry.area = c.entry.area ∧ d.entry.path = c.entry.path) :=
    fun h => hne (u.eq_of_same_target hd hc h.1 h.2)
  simp only [Change.file, Store.setFile, if_neg hnot]

theorem Update.setFile_elsewhere (u : Update host) {c : Change} (hc : c ∈ u.changes) {area : Area} {path : String}
    (hp : ¬ Targeted u.changes area path) (s : Store) (content : Option (List UInt8)) :
    (s.setFile c.entry.area c.entry.path content).file area path = s.file area path := by
  have hnot : ¬ (area = c.entry.area ∧ path = c.entry.path) := fun h => hp ⟨c, hc, h.1.symm, h.2.symm⟩
  simp only [Store.setFile, if_neg hnot]

theorem Rolling.setFile (h : Rolling u s₀ s) (hpend : s.pending = s₀.pending) {c : Change} (hc : c ∈ u.changes) :
    Rolling u s₀ (s.setFile c.entry.area c.entry.path c.original) := by
  refine ⟨fun d hd => ?_, fun a p hp => ?_, h.backup, h.marker, h.ownManifest, h.manifests, .inl hpend⟩
  · by_cases hcd : d = c
    · subst hcd
      exact .inr (d.file_setFile_self s _)
    · rw [u.file_setFile_other hc hd hcd]
      exact h.targets d hd
  · rw [u.setFile_elsewhere hc hp]
    exact h.elsewhere a p hp

theorem Rolling.setManifest (h : Rolling u s₀ s) : Rolling u s₀ (s.setManifest u.identifier (u.journal .rolledBack)) := by
  refine ⟨h.targets, h.elsewhere, h.backup, h.marker, .inr ?_, fun t ht => ?_, h.pending⟩
  · simp [Store.setManifest]
  · rw [Store.setManifest]
    simp only [if_neg ht]
    exact h.manifests t ht

theorem Rolling.clearPending (h : Rolling u s₀ s) (hold : AllOld u.changes s) : Rolling u s₀ (s.setPending none) :=
  ⟨h.targets, h.elsewhere, h.backup, h.marker, h.ownManifest, h.manifests, .inr ⟨rfl, hold⟩⟩

/-- A step that records the end of a transaction and, if it is the pending one, clears the pending record. -/
theorem finish_spec {journal : Journal} {status : Status} {P : Store → Prop} {Q : Unit → Store → Prop}
    {X : Stop UpdateError → Store → Prop} (hid : fullmatchHex 32 journal.id = true)
    (hpend : ∀ s, P s → ∀ p, s.pending = some p → p.id = journal.id)
    (hbefore : ∀ s, P s → X .fault s ∧ X .interrupted s)
    (hmanifest : ∀ s, P s →
      X .fault (s.setManifest journal.id { journal with status := status }) ∧
      X .interrupted (s.setManifest journal.id { journal with status := status }))
    (hnone : ∀ s, P s → s.pending = none → Q () (s.setManifest journal.id { journal with status := status }))
    (hsome : ∀ s, P s →
      Q () ((s.setManifest journal.id { journal with status := status }).setPending none) ∧
      X .fault ((s.setManifest journal.id { journal with status := status }).setPending none)) :
    Triple P (finish journal status) Q X := by
  refine Triple.ofExcept_bind (transactionPath_eq_ok.mpr hid) ?_
  refine Triple.bind (Q := fun _ s' => ∃ s, P s ∧ s' = s.setManifest journal.id { journal with status := status })
    (Triple.atomically fun s hs => ⟨⟨s, hs, rfl⟩, (hbefore s hs).1, (hmanifest s hs).1, (hbefore s hs).2⟩) fun _ => ?_
  refine Triple.fetch_bind fun s' hs' => ?_
  obtain ⟨s, hs, rfl⟩ := hs'
  have hsame : (s.setManifest journal.id { journal with status := status }).pending = s.pending := rfl
  rw [hsame]
  cases hp : s.pending with
  | none =>
      refine Triple.pure fun s' hs' => ?_
      rw [hs']
      exact hnone s hs hp
  | some p =>
      refine Triple.bind (Q := fun _ s' => s' = s.setManifest journal.id { journal with status := status })
        (Triple.raiseIf (fun hne => absurd (hpend s hs p hp) hne) fun _ s' hs' => hs') fun _ => ?_
      refine Triple.atomically fun s' hs' => ?_
      rw [hs']
      exact ⟨(hsome s hs).1, (hmanifest s hs).1, (hsome s hs).2, (hmanifest s hs).2⟩

/-- How far the loop of `restore` has come. -/
structure Restored (u : Update host) (s₀ : Store) (before : List (Entry × Option (List UInt8))) (s : Store) :
    Prop where
  rolling : Rolling u s₀ s
  pending : s.pending = s₀.pending
  done : ∀ q ∈ before, s.file q.1.area q.1.path = q.2

theorem Restored.setFile {before : List (Entry × Option (List UInt8))} (h : Restored u s₀ before s)
    (hbefore : ∀ q ∈ before, ∃ d ∈ u.changes, q = (d.entry, d.original)) {c : Change} (hc : c ∈ u.changes) :
    Restored u s₀ (before ++ [(c.entry, c.original)]) (s.setFile c.entry.area c.entry.path c.original) := by
  refine ⟨h.rolling.setFile h.pending hc, h.pending, fun q hq => ?_⟩
  obtain ⟨d, hd, rfl⟩ : ∃ d ∈ u.changes, q = (d.entry, d.original) := by
    rcases List.mem_append.mp hq with hq | hq
    · exact hbefore q hq
    · exact ⟨c, hc, List.mem_singleton.mp hq⟩
  by_cases hcd : d = c
  · subst hcd
    exact d.file_setFile_self s _
  · refine (u.file_setFile_other hc hd hcd s c.original).trans ?_
    rcases List.mem_append.mp hq with hq | hq
    · exact h.done _ hq
    · have hsame := Prod.mk.inj (List.mem_singleton.mp hq)
      exact absurd (u.eq_of_same_target hd hc (by rw [hsame.1]) (by rw [hsame.1])) hcd

theorem restoreEntry_spec (howned : Owned host roots u.changes) (hold : OldOrNew u.changes s₀) {before : List (Entry × Option (List UInt8))}
    (hbefore : ∀ q ∈ before, ∃ d ∈ u.changes, q = (d.entry, d.original)) {c : Change} (hc : c ∈ u.changes) :
    Triple (Restored u s₀ before) (restoreEntry host roots c.entry c.original)
      (fun _ => Restored u s₀ (before ++ [(c.entry, c.original)]))
      fun stop s => (∀ e, stop ≠ .raised e) ∧ Rolling u s₀ s := by
  have hvalid := u.valid c hc
  refine Triple.ofExcept_bind (howned c hc) ?_
  refine Triple.fetch_bind fun s hs => ?_
  split
  · next heq =>
      refine Triple.pure fun s' hs' => ?_
      subst hs'
      refine ⟨hs.rolling, hs.pending, fun q hq => ?_⟩
      rcases List.mem_append.mp hq with hq | hq
      · exact hs.done q hq
      · rw [List.mem_singleton.mp hq]
        exact (hvalid.old_iff (hs.rolling.oldOrNew hold c hc)).mp heq
  · have hset := hs.setFile hbefore hc
    refine Triple.bind (Q := fun _ s' => s' = s.setFile c.entry.area c.entry.path c.original)
      (Triple.atomically fun s' hs' => ?_) fun _ => Triple.fetch_bind fun s' hs' => ?_
    · subst hs'
      exact ⟨rfl, ⟨fun e => nofun, hs.rolling⟩, ⟨fun e => nofun, hset.rolling⟩, fun e => nofun, hs.rolling⟩
    · subst hs'
      refine Triple.raiseIf (fun hne => ?_) fun _ s'' hs'' => hs'' ▸ hset
      have hdone := c.file_setFile_self s c.original
      exact absurd ((congrArg (fileDigest host) hdone).trans hvalid.oldDigest.symm) hne

theorem zip_map_map {α β γ : Type} (f : α → β) (g : α → γ) (l : List α) :
    (l.map f).zip (l.map g) = l.map fun a => (f a, g a) := by
  induction l with
  | nil => rfl
  | cons a l ih => simp [ih]

/-- Restoring an update whose backups are in place and whose targets are in one of their versions. -/
theorem restore_spec (howned : Owned host roots u.changes) (hold : OldOrNew u.changes s₀) (harch : Archived u s₀)
    (hpend : ∀ p, s₀.pending = some p → p.id = u.identifier) (status : Status) :
    Triple (· = s₀) (restore host roots (u.journal status))
      (fun _ s => Rolling u s₀ s ∧ AllOld u.changes s ∧ s.pending = none)
      fun stop s => (∀ e, stop ≠ .raised e) ∧ Rolling u s₀ s := by
  have horig := originalsFrom_eq_ok u.named u.valid howned hold harch.backups
  refine Triple.fetch_bind fun s hs => ?_
  subst hs
  refine Triple.ofExcept_bind horig ?_
  have hzip : (u.journal status).entries.zip (u.changes.map (·.original)) =
      u.changes.map fun c => (c.entry, c.original) := zip_map_map _ _ _
  rw [hzip]
  refine Triple.bind (P := (· = s)) (Q := fun _ => Restored u s (u.changes.map fun c => (c.entry, c.original))) ?_ fun _ => ?_
  · refine (Triple.forM (I := Restored u s) fun before q rest hl => ?_).weaken ?_ (fun _ _ h => h) (fun _ _ h => h)
    · have hq : q ∈ u.changes.map fun c => (c.entry, c.original) := by simp [hl]
      obtain ⟨c, hc, rfl⟩ := List.mem_map.mp hq
      refine restoreEntry_spec howned hold (fun q hq => ?_) hc
      have hq' : q ∈ u.changes.map fun c => (c.entry, c.original) := by simp [hl, hq]
      obtain ⟨d, hd, rfl⟩ := List.mem_map.mp hq'
      exact ⟨d, hd, rfl⟩
    · rintro s' rfl
      exact ⟨Rolling.refl u s', rfl, by simp⟩
  · have hallOld : ∀ s', Restored u s (u.changes.map fun c => (c.entry, c.original)) s' → AllOld u.changes s' :=
      fun s' hs' c hc => hs'.done _ (List.mem_map.mpr ⟨c, hc, rfl⟩)
    refine finish_spec u.named (fun s' hs' p hp => hpend p (hs'.pending ▸ hp)) (fun s' hs' => ?_) (fun s' hs' => ?_)
      (fun s' hs' hp => ?_) fun s' hs' => ?_
    · exact ⟨⟨fun e => nofun, hs'.rolling⟩, fun e => nofun, hs'.rolling⟩
    · exact ⟨⟨fun e => nofun, hs'.rolling.setManifest⟩, fun e => nofun, hs'.rolling.setManifest⟩
    · exact ⟨hs'.rolling.setManifest, hallOld s' hs', hp⟩
    · have hlast := hs'.rolling.setManifest.clearPending (hallOld s' hs')
      exact ⟨⟨hlast, hallOld s' hs', rfl⟩, fun e => nofun, hlast⟩

/-- The lock file is all that taking the lock can change. -/
theorem updateLock_spec {P : Store → Prop} {X : Stop UpdateError → Store → Prop}
    (hlock : ∀ s, P s → P (s.setLock [0x30])) (hx : ∀ s, P s → X .fault s ∧ X .interrupted s) :
    Triple P updateLock (fun _ => P) X := by
  refine Triple.fetch_bind fun s hs => ?_
  split
  · refine Triple.atomically fun s' hs' => ?_
    subst hs'
    exact ⟨hlock _ hs, (hx _ hs).1, (hx _ (hlock _ hs)).1, (hx _ hs).2⟩
  · refine Triple.pure fun s' hs' => ?_
    subst hs'
    exact hs

/-- The store when `rollback` starts to look at it. -/
def Locked (s₀ s : Store) : Prop := s = { s₀ with lock := s.lock }

theorem Locked.rolling (h : Locked s₀ s) : Rolling u s₀ s := by
  rw [h]
  exact ⟨fun _ _ => .inl rfl, fun _ _ _ => rfl, rfl, rfl, .inl rfl, fun _ _ => rfl, .inl rfl⟩

theorem lock_spec {X : Stop UpdateError → Store → Prop} (hx : ∀ s, Locked s₀ s → X .fault s ∧ X .interrupted s) :
    Triple (· = s₀) updateLock (fun _ => Locked s₀) X := by
  refine (updateLock_spec (P := Locked s₀) (fun s hs => ?_) hx).weaken (fun s hs => ?_) (fun _ _ h => h) fun _ _ h => h
  · rw [Locked, hs]
    rfl
  · rw [hs]
    rfl

theorem rollback_spec (howned : Owned host roots u.changes) (hold : OldOrNew u.changes s₀) (harch : Archived u s₀)
    (hpend : ∀ p, s₀.pending = some p → p.id = u.identifier) {status : Status} {identifier : Option String}
    (hid : identifier = none ∨ identifier = some u.identifier)
    (hread : readJournal s₀ identifier = .ok (u.journal status)) :
    Triple (· = s₀) (rollback host roots identifier)
      (fun result s => result = u.identifier ∧ Rolling u s₀ s ∧ AllOld u.changes s ∧ s.pending = none)
      fun stop s => (∀ e, stop ≠ .raised e) ∧ Rolling u s₀ s := by
  refine Triple.bind (lock_spec fun s hs => ⟨⟨fun e => nofun, hs.rolling⟩, fun e => nofun, hs.rolling⟩) fun _ => ?_
  refine Triple.fetch_bind fun s hs => ?_
  have hstart : Rolling u s₀ s := hs.rolling
  have hload : loadJournal host roots s identifier = .ok (u.journal status) := by
    refine (hstart.archived harch).loadJournal howned hid ?_
    rw [hs]
    cases identifier <;> exact hread
  have hpending : s.pending = s₀.pending := by rw [hs]
  refine Triple.ofExcept_bind hload ?_
  have hown : ∀ p, s.pending = some p → p.id = u.identifier := fun p hp => hpend p (hpending ▸ hp)
  refine Triple.bind (Q := fun _ => (· = s)) (Triple.raiseIf (fun hany => ?_) fun _ s' hs' => hs') fun _ => ?_
  · obtain ⟨p, hp, hne⟩ := (Option.any_eq_true _ _).mp hany
    exact absurd (hown p hp) (of_decide_eq_true hne)
  · have hrestore := (restore_spec howned (hstart.oldOrNew hold) (hstart.archived harch) hown status).weaken (fun s' h => h)
      (fun _ s' h => (⟨hstart.trans h.1, h.2⟩ : Rolling u s₀ s' ∧ AllOld u.changes s' ∧ s'.pending = none))
      fun stop s' h => (⟨h.1, hstart.trans h.2⟩ : (∀ e, stop ≠ .raised e) ∧ Rolling u s₀ s')
    exact Triple.bind hrestore fun _ => Triple.pure fun s' h => ⟨rfl, h⟩

end NextBoot.MediaUpdate
