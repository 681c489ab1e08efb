import NextBoot.MediaUpdate.Recovery

namespace NextBoot.MediaUpdate

open Results CrashLogic

variable {host : Host} {roots : Roots} {u : Update host} {s s₀ : Store} {id : String}

/-- The pending record names the transaction. -/
def Store.Names (s : Store) (id : String) : Prop := ∃ journal, s.pending = some journal ∧ journal.id = id

/-- What operations on other transactions leave of a transaction. -/
structure Bystander (id : String) (s₀ s : Store) : Prop where
  manifest : s.manifest id = s₀.manifest id
  marker : ∀ area, s.marker area id = s₀.marker area id
  backup : ∀ area index, s.backup area id index = s₀.backup area id index
  pending : s.pending = s₀.pending ∨ ¬ s₀.Names id ∧ ¬ s.Names id

theorem Locked.bystander (h : Locked s₀ s) : Bystander id s₀ s := by
  rw [h]
  exact ⟨rfl, fun _ => rfl, fun _ _ => rfl, .inl rfl⟩

theorem Bystander.unnamed (h : Bystander id s₀ s) (hs : ¬ s₀.Names id) : ¬ s.Names id := by
  rcases h.pending with hp | hp
  · rwa [Store.Names, hp]
  · exact hp.2

theorem Bystander.named (h : Bystander id s₀ s) (hs : s₀.Names id) : s.pending = s₀.pending :=
  h.pending.resolve_right fun hno => hno.1 hs

theorem Bystander.setManifest (h : Bystander id s₀ s) {t : String} (ht : t ≠ id) (journal : Journal) :
    Bystander id s₀ (s.setManifest t journal) := by
  refine ⟨?_, h.marker, h.backup, h.pending⟩
  simp only [Store.setManifest, if_neg ht.symm]
  exact h.manifest

theorem Bystander.setMarker (h : Bystander id s₀ s) {t : String} (ht : t ≠ id) (area : Area) (marker : Marker) :
    Bystander id s₀ (s.setMarker area t marker) := by
  refine ⟨h.manifest, fun a => ?_, h.backup, h.pending⟩
  simp only [Store.setMarker, ht.symm, and_false, if_false]
  exact h.marker a

theorem Bystander.setBackup (h : Bystander id s₀ s) {t : String} (ht : t ≠ id) (area : Area) (index : Nat)
    (content : List UInt8) : Bystander id s₀ (s.setBackup area t index content) := by
  refine ⟨h.manifest, h.marker, fun a i => ?_, h.pending⟩
  simp only [Store.setBackup, ht.symm, false_and, and_false, if_false]
  exact h.backup a i

theorem Bystander.setPending (h : Bystander id s₀ s) (hs : ¬ s.Names id) {journal : Option Journal}
    (hj : ∀ j, journal = some j → j.id ≠ id) : Bystander id s₀ (s.setPending journal) := by
  refine ⟨h.manifest, h.marker, h.backup, .inr ⟨?_, fun ⟨j, hset, hname⟩ => hj j hset hname⟩⟩
  rcases h.pending with hp | hp
  · rwa [Store.Names, ← hp]
  · exact hp.1

theorem finish_keeps {journal : Journal} (hid : journal.id ≠ id) (status : Status) :
    Keeps (Bystander id s₀) (finish journal status) := by
  refine Keeps.ofExcept_bind fun _ _ => Keeps.bind (Keeps.atomically fun s hs => hs.setManifest hid _) fun _ => ?_
  refine Triple.fetch_bind fun s hs => ?_
  cases hp : s.pending with
  | none => exact Triple.pure fun s' hs' => hs' ▸ hs
  | some p =>
      refine Triple.bind (Q := fun _ s' => s' = s ∧ p.id = journal.id) (Triple.raiseIf (fun _ s' hs' => hs' ▸ hs)
        fun hsame s' hs' => ⟨hs', not_not.mp hsame⟩) fun _ => Triple.atomically fun s' hs' => ?_
      obtain ⟨rfl, hsame⟩ := hs'
      have hunnamed : ¬ s'.Names id := by
        rintro ⟨q, hq, hname⟩
        cases hp.symm.trans hq
        exact hid (hsame.symm.trans hname)
      have hclear : Bystander id s₀ (s'.setPending none) := hs.setPending hunnamed (by simp)
      exact ⟨hclear, hs, hclear, hs⟩

theorem restore_keeps {journal : Journal} (hid : journal.id ≠ id) :
    Keeps (Bystander id s₀) (restore host roots journal) := by
  refine Keeps.fetch_bind fun _ _ => Keeps.ofExcept_bind fun _ _ => ?_
  refine Keeps.bind (Keeps.forM fun q _ => Keeps.ofExcept_bind fun _ _ => Keeps.fetch_bind fun _ _ => ?_) fun _ =>
    finish_keeps hid _
  split
  · exact Keeps.pure _
  · refine Keeps.bind (Keeps.atomically fun s hs => ?_) fun _ => Keeps.fetch_bind fun _ _ => Keeps.raiseIf _ _
    exact ⟨hs.manifest, hs.marker, hs.backup, hs.pending⟩

theorem loadJournal_spec {identifier : Option String} {journal : Journal}
    (h : loadJournal host roots s identifier = .ok journal) :
    readJournal s identifier = .ok journal ∧ (∀ i, identifier = some i → journal.id = i) ∧
      checkEntries host roots [] journal.entries = .ok () := by
  obtain ⟨j, hread, h⟩ := bind_eq_ok.mp h
  obtain ⟨_, _, h⟩ := bind_eq_ok.mp h
  obtain ⟨_, _, h⟩ := bind_eq_ok.mp h
  obtain ⟨_, hsame, h⟩ := bind_eq_ok.mp h
  obtain ⟨_, _, h⟩ := bind_eq_ok.mp h
  obtain ⟨_, hentries, h⟩ := bind_eq_ok.mp h
  obtain ⟨_, _, h⟩ := bind_eq_ok.mp h
  cases pure_eq_ok.mp h
  refine ⟨hread, fun i hi => ?_, hentries⟩
  have hboth := refuseIf_eq_ok.mp hsame
  rw [hi] at hboth
  simpa [eq_comm] using hboth

/-- The transaction an operation takes back, if any. -/
def restoredId (s : Store) : Option String → Option String
  | none => s.pending.map (·.id)
  | some identifier => some identifier

theorem rollback_keeps {identifier : Option String} (h : restoredId s₀ identifier ≠ some id) :
    Triple (· = s₀) (rollback host roots identifier) (fun _ => Bystander id s₀) fun _ => Bystander id s₀ := by
  refine Triple.bind (lock_spec fun s hs => ⟨hs.bystander, hs.bystander⟩) fun _ => Triple.fetch_bind fun s hs => ?_
  have hkeep : Bystander id s₀ s := hs.bystander
  refine Triple.ofExcept_cases (fun journal hload => ?_) fun _ _ s' hs' => hs' ▸ hkeep
  obtain ⟨hread, hsame, _⟩ := loadJournal_spec hload
  have hid : journal.id ≠ id := by
    rintro rfl
    apply h
    cases identifier with
    | none =>
        rw [hs] at hread
        exact congrArg (Option.map (·.id)) (someOr_eq_ok.mp hread)
    | some i => exact congrArg some (hsame i rfl).symm
  refine Triple.bind (Q := fun _ => (· = s)) (Triple.raiseIf (fun _ s' hs' => hs' ▸ hkeep) fun _ s' hs' => hs') fun _ => ?_
  exact Triple.bind ((restore_keeps hid).weaken (fun s' hs' => hs' ▸ hkeep) (fun _ s' h => h) fun _ s' h => h)
    fun _ => Keeps.pure _

theorem prepare_keeps {identifier : String} (hid : identifier ≠ id) (hs₀ : ¬ s₀.Names id) (changes : List Change) :
    Keeps (Bystander id s₀) (prepare host identifier changes) := by
  refine Keeps.bind (Keeps.forM fun area _ => Keeps.ofExcept_bind fun _ _ =>
    Keeps.atomically fun s hs => hs.setMarker hid _ _) fun _ => ?_
  refine Keeps.bind (Keeps.forM fun q _ => Keeps.ofExcept_bind fun _ _ => ?_) fun _ => Keeps.ofExcept_bind fun _ _ => ?_
  · refine Keeps.bind (Keeps.atomically fun s hs => ⟨hs.manifest, hs.marker, hs.backup, hs.pending⟩) fun _ => ?_
    refine Keeps.fetch_bind fun _ _ => Keeps.bind (Keeps.raiseIf _ _) fun _ => ?_
    cases q.1.original with
    | none => exact Keeps.pure _
    | some original =>
        refine Keeps.bind (Keeps.atomically fun s hs => hs.setBackup hid _ _ _) fun _ => ?_
        exact Keeps.fetch_bind fun _ _ => Keeps.raiseIf _ _
  · refine Keeps.bind (Keeps.atomically fun s hs => hs.setManifest hid _) fun _ => Keeps.atomically fun s hs => ?_
    refine hs.setPending (hs.unnamed hs₀) fun j hj => ?_
    cases hj
    exact hid

theorem publish_keeps {identifier : String} (hid : identifier ≠ id) (changes : List Change) :
    Keeps (Bystander id s₀) (publish host roots identifier changes) := by
  refine Keeps.bind (Keeps.forM fun q _ => Keeps.ofExcept_bind fun _ _ => Keeps.fetch_bind fun _ _ => ?_) fun _ =>
    finish_keeps hid _
  refine Keeps.bind (Keeps.raiseIf _ _) fun _ => Keeps.ofExcept_bind fun _ _ => Keeps.bind (Keeps.raiseIf _ _) fun _ => ?_
  refine Keeps.bind (Keeps.atomically fun s hs => ?_) fun _ => Keeps.fetch_bind fun _ _ => Keeps.raiseIf _ _
  exact ⟨hs.manifest, hs.marker, hs.backup, hs.pending⟩

theorem recover_keeps {identifier : String} (hs₀ : ¬ s₀.Names id) (failure : Stop UpdateError) :
    Keeps (Bystander id s₀) (recover host roots identifier failure) := by
  refine Keeps.bind (Keeps.attempt (Keeps.fetch_bind fun s hs => Keeps.ofExcept_bind fun journal hload => ?_)
    fun _ => Keeps.raise _) fun _ => Keeps.raise _
  refine restore_keeps fun hname => hs.unnamed hs₀ ⟨journal, ?_, hname⟩
  exact someOr_eq_ok.mp (loadJournal_spec hload).1

theorem apply_keeps {payload : List PayloadItem} {dryRun : Bool} {identifier : String} {free : Area → Nat}
    (hid : identifier ≠ id) :
    Triple (· = s₀) (apply host roots payload dryRun identifier free) (fun _ => Bystander id s₀)
      fun _ => Bystander id s₀ := by
  refine Triple.fetch_bind fun s hs => ?_
  subst hs
  have hself : ∀ s', s' = s → Bystander id s s' := by
    rintro s' rfl
    exact Locked.bystander rfl
  refine Triple.ofExcept_cases (fun _ _ => ?_) fun _ _ => hself
  split
  · exact Triple.bind (Q := fun _ => (· = s)) (Triple.raiseIf (fun _ => hself) fun _ s' hs' => hs')
      fun _ => Triple.pure hself
  refine Triple.bind (lock_spec fun s' hs' => ⟨hs'.bystander, hs'.bystander⟩) fun _ => Triple.fetch_bind fun s₁ hs₁ => ?_
  have hkeep : Bystander id s s₁ := hs₁.bystander
  refine Triple.bind (Q := fun _ s' => s' = s₁ ∧ s.pending = none) (Triple.raiseIf (fun _ s' hs' => hs' ▸ hkeep)
    fun hno s' hs' => ⟨hs', hs₁.pending.symm.trans (not_not.mp hno)⟩) fun _ => ?_
  intro session hsession
  obtain ⟨hstart, hpend⟩ := hsession
  have hs₀ : ¬ s.Names id := by
    rintro ⟨j, hj, -⟩
    cases hpend.symm.trans hj
  refine Keeps.ofExcept_bind (I := Bystander id s) (fun changes _ => ?_) session (hstart ▸ hkeep)
  simp only
  split
  · exact Keeps.pure _
  · refine Keeps.ofExcept_bind fun _ _ => Keeps.bind (prepare_keeps hid hs₀ _) fun _ => ?_
    exact Keeps.bind (Keeps.attempt (publish_keeps hid _) fun stop => recover_keeps hs₀ stop) fun _ => Keeps.pure _

/-- The entry points of the updater, each with what it is called with. -/
inductive Operation
  | apply (roots : Roots) (payload : List PayloadItem) (dryRun : Bool) (identifier : String) (free : Area → Nat)
  | rollback (roots : Roots) (identifier : Option String)

/-- The files after an operation, which may have been cut short. -/
def Operation.after (host : Host) (s : Store) : Operation × List Event → Store
  | (.apply roots payload dryRun identifier free, events) =>
      finalStore (MediaUpdate.apply host roots payload dryRun identifier free) s events
  | (.rollback roots identifier, events) => finalStore (MediaUpdate.rollback host roots identifier) s events

def exec (host : Host) (s : Store) (run : List (Operation × List Event)) : Store := run.foldl (Operation.after host) s

/-- The identifier an operation draws for a new transaction. -/
def Operation.drawn : Operation → Option String
  | .apply _ _ _ identifier _ => some identifier
  | .rollback _ _ => none

/-- The transaction an operation takes back, if any. -/
def Operation.restores (s : Store) : Operation → Option String
  | .apply _ _ _ _ _ => none
  | .rollback _ identifier => restoredId s identifier

theorem Operation.keeps {op : Operation} (hdrawn : op.drawn ≠ some id) (hrestores : op.restores s ≠ some id)
    (events : List Event) : Bystander id s (Operation.after host s (op, events)) := by
  cases op with
  | apply roots payload dryRun identifier free =>
      exact Triple.finalStore (apply_keeps fun h => hdrawn (congrArg some h)) rfl events
  | rollback roots identifier => exact Triple.finalStore (rollback_keeps hrestores) rfl events

/-- No trace of a transaction in the administration directories. -/
structure Unused (id : String) (s : Store) : Prop where
  manifest : s.manifest id = none
  unnamed : ¬ s.Names id

theorem Unused.after (h : Unused id s) {op : Operation} (hdrawn : op.drawn ≠ some id) (events : List Event) :
    Unused id (Operation.after host s (op, events)) := by
  by_cases hrestores : op.restores s = some id
  · cases op with
    | apply roots payload dryRun identifier free => cases hrestores
    | rollback roots identifier =>
        cases identifier with
        | none =>
            obtain ⟨journal, hp, hname⟩ := Option.map_eq_some_iff.mp hrestores
            exact absurd ⟨journal, hp, hname⟩ h.unnamed
        | some i =>
            cases hrestores
            have hlocked : Locked s (Operation.after host s (.rollback roots (some id), events)) := by
              refine Triple.finalStore (P := (· = s)) ((rollback_refused fun s' hs' journal hload => ?_).weaken
                (fun _ h => h) (fun _ _ h => h.elim) fun _ _ h => h) rfl events
              obtain ⟨_, _, hread⟩ := bind_eq_ok.mp (loadJournal_spec hload).1
              rw [hs'] at hread
              cases h.manifest.symm.trans (someOr_eq_ok.mp hread)
            rw [hlocked]
            exact ⟨h.manifest, h.unnamed⟩
  · have hkeep : Bystander id s (Operation.after host s (op, events)) := Operation.keeps hdrawn hrestores events
    exact ⟨hkeep.manifest.trans h.manifest, hkeep.unnamed h.unnamed⟩

theorem Unused.exec (h : Unused id s) {run : List (Operation × List Event)} (hdrawn : ∀ q ∈ run, q.1.drawn ≠ some id) :
    Unused id (exec host s run) := by
  induction run generalizing s with
  | nil => exact h
  | cons q run ih =>
      exact ih (h.after (hdrawn q List.mem_cons_self) q.2) fun p hp => hdrawn p (List.mem_cons_of_mem _ hp)

/-- What the administration directories know of an update. -/
def Stored (u : Update host) (s : Store) : Prop :=
  s.manifest u.identifier = none ∧ ¬ s.Names u.identifier ∨
    (∃ status, s.manifest u.identifier = some (u.journal status)) ∧ Archived u s

/-- What holds of an update from its `apply` on: it is pending and restorable, or all of its targets are in one
version. -/
structure Tracked (u : Update host) (s : Store) : Prop where
  stored : Stored u s
  named : s.Names u.identifier → s.pending = some (u.journal .prepared) ∧ OldOrNew u.changes s
  settled : ¬ s.Names u.identifier → AllOld u.changes s ∨ AllNew u.changes s

theorem Stored.locked (h : Stored u s₀) (hs : Locked s₀ s) : Stored u s := by
  rw [hs]
  exact h.imp_right fun h => ⟨h.1, h.2.markers, h.2.backups⟩

theorem Stored.bystander (h : Stored u s₀) (hs : Bystander u.identifier s₀ s) : Stored u s := by
  rcases h with ⟨hnone, hname⟩ | ⟨⟨status, hm⟩, harch⟩
  · exact .inl ⟨hs.manifest.trans hnone, hs.unnamed hname⟩
  · refine .inr ⟨⟨status, hs.manifest.trans hm⟩, fun c hc => (hs.marker _).trans (harch.markers c hc), fun q hq o ho => ?_⟩
    exact (hs.backup _ _).trans (harch.backups q hq o ho)

theorem Bystander.pending_eq (hs : Bystander id s₀ s) {journal : Journal}
    (h : s₀.Names id → s₀.pending = some journal) (hname : s.Names id) : s.pending = some journal := by
  have hname₀ : s₀.Names id := by
    by_contra hno
    exact hs.unnamed hno hname
  exact (hs.named hname₀).trans (h hname₀)

theorem Tracked.locked (h : Tracked u s₀) (hs : Locked s₀ s) : Tracked u s := by
  refine ⟨h.stored.locked hs, ?_, ?_⟩
  · rw [hs]
    exact h.named
  · rw [hs]
    exact h.settled

theorem Tracked.bystander (h : Tracked u s₀) (hs : Bystander u.identifier s₀ s)
    (hfiles : ∀ c ∈ u.changes, c.file s = c.file s₀) : Tracked u s := by
  refine ⟨h.stored.bystander hs, fun hname => ?_, fun hname => ?_⟩
  · have hname₀ : s₀.Names u.identifier := by
      by_contra hno
      exact hs.unnamed hno hname
    obtain ⟨hp, hold⟩ := h.named hname₀
    refine ⟨(hs.named hname₀).trans hp, fun c hc => ?_⟩
    rw [hfiles c hc]
    exact hold c hc
  · have hname₀ : ¬ s₀.Names u.identifier := by
      intro hyes
      apply hname
      rw [Store.Names, hs.named hyes]
      exact hyes
    rcases h.settled hname₀ with hold | hnew
    · exact .inl fun c hc => (hfiles c hc).trans (hold c hc)
    · exact .inr fun c hc => (hfiles c hc).trans (hnew c hc)

theorem Rolling.stored (hs : Rolling u s₀ s) {status : Status} (hm : s₀.manifest u.identifier = some (u.journal status))
    (harch : Archived u s₀) : (∃ status, s.manifest u.identifier = some (u.journal status)) ∧ Archived u s := by
  refine ⟨?_, hs.archived harch⟩
  rcases hs.ownManifest with hsame | hback
  · exact ⟨status, hsame.trans hm⟩
  · exact ⟨_, hback⟩

theorem checkEntries_owned {changes : List Change} {seen : List (Area × String)}
    (h : checkEntries host roots seen (changes.map (·.entry)) = .ok ()) : Owned host roots changes := by
  induction changes generalizing seen with
  | nil => simp [Owned]
  | cons c changes ih =>
      rw [List.map_cons, checkEntries, bind_eq_ok] at h
      obtain ⟨_, howned, h⟩ := h
      obtain ⟨_, _, h⟩ := bind_eq_ok.mp h
      obtain ⟨_, _, h⟩ := bind_eq_ok.mp h
      obtain ⟨_, _, h⟩ := bind_eq_ok.mp h
      intro d hd
      rcases List.mem_cons.mp hd with rfl | hd
      · exact howned
      · exact ih h d hd

/-- Taking back the update itself: it is refused, or it restores. -/
theorem rollback_cases (hstored : Stored u s) (hnamed : s.Names u.identifier → s.pending = some (u.journal .prepared))
    (hold : OldOrNew u.changes s) {identifier : Option String} (hid : restoredId s identifier = some u.identifier) :
    Triple (· = s) (rollback host roots identifier) (fun _ _ => False) (fun _ s' => Locked s s') ∨
      (∃ status, s.manifest u.identifier = some (u.journal status)) ∧ Archived u s ∧
        Triple (· = s) (rollback host roots identifier)
          (fun result s' => result = u.identifier ∧ Rolling u s s' ∧ AllOld u.changes s' ∧ s'.pending = none)
          fun stop s' => (∀ e, stop ≠ .raised e) ∧ Rolling u s s' := by
  by_cases hrefused : ∀ s', Locked s s' → ∀ journal, loadJournal host roots s' identifier = .ok journal →
      s'.pending.any (fun pending => pending.id ≠ journal.id) = true
  · exact .inl (rollback_refused hrefused)
  right
  -- A journal of this update was read, and no other one is pending.
  push Not at hrefused
  obtain ⟨s', hs', journal, hload, hpass⟩ := hrefused
  obtain ⟨hread', hsame, hentries⟩ := loadJournal_spec hload
  have hread : readJournal s identifier = .ok journal := by
    rw [hs'] at hread'
    cases identifier <;> exact hread'
  have hname : journal.id = u.identifier := by
    cases identifier with
    | none =>
        have hp := someOr_eq_ok.mp hread
        rw [restoredId, hp] at hid
        exact Option.some.inj hid
    | some i => exact (hsame i rfl).trans (Option.some.inj hid)
  have hpend : ∀ p, s.pending = some p → p.id = u.identifier := by
    intro p hp
    by_contra hne
    refine hpass ((Option.any_eq_true _ _).mpr ⟨p, hs'.pending.trans hp, decide_eq_true ?_⟩)
    rwa [hname]
  have hkept : (∃ status, s.manifest u.identifier = some (u.journal status)) ∧ Archived u s := by
    refine hstored.resolve_left fun ⟨hnone, hno⟩ => ?_
    cases identifier with
    | none => exact hno ⟨journal, someOr_eq_ok.mp hread, hname⟩
    | some i =>
        cases hid
        obtain ⟨_, _, hm⟩ := bind_eq_ok.mp hread
        cases hnone.symm.trans (someOr_eq_ok.mp hm)
  obtain ⟨⟨status, hm⟩, harch⟩ := hkept
  obtain ⟨read, rfl⟩ : ∃ read, journal = u.journal read := by
    cases identifier with
    | none =>
        have hp := someOr_eq_ok.mp hread
        exact ⟨.prepared, Option.some.inj (hp.symm.trans (hnamed ⟨journal, hp, hname⟩))⟩
    | some i =>
        cases hid
        obtain ⟨_, _, hr⟩ := bind_eq_ok.mp hread
        exact ⟨status, Option.some.inj ((someOr_eq_ok.mp hr).symm.trans hm)⟩
  refine ⟨⟨status, hm⟩, harch, rollback_spec (checkEntries_owned hentries) hold harch hpend ?_ hread⟩
  cases identifier with
  | none => exact .inl rfl
  | some i => exact .inr hid

theorem Tracked.oldOrNew (h : Tracked u s) : OldOrNew u.changes s := by
  by_cases hname : s.Names u.identifier
  · exact (h.named hname).2
  · rcases h.settled hname with hall | hall
    · exact fun c hc => .inl (hall c hc)
    · exact fun c hc => .inr (hall c hc)

theorem Tracked.rollback (h : Tracked u s) {identifier : Option String}
    (hid : restoredId s identifier = some u.identifier) {events : List Event}
    (hsmooth : ¬ s.Names u.identifier → Smooth events) :
    Tracked u (finalStore (rollback host roots identifier) s events) := by
  rcases rollback_cases h.stored (fun hname => (h.named hname).1) h.oldOrNew hid with hrefused | ⟨⟨status, hm⟩, harch, hspec⟩
  · exact Triple.finalStore (P := (· = s)) (hrefused.weaken (fun _ h => h) (fun _ _ h => h.elim)
      fun _ s' h' => h.locked h') rfl events
  have hdone : ∀ s', Rolling u s s' → AllOld u.changes s' → s'.pending = none → Tracked u s' := by
    intro s' hroll hall hclear
    have hno : ¬ s'.Names u.identifier := fun ⟨j, hj, _⟩ => nomatch hclear.symm.trans hj
    exact ⟨.inr (hroll.stored hm harch), fun hname => absurd hname hno, fun _ => .inl hall⟩
  by_cases hname : s.Names u.identifier
  · refine Triple.finalStore (P := (· = s)) (hspec.weaken (fun _ h => h) (fun _ s' h => hdone s' h.2.1 h.2.2.1 h.2.2.2)
      fun _ s' h' => ?_) rfl events
    obtain ⟨hp, _⟩ := h.named hname
    rcases h'.2.pending with hsame | ⟨hclear, hall⟩
    · refine ⟨.inr (h'.2.stored hm harch), fun _ => ⟨hsame.trans hp, h'.2.oldOrNew h.oldOrNew⟩, fun hno => ?_⟩
      exact absurd ⟨_, hsame.trans hp, rfl⟩ hno
    · exact hdone s' h'.2 hall hclear
  · obtain ⟨result, last, hrun, _, hroll, hall, hclear⟩ := hspec.returns rfl (hsmooth hname) fun e _ h => h.1 e rfl
    rw [finalStore, hrun]
    exact hdone _ hroll hall hclear

theorem apply_refused (h : s₀.pending ≠ none) (payload : List PayloadItem) (dryRun : Bool) (identifier : String)
    (free : Area → Nat) :
    Triple (· = s₀) (apply host roots payload dryRun identifier free) (fun _ _ => False) fun _ s => Locked s₀ s := by
  refine Triple.fetch_bind fun s hs => ?_
  subst hs
  have hself : ∀ s', s' = s → Locked s s' := by
    rintro s' rfl
    rfl
  refine Triple.ofExcept_cases (fun _ _ => ?_) fun _ _ => hself
  split
  · refine Triple.bind (Q := fun _ _ => False) (Triple.raiseIf (fun _ => hself) fun hno => absurd h hno) fun _ => ?_
    exact fun session hfalse => hfalse.elim
  · refine Triple.bind (lock_spec fun s' hs' => ⟨hs', hs'⟩) fun _ => Triple.fetch_bind fun s₁ hs₁ => ?_
    refine Triple.bind (Q := fun _ _ => False) (Triple.raiseIf (fun _ s' hs' => hs' ▸ hs₁) fun hno => ?_) fun _ => ?_
    · exact absurd (hs₁.pending.trans_ne h) hno
    · exact fun session hfalse => hfalse.elim

theorem Ended.tracked (h : Ended u s₀ s) (hunused : Unused u.identifier s₀) (hold : AllOld u.changes s₀) : Tracked u s := by
  have hsettled : ¬ s.Names u.identifier → AllOld u.changes s ∨ AllNew u.changes s := by
    intro hno
    rcases h.safe hold with hrec | hdone
    · exact absurd ⟨_, hrec.pending, rfl⟩ hno
    · exact hdone.2
  have hnamed : s.Names u.identifier → s.pending = some (u.journal .prepared) ∧ OldOrNew u.changes s := by
    rintro ⟨j, hj, _⟩
    rcases h.safe hold with hrec | hdone
    · exact ⟨hrec.pending, hrec.oldOrNew⟩
    · cases hdone.1.symm.trans hj
  refine ⟨?_, hnamed, hsettled⟩
  rcases h with ⟨hprep, hm | ⟨hm, harch⟩⟩ | ⟨s₁, hin, hroll, _⟩
  · exact .inl ⟨hm.trans hunused.manifest, fun ⟨j, hj, _⟩ => nomatch hprep.pending.symm.trans hj⟩
  · exact .inr ⟨⟨_, hm⟩, harch⟩
  · obtain ⟨status, hm⟩ := hin.manifest
    exact .inr (hroll.stored hm hin.archived)

/-- An update is tracked from its own `apply` on. -/
theorem tracked_apply {payload : List PayloadItem} {identifier : String} (hid : fullmatchHex 32 identifier = true)
    (hunused : Unused identifier s) (hne : plannedChanges host roots s payload ≠ []) (free : Area → Nat)
    (events : List Event) :
    ∃ u : Update host, u.identifier = identifier ∧ u.changes = plannedChanges host roots s payload ∧
      Tracked u (finalStore (apply host roots payload false identifier free) s events) := by
  cases hplan : plan host roots s payload with
  | error e =>
      rw [plannedChanges, hplan] at hne
      exact absurd rfl hne
  | ok changes =>
      rw [plannedChanges, hplan] at hne ⊢
      obtain ⟨u, rfl, hchanges, hold, howned⟩ := exists_update hplan hid hne
      refine ⟨u, rfl, hchanges, ?_⟩
      have hstart : Tracked u s :=
        ⟨.inl ⟨hunused.manifest, hunused.unnamed⟩, fun hname => absurd hname hunused.unnamed, fun _ => .inl hold⟩
      by_cases hpend : s.pending = none
      · exact Triple.finalStore (P := (· = s)) ((apply_spec howned hpend hold hplan hchanges free).weaken (fun _ h => h)
          (fun _ _ h => h.2.1.ended.tracked hunused hold) fun _ _ h => h.tracked hunused hold) rfl events
      · exact Triple.finalStore (P := (· = s)) ((apply_refused hpend payload false u.identifier free).weaken
          (fun _ h => h) (fun _ _ h => h.elim) fun _ s' h' => hstart.locked h') rfl events

/-- Since its `apply`, other operations have left the targets of an update alone, and its own rollbacks ran to their end
whenever it was not pending. -/
def Undisturbed (host : Host) (id : String) (changes : List Change) : Store → List (Operation × List Event) → Prop
  | _, [] => True
  | s, q :: run =>
      (q.1.restores s = some id → ¬ s.Names id → Smooth q.2) ∧
        (q.1.restores s ≠ some id → ∀ c ∈ changes, c.file (Operation.after host s q) = c.file s) ∧
        Undisturbed host id changes (Operation.after host s q) run

theorem Tracked.after (h : Tracked u s) {op : Operation} {events : List Event} (hdrawn : op.drawn ≠ some u.identifier)
    (hown : op.restores s = some u.identifier → ¬ s.Names u.identifier → Smooth events)
    (hother : op.restores s ≠ some u.identifier →
      ∀ c ∈ u.changes, c.file (Operation.after host s (op, events)) = c.file s) :
    Tracked u (Operation.after host s (op, events)) := by
  by_cases hrestores : op.restores s = some u.identifier
  · cases op with
    | apply roots payload dryRun identifier free => cases hrestores
    | rollback roots identifier => exact h.rollback hrestores (hown hrestores)
  · exact h.bystander (Operation.keeps hdrawn hrestores events) (hother hrestores)

theorem Tracked.exec (h : Tracked u s) {run : List (Operation × List Event)}
    (hdrawn : ∀ q ∈ run, q.1.drawn ≠ some u.identifier) (hrun : Undisturbed host u.identifier u.changes s run) :
    Tracked u (exec host s run) := by
  induction run generalizing s with
  | nil => exact h
  | cons q run ih =>
      obtain ⟨hown, hother, hrest⟩ := hrun
      have hnext : Tracked u (Operation.after host s q) := h.after (hdrawn q List.mem_cons_self) hown hother
      exact ih hnext (fun p hp => hdrawn p (List.mem_cons_of_mem _ hp)) hrest

/-- In every run, an update whose targets are in neither of their versions is pending, and no other one can start. -/
theorem mixed_update_is_pending (host : Host) (s : Store) (before later : List (Operation × List Event)) (roots : Roots)
    (payload : List PayloadItem) (identifier : String) (free : Area → Nat) (events : List Event)
    (hid : fullmatchHex 32 identifier = true) (hunused : Unused identifier s)
    (hdrawn : ∀ q ∈ before ++ later, q.1.drawn ≠ some identifier) :
    let start := exec host s before
    let changes := plannedChanges host roots start payload
    let applied := Operation.after host start (.apply roots payload false identifier free, events)
    let final := exec host applied later
    Undisturbed host identifier changes applied later → ¬ AllOld changes final → ¬ AllNew changes final →
      final.Names identifier ∧
        ∀ roots payload dryRun identifier free events,
          Locked final (Operation.after host final (.apply roots payload dryRun identifier free, events)) ∧
            ∀ outcome, (MediaUpdate.apply host roots payload dryRun identifier free ⟨final, events⟩).1 ≠ .ok outcome := by
  intro start changes applied final hrun hold hnew
  have hstart : Unused identifier start := hunused.exec fun q hq => hdrawn q (List.mem_append_left _ hq)
  have hne : changes ≠ [] := by
    intro hempty
    apply hold
    rw [hempty]
    intro c hc
    cases hc
  obtain ⟨u, rfl, hchanges, htracked⟩ := tracked_apply hid hstart hne free events
  have hsame : changes = u.changes := hchanges.symm
  clear_value changes
  subst hsame
  have hlast : Tracked u final := htracked.exec (fun q hq => hdrawn q (List.mem_append_right _ hq)) hrun
  have hnames : final.Names u.identifier := by
    by_contra hno
    exact (hlast.settled hno).elim hold hnew
  refine ⟨hnames, fun roots payload dryRun identifier free events => ?_⟩
  obtain ⟨journal, hpending, _⟩ := hnames
  have hpend : final.pending ≠ none := by simp [hpending]
  have hspec : Triple (· = final) (MediaUpdate.apply host roots payload dryRun identifier free) _ _ :=
    apply_refused hpend payload dryRun identifier free
  refine ⟨Triple.finalStore (hspec.weaken (fun _ h => h) (fun _ _ h => h.elim) fun _ _ h => h) rfl events, ?_⟩
  exact fun outcome h => ((hspec ⟨final, events⟩ rfl).1 outcome _ (Prod.ext h rfl)).1

def sampleFirst : Operation := .apply ⟨true⟩ samplePayload false sampleIdentifier fun _ => 1000000

/-- A later update of the loader alone. -/
def sampleSecond : Operation :=
  .apply ⟨true⟩ [⟨.esp, "EFI/BOOT/BOOTX64.EFI", laterLoader⟩] false "ffeeddccbbaa99887766554433221100" fun _ => 1000000

/-- A rollback cut short while its update is pending. -/
theorem sampleRun_names_update :
    (exec sampleHost sampleMedia [(sampleFirst, stopsAt 10), (.rollback ⟨true⟩ none, stopsAt 1)]).Names sampleIdentifier := by
  have hpending : ((Operation.after sampleHost sampleMedia (sampleFirst, stopsAt 10)).pending.map (·.id)) =
      some sampleIdentifier := by decide +kernel
  obtain ⟨journal, hj, hname⟩ := Option.map_eq_some_iff.mp hpending
  refine (mixed_update_is_pending sampleHost sampleMedia [] [(.rollback ⟨true⟩ none, stopsAt 1)] ⟨true⟩ samplePayload
    sampleIdentifier (fun _ => 1000000) (stopsAt 10) (by decide +kernel) ⟨rfl, fun ⟨_, h, _⟩ => nomatch h⟩ ?_ ?_ ?_ ?_).1
  · intro q hq
    rw [List.nil_append, List.mem_singleton] at hq
    subst hq
    nofun
  · exact ⟨fun _ hno => absurd ⟨journal, hj, hname⟩ hno, fun hother => absurd hpending hother, trivial⟩
  · decide +kernel
  · decide +kernel

/-- Neither a later update of one of the targets nor a rollback of a finished update that is cut short leaves a pending
record behind. -/
theorem sampleRuns_mixed_without_pending :
    (let changes := plannedChanges sampleHost ⟨true⟩ sampleMedia samplePayload
      let final := exec sampleHost sampleMedia [(sampleFirst, []), (sampleSecond, [])]
      ¬ AllOld changes final ∧ ¬ AllNew changes final ∧ final.pending = none) ∧
    (let changes := plannedChanges sampleHost ⟨true⟩ sampleMedia samplePayload
      let final := exec sampleHost sampleMedia
        [(sampleFirst, []), (.rollback ⟨true⟩ (some sampleIdentifier), stopsAt 1)]
      ¬ AllOld changes final ∧ ¬ AllNew changes final ∧ final.pending = none) := by
  decide +kernel

end NextBoot.MediaUpdate
