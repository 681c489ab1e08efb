import NextBoot.MediaUpdate.Restore

namespace NextBoot.MediaUpdate

open Results CrashLogic

variable {host : Host} {roots : Roots} {u : Update host} {s s₀ : Store}

/-- Nothing of another transaction is touched. -/
structure OthersKept (identifier : String) (s₀ s : Store) : Prop where
  manifest : ∀ t, t ≠ identifier → s.manifest t = s₀.manifest t
  marker : ∀ area t, t ≠ identifier → s.marker area t = s₀.marker area t
  backup : ∀ area t index, t ≠ identifier → s.backup area t index = s₀.backup area t index

/-- No target has been written yet and there is no pending record. -/
structure Preparing (u : Update host) (s₀ s : Store) : Prop where
  kept : OthersKept u.identifier s₀ s
  file : s.file = s₀.file
  pending : s.pending = none

theorem Preparing.setMarker (h : Preparing u s₀ s) (area : Area) (marker : Marker) :
    Preparing u s₀ (s.setMarker area u.identifier marker) := by
  refine ⟨⟨h.kept.manifest, fun a t ht => ?_, h.kept.backup⟩, h.file, h.pending⟩
  simp only [Store.setMarker, ht, and_false, if_false]
  exact h.kept.marker a t ht

theorem Preparing.setStaged (h : Preparing u s₀ s) (area : Area) (index : Nat) (content : Option (List UInt8)) :
    Preparing u s₀ (s.setStaged area u.identifier index content) :=
  ⟨⟨h.kept.manifest, h.kept.marker, h.kept.backup⟩, h.file, h.pending⟩

theorem Preparing.setBackup (h : Preparing u s₀ s) (area : Area) (index : Nat) (content : List UInt8) :
    Preparing u s₀ (s.setBackup area u.identifier index content) := by
  refine ⟨⟨h.kept.manifest, h.kept.marker, fun a t i ht => ?_⟩, h.file, h.pending⟩
  simp only [Store.setBackup, ht, false_and, and_false, if_false]
  exact h.kept.backup a t i ht

/-- The states in which preparing an update can end early: the manifest is as it was. -/
def Early (u : Update host) (s₀ s : Store) : Prop :=
  Preparing u s₀ s ∧ s.manifest u.identifier = s₀.manifest u.identifier

theorem writeMarkers_spec :
    Triple (Early u s₀) (writeMarkers host u.identifier u.changes)
      (fun _ s => Early u s₀ s ∧ ∀ c ∈ u.changes, s.marker c.entry.area u.identifier = some ⟨u.identifier, c.entry.area⟩)
      fun stop s => (∀ e, stop ≠ .raised e) ∧ Early u s₀ s := by
  refine (Triple.forM (I := fun before s => Early u s₀ s ∧
    ∀ area ∈ before, s.marker area u.identifier = some ⟨u.identifier, area⟩) fun before area rest _ => ?_).weaken
    (fun s hs => ⟨hs, by simp⟩) (fun _ s hs => ⟨hs.1, fun c hc => hs.2 _ ?_⟩) fun _ _ h => h
  · refine Triple.ofExcept_bind (transactionPath_eq_ok.mpr u.named) (Triple.atomically fun s hs => ?_)
    have hset : Early u s₀ (s.setMarker area u.identifier ⟨u.identifier, area⟩) := ⟨hs.1.1.setMarker _ _, hs.1.2⟩
    refine ⟨⟨hset, fun a ha => ?_⟩, ⟨fun e => nofun, hs.1⟩, ⟨fun e => nofun, hset⟩, fun e => nofun, hs.1⟩
    by_cases hsame : a = area
    · subst hsame
      simp [Store.setMarker]
    · simp only [Store.setMarker, hsame, false_and, if_false]
      exact hs.2 a ((List.mem_append.mp ha).resolve_right fun h => hsame (List.mem_singleton.mp h))
  · rw [List.mem_filter, Bool.or_eq_true, List.any_eq_true]
    refine ⟨?_, .inl ⟨c, hc, by simp⟩⟩
    unfold Host.areas
    cases c.entry.area <;> split <;> simp

theorem zipIdx_apart {α : Type} {l : List α} {before rest : List (α × Nat)} {a : α × Nat}
    (h : l.zipIdx = before ++ a :: rest) : ∀ q ∈ before ++ rest, q.2 ≠ a.2 := by
  have hnodup : ((before ++ a :: rest).map Prod.snd).Nodup := by
    rw [← h, List.zipIdx_map_snd]
    exact List.nodup_range'
  rw [List.map_append, List.map_cons, List.nodup_middle, List.nodup_cons, ← List.map_append] at hnodup
  exact fun q hq heq => hnodup.1 (heq ▸ List.mem_map_of_mem hq)

/-- How far the staging loop has come. -/
structure Staged (u : Update host) (s₀ : Store) (before : List (Change × Nat)) (s : Store) : Prop where
  early : Early u s₀ s
  markers : ∀ c ∈ u.changes, s.marker c.entry.area u.identifier = some ⟨u.identifier, c.entry.area⟩
  staged : ∀ q ∈ before, s.staged q.1.entry.area u.identifier q.2 = some q.1.content
  backups : ∀ q ∈ before, ∀ original, q.1.original = some original →
    s.backup q.1.entry.area u.identifier q.2 = some original

theorem stageChange_spec {before rest : List (Change × Nat)} {q : Change × Nat}
    (hl : u.changes.zipIdx = before ++ q :: rest) :
    Triple (Staged u s₀ before) (stageChange host u.identifier q.2 q.1) (fun _ => Staged u s₀ (before ++ [q]))
      fun stop s => (∀ e, stop ≠ .raised e) ∧ Early u s₀ s := by
  have hq : q ∈ u.changes.zipIdx := by simp [hl]
  have hvalid := u.valid q.1 (List.fst_mem_of_mem_zipIdx hq)
  have happart : ∀ p ∈ before, p.2 ≠ q.2 := fun p hp => zipIdx_apart hl p (List.mem_append_left _ hp)
  refine Triple.ofExcept_bind (transactionPath_eq_ok.mpr u.named) ?_
  refine Triple.bind (Q := fun _ s => Staged u s₀ before s ∧
    s.staged q.1.entry.area u.identifier q.2 = some q.1.content) (Triple.atomically fun s hs => ?_) fun _ => ?_
  · have hearly : Early u s₀ (s.setStaged q.1.entry.area u.identifier q.2 (some q.1.content)) :=
      ⟨hs.early.1.setStaged _ _ _, hs.early.2⟩
    refine ⟨⟨⟨hearly, hs.markers, fun p hp => ?_, hs.backups⟩, by simp [Store.setStaged]⟩, ⟨fun e => nofun, hs.early⟩,
      ⟨fun e => nofun, hearly⟩, fun e => nofun, hs.early⟩
    simp only [Store.setStaged, happart p hp, and_false, if_false]
    exact hs.staged p hp
  refine Triple.fetch_bind fun s hs => ?_
  refine Triple.bind (Q := fun _ => (· = s)) (Triple.raiseIf (fun hne => ?_) fun _ s' hs' => hs') fun _ => ?_
  · rw [hs.2, hvalid.newDigest] at hne
    exact absurd rfl hne
  have hstaged : ∀ p ∈ before ++ [q], s.staged p.1.entry.area u.identifier p.2 = some p.1.content := by
    intro p hp
    rcases List.mem_append.mp hp with hp | hp
    · exact hs.1.staged p hp
    · rw [List.mem_singleton.mp hp]
      exact hs.2
  cases horig : q.1.original with
  | none =>
      refine Triple.pure fun s' hs' => ?_
      subst hs'
      refine ⟨hs.1.early, hs.1.markers, hstaged, fun p hp original hp' => ?_⟩
      rcases List.mem_append.mp hp with hp | hp
      · exact hs.1.backups p hp original hp'
      · rw [List.mem_singleton.mp hp, horig] at hp'
        cases hp'
  | some original =>
      have hearly : Early u s₀ (s.setBackup q.1.entry.area u.identifier q.2 original) :=
        ⟨hs.1.early.1.setBackup _ _ _, hs.1.early.2⟩
      refine Triple.bind (Q := fun _ => (· = s.setBackup q.1.entry.area u.identifier q.2 original))
        (Triple.atomically fun s' hs' => ?_) fun _ => Triple.fetch_bind fun s' hs' => ?_
      · subst hs'
        exact ⟨rfl, ⟨fun e => nofun, hs.1.early⟩, ⟨fun e => nofun, hearly⟩, fun e => nofun, hs.1.early⟩
      subst hs'
      refine Triple.raiseIf (fun hne => ?_) fun _ s' hs' => ?_
      · simp only [Store.setBackup, and_self, if_true] at hne
        rw [hvalid.oldDigest, horig] at hne
        exact absurd rfl hne
      · subst hs'
        refine ⟨hearly, hs.1.markers, hstaged, fun p hp content hp' => ?_⟩
        rcases List.mem_append.mp hp with hp | hp
        · simp only [Store.setBackup, happart p hp, and_false, if_false]
          exact hs.1.backups p hp content hp'
        · rw [List.mem_singleton.mp hp] at hp' ⊢
          simp only [Store.setBackup, and_self, if_true]
          exact horig.symm.trans hp'

/-- No loader is new while a file it depends on is not. -/
def LoadersFollow (changes : List Change) (s : Store) : Prop :=
  ∀ c ∈ changes, c.entry.area = .esp → c.file s = some c.content →
    ∀ d ∈ changes, d.entry.area = .data → d.file s = some d.content

instance (changes : List Change) (s : Store) : Decidable (LoadersFollow changes s) :=
  inferInstanceAs (Decidable (∀ c ∈ changes, c.entry.area = .esp → c.file s = some c.content →
    ∀ d ∈ changes, d.entry.area = .data → d.file s = some d.content))

/-- How far the loop that replaces the targets has come: those before are new, the others are as they were. -/
structure Published (u : Update host) (s₀ : Store) (before : List (Change × Nat)) (s : Store) : Prop where
  kept : OthersKept u.identifier s₀ s
  elsewhere : ∀ area path, ¬ Targeted u.changes area path → s.file area path = s₀.file area path
  archived : Archived u s
  manifest : s.manifest u.identifier = some (u.journal .prepared)
  pending : s.pending = some (u.journal .prepared)
  replaced : ∀ q ∈ before, q.1.file s = some q.1.content
  waiting : ∀ rest, u.changes.zipIdx = before ++ rest → ∀ q ∈ rest,
    q.1.file s = q.1.original ∧ s.staged q.1.entry.area u.identifier q.2 = some q.1.content

/-- The states in which an update can be between its pending record and its end. -/
structure InFlight (u : Update host) (s₀ s : Store) : Prop where
  kept : OthersKept u.identifier s₀ s
  elsewhere : ∀ area path, ¬ Targeted u.changes area path → s.file area path = s₀.file area path
  archived : Archived u s
  manifest : ∃ status, s.manifest u.identifier = some (u.journal status)
  loaders : LoadersFollow u.changes s
  phase : s.pending = some (u.journal .prepared) ∧ OldOrNew u.changes s ∨ s.pending = none ∧ AllNew u.changes s

theorem Published.inFlight {before rest : List (Change × Nat)} (h : Published u s₀ before s)
    (hl : u.changes.zipIdx = before ++ rest) : InFlight u s₀ s := by
  have hpos : ∀ c ∈ u.changes, ∃ i, (c, i) ∈ before ∨ (c, i) ∈ rest := by
    intro c hc
    rw [← List.zipIdx_map_fst 0 u.changes] at hc
    obtain ⟨q, hq, rfl⟩ := List.mem_map.mp hc
    rw [hl] at hq
    exact ⟨q.2, List.mem_append.mp hq⟩
  refine ⟨h.kept, h.elsewhere, h.archived, ⟨_, h.manifest⟩, fun c hc hesp hnew d hd hdata => ?_, .inl ⟨h.pending, ?_⟩⟩
  · -- A new loader is in front, and so is every change of the data volume.
    obtain ⟨i, hi⟩ := hpos c hc
    obtain ⟨j, hj⟩ := hpos d hd
    rcases hj with hj | hj
    · exact h.replaced _ hj
    · rcases hi with hi | hi
      · have hchanges : u.changes = before.map Prod.fst ++ rest.map Prod.fst := by
          rw [← List.map_append, ← hl, List.zipIdx_map_fst]
        have hpair := u.dependenciesFirst
        rw [hchanges, List.pairwise_append] at hpair
        have hafter := hpair.2.2 c (List.mem_map.mpr ⟨_, hi, rfl⟩) d (List.mem_map.mpr ⟨_, hj, rfl⟩) hesp
        rw [hdata] at hafter
        cases hafter
      · have hold := (h.waiting rest hl _ hi).1
        exact absurd (hold.symm.trans hnew) (u.valid c hc).original_ne
  · intro c hc
    obtain ⟨i, hi | hi⟩ := hpos c hc
    · exact .inr (h.replaced _ hi)
    · exact .inl (h.waiting rest hl _ hi).1

/-- The states in which `apply` can end before its pending record. -/
def Waiting (u : Update host) (s₀ s : Store) : Prop :=
  Preparing u s₀ s ∧
    (s.manifest u.identifier = s₀.manifest u.identifier ∨
      s.manifest u.identifier = some (u.journal .prepared) ∧ Archived u s)

theorem Staged.archived (h : Staged u s₀ u.changes.zipIdx s) : Archived u s := ⟨h.markers, h.backups⟩

theorem Preparing.setManifest (h : Preparing u s₀ s) (journal : Journal) :
    Preparing u s₀ (s.setManifest u.identifier journal) := by
  refine ⟨⟨fun t ht => ?_, h.kept.marker, h.kept.backup⟩, h.file, h.pending⟩
  simp only [Store.setManifest, if_neg ht]
  exact h.kept.manifest t ht

theorem Staged.published (h : Staged u s₀ u.changes.zipIdx s) (hold : AllOld u.changes s₀) :
    Published u s₀ [] ((s.setManifest u.identifier (u.journal .prepared)).setPending (some (u.journal .prepared))) := by
  have hprep := h.early.1.setManifest (u.journal .prepared)
  refine ⟨⟨hprep.kept.manifest, hprep.kept.marker, hprep.kept.backup⟩, fun a p _ => ?_, ⟨h.markers, h.backups⟩, by simp [Store.setManifest, Store.setPending], rfl, by simp,
    fun rest hl q hq => ?_⟩
  · exact congrFun (congrFun hprep.file a) p
  · rw [List.nil_append] at hl
    subst hl
    refine ⟨?_, h.staged q hq⟩
    rw [← hold q.1 (List.fst_mem_of_mem_zipIdx hq)]
    exact congrFun (congrFun hprep.file _) _

theorem prepare_spec (hold : AllOld u.changes s₀) :
    Triple (Early u s₀) (prepare host u.identifier u.changes) (fun _ => Published u s₀ [])
      fun stop s => (∀ e, stop ≠ .raised e) ∧ (Waiting u s₀ s ∨ InFlight u s₀ s) := by
  have hearly : ∀ (stop : Stop UpdateError) (s : Store), (∀ e, stop ≠ .raised e) ∧ Early u s₀ s →
      (∀ e, stop ≠ .raised e) ∧ (Waiting u s₀ s ∨ InFlight u s₀ s) :=
    fun stop s h => ⟨h.1, .inl ⟨h.2.1, .inl h.2.2⟩⟩
  refine Triple.bind (writeMarkers_spec.weaken (fun s h => h) (fun _ s h => h) hearly) fun _ => ?_
  refine Triple.bind (Q := fun _ => Staged u s₀ u.changes.zipIdx) ?_ fun _ => ?_
  · refine (Triple.forM (I := Staged u s₀) fun before q rest hl => stageChange_spec hl).weaken (fun s hs => ?_)
      (fun _ s h => h) hearly
    exact ⟨hs.1, hs.2, by simp, by simp⟩
  refine Triple.ofExcept_bind (transactionPath_eq_ok.mpr u.named) ?_
  have hwait : ∀ s, Staged u s₀ u.changes.zipIdx s → Waiting u s₀ (s.setManifest u.identifier (u.journal .prepared)) :=
    fun s hs => ⟨hs.early.1.setManifest _, .inr ⟨by simp [Store.setManifest], ⟨hs.markers, hs.backups⟩⟩⟩
  refine Triple.bind (Q := fun _ s' => ∃ s, Staged u s₀ u.changes.zipIdx s ∧
    s' = s.setManifest u.identifier (u.journal .prepared)) (Triple.atomically fun s hs => ?_) fun _ =>
    Triple.atomically fun s' hs' => ?_
  · have hstay : Waiting u s₀ s := ⟨hs.early.1, .inl hs.early.2⟩
    exact ⟨⟨s, hs, rfl⟩, ⟨Stop.fault_ne_raised, .inl hstay⟩, ⟨Stop.fault_ne_raised, .inl (hwait s hs)⟩,
      Stop.interrupted_ne_raised, .inl hstay⟩
  · obtain ⟨s, hs, rfl⟩ := hs'
    have hpub := hs.published hold
    exact ⟨hpub, ⟨Stop.fault_ne_raised, .inl (hwait s hs)⟩,
      ⟨Stop.fault_ne_raised, .inr (hpub.inFlight (List.nil_append _).symm)⟩, Stop.interrupted_ne_raised, .inl (hwait s hs)⟩

theorem Published.replace {before rest : List (Change × Nat)} {q : Change × Nat}
    (hl : u.changes.zipIdx = before ++ q :: rest) (h : Published u s₀ before s) :
    Published u s₀ (before ++ [q]) (s.replaceStaged q.1.entry.area u.identifier q.2 q.1.entry.path) := by
  have hmem : ∀ p, p ∈ before ++ q :: rest → p.1 ∈ u.changes := fun p hp => List.fst_mem_of_mem_zipIdx (hl ▸ hp)
  have hq : q.1 ∈ u.changes := hmem q (by simp)
  have hstaged := (h.waiting _ hl q List.mem_cons_self).2
  have hfile : ∀ d : Change, d.file (s.replaceStaged q.1.entry.area u.identifier q.2 q.1.entry.path) =
      d.file (s.setFile q.1.entry.area q.1.entry.path (some q.1.content)) := by
    intro d
    rw [← hstaged]
    rfl
  have hnew : q.1.file (s.replaceStaged q.1.entry.area u.identifier q.2 q.1.entry.path) = some q.1.content :=
    (hfile q.1).trans (q.1.file_setFile_self s _)
  refine ⟨⟨h.kept.manifest, h.kept.marker, h.kept.backup⟩, fun a p hp => ?_, ⟨h.archived.markers, h.archived.backups⟩,
    h.manifest, h.pending, fun p hp => ?_, fun rest' hl' p hp => ?_⟩
  · exact (u.setFile_elsewhere hq hp s _).trans (h.elsewhere a p hp)
  · rcases List.mem_append.mp hp with hp | hp
    · by_cases hsame : p.1 = q.1
      · rw [hsame]
        exact hnew
      · rw [hfile, u.file_setFile_other hq (hmem p (List.mem_append_left _ hp)) hsame]
        exact h.replaced p hp
    · rw [List.mem_singleton.mp hp]
      exact hnew
  · have hrest : rest' = rest := by
      rw [hl, List.append_assoc] at hl'
      exact (List.cons.inj (List.append_cancel_left hl')).2.symm
    subst hrest
    obtain ⟨hold, hwait⟩ := h.waiting _ hl p (List.mem_cons_of_mem _ hp)
    -- The targets are distinct, so a change that waits is another one than the change just made.
    have hne : p.1 ≠ q.1 := by
      intro hsame
      have hnodup := u.distinct
      rw [← List.zipIdx_map_fst 0 u.changes, hl, List.map_map, List.map_append, List.map_cons, List.nodup_middle,
        List.nodup_cons] at hnodup
      refine hnodup.1 (List.mem_append_right _ (List.mem_map.mpr ⟨p, hp, ?_⟩))
      simp only [Function.comp_apply, hsame]
    have hindex : p.2 ≠ q.2 := zipIdx_apart hl p (List.mem_append_right _ hp)
    refine ⟨?_, ?_⟩
    · rw [hfile, u.file_setFile_other hq (hmem p (by simp [hp])) hne]
      exact hold
    · simp only [Store.replaceStaged, Store.setStaged, Store.setFile, hindex, and_false, if_false]
      exact hwait

theorem publishChange_spec (howned : Owned host roots u.changes) {before rest : List (Change × Nat)} {q : Change × Nat}
    (hl : u.changes.zipIdx = before ++ q :: rest) :
    Triple (Published u s₀ before) (publishChange host roots u.identifier q.2 q.1)
      (fun _ => Published u s₀ (before ++ [q])) fun stop s => (∀ e, stop ≠ .raised e) ∧ InFlight u s₀ s := by
  have hq : q.1 ∈ u.changes := List.fst_mem_of_mem_zipIdx (show q ∈ u.changes.zipIdx by simp [hl])
  have hvalid := u.valid q.1 hq
  refine Triple.ofExcept_bind (howned q.1 hq) (Triple.fetch_bind fun s hs => ?_)
  obtain ⟨hold, hstaged⟩ := hs.waiting _ hl q List.mem_cons_self
  refine Triple.bind (Q := fun _ => (· = s)) (Triple.raiseIf (fun hne => ?_) fun _ s' hs' => hs') fun _ => ?_
  · exact absurd ((hvalid.old_iff (.inl hold)).mpr hold) hne
  refine Triple.ofExcept_bind (transactionPath_eq_ok.mpr u.named) ?_
  refine Triple.bind (Q := fun _ => (· = s)) (Triple.raiseIf (fun hnone => ?_) fun _ s' hs' => hs') fun _ => ?_
  · cases hnone.symm.trans hstaged
  have hnext := hs.replace hl
  have hbefore : InFlight u s₀ s := hs.inFlight hl
  have hafter := hnext.inFlight (show u.changes.zipIdx = before ++ [q] ++ rest by simp [hl])
  refine Triple.bind (Q := fun _ => (· = s.replaceStaged q.1.entry.area u.identifier q.2 q.1.entry.path))
    (Triple.atomically fun s' hs' => ?_) fun _ => Triple.fetch_bind fun s' hs' => ?_
  · subst hs'
    exact ⟨rfl, ⟨fun e => nofun, hbefore⟩, ⟨fun e => nofun, hafter⟩, fun e => nofun, hbefore⟩
  · subst hs'
    refine Triple.raiseIf (fun hne => ?_) fun _ s'' hs'' => hs'' ▸ hnext
    have hnew := hnext.replaced q (by simp)
    exact absurd ((congrArg (fileDigest host) hnew).trans (congrArg some hvalid.newDigest.symm)) hne

theorem publish_spec (howned : Owned host roots u.changes) :
    Triple (Published u s₀ []) (publish host roots u.identifier u.changes)
      (fun _ s => InFlight u s₀ s ∧ AllNew u.changes s ∧ s.pending = none)
      fun stop s => (∀ e, stop ≠ .raised e) ∧ InFlight u s₀ s := by
  refine Triple.bind (Triple.forM fun before q rest hl => publishChange_spec howned hl) fun _ => ?_
  have hall : ∀ s, Published u s₀ u.changes.zipIdx s → AllNew u.changes s := by
    intro s hs c hc
    rw [← List.zipIdx_map_fst 0 u.changes] at hc
    obtain ⟨q, hq, rfl⟩ := List.mem_map.mp hc
    exact hs.replaced q hq
  have hfollow : ∀ s, AllNew u.changes s → LoadersFollow u.changes s := fun s hs _ _ _ _ d hd _ => hs d hd
  have hlater : ∀ s, Published u s₀ u.changes.zipIdx s →
      InFlight u s₀ (s.setManifest u.identifier (u.journal .committed)) := by
    intro s hs
    refine ⟨⟨fun t ht => ?_, hs.kept.marker, hs.kept.backup⟩, hs.elsewhere, ⟨hs.archived.markers, hs.archived.backups⟩,
      ⟨.committed, by simp [Store.setManifest]⟩, hfollow _ (hall s hs), .inl ⟨hs.pending, fun c hc => .inr (hall s hs c hc)⟩⟩
    simp only [Store.setManifest, if_neg ht]
    exact hs.kept.manifest t ht
  have hlast : ∀ s, Published u s₀ u.changes.zipIdx s →
      InFlight u s₀ ((s.setManifest u.identifier (u.journal .committed)).setPending none) := by
    intro s hs
    have h := hlater s hs
    exact ⟨⟨h.kept.manifest, h.kept.marker, h.kept.backup⟩, h.elsewhere, ⟨h.archived.markers, h.archived.backups⟩,
      h.manifest, h.loaders, .inr ⟨rfl, hall s hs⟩⟩
  refine finish_spec u.named (fun s hs p hp => ?_) (fun s hs => ?_) (fun s hs => ?_) (fun s hs hnone => ?_) fun s hs => ?_
  · rw [hs.pending] at hp
    cases hp
    rfl
  · have h := hs.inFlight (List.append_nil _).symm
    exact ⟨⟨Stop.fault_ne_raised, h⟩, Stop.interrupted_ne_raised, h⟩
  · exact ⟨⟨Stop.fault_ne_raised, hlater s hs⟩, Stop.interrupted_ne_raised, hlater s hs⟩
  · cases hs.pending.symm.trans hnone
  · exact ⟨⟨hlast s hs, hall s hs, rfl⟩, Stop.fault_ne_raised, hlast s hs⟩

/-- The failure recovery restores from the pending record; without one it leaves everything as it is. -/
theorem recover_spec (howned : Owned host roots u.changes) {s₁ : Store} (h : InFlight u s₀ s₁) (failure : Stop UpdateError) :
    Triple (· = s₁) (recover host roots u.identifier failure) (fun _ _ => False)
      fun _ s => Rolling u s₁ s ∧ (s₁.pending = none → s = s₁) := by
  refine Triple.bind (Q := fun _ s => Rolling u s₁ s ∧ (s₁.pending = none → s = s₁)) (Triple.attempt
    (Y := fun _ s => Rolling u s₁ s ∧ (s₁.pending = none → s = s₁)) ?_ (fun s hs => hs)
    fun stop _ => Triple.raise fun s hs => hs) fun _ => Triple.raise fun s hs => hs
  refine Triple.fetch_bind fun s hs => ?_
  subst hs
  rcases h.phase with ⟨hpend, hold⟩ | ⟨hpend, hnew⟩
  · have hload := h.archived.loadJournal howned (.inl rfl) (someOr_eq_ok.mpr hpend)
    refine Triple.ofExcept_bind hload ?_
    have hsome : ∀ s', s.pending = none → s' = s := fun s' hnone => nomatch hpend.symm.trans hnone
    refine (restore_spec howned hold h.archived (fun p hp => ?_) .prepared).weaken (fun s' h => h)
      (fun _ s' h => ⟨h.1, hsome s'⟩) fun _ s' h => ⟨h.2, hsome s'⟩
    rw [hpend] at hp
    cases hp
    rfl
  · refine Triple.ofExcept_cases (fun journal hok => ?_) fun _ _ s' hs' => ?_
    · obtain ⟨_, hread, _⟩ := bind_eq_ok.mp hok
      cases hpend.symm.trans (someOr_eq_ok.mp hread)
    · subst hs'
      exact ⟨Rolling.refl u s', fun _ => rfl⟩

end NextBoot.MediaUpdate
