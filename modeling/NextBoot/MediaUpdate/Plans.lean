import NextBoot.MediaUpdate.Transaction
import Mathlib.Data.List.Nodup

namespace NextBoot.MediaUpdate

open Results CrashLogic

variable {host : Host} {roots : Roots}

/-- The content of a change's target. -/
def Change.file (change : Change) (s : Store) : Option (List UInt8) := s.file change.entry.area change.entry.path

def Change.key (host : Host) (change : Change) : Area × String := change.entry.key host

/-- An entry that records the digests of its two contents, which tell them apart. -/
structure Change.Valid (host : Host) (change : Change) : Prop where
  newDigest : change.entry.newSha256 = (host.digest change.content).text
  oldDigest : change.entry.oldSha256 = fileDigest host change.original
  differ : change.entry.oldSha256 ≠ some change.entry.newSha256

/-- A transaction as `apply` prepares it. -/
structure Update (host : Host) where
  identifier : String
  changes : List Change
  named : fullmatchHex 32 identifier = true
  nonempty : changes ≠ []
  valid : ∀ change ∈ changes, change.Valid host
  distinct : (changes.map (Change.key host)).Nodup
  dependenciesFirst : changes.Pairwise fun c d => c.entry.area = .esp → d.entry.area = .esp

/-- The targets are files of the release on the volumes at hand. -/
def Owned (host : Host) (roots : Roots) (changes : List Change) : Prop :=
  ∀ change ∈ changes, targetPath host roots change.entry.area change.entry.path = .ok ()

def Update.journal (u : Update host) (status : Status) : Journal := journalOf u.identifier status u.changes

def AllOld (changes : List Change) (s : Store) : Prop := ∀ change ∈ changes, change.file s = change.original

def AllNew (changes : List Change) (s : Store) : Prop := ∀ change ∈ changes, change.file s = some change.content

instance (changes : List Change) (s : Store) : Decidable (AllOld changes s) := inferInstanceAs (Decidable (∀ _ ∈ _, _))

instance (changes : List Change) (s : Store) : Decidable (AllNew changes s) := inferInstanceAs (Decidable (∀ _ ∈ _, _))

def OldOrNew (changes : List Change) (s : Store) : Prop :=
  ∀ change ∈ changes, change.file s = change.original ∨ change.file s = some change.content

def Targeted (changes : List Change) (area : Area) (path : String) : Prop :=
  ∃ change ∈ changes, change.entry.area = area ∧ change.entry.path = path

theorem transactionPath_eq_ok {identifier : String} :
    transactionPath identifier = .ok () ↔ fullmatchHex 32 identifier = true := by
  rw [transactionPath, refuseIf_eq_ok, Bool.not_eq_false]

theorem Change.Valid.original_ne {change : Change} (h : change.Valid host) : change.original ≠ some change.content := by
  intro heq
  apply h.differ
  rw [h.oldDigest, h.newDigest, heq]
  rfl

/-- Of the two contents a target can have, the digest tells the old one. -/
theorem Change.Valid.old_iff {change : Change} (h : change.Valid host) {content : Option (List UInt8)}
    (hc : content = change.original ∨ content = some change.content) :
    fileDigest host content = change.entry.oldSha256 ↔ content = change.original := by
  constructor
  · intro hd
    rcases hc with hc | hc
    · exact hc
    · exfalso
      apply h.differ
      rw [← hd, hc, h.newDigest]
      rfl
  · rintro rfl
    exact h.oldDigest.symm

/-- A target is written by one change only. -/
theorem Update.eq_of_same_target (u : Update host) {c d : Change} (hc : c ∈ u.changes) (hd : d ∈ u.changes)
    (harea : c.entry.area = d.entry.area) (hpath : c.entry.path = d.entry.path) : c = d := by
  have hkey : Change.key host c = Change.key host d := by
    rw [Change.key, Change.key, Entry.key, Entry.key, harea, hpath]
  exact List.inj_on_of_nodup_map u.distinct hc hd hkey

theorem planFrom_spec {s : Store} {payload : List PayloadItem} {seen : List (Area × String)} {changes : List Change}
    (h : planFrom host roots s seen payload = .ok changes) :
    (∀ c ∈ changes, c.Valid host ∧ c.original = c.file s ∧ Change.key host c ∉ seen) ∧
      (changes.map (Change.key host)).Nodup ∧ Owned host roots changes := by
  induction payload generalizing seen changes with
  | nil =>
      cases pure_eq_ok.mp h
      simp [Owned]
  | cons item rest ih =>
      rw [planFrom, bind_eq_ok] at h
      obtain ⟨_, hseen, h⟩ := h
      obtain ⟨_, howned, h⟩ := bind_eq_ok.mp h
      obtain ⟨later, hlater, h⟩ := bind_eq_ok.mp h
      have hkey := refuseIf_eq_ok.mp hseen
      obtain ⟨hspec, hnodup, hothers⟩ := ih hlater
      have hrest : ∀ c ∈ later, c.Valid host ∧ c.original = c.file s ∧ Change.key host c ∉ seen := by
        intro c hc
        obtain ⟨hvalid, horig, hnot⟩ := hspec c hc
        exact ⟨hvalid, horig, fun hmem => hnot (List.mem_cons_of_mem _ hmem)⟩
      have hresult := pure_eq_ok.mp h
      split at hresult
      · next hdiffer =>
          subst hresult
          refine ⟨fun c hc => ?_, ?_, fun c hc => ?_⟩
          · rcases List.mem_cons.mp hc with rfl | hc
            · exact ⟨⟨rfl, rfl, hdiffer⟩, rfl, hkey⟩
            · exact hrest c hc
          · rw [List.map_cons, List.nodup_cons]
            refine ⟨fun hmem => ?_, hnodup⟩
            obtain ⟨c, hc, heq⟩ := List.mem_map.mp hmem
            exact (hspec c hc).2.2 (heq ▸ List.mem_cons_self)
          · rcases List.mem_cons.mp hc with rfl | hc
            · exact howned
            · exact hothers c hc
      · subst hresult
        exact ⟨hrest, hnodup, hothers⟩

theorem dependencyOrder_perm (changes : List Change) : (dependencyOrder changes).Perm changes := by
  have h := List.filter_append_perm (fun c : Change => decide (c.entry.area ≠ .esp)) changes
  simpa only [dependencyOrder, ← decide_not, not_not] using h

theorem dependencyOrder_pairwise (changes : List Change) :
    (dependencyOrder changes).Pairwise fun c d => c.entry.area = .esp → d.entry.area = .esp := by
  rw [dependencyOrder, List.pairwise_append]
  refine ⟨?_, ?_, ?_⟩
  · refine List.Pairwise.imp_of_mem (fun hc _ _ hesp => ?_) (List.pairwise_of_forall fun _ _ => trivial)
    simp only [List.mem_filter, decide_eq_true_eq] at hc
    exact absurd hesp hc.2
  · refine List.Pairwise.imp_of_mem (fun _ hd _ _ => ?_) (List.pairwise_of_forall fun _ _ => trivial)
    simpa using (List.mem_filter.mp hd).2
  · intro c _ d hd _
    simpa using (List.mem_filter.mp hd).2

/-- What `apply` plans is an update of the files it was planned on. -/
theorem exists_update {s : Store} {payload : List PayloadItem} {changes : List Change} {identifier : String}
    (h : plan host roots s payload = .ok changes) (hid : fullmatchHex 32 identifier = true)
    (hne : dependencyOrder changes ≠ []) :
    ∃ u : Update host, u.identifier = identifier ∧ u.changes = dependencyOrder changes ∧ AllOld u.changes s ∧
      Owned host roots u.changes := by
  obtain ⟨hspec, hnodup, howned⟩ := planFrom_spec h
  have hperm := dependencyOrder_perm changes
  refine ⟨⟨identifier, dependencyOrder changes, hid, hne, fun c hc => (hspec c (hperm.mem_iff.mp hc)).1, ?_,
    dependencyOrder_pairwise changes⟩, rfl, rfl, fun c hc => ?_, fun c hc => howned c (hperm.mem_iff.mp hc)⟩
  · exact (hperm.map _).nodup_iff.mpr hnodup
  · exact ((hspec c (hperm.mem_iff.mp hc)).2.1).symm

/-- The saved files of an update, from a position in the list of changes on. -/
def BackupsFrom (identifier : String) (s : Store) (index : Nat) (changes : List Change) : Prop :=
  ∀ q ∈ changes.zipIdx index, ∀ original, q.1.original = some original →
    s.backup q.1.entry.area identifier q.2 = some original

theorem BackupsFrom.cons {identifier : String} {s : Store} {index : Nat} {c : Change} {changes : List Change}
    (h : BackupsFrom identifier s index (c :: changes)) :
    (∀ original, c.original = some original → s.backup c.entry.area identifier index = some original) ∧
      BackupsFrom identifier s (index + 1) changes := by
  rw [BackupsFrom, List.zipIdx_cons] at h
  exact ⟨h (c, index) List.mem_cons_self, fun q hq => h q (List.mem_cons_of_mem _ hq)⟩

/-- What the administration directories hold for an update that can be restored. -/
structure Archived (u : Update host) (s : Store) : Prop where
  markers : ∀ change ∈ u.changes, s.marker change.entry.area u.identifier = some ⟨u.identifier, change.entry.area⟩
  backups : BackupsFrom u.identifier s 0 u.changes

theorem checkEntries_eq_ok {changes : List Change} {seen : List (Area × String)}
    (hvalid : ∀ c ∈ changes, c.Valid host) (howned : Owned host roots changes)
    (hnodup : (changes.map (Change.key host)).Nodup) (hseen : ∀ c ∈ changes, Change.key host c ∉ seen) :
    checkEntries host roots seen (changes.map (·.entry)) = .ok () := by
  induction changes generalizing seen with
  | nil => rfl
  | cons c changes ih =>
      have hc := hvalid c List.mem_cons_self
      rw [List.map_cons, List.nodup_cons] at hnodup
      rw [List.map_cons, checkEntries, bind_eq_ok]
      refine ⟨(), howned c List.mem_cons_self, bind_eq_ok.mpr ⟨(), refuseIf_eq_ok.mpr (hseen c List.mem_cons_self), ?_⟩⟩
      refine bind_eq_ok.mpr ⟨(), refuseIf_eq_ok.mpr ?_, bind_eq_ok.mpr ⟨(), refuseIf_eq_ok.mpr ?_, ?_⟩⟩
      · rw [hc.oldDigest]
        cases c.original with
        | none => simp [fileDigest]
        | some bytes => simp [fileDigest, (host.digest bytes).valid]
      · rw [hc.newDigest, Bool.not_eq_false]
        exact (host.digest c.content).valid
      · refine ih (fun d hd => hvalid d (List.mem_cons_of_mem _ hd)) (fun d hd => howned d (List.mem_cons_of_mem _ hd))
          hnodup.2 fun d hd => ?_
        rw [List.mem_cons, not_or]
        refine ⟨fun heq => hnodup.1 ?_, hseen d (List.mem_cons_of_mem _ hd)⟩
        exact List.mem_map.mpr ⟨d, hd, heq⟩

theorem Archived.checkMarkers {u : Update host} {s : Store} (h : Archived u s) (status : Status) :
    checkMarkers host s (u.journal status) = .ok () := by
  rw [MediaUpdate.checkMarkers, forM_eq_ok]
  intro area harea
  obtain ⟨entry, hentry, hsame⟩ := List.any_eq_true.mp (List.mem_filter.mp harea).2
  obtain ⟨c, hc, rfl⟩ := List.mem_map.mp hentry
  have harea : c.entry.area = area := by simpa using hsame
  subst harea
  exact bind_eq_ok.mpr ⟨_, someOr_eq_ok.mpr (h.markers c hc), refuseIf_eq_ok.mpr (not_not.mpr rfl)⟩

theorem Archived.loadJournal {u : Update host} {s : Store} (h : Archived u s) (howned : Owned host roots u.changes)
    {status : Status}
    {identifier : Option String} (hid : identifier = none ∨ identifier = some u.identifier)
    (hread : readJournal s identifier = .ok (u.journal status)) :
    loadJournal host roots s identifier = .ok (u.journal status) := by
  have hnamed : transactionPath u.identifier = .ok () := transactionPath_eq_ok.mpr u.named
  have hentries : ¬ u.changes.map (·.entry) = [] := by simpa using u.nonempty
  refine bind_eq_ok.mpr ⟨_, hread, bind_eq_ok.mpr ⟨(), refuseIf_eq_ok.mpr (not_not.mpr rfl), ?_⟩⟩
  refine bind_eq_ok.mpr ⟨(), hnamed, bind_eq_ok.mpr ⟨(), refuseIf_eq_ok.mpr ?_, ?_⟩⟩
  · rcases hid with rfl | rfl
    · simp
    · exact fun hne => hne.2 rfl
  · refine bind_eq_ok.mpr ⟨(), refuseIf_eq_ok.mpr hentries, bind_eq_ok.mpr ⟨(), ?_, ?_⟩⟩
    · exact checkEntries_eq_ok u.valid howned u.distinct (by simp)
    · exact bind_eq_ok.mpr ⟨(), h.checkMarkers status, rfl⟩

theorem Change.Valid.savedOriginal {c : Change} (hc : c.Valid host) {identifier : String} {s : Store} {index : Nat}
    (hid : fullmatchHex 32 identifier = true)
    (hbackup : ∀ original, c.original = some original → s.backup c.entry.area identifier index = some original) :
    savedOriginal host s identifier index c.entry = .ok c.original := by
  have hdigest := hc.oldDigest
  rw [MediaUpdate.savedOriginal]
  cases horig : c.original with
  | none =>
      rw [horig] at hdigest
      rw [hdigest]
      rfl
  | some original =>
      rw [horig] at hdigest
      rw [hdigest]
      refine bind_eq_ok.mpr ⟨(), transactionPath_eq_ok.mpr hid, ?_⟩
      refine bind_eq_ok.mpr ⟨original, someOr_eq_ok.mpr (hbackup original horig), ?_⟩
      exact bind_eq_ok.mpr ⟨(), refuseIf_eq_ok.mpr (not_not.mpr rfl), rfl⟩

/-- With every backup in place and every target in one of its two versions, the checks of `restore` pass. -/
theorem originalsFrom_eq_ok {identifier : String} {s : Store} (hid : fullmatchHex 32 identifier = true) {index : Nat}
    {changes : List Change} (hvalid : ∀ c ∈ changes, c.Valid host) (howned : Owned host roots changes)
    (hfiles : ∀ c ∈ changes, c.file s = c.original ∨ c.file s = some c.content)
    (hbackups : BackupsFrom identifier s index changes) :
    originalsFrom host roots s identifier index (changes.map (·.entry)) = .ok (changes.map (·.original)) := by
  induction changes generalizing index with
  | nil => rfl
  | cons c changes ih =>
      have hc := hvalid c List.mem_cons_self
      obtain ⟨hbackup, hlater⟩ := hbackups.cons
      rw [List.map_cons, originalsFrom, bind_eq_ok]
      refine ⟨(), howned c List.mem_cons_self, bind_eq_ok.mpr ⟨(), refuseIf_eq_ok.mpr ?_, ?_⟩⟩
      · rintro ⟨_, hold, hnew⟩
        rcases hfiles c List.mem_cons_self with hf | hf
        · exact hold (((hc.old_iff (.inl rfl)).mpr rfl) ▸ congrArg (fileDigest host) hf)
        · apply hnew
          rw [hc.newDigest]
          exact congrArg (fileDigest host) hf
      · refine bind_eq_ok.mpr ⟨c.original, ?_, bind_eq_ok.mpr ⟨changes.map (·.original), ?_, rfl⟩⟩
        · exact hc.savedOriginal hid hbackup
        · exact ih (fun d hd => hvalid d (List.mem_cons_of_mem _ hd))
            (fun d hd => howned d (List.mem_cons_of_mem _ hd)) (fun d hd => hfiles d (List.mem_cons_of_mem _ hd)) hlater

end NextBoot.MediaUpdate
