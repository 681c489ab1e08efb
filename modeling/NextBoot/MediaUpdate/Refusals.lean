import NextBoot.MediaUpdate.Mounted
import NextBoot.MediaUpdate.Recovery

namespace NextBoot.MediaUpdate.Mounted

open Results CrashLogic FileTrees Strings

variable {machine : Machine} {release : Release} {v v₀ : Volumes} {roots : Roots} {root : List String} {area : Area}
  {relative identifier : String} {path : Path} {files : Set Path}

/-- The paths of the update targets of one volume. -/
def Target (release : Release) (area : Area) : Set Path :=
  {path | ∃ relative ∈ release.ownedPaths area, path = parts relative}

/-- The files a rollback may write once its checks have passed. -/
def Writable (release : Release) (identifier : String) (area : Area) : Set Path :=
  {path | path ∈ Target release area ∨ area = .esp ∧ path = [admin.toList, identifier.toList, "manifest.json".toList]}

theorem parts_append {dir rest : String} : parts (dir ++ "/" ++ rest) = parts dir ++ parts rest := by
  have hlist : (dir ++ "/" ++ rest).toList = dir.toList ++ '/' :: rest.toList := by simp
  rw [parts, hlist, split_append, List.filter_append]
  rfl

theorem parts_name {name : String} (h : IsName name) : parts name = [name.toList] := by
  obtain ⟨hslash, hne, hdot⟩ := h
  have hempty : name.toList ≠ [] := fun heq => hne (String.toList_inj.mp heq)
  have hself : name.toList ≠ ['.'] := fun heq => hdot (String.toList_inj.mp heq)
  rw [parts, split_of_notMem hslash]
  simp [hempty, hself]

theorem isName_of_hex {length : Nat} (hlength : 1 < length) (h : fullmatchHex length identifier = true) :
    IsName identifier := by
  rw [fullmatchHex, Bool.and_eq_true, beq_iff_eq, List.all_eq_true] at h
  obtain ⟨hlen, hhex⟩ := h
  refine ⟨fun hslash => absurd (hhex '/' hslash) (by decide), ?_, ?_⟩
  · rintro rfl
    have hzero : "".toList.length = 0 := rfl
    omega
  · rintro rfl
    have hone : ".".toList.length = 1 := rfl
    omega

theorem target_esp (h : path ∈ Target release .esp) : ∃ name, path = ["EFI".toList, "BOOT".toList, name] := by
  obtain ⟨relative, howned, rfl⟩ := h
  obtain ⟨name, hname, rfl⟩ := List.mem_map.mp howned
  have hnamed : IsName name := by
    have hall : ∀ name ∈ efiMachines, IsName name := by decide
    exact hall name hname
  refine ⟨name.toList, ?_⟩
  have hdir : "EFI/BOOT/" ++ name = "EFI" ++ "/" ++ ("BOOT" ++ "/" ++ name) := by
    rw [← String.append_assoc, ← String.append_assoc]
    rfl
  rw [hdir, parts_append, parts_append, parts_name hnamed]
  rfl

theorem target_data (h : path ∈ Target release .data) :
    (∃ name, name ≠ "License".toList ∧ path = ["ventoy".toList, name]) ∨
      ∃ name, path = ["ventoy".toList, "License".toList, name] := by
  obtain ⟨relative, howned, rfl⟩ := h
  rcases List.mem_append.mp howned with howned | howned
  · rcases List.mem_append.mp howned with howned | howned
    · obtain ⟨name, hname, rfl⟩ := List.mem_map.mp howned
      obtain ⟨hnamed, hne⟩ := release.filesNamed name hname
      refine .inl ⟨name.toList, fun heq => hne (String.toList_inj.mp heq), ?_⟩
      have hdir : "ventoy/" ++ name = "ventoy" ++ "/" ++ name := rfl
      rw [hdir, parts_append, parts_name hnamed]
      rfl
    · obtain ⟨name, hname, rfl⟩ := List.mem_map.mp howned
      refine .inr ⟨name.toList, ?_⟩
      have hdir : "ventoy/License/" ++ name = "ventoy" ++ "/" ++ ("License" ++ "/" ++ name) := by
        rw [← String.append_assoc, ← String.append_assoc]
        rfl
      rw [hdir, parts_append, parts_append, parts_name (release.licensesNamed name hname)]
      rfl
  · left
    rcases List.mem_pair.mp howned with rfl | rfl
    · exact ⟨"NEXTBOOT-NOTICE.txt".toList, by decide, by decide⟩
    · exact ⟨"nextboot-runtime.json".toList, by decide, by decide⟩

theorem head?_target (h : path ∈ Target release area) : ∃ name, path.head? = some name ∧ name ≠ admin.toList := by
  cases area with
  | esp =>
      obtain ⟨name, rfl⟩ := target_esp h
      exact ⟨_, rfl, by decide⟩
  | data =>
      rcases target_data h with ⟨name, _, rfl⟩ | ⟨name, rfl⟩
      · exact ⟨_, rfl, by decide⟩
      · exact ⟨_, rfl, by decide⟩

theorem head?_front {p q : Path} {name : Text} (h : p <+: q) (hname : p.head? = some name) :
    q.head? = some name := by
  obtain ⟨rest, rfl⟩ := h
  rw [List.head?_append, hname]
  rfl

theorem apart_target : Apart (Target release area) := by
  intro p hp q hq hprefix
  cases area with
  | esp =>
      obtain ⟨_, rfl⟩ := target_esp hp
      obtain ⟨_, rfl⟩ := target_esp hq
      exact hprefix.eq_of_length rfl
  | data =>
      rcases target_data hp with ⟨name, hname, rfl⟩ | ⟨name, rfl⟩
      · rcases target_data hq with ⟨_, _, rfl⟩ | ⟨_, rfl⟩
        · exact hprefix.eq_of_length rfl
        · simp only [List.cons_prefix_cons] at hprefix
          exact absurd hprefix.2.1 hname
      · rcases target_data hq with ⟨_, _, rfl⟩ | ⟨_, rfl⟩
        · have hlength := hprefix.length_le
          simp at hlength
        · exact hprefix.eq_of_length rfl

theorem apart_writable : Apart (Writable release identifier area) := by
  rintro p (hp | ⟨rfl, rfl⟩) q (hq | ⟨hesp, rfl⟩) hprefix
  · exact apart_target p hp q hq hprefix
  · obtain ⟨name, hname, hne⟩ := head?_target hp
    exact absurd (Option.some.inj (head?_front hprefix hname)).symm hne
  · obtain ⟨name, hname, hne⟩ := head?_target hq
    exact absurd (Option.some.inj (hname.symm.trans (head?_front hprefix rfl))) hne
  · rfl

theorem writable_ne_nil (h : path ∈ Writable release identifier area) : path ≠ [] := by
  rintro rfl
  rcases h with h | ⟨-, h⟩
  · obtain ⟨name, hname, -⟩ := head?_target h
    cases hname
  · cases h

theorem checkNode_eq_ok {current : Path} : checkNode v root area path current = .ok () ↔
    v.tree area current ≠ some .link ∧ v.tree area current ≠ some .special ∧
      (current = path ∨ v.tree area current = none ∨ v.tree area current = some .directory) := by
  rw [checkNode, bind_eq_ok]
  simp only [bind_eq_ok, refuseIf_eq_ok, exists_const]
  refine and_congr_right fun _ => and_congr_right fun _ => ?_
  rw [not_and_or, not_and_or, not_not, not_not, not_not]

/-- The walk of `safe_path` passes just the paths that can be used. -/
theorem clear_iff : path.inits.forM (checkNode v root area path) = .ok () ↔ Clear (v.tree area) path := by
  rw [forM_eq_ok]
  simp only [checkNode_eq_ok, List.mem_inits]
  constructor
  · intro h
    constructor
    · intro front hfront hne
      exact (h front hfront).2.2.resolve_left hne
    · obtain ⟨hlink, hspecial, -⟩ := h path (List.prefix_refl path)
      match hnode : v.tree area path with
      | none => exact .inl rfl
      | some .directory => exact .inr (.inl rfl)
      | some (.file content) => exact .inr (.inr ⟨content, rfl⟩)
      | some .link => exact absurd hnode hlink
      | some .special => exact absurd hnode hspecial
  · intro h front hfront
    by_cases hne : front = path
    · subst hne
      rcases h.here with hnode | hnode | ⟨content, hnode⟩ <;> simp [hnode]
    · rcases h.above front hfront hne with hnode | hnode <;> simp [hnode]

theorem safePath_eq_ok : safePath v root area relative = .ok path ↔
    ¬ Unsafe relative ∧ ['/'].intercalate (parts relative) = relative.toList ∧ path = parts relative ∧
      Clear (v.tree area) path := by
  rw [safePath]
  simp only [bind_eq_ok, refuseIf_eq_ok, exists_const, not_not, pure_eq_ok]
  refine and_congr_right fun _ => and_congr_right fun _ => ?_
  constructor
  · rintro ⟨_, hwalk, rfl⟩
    exact ⟨rfl, clear_iff.mp hwalk⟩
  · rintro ⟨rfl, hclear⟩
    exact ⟨(), clear_iff.mpr hclear, rfl⟩

/-- A path that has passed passes again after other files were written. -/
theorem safePath_kept (h : safePath v₀ root area relative = .ok path)
    (hkept : Within files (v₀.tree area) (v.tree area))
    (hends : ∀ file ∈ files, file <+: path → file = path) : safePath v root area relative = .ok path := by
  obtain ⟨hsafe, hcanonical, hpath, hclear⟩ := safePath_eq_ok.mp h
  exact safePath_eq_ok.mpr ⟨hsafe, hcanonical, hpath, hkept.clear hclear hends⟩

theorem targetPath_eq_ok : targetPath machine v roots area relative = .ok path ↔
    ∃ root, roots.root area = some root ∧ relative ∈ machine.release.ownedPaths area ∧
      safePath v root area relative = .ok path := by
  rw [targetPath]
  simp only [bind_eq_ok, refuseIf_eq_ok, exists_const, not_not, someOr_eq_ok]

theorem mem_target (h : targetPath machine v roots area relative = .ok path) : path ∈ Target machine.release area := by
  obtain ⟨root, -, howned, hsafe⟩ := targetPath_eq_ok.mp h
  exact ⟨relative, howned, (safePath_eq_ok.mp hsafe).2.2.1⟩

theorem fileDigest_eq_ok : (∃ digest, fileDigest v root area machine path = .ok digest) ↔
    Vacant (v.tree area) path := by
  rw [fileDigest, Vacant]
  cases hnode : v.tree area path with
  | none => simp [pure, Except.pure]
  | some node => cases node <;> simp [pure, Except.pure]

/-- Nothing but what a rollback may write has changed. -/
def Restoring (release : Release) (identifier : String) (v₀ v : Volumes) : Prop :=
  ∀ area, Within (Writable release identifier area) (v₀.tree area) (v.tree area)

theorem Restoring.refl (release : Release) (identifier : String) (v : Volumes) : Restoring release identifier v v :=
  fun _ => Within.refl _ _

theorem Restoring.targetPath (h : Restoring machine.release identifier v₀ v)
    (hpath : targetPath machine v₀ roots area relative = .ok path) :
    targetPath machine v roots area relative = .ok path := by
  obtain ⟨root, hroot, howned, hsafe⟩ := targetPath_eq_ok.mp hpath
  refine targetPath_eq_ok.mpr ⟨root, hroot, howned, safePath_kept hsafe (h area) fun file hfile hfront => ?_⟩
  exact apart_writable file hfile path (.inl (mem_target hpath)) hfront

theorem Restoring.perform {node : Option (Node (List UInt8))} (h : Restoring release identifier v₀ v)
    (hset : Within (Writable release identifier area) (v₀.tree area) ((v.tree area).set path node)) :
    Restoring release identifier v₀ (v.perform ⟨area, path, node⟩) := by
  intro other
  rw [Volumes.perform]
  by_cases hother : other = area
  · subst hother
    simpa using hset
  · simpa [hother] using h other

/-- Not the end that a value error makes. -/
def Unrefused (stop : Stop Exception) : Prop := ∀ message, stop ≠ .raised (.valueError message)

theorem unrefused_fault : Unrefused .fault := fun _ => nofun

theorem unrefused_interrupted : Unrefused .interrupted := fun _ => nofun

/-- One effect on the volumes: whatever becomes of it, no value error. -/
theorem perform_spec {P : Volumes → Prop} {Q : Unit → Volumes → Prop} {effect : Effect}
    (h : ∀ v, P v → Q () (v.perform effect)) :
    Triple P (atomically (·.perform effect)) Q fun stop _ => Unrefused stop :=
  Triple.atomically fun v hv => ⟨h v hv, unrefused_fault, unrefused_fault, unrefused_interrupted⟩

theorem unlink_spec {P : Volumes → Prop} {Q : Unit → Volumes → Prop}
    (hmissing : ∀ v, P v → v.tree area path = none → Q () v) (hdone : ∀ v, P v → Q () (v.perform ⟨area, path, none⟩)) :
    Triple P (unlink area path) Q fun stop _ => Unrefused stop := by
  refine Triple.fetch_bind fun v hv => ?_
  split
  · next hnone => exact Triple.pure fun v' hv' => hv' ▸ hmissing v hv hnone
  · refine Triple.bind (Q := fun _ => (· = v)) ?_ fun _ => perform_spec fun v' hv' => hv' ▸ hdone v hv
    exact Triple.raiseIf (fun _ _ _ _ h => by cases h) fun _ v' hv' => hv'

theorem ensureDirectory_spec (hpath : path ∈ Writable release identifier area) :
    Triple (Restoring release identifier v₀) (ensureDirectory area path.dropLast)
      (fun _ => Restoring release identifier v₀) fun stop _ => Unrefused stop := by
  refine Triple.fetch_bind fun v hv => ?_
  refine Triple.weaken (P := Restoring release identifier v₀)
    (Triple.forM (I := fun _ => Restoring release identifier v₀) fun before directory rest hl => ?_)
    (fun v' hv' => hv' ▸ hv) (fun _ _ h => h) fun _ _ h => h
  have hmem : directory ∈ (v.tree area).missing path.dropLast := by simp [hl]
  obtain ⟨hfront, hnone⟩ := mem_missing hmem
  have habove : Above (Writable release identifier area) directory := by
    refine ⟨path, hpath, hfront.trans (List.dropLast_prefix path), ?_⟩
    rintro rfl
    have hlength := hfront.length_le
    have hpos := List.length_pos_of_ne_nil (writable_ne_nil hpath)
    rw [List.length_dropLast] at hlength
    omega
  have hnew := (hv area).missing apart_writable habove hnone
  exact perform_spec fun v' hv' => hv'.perform ((hv' area).make habove hnew)

theorem durableWrite_spec (hpath : path ∈ Writable release identifier area) (content : List UInt8) :
    Triple (Restoring release identifier v₀) (durableWrite area path content)
      (fun _ => Restoring release identifier v₀) fun stop _ => Unrefused stop := by
  refine Triple.bind (ensureDirectory_spec hpath) fun _ => Triple.fetch_bind fun v hv => ?_
  refine Triple.bind (Q := fun _ => (· = v)) ?_ fun _ => perform_spec fun v' hv' => ?_
  · exact Triple.raiseIf (fun _ _ _ _ => nofun) fun _ v' hv' => hv'
  · subst hv'
    exact hv.perform ((hv area).write hpath content)

theorem putBack_spec (hpath : path ∈ Writable release identifier area) (original : Option (List UInt8)) :
    Triple (Restoring release identifier v₀) (putBack area path original)
      (fun _ => Restoring release identifier v₀) fun stop _ => Unrefused stop := by
  cases original with
  | none => exact unlink_spec (fun v hv _ => hv) fun v hv => hv.perform ((hv area).remove hpath)
  | some content => exact durableWrite_spec hpath content

/-- The entry can be restored: its target may be used, and there is a file at it or none. -/
def Restorable (machine : Machine) (roots : Roots) (v : Volumes) (entry : Entry) : Prop :=
  ∃ path, targetPath machine v roots entry.area entry.path = .ok path ∧ Vacant (v.tree entry.area) path

theorem restoreEntry_spec {entry : Entry} (h : Restorable machine roots v₀ entry) (original : Option (List UInt8)) :
    Triple (Restoring machine.release identifier v₀) (restoreEntry machine roots entry original)
      (fun _ => Restoring machine.release identifier v₀) fun stop _ => Unrefused stop := by
  obtain ⟨path, htarget, hvacant⟩ := h
  have hpath : path ∈ Writable machine.release identifier entry.area := .inl (mem_target htarget)
  have hdigest : ∀ v, Restoring machine.release identifier v₀ v → ∃ digest,
      fileDigest v ((roots.root entry.area).getD []) entry.area machine path = .ok digest := by
    intro v hv
    exact fileDigest_eq_ok.mpr ((hv entry.area).vacant apart_writable hpath hvacant)
  refine Triple.fetch_bind fun v hv => Triple.ofExcept_bind (hv.targetPath htarget) ?_
  obtain ⟨current, hcurrent⟩ := hdigest v hv
  refine Triple.ofExcept_bind hcurrent ?_
  split
  · exact Triple.pure fun v' hv' => hv' ▸ hv
  · refine Triple.bind (Q := fun _ => Restoring machine.release identifier v₀) ?_ fun _ => ?_
    · refine Triple.weaken (P := Restoring machine.release identifier v₀) ?_ (fun v' hv' => hv' ▸ hv) (fun _ _ h => h)
        fun _ _ h => h
      exact putBack_spec hpath original
    · refine Triple.fetch_bind fun v' hv' => ?_
      obtain ⟨last, hlast⟩ := hdigest v' hv'
      refine Triple.ofExcept_bind hlast ?_
      exact Triple.raiseIf (fun _ _ _ _ h => by cases h) fun _ v'' hv'' => hv'' ▸ hv'

/-- What the checks of `restore` have made sure of. -/
theorem originalsFrom_spec {index : Nat} {entries : List Entry} {originals : List (Option (List UInt8))}
    (h : originalsFrom machine v roots identifier index entries = .ok originals) :
    ∀ entry ∈ entries, Restorable machine roots v entry := by
  induction entries generalizing index originals with
  | nil => exact fun _ hentry => nomatch hentry
  | cons entry rest ih =>
      rw [originalsFrom, bind_eq_ok] at h
      obtain ⟨path, hpath, h⟩ := h
      obtain ⟨current, hcurrent, h⟩ := bind_eq_ok.mp h
      obtain ⟨_, -, h⟩ := bind_eq_ok.mp h
      obtain ⟨_, -, h⟩ := bind_eq_ok.mp h
      obtain ⟨_, hrest, -⟩ := bind_eq_ok.mp h
      rw [List.forall_mem_cons]
      exact ⟨⟨path, hpath, fileDigest_eq_ok.mp ⟨current, hcurrent⟩⟩, ih hrest⟩

theorem parts_pending : parts (admin ++ "/pending.json") = [admin.toList, "pending.json".toList] := by decide +kernel

theorem parts_manifest (h : fullmatchHex 32 identifier = true) :
    parts (admin ++ "/" ++ identifier ++ "/" ++ "manifest.json") =
      [admin.toList, identifier.toList, "manifest.json".toList] := by
  rw [parts_append, parts_append, parts_name (isName_of_hex (by decide) h)]
  rfl

theorem transactionPath_eq_ok : transactionPath v root area identifier relative = .ok path ↔
    fullmatchHex 32 identifier = true ∧
      safePath v root area (admin ++ "/" ++ identifier ++ "/" ++ relative) = .ok path := by
  rw [transactionPath]
  simp only [bind_eq_ok, refuseIf_eq_ok, exists_const, Bool.not_eq_false]

theorem checkPending_congr {journal : Loaded} (h : v.tree .esp path = v₀.tree .esp path) :
    checkPending machine v journal path = checkPending machine v₀ journal path := by
  rw [checkPending, checkPending, readJson, readJson, readBytes, readBytes, h]

theorem pending_not_below {file : Path} (hfile : file ∈ Writable release identifier .esp) :
    ¬ file <+: [admin.toList, "pending.json".toList] := by
  intro hprefix
  rcases hfile with hfile | ⟨-, rfl⟩
  · obtain ⟨name, hname, hne⟩ := head?_target hfile
    exact hne (Option.some.inj (head?_front hprefix hname)).symm
  · have hlength := hprefix.length_le
    simp at hlength

theorem pending_outside (hid : fullmatchHex 32 identifier = true) :
    [admin.toList, "pending.json".toList] ∉ Writable release identifier .esp ∧
      ¬ Above (Writable release identifier .esp) [admin.toList, "pending.json".toList] := by
  have hnot : ∀ file ∈ Writable release identifier .esp, ¬ [admin.toList, "pending.json".toList] <+: file := by
    rintro file (hfile | ⟨-, rfl⟩) hprefix
    · obtain ⟨name, hname, hne⟩ := head?_target hfile
      exact hne (Option.some.inj (hname.symm.trans (head?_front hprefix rfl)))
    · simp only [List.cons_prefix_cons] at hprefix
      have hlength : identifier.toList.length = 32 := by
        rw [fullmatchHex, Bool.and_eq_true, beq_iff_eq] at hid
        exact hid.1
      rw [← hprefix.2.1] at hlength
      exact absurd hlength (by decide)
  exact ⟨fun hmem => hnot _ hmem (List.prefix_refl _), fun ⟨file, hfile, hprefix, _⟩ => hnot file hfile hprefix⟩

/-- Once everything was restored, the end of the transaction is recorded without a further refusal. -/
theorem finish_spec {journal : Loaded} {manifest pending : Path} {status : String}
    (hmanifest : transactionPath v₀ roots.esp .esp journal.id "manifest.json" = .ok manifest)
    (hpending : safePath v₀ roots.esp .esp (admin ++ "/pending.json") = .ok pending)
    (hcheck : v₀.tree .esp pending ≠ none → checkPending machine v₀ journal pending = .ok ()) :
    Triple (Restoring machine.release journal.id v₀) (finish machine roots journal status) (fun _ _ => True)
      fun stop _ => Unrefused stop := by
  obtain ⟨hid, hsafe⟩ := transactionPath_eq_ok.mp hmanifest
  have hmanifestPath := ((safePath_eq_ok.mp hsafe).2.2.1).trans (parts_manifest hid)
  have hpendingPath := ((safePath_eq_ok.mp hpending).2.2.1).trans parts_pending
  have hwritable : manifest ∈ Writable machine.release journal.id .esp := .inr ⟨rfl, hmanifestPath⟩
  refine Triple.fetch_bind fun v hv => Triple.ofExcept_bind (a := manifest) ?_ ?_
  · refine transactionPath_eq_ok.mpr ⟨hid, safePath_kept hsafe (hv .esp) fun file hfile hfront => ?_⟩
    exact apart_writable file hfile manifest hwritable hfront
  · refine Triple.bind (Q := fun _ => Restoring machine.release journal.id v₀) ?_ fun _ => ?_
    · refine Triple.ofExcept_cases (fun content _ => ?_) fun error herror v' _ => ?_
      · refine (durableWrite_spec hwritable content).weaken (fun v' hv' => hv' ▸ hv) (fun _ _ h => h) fun _ _ h => h
      · cases hdumps : machine.dumps (journal.json.set "status" (.string status)) with
        | none =>
            rw [hdumps] at herror
            cases herror
            exact fun _ => nofun
        | some content =>
            rw [hdumps] at herror
            cases herror
    · refine Triple.fetch_bind fun v' hv' => Triple.ofExcept_bind (a := pending) ?_ ?_
      · refine safePath_kept hpending (hv' .esp) fun file hfile hfront => ?_
        rw [hpendingPath] at hfront
        exact absurd hfront (pending_not_below hfile)
      · have hsame : v'.tree .esp pending = v₀.tree .esp pending := by
          rw [hpendingPath]
          exact (hv' .esp).elsewhere (pending_outside hid).1 (pending_outside hid).2
        split
        · exact Triple.pure fun _ _ => trivial
        · next hne =>
            have hok : checkPending machine v' journal pending = .ok () :=
              (checkPending_congr hsame).trans (hcheck fun hnone => hne (hsame.trans hnone))
            refine Triple.ofExcept_bind hok ?_
            exact unlink_spec (fun _ _ _ => trivial) fun _ _ => trivial

theorem restore_spec {journal : Loaded} {manifest pending : Path}
    (hmanifest : transactionPath v₀ roots.esp .esp journal.id "manifest.json" = .ok manifest)
    (hpending : safePath v₀ roots.esp .esp (admin ++ "/pending.json") = .ok pending)
    (hcheck : v₀.tree .esp pending ≠ none → checkPending machine v₀ journal pending = .ok ()) :
    Triple (· = v₀) (restore machine roots journal) (fun _ _ => True) fun stop v => Unrefused stop ∨ v = v₀ := by
  refine Triple.fetch_bind fun v hv => ?_
  subst hv
  refine Triple.ofExcept_cases (fun originals horiginals => ?_) fun _ _ v' hv' => .inr hv'
  have hrestorable := originalsFrom_spec horiginals
  refine Triple.weaken (P := Restoring machine.release journal.id v) (X := fun stop _ => Unrefused stop)
    (Triple.bind (Q := fun _ => Restoring machine.release journal.id v) ?_
      fun _ => finish_spec hmanifest hpending hcheck)
    (fun v' hv' => hv' ▸ Restoring.refl _ _ v') (fun _ _ h => h) fun _ _ h => .inl h
  refine Triple.forM (I := fun _ => Restoring machine.release journal.id v) fun before q rest hl => ?_
  have hmem : (q.1, q.2) ∈ journal.entries.zip originals := by
    rw [hl]
    simp
  exact restoreEntry_spec (hrestorable q.1 (List.of_mem_zip hmem).1) q.2

theorem loadJournal_spec {identifier : Option String} {journal : Loaded}
    (h : loadJournal machine v roots identifier = .ok journal) :
    ∃ manifest, transactionPath v roots.esp .esp journal.id "manifest.json" = .ok manifest := by
  rw [loadJournal] at h
  simp only [bind_eq_ok] at h
  obtain ⟨_, -, _, -, _, -, actual, -, manifest, hmanifest, _, -, _, -, _, -, _, -, h⟩ := h
  cases pure_eq_ok.mp h
  exact ⟨manifest, hmanifest⟩

/-- No update target was written, replaced or removed. -/
structure Untouched (release : Release) (v₀ v : Volumes) : Prop where
  done : ∃ effects, v.done = v₀.done ++ effects ∧ ∀ effect ∈ effects, effect.path ∉ Target release effect.area
  same : ∀ area, ∀ path ∈ Target release area, v.tree area path = v₀.tree area path

theorem Untouched.refl (release : Release) (v : Volumes) : Untouched release v v :=
  ⟨⟨[], by simp⟩, fun _ _ _ => rfl⟩

theorem Untouched.perform {effect : Effect} (h : Untouched release v₀ v)
    (hnot : effect.path ∉ Target release effect.area) : Untouched release v₀ (v.perform effect) := by
  constructor
  · obtain ⟨effects, hdone, htargets⟩ := h.done
    refine ⟨effects ++ [effect], ?_, ?_⟩
    · rw [Volumes.perform, hdone, List.append_assoc]
    · intro e he
      rcases List.mem_append.mp he with he | he
      · exact htargets e he
      · rw [List.mem_singleton.mp he]
        exact hnot
  · intro area path hpath
    rw [Volumes.perform]
    by_cases harea : area = effect.area
    · subst harea
      have hne : path ≠ effect.path := fun heq => hnot (heq ▸ hpath)
      simp only [if_true, set_other hne]
      exact h.same _ path hpath
    · simp only [if_neg harea]
      exact h.same area path hpath

theorem admin_not_target (h : path.head? = some admin.toList) : path ∉ Target release area := by
  intro hpath
  obtain ⟨name, hname, hne⟩ := head?_target hpath
  exact hne (Option.some.inj (hname.symm.trans h))

theorem makeDirectory_keeps (h : path ∉ Target release area) :
    Keeps (Untouched release v₀) (makeDirectory area path) := by
  refine Keeps.fetch_bind fun v hv => ?_
  split
  · exact Keeps.atomically fun v hv => hv.perform h
  · exact Keeps.raiseIf _ _

theorem openAppend_keeps (h : path ∉ Target release area) : Keeps (Untouched release v₀) (openAppend area path) := by
  refine Keeps.fetch_bind fun v hv => ?_
  split
  · exact Keeps.atomically fun v hv => hv.perform h
  · exact Keeps.raiseIf _ _

theorem fillLock_keeps (h : path ∉ Target release area) : Keeps (Untouched release v₀) (fillLock area path) := by
  refine Keeps.fetch_bind fun v hv => Keeps.ofExcept_bind fun content _ => ?_
  split
  · exact Keeps.atomically fun v hv => hv.perform h
  · exact Keeps.pure ()

/-- Taking the lock leaves every target alone. -/
theorem updateLock_keeps : Keeps (Untouched release v₀) (updateLock machine roots) := by
  refine Keeps.fetch_bind fun v hv => Keeps.ofExcept_bind fun directory hdirectory => ?_
  have hadmin : directory ∉ Target release .esp := by
    apply admin_not_target
    rw [(safePath_eq_ok.mp hdirectory).2.2.1]
    rfl
  refine Keeps.bind (makeDirectory_keeps hadmin) fun _ => ?_
  refine Keeps.fetch_bind fun v' hv' => Keeps.ofExcept_bind fun path hpath => ?_
  have hlock : path ∉ Target release .esp := by
    apply admin_not_target
    rw [(safePath_eq_ok.mp hpath).2.2.1]
    decide +kernel
  refine Keeps.bind (openAppend_keeps hlock) fun _ => ?_
  exact Keeps.bind (fillLock_keeps hlock) fun _ => Keeps.raiseIf _ _

/-- A rollback ends with a value error only before its first write to a target. -/
theorem rollback_spec (machine : Machine) (mounts : Mounts) (identifier : Option String) (v₀ : Volumes) :
    Triple (· = v₀) (rollback machine mounts identifier) (fun _ _ => True)
      fun stop v => Unrefused stop ∨ Untouched machine.release v₀ v := by
  have hself := Untouched.refl machine.release v₀
  refine Triple.fetch_bind fun v hv => ?_
  subst hv
  refine Triple.ofExcept_cases (fun roots _ => ?_) fun _ _ v' hv' => .inr (hv' ▸ hself)
  refine Triple.bind (Q := fun _ => Untouched machine.release v) ?_ fun _ => ?_
  · exact updateLock_keeps.weaken (fun v' hv' => hv' ▸ hself) (fun _ _ h => h) fun _ _ h => .inr h
  · refine Triple.fetch_bind fun v' hv' => ?_
    refine Triple.ofExcept_cases (fun journal hload => ?_) fun _ _ v'' hv'' => .inr (hv'' ▸ hv')
    obtain ⟨manifest, hmanifest⟩ := loadJournal_spec hload
    refine Triple.ofExcept_cases (fun pending hpending => ?_) fun _ _ v'' hv'' => .inr (hv'' ▸ hv')
    refine Triple.ofExcept_cases (fun _ hcheck => ?_) fun _ _ v'' hv'' => .inr (hv'' ▸ hv')
    refine Triple.bind (Q := fun _ _ => True) ?_ fun _ => Triple.pure fun _ _ => trivial
    refine (restore_spec hmanifest hpending fun hne => ?_).weaken (fun _ h => h) (fun _ _ h => h) ?_
    · rwa [if_neg hne] at hcheck
    · rintro stop v'' (h | rfl)
      · exact .inl h
      · exact .inr hv'

theorem refused_rollback (machine : Machine) (mounts : Mounts) (identifier : Option String) (v : Volumes)
    (events : List Event) (message : String) (after : Session Volumes)
    (h : rollback machine mounts identifier ⟨v, events⟩ = (.error (.raised (.valueError message)), after)) :
    (∃ effects, after.store.done = v.done ++ effects ∧
      ∀ effect ∈ effects, effect.path ∉ Target machine.release effect.area) ∧
      ∀ area, ∀ path ∈ Target machine.release area, after.store.tree area path = v.tree area path := by
  obtain ⟨hend, -⟩ := (rollback_spec machine mounts identifier v ⟨v, events⟩ rfl).2 _ _ h
  rcases hend with hend | hend
  · exact absurd rfl (hend message)
  · exact ⟨hend.done, hend.same⟩

/-- A text as `write_json` leaves it. -/
def sampleText (lines : List String) : List UInt8 := lines.flatMap fun line => asBytes line.toList ++ [0x0a]

/-- The manifest of a committed update of the loader and the runtime. -/
def sampleManifest : List UInt8 :=
  sampleText ["\x7b", "  \"schema\": 1,", "  \"id\": \"00112233445566778899aabbccddeeff\",",
    "  \"status\": \"committed\",", "  \"entries\": [", "    \x7b", "      \"area\": \"data\",",
    "      \"path\": \"ventoy/ventoy.cpio\",",
    "      \"new_sha256\": \"54369245da376bccdbf7e4c1d6f89de06c976f8c8a95a0a0059fe97d92bb9ac7\",",
    "      \"old_sha256\": null", "    \x7d,", "    \x7b", "      \"area\": \"esp\",",
    "      \"path\": \"EFI/BOOT/BOOTX64.EFI\",",
    "      \"new_sha256\": \"4c01886ed6d326da2d438270b4b2fdf192088c0e5304a9ed29a8449aa41048cf\",",
    "      \"old_sha256\": \"9aa2bd801c7163b8dc8a6668b43928b3ad16a19124f4e3e8dfb3e0db6ca607d8\"",
    "    \x7d", "  ]", "\x7d"]

def sampleMarker (area : Area) : List UInt8 :=
  sampleText ["\x7b", "  \"id\": \"00112233445566778899aabbccddeeff\",", "  \"area\": \"" ++ area.name ++ "\"", "\x7d"]

def sampleEntry (area : Area) (path new : String) (old : Json) : Json :=
  .object [("area", .string area.name), ("path", .string path), ("new_sha256", .string new), ("old_sha256", old)]

/-- `json.loads` on the texts of the sample volumes. -/
def sampleLoads (_ : Encoding) (content : List UInt8) : Except Exception Json :=
  if content = sampleManifest then
    return .object [("schema", .int 1), ("id", .string sampleIdentifier), ("status", .string "committed"),
      ("entries", .array [sampleEntry .data "ventoy/ventoy.cpio" (sampleDigest newRuntime).text .null,
        sampleEntry .esp "EFI/BOOT/BOOTX64.EFI" (sampleDigest newLoader).text (.string (sampleDigest oldLoader).text)])]
  else if content = sampleMarker .esp then
    return .object [("id", .string sampleIdentifier), ("area", .string "esp")]
  else if content = sampleMarker .data then
    return .object [("id", .string sampleIdentifier), ("area", .string "data")]
  else .error (.valueError "Expecting value: line 1 column 1 (char 0)")

def sampleMachine : Machine where
  release := runtimeAssets
  casefold := String.toLower
  digest := sampleDigest
  espFirst := true
  loads := sampleLoads
  dumps _ := none
  str _ := ""
  lockHeld := false

def sampleMounts : Mounts :=
  ⟨⟨["", "mnt", "esp"], false, [], some ["", "mnt", "esp"]⟩,
    some ⟨["", "mnt", "data"], false, [], some ["", "mnt", "data"]⟩⟩

def sampleTree (nodes : List (List String × Node (List UInt8))) : Tree Text (List UInt8) :=
  fun path => (nodes.map fun node => (node.1.map String.toList, node.2)).lookup path

/-- The volumes after an update; something else has replaced the loader since. -/
def editedVolumes : Volumes where
  tree
    | .esp => sampleTree [([], .directory), (["EFI"], .directory), (["EFI", "BOOT"], .directory),
        (["EFI", "BOOT", "BOOTX64.EFI"], .file laterLoader), ([admin], .directory),
        ([admin, sampleIdentifier], .directory), ([admin, sampleIdentifier, "old"], .directory),
        ([admin, sampleIdentifier, "old", "1"], .file oldLoader),
        ([admin, sampleIdentifier, "volume.json"], .file (sampleMarker .esp)),
        ([admin, sampleIdentifier, "manifest.json"], .file sampleManifest)]
    | .data => sampleTree [([], .directory), (["ventoy"], .directory), (["ventoy", "ventoy.cpio"], .file newRuntime),
        ([admin], .directory), ([admin, sampleIdentifier], .directory),
        ([admin, sampleIdentifier, "volume.json"], .file (sampleMarker .data))]
  done := []

def editedRun : Except (Stop Exception) String × Session Volumes :=
  rollback sampleMachine sampleMounts (some sampleIdentifier) ⟨editedVolumes, []⟩

def runtimePath : Path := ["ventoy".toList, "ventoy.cpio".toList]

/-- The runtime could have been removed; it stays, for the loader must not be replaced. -/
theorem editedLoader_refused :
    editedRun.1 = .error (.raised
      (.valueError "file changed outside this update; preserving it: EFI/BOOT/BOOTX64.EFI")) ∧
      editedRun.2.store.tree .data runtimePath = some (.file newRuntime) := by
  have hrun : editedRun.1 = .error (.raised
      (.valueError "file changed outside this update; preserving it: EFI/BOOT/BOOTX64.EFI")) := by decide +kernel
  have htarget : runtimePath ∈ Target runtimeAssets .data :=
    ⟨"ventoy/ventoy.cpio", by decide +kernel, by decide +kernel⟩
  have hstart : editedVolumes.tree .data runtimePath = some (.file newRuntime) := by decide +kernel
  have hend : editedRun = (.error (.raised
      (.valueError "file changed outside this update; preserving it: EFI/BOOT/BOOTX64.EFI")), editedRun.2) := by
    rw [← hrun, Prod.eta]
  have huntouched := refused_rollback sampleMachine sampleMounts (some sampleIdentifier) editedVolumes [] _ _ hend
  exact ⟨hrun, (huntouched.2 .data runtimePath htarget).trans hstart⟩

end NextBoot.MediaUpdate.Mounted
