import Mathlib.Data.List.Nodup
import Mathlib.Data.List.Pairwise
import NextBoot.Fs.Directory
import NextBoot.Fs.Paths

namespace NextBoot.Fs

open Strings Faults Outcome Paths

def hiddenAttribute : Nat := 0x02

def systemAttribute : Nat := 0x04

def DirectoryEntry.isHidden (entry : DirectoryEntry) : Bool := entry.attributes &&& hiddenAttribute ≠ 0

def DirectoryEntry.isSystem (entry : DirectoryEntry) : Bool := entry.attributes &&& systemAttribute ≠ 0

/-- Where a file lies, and its length. -/
def DirectoryEntry.extent (entry : DirectoryEntry) : Nat × Nat := (entry.startCluster, entry.size)

/-- The entry that a name finds in a listing. -/
def findEntry (name : Text) (entries : List DirectoryEntry) : Option DirectoryEntry :=
  entries.find? fun entry => eqIgnoreAsciiCase entry.name name

end NextBoot.Fs

namespace NextBoot.Fs.Scan

open Strings Faults Outcome Paths

/-- A file system by what its paths are resolved from: its root directory, and how a directory is listed. -/
structure Listings where
  root : DirectoryEntry
  list : Nat × Nat → Outcome FsError (List DirectoryEntry)
  root_isDir : root.isDir = true
  list_visible : ∀ extent entries, list extent = value entries → ∀ entry ∈ entries, ¬ (entry.isHidden ∨ entry.isSystem)

variable (v : Listings) (extensions : List Text)

/-- The part of `read_dir` behind the resolution of the path. -/
def listEntry (info : DirectoryEntry) : Outcome FsError (List DirectoryEntry) :=
  if ¬ info.isDir then error .notDirectory else v.list info.extent

def lookup (name : Text) (dir : DirectoryEntry) : Outcome FsError DirectoryEntry := do
  let entries ← listEntry v dir
  match findEntry name entries with
  | some entry => pure entry
  | none => error .fileNotFound

def pathDepth (path : Text) : Nat := if IsRoot path then 0 else (components path).length + 1

theorem pathDepth_splitPath {path : Text} (h : ¬ IsRoot path) : pathDepth (splitPath path).1 < pathDepth path := by
  rw [pathDepth, pathDepth, if_neg h]
  rcases List.eq_nil_or_concat (components path) with hnil | ⟨parts, name, hconcat⟩
  · rw [splitPath_nil hnil, if_pos (.inl rfl)]
    exact Nat.succ_pos _
  · rw [List.concat_eq_append] at hconcat
    obtain ⟨-, hparts, hroot⟩ := splitPath_concat hconcat
    split
    · exact Nat.succ_pos _
    · rw [hparts, hconcat, List.length_append, List.length_singleton]
      omega

/-- `stat`: the directory of a path is resolved first, and the file name is looked up in it. -/
def stat (path : Text) : Outcome FsError DirectoryEntry :=
  if IsRoot path then pure v.root
  else do
    let dir ← stat (splitPath path).1
    lookup v (splitPath path).2 dir
termination_by pathDepth path
decreasing_by exact pathDepth_splitPath ‹_›

def readDir (path : Text) : Outcome FsError (List DirectoryEntry) := do
  let info ← stat v path
  listEntry v info

def matchesExtension (entry : DirectoryEntry) : Bool :=
  extensions = [] ∨ extensions.any fun extension => extension.isSuffixOf (entry.name.map toAsciiLowercase)

/-- What one entry of a directory adds to a scan, whose recursive call is `scan`. -/
def scanEntry (scan : Text → Outcome FsError (List DirectoryEntry × List (Nat × Nat))) (path : Text)
    (entry : DirectoryEntry) : Outcome FsError (List DirectoryEntry × List (Nat × Nat)) :=
  if entry.isHidden ∨ entry.isSystem then pure ([], [])
  else if entry.isDir then scan (fullPath path entry.name)
  else if matchesExtension extensions entry then pure ([{ entry with name := fullPath path entry.name }], [])
  else pure ([], [])

/-- `scan_files_recursive` on a stack with room for `depth` calls: the files found, and in the order of their listing
the extents of the directories that have been listed. -/
def scanFilesRecursive : Nat → Text → Outcome FsError (List DirectoryEntry × List (Nat × Nat))
  | 0, _ => fault
  | depth + 1, path => do
      let dir ← stat v path
      let entries ← listEntry v dir
      let found ← entries.mapM (scanEntry extensions (scanFilesRecursive depth) path)
      pure (found.flatMap (·.1), dir.extent :: found.flatMap (·.2))

def subdirectories (entries : List DirectoryEntry) : List DirectoryEntry := entries.filter fun entry => entry.isDir

/-- The directories below a list of directories, each in front of those below it, where `children` lists the
subdirectories of one. There is no such list where the directories have no end. -/
inductive Spans {ε : Type} (children : Nat × Nat → Outcome ε (List (Nat × Nat))) :
    List (Nat × Nat) → List (Nat × Nat) → Prop where
  | nil : Spans children [] []
  | cons {dir : Nat × Nat} {below rest inside after : List (Nat × Nat)} (hlist : children dir = value below)
      (hinside : Spans children below inside) (hafter : Spans children rest after) :
      Spans children (dir :: rest) (dir :: inside ++ after)

/-- The subdirectories of a directory, as its listing has them. -/
def listed (extent : Nat × Nat) : Outcome FsError (List (Nat × Nat)) := do
  let entries ← v.list extent
  pure ((subdirectories entries).map DirectoryEntry.extent)

/-- The directories that a scan has listed, if it came to an end. -/
def visited (scan : Outcome FsError (List DirectoryEntry × List (Nat × Nat))) : List (Nat × Nat) :=
  match scan with
  | value found => found.2
  | _ => []

/-- A listing in which the path of each subdirectory leads to it. -/
def Navigable (entries : List DirectoryEntry) : Prop :=
  ∀ entry ∈ subdirectories entries, IsComponent entry.name ∧ findEntry entry.name entries = some entry

/-- The resolution of a path, a component after the other. -/
def walk (parts : List Text) (dir : DirectoryEntry) : Outcome FsError DirectoryEntry :=
  parts.foldlM (fun dir name => lookup v name dir) dir

instance (entries : List DirectoryEntry) : Decidable (Navigable entries) :=
  inferInstanceAs (Decidable (∀ entry ∈ subdirectories entries, _))

/-- A path that is resolved component by component, to a directory. -/
def Leads (path : Text) (dir : DirectoryEntry) : Prop :=
  stat v path = value dir ∧ dir.isDir = true ∧ (IsRoot path ∨ components path ≠ [])

variable {v : Listings} {extensions : List Text} {dir entry : DirectoryEntry} {path name : Text}
  {entries : List DirectoryEntry}

section Lookup

variable {parts : List Text}

theorem listEntry_eq_value : listEntry v dir = value entries ↔ dir.isDir = true ∧ v.list dir.extent = value entries := by
  rw [listEntry]
  by_cases h : dir.isDir = true
  · rw [if_neg (not_not.mpr h), and_iff_right h]
  · rw [if_pos h]
    exact ⟨nofun, fun hlist => absurd hlist.1 h⟩

theorem lookup_eq_value : lookup v name dir = value entry ↔
    ∃ entries, listEntry v dir = value entries ∧ findEntry name entries = some entry := by
  rw [lookup, bind_eq_value]
  refine exists_congr fun entries => and_congr_right fun _ => ?_
  cases findEntry name entries with
  | none => exact ⟨nofun, nofun⟩
  | some found =>
      show value found = value entry ↔ _
      rw [value.injEq, Option.some.injEq]

theorem stat_root (h : IsRoot path) : stat v path = value v.root := by
  rw [stat, if_pos h]
  rfl

theorem walk_append {more : List Text} : walk v (parts ++ more) dir = walk v parts dir >>= walk v more :=
  List.foldlM_append

theorem walk_singleton : walk v [name] dir = lookup v name dir := bind_pure _

/-- A walk to a directory starts from one. -/
theorem isDir_of_walk (h : walk v parts dir = value entry) (hentry : entry.isDir = true) : dir.isDir = true := by
  cases parts with
  | nil =>
      cases h
      exact hentry
  | cons part parts =>
      obtain ⟨_, hlookup, -⟩ := bind_eq_value.mp h
      obtain ⟨_, hlist, -⟩ := lookup_eq_value.mp hlookup
      exact (listEntry_eq_value.mp hlist).1

theorem stat_eq_walk (h : components path ≠ []) : stat v path = walk v (components path) v.root := by
  induction hdepth : pathDepth path using Nat.strongRecOn generalizing path with
  | ind n ih =>
      have hroot : ¬ IsRoot path := fun hroot => h (isRoot_components hroot)
      obtain ⟨parts, name, hconcat⟩ := (List.eq_nil_or_concat (components path)).resolve_left h
      rw [List.concat_eq_append] at hconcat
      obtain ⟨hname, hparts, hfirst⟩ := splitPath_concat hconcat
      rw [stat, if_neg hroot, hconcat, walk_append, hname]
      have hdir : stat v (splitPath path).1 = walk v parts v.root := by
        by_cases hnil : parts = []
        · rw [hfirst hnil, stat_root (.inl rfl), hnil]
          rfl
        · rw [ih _ (hdepth ▸ pathDepth_splitPath hroot) (by rwa [hparts]) rfl, hparts]
      rw [hdir]
      exact congrArg _ (funext fun _ => walk_singleton.symm)

/-- A path without components that is not the root path looks up the empty name. -/
theorem stat_eq_lookup_nil (h : components path = []) (hroot : ¬ IsRoot path) : stat v path = lookup v [] v.root := by
  rw [stat, if_neg hroot, splitPath_nil h, stat_root (.inl rfl), value_bind]

theorem Leads.walk_eq (h : Leads v path dir) : walk v (components path) v.root = value dir := by
  obtain ⟨hstat, -, hroot | hparts⟩ := h
  · rw [stat_root hroot] at hstat
    rw [isRoot_components hroot]
    exact hstat
  · rwa [← stat_eq_walk hparts]

theorem findEntry_congr {other : Text} (h : eqIgnoreAsciiCase name other = true) :
    findEntry name entries = findEntry other entries := by
  rw [eqIgnoreAsciiCase, decide_eq_true_eq] at h
  simp only [findEntry, eqIgnoreAsciiCase, h]

theorem findEntry_eq_some (h : findEntry name entries = some entry) :
    entry ∈ entries ∧ eqIgnoreAsciiCase entry.name name = true ∧ findEntry entry.name entries = some entry := by
  have hname : eqIgnoreAsciiCase entry.name name = true := by
    have hfound := List.find?_some h
    exact hfound
  exact ⟨List.mem_of_find?_eq_some h, hname, (findEntry_congr hname).trans h⟩

theorem Leads.child (h : Leads v path dir) (hlist : listEntry v dir = value entries) (hname : IsComponent name)
    (hfind : findEntry name entries = some entry) (hdir : entry.isDir = true) : Leads v (fullPath path name) entry := by
  have hparts : components (fullPath path name) = components path ++ [name] := by
    rw [components_fullPath, components_of_isComponent hname]
  have hne : components (fullPath path name) ≠ [] := by
    rw [hparts]
    exact List.append_ne_nil_of_right_ne_nil _ (List.cons_ne_nil _ _)
  refine ⟨?_, hdir, .inr hne⟩
  rw [stat_eq_walk hne, hparts, walk_append, h.walk_eq, value_bind, walk_singleton]
  exact lookup_eq_value.mpr ⟨entries, hlist, hfind⟩

end Lookup

section Steps

variable {depth : Nat} {found : List DirectoryEntry × List (Nat × Nat)}
  {scan : Text → Outcome FsError (List DirectoryEntry × List (Nat × Nat))}

theorem eq_of_mem_pieces {α β : Type} {as : List α} {f : α → List β} (h : (as.flatMap f).Nodup) {a a' : α}
    (ha : a ∈ as) (ha' : a' ∈ as) {b : β} (hb : b ∈ f a) (hb' : b ∈ f a') : a = a' := by
  by_contra hne
  have hsymm : Std.Symm (Function.onFun List.Disjoint f) := ⟨fun _ _ h _ hx hx' => h hx' hx⟩
  exact (List.nodup_flatMap.mp h).2.forall ha ha' hne hb hb'

/-- An entry that is no directory ends the scan of it at once. -/
theorem scanEntry_of_not_isDir (h : entry.isDir ≠ true) : ∃ files, scanEntry extensions scan path entry = value (files, []) := by
  rw [scanEntry, if_neg h]
  split
  · exact ⟨_, rfl⟩
  · split
    · exact ⟨_, rfl⟩
    · exact ⟨_, rfl⟩

theorem scanEntry_of_isDir (h : entry.isDir = true) (hvisible : ¬ (entry.isHidden ∨ entry.isSystem)) :
    scanEntry extensions scan path entry = scan (fullPath path entry.name) := by
  rw [scanEntry, if_neg hvisible, if_pos h]

theorem visited_of_mapM {found : List (List DirectoryEntry × List (Nat × Nat))}
    (hvisible : ∀ entry ∈ entries, ¬ (entry.isHidden ∨ entry.isSystem))
    (h : entries.mapM (scanEntry extensions scan path) = value found) :
    (∀ entry ∈ subdirectories entries, (scan (fullPath path entry.name)).Returns) ∧
      found.flatMap (·.2) = (subdirectories entries).flatMap fun entry => visited (scan (fullPath path entry.name)) := by
  induction entries generalizing found with
  | nil =>
      cases h
      exact ⟨fun _ hmem => absurd hmem List.not_mem_nil, rfl⟩
  | cons entry entries ih =>
      rw [List.forall_mem_cons] at hvisible
      rw [List.mapM_cons] at h
      obtain ⟨one, hone, h⟩ := bind_eq_value.mp h
      obtain ⟨more, hmore, h⟩ := bind_eq_value.mp h
      cases h
      obtain ⟨hreturns, hmore⟩ := ih hvisible.2 hmore
      rw [List.flatMap_cons, hmore, subdirectories, List.filter_cons]
      by_cases hdir : entry.isDir = true
      · rw [scanEntry_of_isDir hdir hvisible.1] at hone
        rw [if_pos hdir, List.flatMap_cons, List.forall_mem_cons, hone]
        exact ⟨⟨⟨one, rfl⟩, hreturns⟩, rfl⟩
      · obtain ⟨files, hfile⟩ := @scanEntry_of_not_isDir extensions entry path scan hdir
        cases hone.symm.trans hfile
        rw [if_neg hdir]
        exact ⟨hreturns, rfl⟩

theorem returns_mapM_scanEntry (hvisible : ∀ entry ∈ entries, ¬ (entry.isHidden ∨ entry.isSystem))
    (h : ∀ entry ∈ subdirectories entries, (scan (fullPath path entry.name)).Returns) :
    (entries.mapM (scanEntry extensions scan path)).Returns := by
  induction entries with
  | nil => exact returns_pure
  | cons entry entries ih =>
      rw [List.forall_mem_cons] at hvisible
      have hone : (scanEntry extensions scan path entry).Returns := by
        by_cases hdir : entry.isDir = true
        · rw [scanEntry_of_isDir hdir hvisible.1]
          exact h entry (List.mem_filter.mpr ⟨List.mem_cons_self, hdir⟩)
        · obtain ⟨files, hfile⟩ := @scanEntry_of_not_isDir extensions entry path scan hdir
          exact ⟨_, hfile⟩
      have hmore := ih hvisible.2 fun other hother =>
        h other (List.mem_filter.mpr ⟨List.mem_cons_of_mem _ (List.mem_filter.mp hother).1, (List.mem_filter.mp hother).2⟩)
      rw [List.mapM_cons]
      exact hone.bind fun _ _ => hmore.bind fun _ _ => returns_pure

/-- A scan lists one directory, and what it visits behind that are the visits of its subdirectories. -/
theorem scan_succ_eq_value (h : scanFilesRecursive v extensions (depth + 1) path = value found) :
    ∃ dir entries, stat v path = value dir ∧ listEntry v dir = value entries ∧
      (∀ entry ∈ subdirectories entries, (scanFilesRecursive v extensions depth (fullPath path entry.name)).Returns) ∧
      found.2 = dir.extent :: (subdirectories entries).flatMap fun entry =>
        visited (scanFilesRecursive v extensions depth (fullPath path entry.name)) := by
  obtain ⟨dir, hstat, h⟩ := bind_eq_value.mp h
  obtain ⟨entries, hlist, h⟩ := bind_eq_value.mp h
  obtain ⟨parts, hparts, h⟩ := bind_eq_value.mp h
  cases h
  obtain ⟨hreturns, hvisits⟩ := visited_of_mapM (v.list_visible _ _ (listEntry_eq_value.mp hlist).2) hparts
  exact ⟨dir, entries, hstat, hlist, hreturns, congrArg (dir.extent :: ·) hvisits⟩

theorem scan_succ_of_subdirectories (hstat : stat v path = value dir) (hlist : listEntry v dir = value entries)
    (h : ∀ entry ∈ subdirectories entries,
      (scanFilesRecursive v extensions depth (fullPath path entry.name)).Returns) :
    (scanFilesRecursive v extensions (depth + 1) path).Returns ∧
      visited (scanFilesRecursive v extensions (depth + 1) path) =
        dir.extent :: (subdirectories entries).flatMap fun entry =>
          visited (scanFilesRecursive v extensions depth (fullPath path entry.name)) := by
  have hvisible := v.list_visible _ _ (listEntry_eq_value.mp hlist).2
  obtain ⟨parts, hparts⟩ := @returns_mapM_scanEntry extensions path entries _ hvisible h
  rw [scanFilesRecursive, hstat, value_bind, hlist, value_bind, hparts]
  exact ⟨⟨_, rfl⟩, congrArg (dir.extent :: ·) (visited_of_mapM hvisible hparts).2⟩

/-- A directory that a walk reaches from a scanned one is visited by the scan. -/
theorem extent_mem_of_walk {parts : List Text} (h : scanFilesRecursive v extensions depth path = value found)
    (hlead : Leads v path dir) (hparts : ∀ part ∈ parts, IsComponent part) (hwalk : walk v parts dir = value entry)
    (hentry : entry.isDir = true) : entry.extent ∈ found.2 := by
  induction parts generalizing path dir depth found with
  | nil =>
      cases hwalk
      cases depth with
      | zero => cases h
      | succ depth =>
          obtain ⟨dir', _, hstat, -, -, hfound⟩ := scan_succ_eq_value h
          cases hstat.symm.trans hlead.1
          rw [hfound]
          exact List.mem_cons_self
  | cons part parts ih =>
      rw [List.forall_mem_cons] at hparts
      obtain ⟨next, hnext, hrest⟩ := bind_eq_value.mp hwalk
      obtain ⟨entries, hlist, hfind⟩ := lookup_eq_value.mp hnext
      obtain ⟨hmem, hname, hfirst⟩ := findEntry_eq_some hfind
      have hdir := isDir_of_walk hrest hentry
      cases depth with
      | zero => cases h
      | succ depth =>
          obtain ⟨dir', entries', hstat, hlist', hreturns, hfound⟩ := scan_succ_eq_value h
          cases hstat.symm.trans hlead.1
          cases hlist'.symm.trans hlist
          have hsub : next ∈ subdirectories entries := List.mem_filter.mpr ⟨hmem, hdir⟩
          obtain ⟨inner, hinner⟩ := hreturns next hsub
          have hvisit := ih hinner (hlead.child hlist (isComponent_congr hname hparts.1) hfirst hdir) hparts.2 hrest
          rw [hfound]
          refine List.mem_cons_of_mem _ (List.mem_flatMap.mpr ⟨next, hsub, ?_⟩)
          rw [hinner]
          exact hvisit

/-- What a scan visits starts with the directory its path leads to. -/
theorem exists_extent_mem (h : scanFilesRecursive v extensions depth path = value found) :
    ∃ dir, stat v path = value dir ∧ dir.isDir = true ∧ dir.extent ∈ found.2 := by
  cases depth with
  | zero => cases h
  | succ depth =>
      obtain ⟨dir, _, hstat, hlist, -, hfound⟩ := scan_succ_eq_value h
      rw [hfound]
      exact ⟨dir, hstat, (listEntry_eq_value.mp hlist).1, List.mem_cons_self⟩

/-- A scan that does not visit its directory again has no subdirectory whose name has no component: the path of such a
one leads back, or to an entry of the root directory without a name. -/
theorem components_ne_nil (hlead : Leads v path dir) (hlist : listEntry v dir = value entries)
    (hreturns : ∀ entry ∈ subdirectories entries,
      (scanFilesRecursive v extensions depth (fullPath path entry.name)).Returns)
    (hvisit : ∀ entry ∈ subdirectories entries,
      dir.extent ∉ visited (scanFilesRecursive v extensions depth (fullPath path entry.name)))
    (hentry : entry ∈ subdirectories entries) : components entry.name ≠ [] := by
  intro hname
  obtain ⟨found, hfound⟩ := hreturns entry hentry
  obtain ⟨target, hstat, htarget, hhead⟩ := exists_extent_mem hfound
  have hne : target.extent ≠ dir.extent := by
    intro heq
    refine hvisit entry hentry ?_
    rwa [hfound, ← heq]
  have hsame : components (fullPath path entry.name) = components path := by
    rw [components_fullPath, hname, List.append_nil]
  by_cases hpath : components path = []
  · have hroot : IsRoot path := hlead.2.2.resolve_right (not_not.mpr hpath)
    have hdir : v.root = dir := value.inj ((stat_root hroot).symm.trans hlead.1)
    by_cases hfull : IsRoot (fullPath path entry.name)
    · cases hstat.symm.trans (stat_root hfull)
      exact hne (congrArg DirectoryEntry.extent hdir)
    · rw [stat_eq_lookup_nil (hsame.trans hpath) hfull, hdir] at hstat
      obtain ⟨entries', hlist', hfind⟩ := lookup_eq_value.mp hstat
      cases hlist'.symm.trans hlist
      obtain ⟨hmem, hempty, -⟩ := findEntry_eq_some hfind
      have hsub : target ∈ subdirectories entries := List.mem_filter.mpr ⟨hmem, htarget⟩
      have hnil : target.name = [] := by
        rw [eqIgnoreAsciiCase, decide_eq_true_eq] at hempty
        exact List.map_eq_nil_iff.mp hempty
      have hroot' : IsRoot (fullPath path target.name) := by
        rw [fullPath, if_pos hroot, hnil]
        exact .inl rfl
      obtain ⟨again, hagain⟩ := hreturns target hsub
      obtain ⟨first, hfirst, -, hmem'⟩ := exists_extent_mem hagain
      cases hfirst.symm.trans (stat_root hroot')
      refine hvisit target hsub ?_
      rw [hagain, ← hdir]
      exact hmem'
  · rw [stat_eq_walk (by rwa [hsame]), hsame, hlead.walk_eq] at hstat
    exact hne (congrArg DirectoryEntry.extent (value.inj hstat).symm)

/-- A directory in whose scan nothing is visited twice has a listing in which each path leads where it should: any other
path would visit again the directory itself or one below a sibling. -/
theorem navigable_of_visits (hlead : Leads v path dir) (hlist : listEntry v dir = value entries)
    (hreturns : ∀ entry ∈ subdirectories entries,
      (scanFilesRecursive v extensions depth (fullPath path entry.name)).Returns)
    (hnodup : (dir.extent :: (subdirectories entries).flatMap fun entry =>
      visited (scanFilesRecursive v extensions depth (fullPath path entry.name))).Nodup) : Navigable entries := by
  obtain ⟨hself, hpieces⟩ := List.nodup_cons.mp hnodup
  intro entry hentry
  have hname := components_ne_nil hlead hlist hreturns
    (fun entry hentry hmem => hself (List.mem_flatMap.mpr ⟨entry, hentry, hmem⟩)) hentry
  obtain ⟨first, rest, hname⟩ := List.exists_cons_of_ne_nil hname
  have hall : ∀ part ∈ first :: rest, IsComponent part := by
    rw [← hname]
    exact fun _ => isComponent_of_mem_components
  rw [List.forall_mem_cons] at hall
  have hparts : components (fullPath path entry.name) = components path ++ first :: rest := by
    rw [components_fullPath, hname]
  have hne : components (fullPath path entry.name) ≠ [] := by
    rw [hparts]
    exact List.append_ne_nil_of_right_ne_nil _ (List.cons_ne_nil _ _)
  obtain ⟨found, hfound⟩ := hreturns entry hentry
  obtain ⟨target, hstat, htarget, hhead⟩ := exists_extent_mem hfound
  rw [stat_eq_walk hne, hparts, walk_append, hlead.walk_eq, value_bind] at hstat
  obtain ⟨next, hnext, hrest⟩ := bind_eq_value.mp hstat
  obtain ⟨entries', hlist', hfind⟩ := lookup_eq_value.mp hnext
  cases hlist'.symm.trans hlist
  obtain ⟨hmem, hlike, hfirst⟩ := findEntry_eq_some hfind
  have hcomponent := isComponent_congr hlike hall.1
  have hdir := isDir_of_walk hrest htarget
  have hsub : next ∈ subdirectories entries := List.mem_filter.mpr ⟨hmem, hdir⟩
  obtain ⟨inner, hinner⟩ := hreturns next hsub
  have hreach := extent_mem_of_walk hinner (hlead.child hlist hcomponent hfirst hdir) hall.2 hrest htarget
  -- the target is visited through the entry and through the sibling that its path leads to
  have hsame : entry = next := by
    refine eq_of_mem_pieces hpieces hentry hsub (show target.extent ∈ _ from ?_) ?_
    · rw [hfound]
      exact hhead
    · rw [hinner]
      exact hreach
  rw [hsame]
  exact ⟨hcomponent, hfirst⟩

end Steps

section Runs

variable {depth : Nat} {found : List DirectoryEntry × List (Nat × Nat)} {dirs more inside after : List (Nat × Nat)}

theorem Spans.append {ε : Type} {children : Nat × Nat → Outcome ε (List (Nat × Nat))} (h : Spans children dirs inside)
    (h' : Spans children more after) : Spans children (dirs ++ more) (inside ++ after) := by
  induction h with
  | nil => exact h'
  | cons hlist hinside _ _ ih =>
      rw [List.append_assoc]
      exact .cons hlist hinside ih

theorem Spans.flatMap {ε : Type} {children : Nat × Nat → Outcome ε (List (Nat × Nat))}
    {visits : DirectoryEntry → List (Nat × Nat)} (h : ∀ entry ∈ entries, Spans children [entry.extent] (visits entry)) :
    Spans children (entries.map DirectoryEntry.extent) (entries.flatMap visits) := by
  induction entries with
  | nil => exact .nil
  | cons entry entries ih =>
      rw [List.forall_mem_cons] at h
      exact h.1.append (ih h.2)

theorem Spans.exists_children {ε : Type} {children : Nat × Nat → Outcome ε (List (Nat × Nat))}
    (h : Spans children dirs inside) {extent : Nat × Nat} (hmem : extent ∈ inside) :
    ∃ below, children extent = value below := by
  induction h with
  | nil => exact absurd hmem List.not_mem_nil
  | cons hlist _ _ ihinside ihafter =>
      rcases List.mem_append.mp hmem with hmem | hmem
      · rcases List.mem_cons.mp hmem with rfl | hmem
        · exact ⟨_, hlist⟩
        · exact ihinside hmem
      · exact ihafter hmem

theorem Spans.congr {ε : Type} {children children' : Nat × Nat → Outcome ε (List (Nat × Nat))}
    (h : Spans children dirs inside) (heq : ∀ extent ∈ inside, children' extent = children extent) :
    Spans children' dirs inside := by
  induction h with
  | nil => exact .nil
  | cons hlist _ _ ihinside ihafter =>
      refine .cons ((heq _ (List.mem_append_left _ List.mem_cons_self)).trans hlist) (ihinside fun extent hmem => ?_)
        (ihafter fun extent hmem => ?_)
      · exact heq extent (List.mem_append_left _ (List.mem_cons_of_mem _ hmem))
      · exact heq extent (List.mem_append_right _ hmem)

/-- Where some subdirectories are left out, fewer directories are below, and as many only if none is left out. -/
theorem Spans.length_le {ε : Type} {children children' : Nat × Nat → Outcome ε (List (Nat × Nat))}
    (h : Spans children dirs inside) (h' : Spans children' more after) (hdirs : more.Sublist dirs)
    (hsub : ∀ extent ∈ inside, ∀ below below', children extent = value below → children' extent = value below' →
      below'.Sublist below) :
    after.length ≤ inside.length ∧ (after.length = inside.length →
      more = dirs ∧ ∀ extent ∈ inside, children' extent = children extent) := by
  induction h generalizing more after with
  | nil =>
      cases List.sublist_nil.mp hdirs
      cases h'
      exact ⟨le_rfl, fun _ => ⟨rfl, fun _ hmem => absurd hmem List.not_mem_nil⟩⟩
  | @cons dir below rest inside after' hlist hinside hafter ihinside ihafter =>
      have hsubafter := fun extent hmem => hsub extent (List.mem_append_right _ hmem)
      rw [List.length_append, List.length_cons]
      cases hdirs with
      | cons _ hdirs =>
          obtain ⟨hle, -⟩ := ihafter h' hdirs hsubafter
          exact ⟨by omega, fun heq => by omega⟩
      | cons_cons _ hdirs =>
          cases h' with
          | @cons _ below' rest' inside' after'' hlist' hinside' hafter' =>
              have hbelow := hsub dir (List.mem_append_left _ List.mem_cons_self) _ _ hlist hlist'
              obtain ⟨hle, heq⟩ := ihinside hinside' hbelow fun extent hmem =>
                hsub extent (List.mem_append_left _ (List.mem_cons_of_mem _ hmem))
              obtain ⟨hle', heq'⟩ := ihafter hafter' hdirs hsubafter
              rw [List.length_append, List.length_cons]
              refine ⟨by omega, fun hlength => ?_⟩
              obtain ⟨rfl, hsame⟩ := heq (by omega)
              obtain ⟨rfl, hsame'⟩ := heq' (by omega)
              refine ⟨rfl, fun extent hmem => ?_⟩
              rcases List.mem_append.mp hmem with hmem | hmem
              · rcases List.mem_cons.mp hmem with rfl | hmem
                · exact hlist'.trans hlist.symm
                · exact hsame extent hmem
              · exact hsame' extent hmem

theorem listed_of_listEntry (h : listEntry v dir = value entries) :
    listed v dir.extent = value ((subdirectories entries).map DirectoryEntry.extent) := by
  rw [listed, (listEntry_eq_value.mp h).2]
  rfl

/-- A scan that visits nothing twice has visited the directories below its own, each of them with a navigable listing. -/
theorem spans_of_scan (h : scanFilesRecursive v extensions depth path = value found) (hlead : Leads v path dir)
    (hnodup : found.2.Nodup) : Spans (listed v) [dir.extent] found.2 ∧
      ∀ extent ∈ found.2, ∀ entries, v.list extent = value entries → Navigable entries := by
  induction depth generalizing path dir found with
  | zero => cases h
  | succ depth ih =>
      obtain ⟨dir', entries, hstat, hlist, hreturns, hfound⟩ := scan_succ_eq_value h
      cases hstat.symm.trans hlead.1
      rw [hfound] at hnodup ⊢
      have hnavigable := navigable_of_visits hlead hlist hreturns hnodup
      have hbelow : ∀ entry ∈ subdirectories entries,
          Spans (listed v) [entry.extent] (visited (scanFilesRecursive v extensions depth (fullPath path entry.name))) ∧
            ∀ extent ∈ visited (scanFilesRecursive v extensions depth (fullPath path entry.name)),
              ∀ entries, v.list extent = value entries → Navigable entries := by
        intro entry hentry
        obtain ⟨inner, hinner⟩ := hreturns entry hentry
        obtain ⟨hname, hfind⟩ := hnavigable entry hentry
        have hpiece := (List.nodup_flatMap.mp (List.nodup_cons.mp hnodup).2).1 entry hentry
        rw [hinner] at hpiece ⊢
        exact ih hinner (hlead.child hlist hname hfind (List.mem_filter.mp hentry).2) hpiece
      constructor
      · have hspan := Spans.cons (listed_of_listEntry hlist) (Spans.flatMap fun entry hentry => (hbelow entry hentry).1) .nil
        rwa [List.append_nil] at hspan
      · intro extent hmem inner hinner
        rcases List.mem_cons.mp hmem with rfl | hmem
        · cases (listEntry_eq_value.mp hlist).2.symm.trans hinner
          exact hnavigable
        · obtain ⟨entry, hentry, hmem⟩ := List.mem_flatMap.mp hmem
          exact (hbelow entry hentry).2 extent hmem inner hinner

/-- Where all listings are navigable, the scans of a list of directories come to an end and visit what is below them. -/
theorem scans_of_spans (h : Spans (listed v) dirs inside) (hentries : entries.map DirectoryEntry.extent = dirs)
    (hlead : ∀ entry ∈ entries, Leads v (fullPath path entry.name) entry)
    (hnavigable : ∀ extent ∈ inside, ∀ entries, v.list extent = value entries → Navigable entries) :
    ∃ enough, ∀ depth ≥ enough,
      (∀ entry ∈ entries, (scanFilesRecursive v extensions depth (fullPath path entry.name)).Returns) ∧
        entries.flatMap (fun entry => visited (scanFilesRecursive v extensions depth (fullPath path entry.name))) =
          inside := by
  induction h generalizing entries path with
  | nil =>
      rw [List.map_eq_nil_iff.mp hentries]
      exact ⟨0, fun _ _ => ⟨fun _ h => absurd h List.not_mem_nil, rfl⟩⟩
  | @cons dir below rest inside after hbelow hinside hafter ihinside ihafter =>
      obtain ⟨entry, entries, rfl, rfl, rfl⟩ := List.map_eq_cons_iff.mp hentries
      rw [List.forall_mem_cons] at hlead
      obtain ⟨inner, hinner, hchildren⟩ := bind_eq_value.mp hbelow
      have hlist : listEntry v entry = value inner := listEntry_eq_value.mpr ⟨hlead.1.2.1, hinner⟩
      have hself := hnavigable entry.extent (List.mem_append_left _ List.mem_cons_self) inner hinner
      obtain ⟨enough, hscans⟩ := @ihinside (fullPath path entry.name) (subdirectories inner) (value.inj hchildren)
        (fun child hchild => hlead.1.child hlist (hself child hchild).1 (hself child hchild).2 (List.mem_filter.mp hchild).2)
        (fun extent hmem => hnavigable extent (List.mem_append_left _ (List.mem_cons_of_mem _ hmem)))
      obtain ⟨enough', hscans'⟩ := @ihafter path entries rfl hlead.2
        (fun extent hmem => hnavigable extent (List.mem_append_right _ hmem))
      refine ⟨max (enough + 1) enough', fun depth hdepth => ?_⟩
      obtain ⟨depth, rfl⟩ := Nat.exists_eq_add_one.mpr (show 0 < depth by omega)
      obtain ⟨hreturns, hvisits⟩ := hscans depth (by omega)
      obtain ⟨hreturns', hvisits'⟩ := hscans' (depth + 1) (by omega)
      obtain ⟨hscan, hvisit⟩ := scan_succ_of_subdirectories hlead.1.1 hlist hreturns
      rw [List.forall_mem_cons, List.flatMap_cons, hvisit, hvisits, hvisits']
      exact ⟨⟨hscan, hreturns'⟩, rfl⟩

theorem leads_root : Leads v rootPath v.root := ⟨stat_root (.inl rfl), v.root_isDir, .inl (.inl rfl)⟩

/-- Where all listings are navigable, the scan of the root directory comes to an end and visits each directory once. -/
theorem scan_of_spans (h : Spans (listed v) [v.root.extent] dirs)
    (hnavigable : ∀ extent ∈ dirs, ∀ entries, v.list extent = value entries → Navigable entries) :
    ∃ depth found, scanFilesRecursive v extensions depth rootPath = value found ∧ found.2 = dirs := by
  obtain - | ⟨hbelow, hinside, hafter⟩ := h
  obtain - | - := hafter
  rw [List.append_nil] at hnavigable ⊢
  obtain ⟨inner, hinner, hchildren⟩ := bind_eq_value.mp hbelow
  have hlist : listEntry v v.root = value inner := listEntry_eq_value.mpr ⟨v.root_isDir, hinner⟩
  have hself := hnavigable _ List.mem_cons_self inner hinner
  obtain ⟨enough, hscans⟩ := @scans_of_spans v extensions rootPath (subdirectories inner) _ _ hinside (value.inj hchildren)
    (fun child hchild => leads_root.child hlist (hself child hchild).1 (hself child hchild).2 (List.mem_filter.mp hchild).2)
    (fun extent hmem => hnavigable extent (List.mem_cons_of_mem _ hmem))
  obtain ⟨hreturns, hvisits⟩ := hscans enough le_rfl
  obtain ⟨⟨found, hfound⟩, hvisit⟩ := scan_succ_of_subdirectories leads_root.1 hlist hreturns
  rw [hfound, hvisits] at hvisit
  exact ⟨enough + 1, found, hfound, hvisit⟩

end Runs

end NextBoot.Fs.Scan
