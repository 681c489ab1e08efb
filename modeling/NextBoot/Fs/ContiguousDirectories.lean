import NextBoot.Fs.DirectoryWalks

namespace NextBoot.Fs

open Words Bytes Strings Results Faults Outcome Walks StateTransition

theorem pathToCluster_append {list : ClusterListing} {parts more : List Text} {cluster : Nat} :
    pathToCluster list (parts ++ more) cluster = chain (pathToCluster list parts cluster) (pathToCluster list more) := by
  induction parts generalizing cluster with
  | nil => rfl
  | cons part parts ih =>
      rw [List.cons_append, pathToCluster, pathToCluster]
      cases list cluster with
      | none => rfl
      | some listed =>
          cases listed with
          | error e => rfl
          | fault => rfl
          | value entries =>
              rw [chain_value, chain_value]
              cases findEntry part entries with
              | none => rfl
              | some entry =>
                  dsimp only
                  split
                  · rfl
                  · exact ih

/-- A path that ends in the name of a directory is listed from the first cluster of its entry. -/
theorem readDirWith_of_entry {list : ClusterListing} {root parent : Nat} {path name : Text} {parts : List Text}
    {entries : List DirectoryEntry} {dir : DirectoryEntry} (hpath : ¬ Paths.IsRoot path)
    (hparts : Paths.pathParts path = parts ++ [name]) (hparent : pathToCluster list parts root = some (value parent))
    (hlist : list parent = some (value entries)) (hentry : findEntry name entries = some dir) (hdir : dir.isDir = true) :
    readDirWith list root path = list (dir.startCluster % 2 ^ 32) := by
  have hlast : pathToCluster list [name] parent = some (value (dir.startCluster % 2 ^ 32)) := by
    rw [pathToCluster, hlist]
    rw [chain_value, hentry]
    exact if_neg (not_not.mpr hdir)
  rw [readDirWith, if_neg hpath, hparts, pathToCluster_append, hparent]
  rw [chain_value, hlast, chain_value]

namespace ExFat

/-- The clusters that `read_directory` reads, one after the other. -/
def clustersRead (fs : ExFat) : Nat → Nat → Option (List Nat)
  | 0, _ => none
  | fuel + 1, cluster =>
      match fs.chained cluster with
      | none => some [cluster]
      | some next => (fs.clustersRead fuel next).map fun rest => cluster :: rest

/-- The clusters of a directory that has no chain: as many in a row as hold its data. -/
def run (fs : ExFat) (dir : DirectoryEntry) : List Nat :=
  List.range' (dir.startCluster % 2 ^ 32) ((dir.size + fs.clusterSize - 1) / fs.clusterSize)

/-- Clusters up to the first that cannot be read. -/
def reached (fs : ExFat) : List Nat → List Nat
  | [] => []
  | cluster :: rest =>
      match fs.readCluster cluster with
      | .error _ => [cluster]
      | .ok _ => cluster :: fs.reached rest

/-- What the directory lists whose data are the given clusters. -/
def listRun (fs : ExFat) : List Nat → Outcome FsError (List DirectoryEntry)
  | [] => pure []
  | cluster :: rest => do
      let clusterData ← ofExcept (fs.readCluster cluster)
      let entries ← readEntries clusterData clusterData.length 0
      let others ← fs.listRun rest
      pure (entries ++ others)

/-- Listing a directory from a cluster reads the given clusters and lists what they hold. -/
def Lists (fs : ExFat) (cluster : Nat) (clusters : List Nat) : Prop :=
  ∃ fuel, fs.clustersRead fuel cluster = some (fs.reached clusters) ∧
    fs.walkDirectory fuel cluster = some (fs.listRun clusters)

/-- The table links clusters one to the next, as far as they can be read, and ends the chain behind the last. -/
def Links (fs : ExFat) : List Nat → Prop
  | [] => False
  | [cluster] => ∀ data, fs.readCluster cluster = .ok data → ∃ entry, fs.getNextCluster cluster = .ok entry ∧ endOfChain ≤ entry
  | cluster :: next :: rest =>
      ∀ data, fs.readCluster cluster = .ok data →
        (fs.getNextCluster cluster = .ok next ∧ next < endOfChain) ∧ fs.Links (next :: rest)

/-- Volumes that differ in the entries of some clusters in the table and in nothing else that is read. -/
structure DifferInEntries (fs fs' : ExFat) (clusters : List Nat) : Prop where
  clusterSize : fs.clusterSize = fs'.clusterSize
  rootCluster : fs.rootCluster = fs'.rootCluster
  reads : ∀ cluster, fs.readCluster cluster = fs'.readCluster cluster
  entries : ∀ cluster < 2 ^ 32, cluster ∉ clusters → fs.getNextCluster cluster = fs'.getNextCluster cluster

/-- A path leads to a directory: the entry of its last name in the listing of the directory before. -/
def LeadsTo (fs : ExFat) (fuel : Nat) (path : Text) (dir : DirectoryEntry) : Prop :=
  ¬ Paths.IsRoot path ∧ ∃ parts name parent entries, Paths.pathParts path = parts ++ [name] ∧
    pathToCluster (fs.walkDirectory fuel) parts fs.rootCluster = some (value parent) ∧
    fs.walkDirectory fuel parent = some (value entries) ∧ findEntry name entries = some dir ∧ dir.isDir = true

variable {fs fs' : ExFat} {cluster fuel : Nat} {clusters : List Nat} {dir : DirectoryEntry} {data : List UInt8}

theorem directoryRound_of_read (hread : fs.readCluster cluster = .ok data) : ∃ entries,
    readEntries data data.length 0 = value entries ∧
      fs.directoryRound cluster = (ofExcept (fs.getNextCluster cluster) >>= fun next =>
        pure (entries, if endOfChain ≤ next then none else some next)) := by
  obtain ⟨entries, hentries⟩ := @returns_readEntries data 0 data.length
  exact ⟨entries, hentries, by rw [directoryRound, hread, ofExcept_ok, value_bind, hentries, value_bind]⟩

theorem listRun_congr (hreads : ∀ cluster, fs.readCluster cluster = fs'.readCluster cluster) :
    fs.listRun clusters = fs'.listRun clusters := by
  induction clusters with
  | nil => rfl
  | cons cluster clusters ih => rw [listRun, listRun, hreads, ih]

theorem listRun_of_read {entries : List DirectoryEntry} (hread : fs.readCluster cluster = .ok data)
    (hentries : readEntries data data.length 0 = value entries) :
    fs.listRun (cluster :: clusters) = (entries ++ ·) <$> fs.listRun clusters := by
  rw [listRun, hread, ofExcept_ok, value_bind, hentries, value_bind]
  rfl

theorem map_append_inj {entries : List DirectoryEntry} {a b : Outcome FsError (List DirectoryEntry)} :
    (entries ++ ·) <$> a = (entries ++ ·) <$> b ↔ a = b := by
  refine ⟨fun h => ?_, fun h => by rw [h]⟩
  cases a with
  | value a =>
      cases b with
      | value b => exact congrArg value (List.append_cancel_left (value.inj h))
      | error e => cases h
      | fault => cases h
  | error e =>
      cases b with
      | value b => cases h
      | error e' => exact congrArg error (error.inj h)
      | fault => cases h
  | fault =>
      cases b with
      | value b => cases h
      | error e => cases h
      | fault => rfl

theorem reached_ne_nil : fs.reached (cluster :: clusters) ≠ [] := by
  rw [reached]
  split <;> exact List.cons_ne_nil _ _

theorem clustersRead_head {read : List Nat} (h : fs.clustersRead fuel cluster = some read) : read.head? = some cluster := by
  cases fuel with
  | zero => cases h
  | succ fuel =>
      rw [clustersRead] at h
      split at h
      · rw [← Option.some.inj h, List.head?_cons]
      · obtain ⟨rest, -, rfl⟩ := Option.map_eq_some_iff.mp h
        rw [List.head?_cons]

theorem head_reached : (fs.reached clusters).head? = clusters.head? := by
  cases clusters with
  | nil => rfl
  | cons cluster clusters =>
      rw [reached]
      split <;> rfl

theorem not_lists_nil : ¬ fs.Lists cluster [] := by
  rintro ⟨fuel, hread, -⟩
  cases clustersRead_head hread

theorem lists_of_unreadable {e : FsError} (hread : fs.readCluster cluster = .error e) : fs.Lists cluster (cluster :: clusters) := by
  refine ⟨1, ?_, ?_⟩
  · rw [clustersRead, chained, reached, hread]
    rfl
  · rw [walkDirectory, walk, directoryRound, listRun, hread]
    rfl

/-- Behind a cluster whose entry cannot be read, nothing is listed. -/
theorem not_lists_of_entry_error {e : FsError} (hread : fs.readCluster cluster = .ok data)
    (hentry : fs.getNextCluster cluster = .error e) : ¬ fs.Lists cluster (cluster :: clusters) := by
  rintro ⟨fuel, hclusters, hwalk⟩
  cases fuel with
  | zero => cases hwalk
  | succ fuel =>
      obtain ⟨entries, hentries, hround⟩ := directoryRound_of_read hread
      rw [clustersRead, chained, reached, hread, hentry] at hclusters
      rw [walkDirectory, walk, hround, hentry, listRun_of_read hread hentries] at hwalk
      cases clusters with
      | nil => cases hwalk
      | cons next clusters => exact reached_ne_nil (List.cons.inj (Option.some.inj hclusters)).2.symm

theorem lists_last_iff {entry : Nat} (hread : fs.readCluster cluster = .ok data)
    (hentry : fs.getNextCluster cluster = .ok entry) (hlast : endOfChain ≤ entry) :
    fs.Lists cluster (cluster :: clusters) ↔ clusters = [] := by
  obtain ⟨entries, hentries, hround⟩ := directoryRound_of_read hread
  have hchained : fs.chained cluster = none := by
    rw [chained, hread, hentry]
    exact if_pos hlast
  constructor
  · rintro ⟨fuel, hclusters, -⟩
    cases fuel with
    | zero => cases hclusters
    | succ fuel =>
        rw [clustersRead, hchained, reached, hread] at hclusters
        cases clusters with
        | nil => rfl
        | cons next clusters => exact absurd (List.cons.inj (Option.some.inj hclusters)).2.symm reached_ne_nil
  · rintro rfl
    refine ⟨1, ?_, ?_⟩
    · rw [clustersRead, hchained, reached, hread]
      rfl
    · rw [walkDirectory, walk, hround, hentry, ofExcept_ok, value_bind, if_pos hlast, listRun_of_read hread hentries]
      exact congrArg (fun found => some (value found)) (List.append_nil entries).symm

theorem lists_linked_iff {entry : Nat} (hread : fs.readCluster cluster = .ok data)
    (hentry : fs.getNextCluster cluster = .ok entry) (hmore : entry < endOfChain) :
    fs.Lists cluster (cluster :: clusters) ↔ fs.Lists entry clusters := by
  obtain ⟨entries, hentries, hround⟩ := directoryRound_of_read hread
  have hchained : fs.chained cluster = some entry := by
    rw [chained, hread, hentry]
    exact if_neg (by omega)
  have hclusters : ∀ fuel, fs.clustersRead (fuel + 1) cluster = some (fs.reached (cluster :: clusters)) ↔
      fs.clustersRead fuel entry = some (fs.reached clusters) := by
    intro fuel
    rw [clustersRead, hchained, reached, hread]
    simp
  have hwalk : ∀ fuel, fs.walkDirectory (fuel + 1) cluster = some (fs.listRun (cluster :: clusters)) ↔
      fs.walkDirectory fuel entry = some (fs.listRun clusters) := by
    intro fuel
    rw [walkDirectory, walk, hround, hentry, ofExcept_ok, value_bind, if_neg (by omega), listRun_of_read hread hentries]
    dsimp only [pure_eq]
    rw [Option.map_eq_some_iff]
    constructor
    · rintro ⟨rest, hrest, heq⟩
      rw [← map_append_inj.mp heq]
      exact hrest
    · exact fun h => ⟨_, h, rfl⟩
  constructor
  · rintro ⟨fuel, hread', hlist⟩
    cases fuel with
    | zero => cases hlist
    | succ fuel => exact ⟨fuel, (hclusters fuel).mp hread', (hwalk fuel).mp hlist⟩
  · rintro ⟨fuel, hread', hlist⟩
    exact ⟨fuel + 1, (hclusters fuel).mpr hread', (hwalk fuel).mpr hlist⟩

/-- The clusters are read and listed that the table links. -/
theorem lists_iff : fs.Lists cluster (cluster :: clusters) ↔ fs.Links (cluster :: clusters) := by
  induction clusters generalizing cluster with
  | nil =>
      rw [Links]
      cases hread : fs.readCluster cluster with
      | error e => exact ⟨fun _ _ hdata => (nomatch hdata), fun _ => lists_of_unreadable hread⟩
      | ok data =>
          cases hentry : fs.getNextCluster cluster with
          | error e =>
              refine ⟨fun h => absurd h (not_lists_of_entry_error hread hentry), fun h => ?_⟩
              obtain ⟨_, hok, -⟩ := h data rfl
              cases hok
          | ok entry =>
              by_cases hlast : endOfChain ≤ entry
              · exact ⟨fun _ _ _ => ⟨entry, rfl, hlast⟩, fun _ => (lists_last_iff hread hentry hlast).mpr rfl⟩
              · rw [lists_linked_iff hread hentry (by omega)]
                refine ⟨fun h => absurd h not_lists_nil, fun h => ?_⟩
                obtain ⟨_, hok, hlast'⟩ := h data rfl
                cases hok
                exact absurd hlast' hlast
  | cons next clusters ih =>
      rw [Links]
      cases hread : fs.readCluster cluster with
      | error e => exact ⟨fun _ _ hdata => (nomatch hdata), fun _ => lists_of_unreadable hread⟩
      | ok data =>
          cases hentry : fs.getNextCluster cluster with
          | error e =>
              refine ⟨fun h => absurd h (not_lists_of_entry_error hread hentry), fun h => ?_⟩
              cases (h data rfl).1.1
          | ok entry =>
              by_cases hlast : endOfChain ≤ entry
              · rw [lists_last_iff hread hentry hlast]
                refine ⟨fun h => (nomatch h), fun h => ?_⟩
                obtain ⟨⟨hok, hmore⟩, -⟩ := h data rfl
                cases hok
                omega
              · rw [lists_linked_iff hread hentry (by omega)]
                constructor
                · intro h
                  obtain ⟨fuel, hclusters, -⟩ := id h
                  have hhead := clustersRead_head hclusters
                  rw [head_reached, List.head?_cons, Option.some.injEq] at hhead
                  subst hhead
                  exact fun _ _ => ⟨⟨rfl, by omega⟩, ih.mp h⟩
                · intro h
                  obtain ⟨⟨hok, -⟩, hlinks⟩ := h data rfl
                  cases hok
                  exact ih.mpr hlinks

/-- Listing a directory reads its run just when the table links it, whether the directory is marked as having a chain
or not. -/
theorem listsRun_iff (fs : ExFat) (dir : DirectoryEntry) :
    fs.Lists (dir.startCluster % 2 ^ 32) (fs.run dir) ↔ fs.Links (fs.run dir) := by
  rw [run]
  cases (dir.size + fs.clusterSize - 1) / fs.clusterSize with
  | zero => exact ⟨not_lists_nil, False.elim⟩
  | succ count =>
      rw [List.range'_succ]
      exact lists_iff

theorem readDir_of_leadsTo {path : Text} (h : fs.LeadsTo fuel path dir) :
    fs.readDir fuel path = fs.walkDirectory fuel (dir.startCluster % 2 ^ 32) := by
  obtain ⟨hpath, parts, name, parent, entries, hparts, hparent, hlist, hentry, hdir⟩ := h
  exact readDirWith_of_entry hpath hparts hparent hlist hentry hdir

/-- Two volumes that differ in the entries of a directory's run list it from the run, and so alike, just when both of
their tables link the run. -/
theorem contiguous_listing_iff (fs fs' : ExFat) (dir : DirectoryEntry) (hdiffer : fs.DifferInEntries fs' (fs.run dir)) :
    (∀ fuel path, fs.LeadsTo fuel path dir → fs.readDir fuel path = fs.walkDirectory fuel (dir.startCluster % 2 ^ 32)) ∧
      (fs.Lists (dir.startCluster % 2 ^ 32) (fs.run dir) ∧ fs'.Lists (dir.startCluster % 2 ^ 32) (fs'.run dir) ∧
          (∃ fuel out, fs.walkDirectory fuel (dir.startCluster % 2 ^ 32) = some out ∧
            fs'.walkDirectory fuel (dir.startCluster % 2 ^ 32) = some out) ↔
        fs.Links (fs.run dir) ∧ fs'.Links (fs.run dir)) := by
  have hrun : fs'.run dir = fs.run dir := by rw [run, run, hdiffer.clusterSize]
  refine ⟨fun _ _ => readDir_of_leadsTo, ?_⟩
  rw [listsRun_iff, listsRun_iff, hrun]
  refine ⟨fun h => ⟨h.1, h.2.1⟩, fun h => ⟨h.1, h.2, ?_⟩⟩
  obtain ⟨fuel, -, hlist⟩ := (listsRun_iff fs dir).mpr h.1
  obtain ⟨more, -, hlist'⟩ := (listsRun_iff fs' dir).mpr (hrun ▸ h.2)
  refine ⟨max fuel more, fs.listRun (fs.run dir), walk_mono hlist (Nat.le_max_left _ _), ?_⟩
  rw [hrun, ← listRun_congr hdiffer.reads] at hlist'
  exact walk_mono hlist' (Nat.le_max_right _ _)

/-- The bytes of a table in which cluster 2 ends a chain and so does cluster 4, of a root at cluster 2 with a directory of
two clusters that has no chain, and of those two clusters, with a file in the second. -/
def runBytes (i : Nat) : UInt8 :=
  if 8 ≤ i ∧ i < 12 ∨ 16 ≤ i ∧ i < 20 then 0xFF
  else if i = 512 ∨ i = 1536 then 0x85
  else if i = 513 ∨ i = 1537 then 2
  else if i = 516 then 0x10
  else if i = 544 ∨ i = 1568 then 0xC0
  else if i = 545 ∨ i = 1569 then 2
  else if i = 547 ∨ i = 1571 then 1
  else if i = 564 then 3
  else if i = 569 then 4
  else if i = 576 ∨ i = 1600 then 0xC1
  else if i = 578 then 68
  else if i = 1602 then 70
  else if i = 1024 then 1
  else 0

/-- The device on which the entry of cluster 3 is as given. -/
def runDevice (entry : UInt8) : BlockIo where
  blockSize := 512
  totalBlocks := 4
  bytes := fun i => if i = 12 then entry else runBytes i
  blockSize_lt := Words.sector_lt_u32
  totalBlocks_lt := Words.four_lt_u64

def runVolume (entry : UInt8) : ExFat where
  io := runDevice entry
  clusterSize := 512
  totalClusters := 3
  rootCluster := 2
  fatOffset := 0
  clusterHeapOffset := 1
  sectorSize_pos := Words.sector_pos

def runDirectory : DirectoryEntry := ⟨⟨1024, true, 3, true⟩, ['D'], 0x10⟩

variable {a b entry : UInt8}

theorem run_runDirectory : (runVolume entry).run runDirectory = [3, 4] := by
  have hcount : (runDirectory.size + (runVolume entry).clusterSize - 1) / (runVolume entry).clusterSize = 2 := by
    dsimp only [runDirectory, runVolume]
  have hstart : runDirectory.startCluster % 2 ^ 32 = 3 := by decide
  rw [run, hcount, hstart]
  rfl

theorem runDevice_window {start len : Nat} (h : 12 < start ∨ start + len ≤ 12) :
    BlockStore.window (runDevice a).bytes start len = BlockStore.window (runDevice b).bytes start len := by
  refine BlockStore.window_congr fun i hlo hhi => ?_
  have hother : ¬ i = 12 := by omega
  exact (if_neg hother).trans (if_neg hother).symm

theorem runDevice_read {lba len : Nat} (h : 0 < lba) :
    (runDevice a).readFullBlocks lba len = (runDevice b).readFullBlocks lba len := by
  have hwindow : BlockStore.window (runDevice a).bytes (lba * 512) len = BlockStore.window (runDevice b).bytes (lba * 512) len :=
    runDevice_window (by omega)
  rw [BlockIo.readFullBlocks, BlockIo.readFullBlocks, show (runDevice a).blockSize = 512 from rfl, hwindow]
  rfl

theorem runVolume_readCluster {cluster : Nat} : (runVolume entry).readCluster cluster =
    if 2 ≤ cluster ∧ cluster < 5 then (runDevice entry).readFullBlocks (cluster - 1) 512 else .error .invalidArgument := by
  have hheap : (runVolume entry).clusters.InHeap cluster ↔ 2 ≤ cluster ∧ cluster < 5 := Iff.rfl
  rw [readCluster]
  split
  · next hinside =>
      have hsector : (runVolume entry).clusterToSector cluster = cluster - 1 := by
        rw [clusterToSector]
        dsimp only [runVolume, runDevice]
        rw [Nat.div_self (by decide), wrappingMul_eq (by omega), wrappingAdd_eq (by omega)]
        omega
      rw [refuseIf, if_neg (not_not.mpr (hheap.mpr hinside)), ok_bind, hsector]
      rfl
  · next houtside =>
      rw [refuseIf, if_pos (fun h => houtside (hheap.mp h))]
      rfl

theorem runVolume_reads (cluster : Nat) : (runVolume a).readCluster cluster = (runVolume b).readCluster cluster := by
  rw [runVolume_readCluster, runVolume_readCluster]
  by_cases hinside : 2 ≤ cluster ∧ cluster < 5
  · rw [if_pos hinside, if_pos hinside, runDevice_read (by omega)]
  · rw [if_neg hinside, if_neg hinside]

theorem runVolume_entries {cluster : Nat} (hlt : cluster < 2 ^ 32) (hother : cluster ≠ 3) :
    (runVolume a).getNextCluster cluster = (runVolume b).getNextCluster cluster := by
  have hread : ∀ entry : UInt8, (runVolume entry).getNextCluster cluster =
      (runDevice entry).readFullBlocks (cluster * 4 / 512) 512 >>= fun sector =>
        someOr (readLe 4 sector (cluster * 4 % 512)) .corrupted := by
    intro entry
    rw [getNextCluster, readFatEntry]
    dsimp only [runVolume, runDevice]
    rw [wrappingAdd_eq (by omega), Nat.zero_add]
  rw [hread, hread]
  by_cases hsector : cluster * 4 / 512 = 0
  · have hblock : ∀ entry : UInt8, (runDevice entry).readFullBlocks 0 512 = .ok (BlockStore.window (runDevice entry).bytes 0 512) :=
      fun entry => @readFullBlocks_block (runDevice entry) 0 (Nat.succ_pos 511) (Nat.succ_pos 3)
    rw [hsector, hblock, hblock, ok_bind, ok_bind, readLe, readLe, BlockStore.slice_window _ _ (by omega),
      BlockStore.slice_window _ _ (by omega), runDevice_window (by omega)]
  · rw [runDevice_read (by omega)]

theorem runVolume_differs : (runVolume a).DifferInEntries (runVolume b) ((runVolume a).run runDirectory) where
  clusterSize := rfl
  rootCluster := rfl
  reads := runVolume_reads
  entries := fun cluster hlt hcluster => runVolume_entries hlt fun h => hcluster (by simp [run_runDirectory, h])

theorem runVolume_links : (runVolume 4).Links [3, 4] :=
  fun _ _ => ⟨⟨by decide +kernel, by decide⟩, fun _ _ => ⟨0xFFFFFFFF, by decide +kernel, by decide⟩⟩

theorem runVolume_lists : (runVolume 4).Lists 3 [3, 4] := by
  obtain ⟨-, hiff⟩ := contiguous_listing_iff (runVolume 4) (runVolume 4) runDirectory runVolume_differs
  have hlinks : (runVolume 4).Links ((runVolume 4).run runDirectory) := by
    rw [run_runDirectory]
    exact runVolume_links
  obtain ⟨hlist, -⟩ := hiff.mpr ⟨hlinks, hlinks⟩
  rw [run_runDirectory] at hlist
  exact hlist

theorem runVolume_leadsTo (h : (runVolume entry).walkDirectory 3 2 = some (value [runDirectory])) :
    (runVolume entry).LeadsTo 3 ['/', 'D'] runDirectory :=
  ⟨by decide, [], ['D'], 2, [runDirectory], by decide, rfl, h, by decide, rfl⟩

/-- Two volumes that differ in the table's entry of a directory's first cluster: the one lists the file in the second
cluster, the other fails. -/
theorem contiguous_listings_differ : ¬ ∀ (fs fs' : ExFat) (fuel : Nat) (path : Text) (dir : DirectoryEntry),
    dir.contiguous = true → fs.LeadsTo fuel path dir → fs'.LeadsTo fuel path dir → fs.DifferInEntries fs' (fs.run dir) →
      fs.readDir fuel path = fs'.readDir fuel path := by
  intro h
  have halike := h (runVolume 4) (runVolume 0) 3 ['/', 'D'] runDirectory rfl (runVolume_leadsTo (by decide +kernel))
    (runVolume_leadsTo (by decide +kernel)) runVolume_differs
  revert halike
  decide +kernel

end ExFat

end NextBoot.Fs
