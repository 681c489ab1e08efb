import NextBoot.Fs.ExFatDirectory
import NextBoot.Fs.Fat32Directory
import NextBoot.Fs.Scan
import NextBoot.Walks

namespace NextBoot.Fs

open Words Bytes Strings Results Faults Outcome Walks StateTransition

/-- A listing of clusters with a bound on the clusters that it reads; `none` where the bound is too small. -/
abbrev ClusterListing := Nat → Option (Outcome FsError (List DirectoryEntry))

/-- `path_to_cluster`, which the two FAT file systems have alike. -/
def pathToCluster (list : ClusterListing) : List Text → Nat → Option (Outcome FsError Nat)
  | [], cluster => some (value cluster)
  | part :: parts, cluster =>
      chain (list cluster) fun entries =>
        match findEntry part entries with
        | none => some (error .directoryNotFound)
        | some entry =>
            if ¬ entry.isDir then some (error .notDirectory) else pathToCluster list parts (entry.startCluster % 2 ^ 32)

def readDirWith (list : ClusterListing) (rootCluster : Nat) (path : Text) : Option (Outcome FsError (List DirectoryEntry)) :=
  if Paths.IsRoot path then list rootCluster
  else chain (pathToCluster list (Paths.pathParts path) rootCluster) list

def rootInfo (rootCluster : Nat) : DirectoryEntry where
  name := Paths.rootPath
  size := 0
  isDir := true
  attributes := 0x10
  startCluster := rootCluster
  contiguous := false

def statWith (list : ClusterListing) (rootCluster : Nat) (path : Text) : Option (Outcome FsError DirectoryEntry) :=
  if Paths.IsRoot path then some (value (rootInfo rootCluster))
  else
    chain (readDirWith list rootCluster (Paths.splitPath path).1) fun entries =>
      match findEntry (Paths.splitPath path).2 entries with
      | some entry => some (value entry)
      | none => some (error .fileNotFound)

/-- The way through a table to the next cluster: the entry of a cluster that can be read, unless it ends the chain. -/
def chainedBy (endOfChain : Nat) (data : Except FsError (List UInt8)) (entry : Except FsError Nat) : Option Nat :=
  match data with
  | .error _ => none
  | .ok _ =>
      match entry with
      | .error _ => none
      | .ok next => if endOfChain ≤ next then none else some next

namespace Fat32

/-- A round of `read_directory`: the cluster at hand, and the long name that has been read of an entry. -/
def directoryRound (fs : Fat32) (state : Nat × Text) : Outcome FsError (List DirectoryEntry × Option (Nat × Text)) := do
  let clusterData ← ofExcept (fs.readCluster state.1)
  let listed ← readEntries (chunks 32 clusterData) state.2
  let next ← ofExcept (fs.getNextCluster state.1)
  pure (listed.1, if endOfChain ≤ next then none else some (next, listed.2))

/-- `read_directory`, with a bound on the clusters read and every buffer granted. -/
def walkDirectory (fs : Fat32) (fuel cluster : Nat) : Option (Outcome FsError (List DirectoryEntry)) :=
  walk fs.directoryRound fuel (cluster, [])

def readDir (fs : Fat32) (fuel : Nat) (path : Text) : Option (Outcome FsError (List DirectoryEntry)) :=
  readDirWith (fs.walkDirectory fuel) fs.rootCluster path

def stat (fs : Fat32) (fuel : Nat) (path : Text) : Option (Outcome FsError DirectoryEntry) :=
  statWith (fs.walkDirectory fuel) fs.rootCluster path

/-- The cluster behind another in the chain that the table stores. -/
def chained (fs : Fat32) (cluster : Nat) : Option Nat :=
  chainedBy endOfChain (fs.readCluster cluster) (fs.getNextCluster cluster)

end Fat32

namespace ExFat

def readCluster (fs : ExFat) (cluster : Nat) : Except FsError (List UInt8) := do
  refuseIf (¬ fs.clusters.InHeap cluster) .invalidArgument
  fs.io.readFullBlocks (fs.clusterToSector cluster) fs.clusterSize

/-- A round of `read_directory`. -/
def directoryRound (fs : ExFat) (cluster : Nat) : Outcome FsError (List DirectoryEntry × Option Nat) := do
  let clusterData ← ofExcept (fs.readCluster cluster)
  let entries ← readEntries clusterData clusterData.length 0
  let next ← ofExcept (fs.getNextCluster cluster)
  pure (entries, if endOfChain ≤ next then none else some next)

/-- `read_directory`, with a bound on the clusters read and every buffer granted. -/
def walkDirectory (fs : ExFat) (fuel cluster : Nat) : Option (Outcome FsError (List DirectoryEntry)) :=
  walk fs.directoryRound fuel cluster

def readDir (fs : ExFat) (fuel : Nat) (path : Text) : Option (Outcome FsError (List DirectoryEntry)) :=
  readDirWith (fs.walkDirectory fuel) fs.rootCluster path

def stat (fs : ExFat) (fuel : Nat) (path : Text) : Option (Outcome FsError DirectoryEntry) :=
  statWith (fs.walkDirectory fuel) fs.rootCluster path

/-- The cluster behind another in the chain that the table stores. -/
def chained (fs : ExFat) (cluster : Nat) : Option Nat :=
  chainedBy endOfChain (fs.readCluster cluster) (fs.getNextCluster cluster)

end ExFat

variable {list : Nat → ClusterListing} {root : Nat} {path : Text}

theorem grows_pathToCluster (hgrows : ∀ c, Grows fun fuel => list fuel c) (parts : List Text) (cluster : Nat) :
    Grows fun fuel => pathToCluster (list fuel) parts cluster := by
  induction parts generalizing cluster with
  | nil => exact grows_some
  | cons part parts ih =>
      refine (hgrows cluster).chain fun entries => ?_
      cases findEntry part entries with
      | none => exact grows_some
      | some entry =>
          by_cases hfile : ¬ entry.isDir
          · simp only [if_pos hfile]
            exact grows_some
          · simp only [if_neg hfile]
            exact ih _

/-- Following a path ends when every listing does. -/
theorem ends_pathToCluster (hends : ∀ c, Ends fun fuel => list fuel c) (hgrows : ∀ c, Grows fun fuel => list fuel c)
    (parts : List Text) (cluster : Nat) : Ends fun fuel => pathToCluster (list fuel) parts cluster := by
  induction parts generalizing cluster with
  | nil => exact ends_some trivial
  | cons part parts ih =>
      refine (hends cluster).chain (hgrows cluster) (fun entries => ?_) fun entries => ?_
      · cases findEntry part entries with
        | none => exact ends_some trivial
        | some entry =>
            by_cases hfile : ¬ entry.isDir
            · simp only [if_pos hfile]
              exact ends_some trivial
            · simp only [if_neg hfile]
              exact ih _
      · cases findEntry part entries with
        | none => exact grows_some
        | some entry =>
            by_cases hfile : ¬ entry.isDir
            · simp only [if_pos hfile]
              exact grows_some
            · simp only [if_neg hfile]
              exact grows_pathToCluster hgrows parts _

theorem grows_readDirWith (hgrows : ∀ c, Grows fun fuel => list fuel c) :
    Grows fun fuel => readDirWith (list fuel) root path := by
  by_cases hroot : Paths.IsRoot path
  · simp only [readDirWith, if_pos hroot]
    exact hgrows root
  · simp only [readDirWith, if_neg hroot]
    exact (grows_pathToCluster hgrows _ _).chain hgrows

theorem ends_readDirWith (hends : ∀ c, Ends fun fuel => list fuel c) (hgrows : ∀ c, Grows fun fuel => list fuel c) :
    Ends fun fuel => readDirWith (list fuel) root path := by
  by_cases hroot : Paths.IsRoot path
  · simp only [readDirWith, if_pos hroot]
    exact hends root
  · simp only [readDirWith, if_neg hroot]
    exact (ends_pathToCluster hends hgrows _ _).chain (grows_pathToCluster hgrows _ _) hends hgrows

theorem ends_statWith (hends : ∀ c, Ends fun fuel => list fuel c) (hgrows : ∀ c, Grows fun fuel => list fuel c) :
    Ends fun fuel => statWith (list fuel) root path := by
  by_cases hroot : Paths.IsRoot path
  · simp only [statWith, if_pos hroot]
    exact ends_some trivial
  · simp only [statWith, if_neg hroot]
    refine (ends_readDirWith hends hgrows).chain (grows_readDirWith hgrows) (fun entries => ?_) fun entries => ?_
    · cases findEntry (Paths.splitPath path).2 entries <;> exact ends_some trivial
    · cases findEntry (Paths.splitPath path).2 entries <;> exact grows_some

theorem chainedBy_lt {endOfChain cluster : Nat} {data : Except FsError (List UInt8)} {entry : Except FsError Nat}
    (h : chainedBy endOfChain data entry = some cluster) : cluster < endOfChain := by
  cases data with
  | error e => cases h
  | ok data =>
      cases entry with
      | error e => cases h
      | ok next =>
          rw [chainedBy] at h
          split at h
          · cases h
          · cases h
            omega

/-- A table leads to finitely many clusters, so that its chains end or circle. -/
theorem finite_chainedBy {endOfChain : Nat} {data : Nat → Except FsError (List UInt8)} {entry : Nat → Except FsError Nat} :
    {b | ∃ a, chainedBy endOfChain (data a) (entry a) = some b}.Finite := by
  refine (Set.finite_lt_nat endOfChain).subset ?_
  rintro b ⟨a, h⟩
  exact chainedBy_lt h

namespace Fat32

variable {fs : Fat32} {cluster : Nat}

theorem chunks_readCluster {data : List UInt8} (hblock : fs.io.blockSize % 32 = 0) (h : fs.readCluster cluster = .ok data) :
    ∀ chunk ∈ chunks 32 data, chunk.length = 32 := by
  refine fun chunk => length_of_mem_chunks ?_
  obtain ⟨-, -, h⟩ := bind_eq_ok.mp h
  obtain ⟨-, -, rfl⟩ := readFullBlocks_eq_ok.mp h
  rw [BlockStore.length_window, clusterSize, Nat.mul_mod, hblock, Nat.zero_mul, Nat.zero_mod]

/-- A round follows the chain, whatever the entries in the cluster are. -/
theorem following_directoryRound (hblock : fs.io.blockSize % 32 = 0) (state : Nat × Text) :
    (following fs.directoryRound state).map Prod.fst = fs.chained state.1 := by
  rw [following, directoryRound, chained]
  cases hread : fs.readCluster state.1 with
  | error e => rfl
  | ok data =>
      obtain ⟨listed, hlisted⟩ := @returns_readEntries (chunks 32 data) state.2 (chunks_readCluster hblock hread)
      rw [ofExcept_ok, value_bind, hlisted, value_bind]
      cases fs.getNextCluster state.1 with
      | error e => rfl
      | ok next =>
          show (if endOfChain ≤ next then none else some (next, listed.2)).map Prod.fst = if endOfChain ≤ next then _ else _
          split
          · rfl
          · rfl

theorem noFault_directoryRound (hblock : fs.io.blockSize % 32 = 0) (state : Nat × Text) :
    (fs.directoryRound state).NoFault := by
  refine noFault_ofExcept_bind.mpr fun data hread => ?_
  refine noFault_bind.mpr ⟨(returns_readEntries (chunks_readCluster hblock hread)).noFault, fun listed _ => ?_⟩
  exact noFault_ofExcept_bind.mpr fun next _ => noFault_pure

theorem ends_walkDirectory_iff (hblock : fs.io.blockSize % 32 = 0) :
    (Ends fun fuel => fs.walkDirectory fuel cluster) ↔ ¬ Circles fs.chained cluster := by
  have hfinite : {b | ∃ a, fs.chained a = some b}.Finite := finite_chainedBy
  rw [← eval_dom_iff hfinite, ← eval_dom_key (following_directoryRound hblock) (s := (cluster, [])), ← exists_walk_iff]
  constructor
  · rintro ⟨fuel, out, h, -⟩
    exact ⟨fuel, Option.isSome_iff_exists.mpr ⟨out, h⟩⟩
  · rintro ⟨fuel, h⟩
    obtain ⟨out, hout⟩ := Option.isSome_iff_exists.mp h
    exact ⟨fuel, out, hout, walk_noFault (noFault_directoryRound hblock) hout⟩

/-- A walk within its bound lists what the listing in checked arithmetic does. -/
theorem readDirectory_of_walk {granted : Nat → Bool} {fuel : Nat} {lfn : Text} {out : Outcome FsError (List DirectoryEntry)}
    {entries : List DirectoryEntry} (hwalk : walk fs.directoryRound fuel (cluster, lfn) = some out)
    (h : fs.readDirectory granted fuel cluster lfn = value entries) : out = value entries := by
  induction fuel generalizing cluster lfn out entries with
  | zero => cases hwalk
  | succ fuel ih =>
      obtain ⟨data, hdata, h₁⟩ := bind_eq_value.mp h
      obtain ⟨listed, hlisted, h₂⟩ := bind_eq_value.mp h₁
      obtain ⟨next, hnext, h₃⟩ := bind_eq_value.mp h₂
      have hentry : fs.getNextCluster cluster = .ok next := by
        obtain ⟨entry, hentry, hmask⟩ := bind_eq_value.mp hnext
        refine bind_eq_ok.mpr ⟨entry, readFatEntryChecked_eq_value hentry, ?_⟩
        rw [pure_eq, value.injEq] at hmask
        exact pure_eq_ok.mpr hmask
      have hround : fs.directoryRound (cluster, lfn) =
          value (listed.1, if endOfChain ≤ next then none else some (next, listed.2)) := by
        rw [directoryRound, readClusterChecked_eq_value hdata, ofExcept_ok, value_bind, hlisted, value_bind, hentry]
        rfl
      rw [walk, hround] at hwalk
      by_cases hlast : endOfChain ≤ next
      · rw [if_pos hlast] at h₃ hwalk
        rw [← Option.some.inj hwalk]
        exact h₃
      · rw [if_neg hlast] at h₃ hwalk
        obtain ⟨rest, hrest, rfl⟩ := Option.map_eq_some_iff.mp hwalk
        obtain ⟨others, hothers, h₄⟩ := bind_eq_value.mp h₃
        rw [ih hrest hothers]
        exact h₄

end Fat32

namespace ExFat

variable {fs : ExFat} {cluster : Nat}

/-- A round follows the chain, whatever the entries in the cluster are. -/
theorem following_directoryRound (cluster : Nat) : following fs.directoryRound cluster = fs.chained cluster := by
  rw [following, directoryRound, chained]
  cases hread : fs.readCluster cluster with
  | error e => rfl
  | ok data =>
      obtain ⟨entries, hentries⟩ := @returns_readEntries data 0 data.length
      rw [ofExcept_ok, value_bind, hentries, value_bind]
      cases fs.getNextCluster cluster <;> rfl

theorem noFault_directoryRound (cluster : Nat) : (fs.directoryRound cluster).NoFault := by
  refine noFault_ofExcept_bind.mpr fun data hread => ?_
  refine noFault_bind.mpr ⟨returns_readEntries.noFault, fun entries _ => ?_⟩
  exact noFault_ofExcept_bind.mpr fun next _ => noFault_pure

theorem ends_walkDirectory_iff : (Ends fun fuel => fs.walkDirectory fuel cluster) ↔ ¬ Circles fs.chained cluster := by
  have hchained : following fs.directoryRound = fs.chained := funext following_directoryRound
  have hfinite : {b | ∃ a, fs.chained a = some b}.Finite := finite_chainedBy
  rw [← eval_dom_iff hfinite, ← hchained, ← exists_walk_iff]
  constructor
  · rintro ⟨fuel, out, h, -⟩
    exact ⟨fuel, Option.isSome_iff_exists.mpr ⟨out, h⟩⟩
  · rintro ⟨fuel, h⟩
    obtain ⟨out, hout⟩ := Option.isSome_iff_exists.mp h
    exact ⟨fuel, out, hout, walk_noFault noFault_directoryRound hout⟩

/-- Where the checked arithmetic does not fault, it is that of the walk. -/
theorem readClusterChecked_eq_value {granted : Nat → Bool} {data : List UInt8}
    (h : fs.readClusterChecked granted cluster = value data) : fs.readCluster cluster = .ok data := by
  rw [readClusterChecked] at h
  split at h
  · cases h
  · obtain ⟨_, hlimit, h₁⟩ := bind_eq_value.mp h
    obtain ⟨hfits, rfl⟩ := checkedAdd_eq_some.mp (ofOption_eq_value.mp hlimit)
    by_cases hout : fs.totalClusters + 2 ≤ cluster
    · rw [if_pos hout] at h₁
      cases h₁
    · rw [if_neg hout] at h₁
      obtain ⟨_, -, h₂⟩ := bind_eq_value.mp h₁
      obtain ⟨_, hblocks, h₃⟩ := bind_eq_value.mp h₂
      obtain ⟨hmul, rfl⟩ := checkedMul_eq_some.mp (ofOption_eq_value.mp hblocks)
      obtain ⟨_, hsector, h₄⟩ := bind_eq_value.mp h₃
      obtain ⟨hadd, rfl⟩ := checkedAdd_eq_some.mp (ofOption_eq_value.mp hsector)
      have hheap : fs.clusters.InHeap cluster := ⟨by omega, by
        show cluster < wrappingAdd 32 fs.totalClusters 2
        rw [wrappingAdd_eq hfits]
        omega⟩
      rw [readCluster, show refuseIf (¬ fs.clusters.InHeap cluster) FsError.invalidArgument = .ok () from
        if_neg (not_not.mpr hheap), ok_bind, clusterToSector, ← blocksPerCluster, wrappingMul_eq hmul, wrappingAdd_eq hadd]
      exact ofExcept_eq_value.mp h₄

/-- A walk within its bound lists what the listing in checked arithmetic does. -/
theorem readDirectory_of_walk {granted : Nat → Bool} {fuel : Nat} {out : Outcome FsError (List DirectoryEntry)}
    {entries : List DirectoryEntry} (hwalk : fs.walkDirectory fuel cluster = some out)
    (h : fs.readDirectory granted fuel cluster = value entries) : out = value entries := by
  induction fuel generalizing cluster out entries with
  | zero => cases hwalk
  | succ fuel ih =>
      obtain ⟨data, hdata, h₁⟩ := bind_eq_value.mp h
      obtain ⟨found, hfound, h₂⟩ := bind_eq_value.mp h₁
      obtain ⟨next, hnext, h₃⟩ := bind_eq_value.mp h₂
      have hround : fs.directoryRound cluster = value (found, if endOfChain ≤ next then none else some next) := by
        rw [directoryRound, readClusterChecked_eq_value hdata, ofExcept_ok, value_bind, hfound, value_bind,
          show fs.getNextCluster cluster = .ok next from readFatEntryChecked_eq_value hnext]
        rfl
      rw [walkDirectory, walk, hround] at hwalk
      by_cases hlast : endOfChain ≤ next
      · rw [if_pos hlast] at h₃ hwalk
        rw [← Option.some.inj hwalk]
        exact h₃
      · rw [if_neg hlast] at h₃ hwalk
        obtain ⟨rest, hrest, rfl⟩ := Option.map_eq_some_iff.mp hwalk
        obtain ⟨others, hothers, h₄⟩ := bind_eq_value.mp h₃
        rw [ih hrest hothers]
        exact h₄

end ExFat

/-- Walking a directory ends, with entries or with an error, just when the chain of its clusters does not lead into a
circle; where no chain does, so do `read_dir` and `stat` on every path. -/
theorem directory_walks_end (fat : Fat32) (exfat : ExFat) (hblock : fat.io.blockSize % 32 = 0) :
    (∀ cluster, (Ends fun fuel => fat.walkDirectory fuel cluster) ↔ ¬ Circles fat.chained cluster) ∧
      (∀ cluster, (Ends fun fuel => exfat.walkDirectory fuel cluster) ↔ ¬ Circles exfat.chained cluster) ∧
      ((∀ cluster, ¬ Circles fat.chained cluster) →
        ∀ path, (Ends fun fuel => fat.readDir fuel path) ∧ Ends fun fuel => fat.stat fuel path) ∧
      ((∀ cluster, ¬ Circles exfat.chained cluster) →
        ∀ path, (Ends fun fuel => exfat.readDir fuel path) ∧ Ends fun fuel => exfat.stat fuel path) := by
  have hgrows : ∀ cluster, Grows fun fuel => fat.walkDirectory fuel cluster := fun _ _ _ _ => walk_mono
  have hgrows' : ∀ cluster, Grows fun fuel => exfat.walkDirectory fuel cluster := fun _ _ _ _ => walk_mono
  refine ⟨fun _ => Fat32.ends_walkDirectory_iff hblock, fun _ => ExFat.ends_walkDirectory_iff, fun h path => ?_,
    fun h path => ?_⟩
  · have hends := fun cluster => (Fat32.ends_walkDirectory_iff hblock).mpr (h cluster)
    exact ⟨ends_readDirWith hends hgrows, ends_statWith hends hgrows⟩
  · have hends := fun cluster => ExFat.ends_walkDirectory_iff.mpr (h cluster)
    exact ⟨ends_readDirWith hends hgrows', ends_statWith hends hgrows'⟩

/-- A device of two blocks: a table whose entry of cluster 2 starts with a byte, and the cluster behind it. -/
def tableDevice (entry : UInt8) : BlockIo where
  blockSize := 512
  totalBlocks := 2
  bytes := fun i => if i = 8 then entry else 0
  blockSize_lt := Words.sector_lt_u32
  totalBlocks_lt := by decide

def tableFat32 (entry : UInt8) : Fat32 where
  io := tableDevice entry
  sectorsPerCluster := 1
  fatStart := 0
  dataStart := 1
  rootCluster := 2
  totalClusters := 1
  blockSize_pos := Words.sector_pos
  sectorsPerCluster_pos := Nat.one_pos

def tableExFat (entry : UInt8) : ExFat where
  io := tableDevice entry
  clusterSize := 512
  totalClusters := 1
  rootCluster := 2
  fatOffset := 0
  clusterHeapOffset := 1
  sectorSize_pos := Words.sector_pos

theorem brokenChains_end : (Ends fun fuel => (tableFat32 1).walkDirectory fuel 2) ∧
    Ends fun fuel => (tableExFat 1).walkDirectory fuel 2 := by
  obtain ⟨hfat, hexfat, -⟩ := directory_walks_end (tableFat32 1) (tableExFat 1) (by decide)
  have hend : ∀ {f : Nat → Option Nat}, f 2 = some 1 → f 1 = none → ¬ Circles f 2 := fun hfirst hlast =>
    not_circles (mem_eval.mpr ⟨Relation.ReflTransGen.single hfirst, hlast⟩)
  exact ⟨(hfat 2).mpr (hend (by decide +kernel) (by decide +kernel)), (hexfat 2).mpr (hend (by decide +kernel) (by decide +kernel))⟩

/-- A cluster whose entry in the table is its own number is read for ever. -/
theorem circling_walks_never_end : (¬ Ends fun fuel => (tableFat32 2).walkDirectory fuel 2) ∧
    ¬ Ends fun fuel => (tableExFat 2).walkDirectory fuel 2 := by
  have hcircle : ∀ {f : Nat → Option Nat}, f 2 = some 2 → Circles f 2 :=
    fun h => ⟨2, Relation.ReflTransGen.refl, Relation.TransGen.single h⟩
  refine ⟨fun h => (Fat32.ends_walkDirectory_iff (by decide)).mp h (hcircle (by decide +kernel)), fun h => ?_⟩
  exact ExFat.ends_walkDirectory_iff.mp h (hcircle (by decide +kernel))

end NextBoot.Fs
