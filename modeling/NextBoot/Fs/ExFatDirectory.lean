import NextBoot.Fs.Directory
import NextBoot.Fs.ExFat

namespace NextBoot.Fs

open Words Bytes Strings Results Faults Outcome

/-- The fields of the boot sector that `init` uses. -/
structure ExFatBootSector where
  fsName : List UInt8
  fatOffset : Nat
  clusterHeapOffset : Nat
  clusterCount : Nat
  rootCluster : Nat
  bytesPerSectorShift : Nat
  sectorsPerClusterShift : Nat
  signature : Nat

namespace ExFatBootSector

/-- The boot sector at the start of a buffer that is long enough for it. -/
def ofBytes (boot : List UInt8) : Option ExFatBootSector := do
  let _ ← slice boot 0 512
  let fsName ← slice boot 3 8
  let fatOffset ← readLe 4 boot 80
  let clusterHeapOffset ← readLe 4 boot 88
  let clusterCount ← readLe 4 boot 92
  let rootCluster ← readLe 4 boot 96
  let bytesPerSectorShift ← readLe 1 boot 108
  let sectorsPerClusterShift ← readLe 1 boot 109
  let signature ← readLe 2 boot 510
  pure ⟨fsName, fatOffset, clusterHeapOffset, clusterCount, rootCluster, bytesPerSectorShift, sectorsPerClusterShift,
    signature⟩

def signed (b : ExFatBootSector) : Prop :=
  b.fsName = [0x45, 0x58, 0x46, 0x41, 0x54, 0x20, 0x20, 0x20] ∧ b.signature = 0xAA55

instance (b : ExFatBootSector) : Decidable b.signed := inferInstanceAs (Decidable (_ ∧ _))

end ExFatBootSector

namespace ExFat

variable (granted : Nat → Bool)

/-- `init` behind the reading of the boot sector, in checked arithmetic: a shift by the width or more faults. -/
def openBooted (io : BlockIo) (b : ExFatBootSector) : Outcome FsError ExFat :=
  if ¬ b.signed then error .invalidSignature
  else if ¬ b.bytesPerSectorShift < 32 then fault
  else if hsize : 2 ^ b.bytesPerSectorShift ≠ io.blockSize then error .blockSizeMismatch
  else if ¬ b.sectorsPerClusterShift < 64 then fault
  else
    pure {
      io := io
      clusterSize := wrappingMul 64 io.blockSize (2 ^ b.sectorsPerClusterShift)
      totalClusters := b.clusterCount
      rootCluster := b.rootCluster
      fatOffset := b.fatOffset
      clusterHeapOffset := b.clusterHeapOffset
      sectorSize_pos := by rw [← not_ne_iff.mp hsize]; exact Nat.two_pow_pos _ }

def openChecked (io : BlockIo) : Outcome FsError ExFat := do
  allocBuffer granted io.blockSize
  let boot ← ofExcept (io.readFullBlocks 0 io.blockSize)
  let b ← ofOption (ExFatBootSector.ofBytes boot)
  openBooted io b

def readClusterChecked (fs : ExFat) (cluster : Nat) : Outcome FsError (List UInt8) := do
  if cluster < 2 then error .invalidArgument
  else do
    let limit ← ofOption (checkedAdd 32 fs.totalClusters 2)
    if limit ≤ cluster then error .invalidArgument
    else do
      allocBuffer granted fs.clusterSize
      let blocks ← ofOption (checkedMul 64 (cluster - 2) fs.blocksPerCluster)
      let sector ← ofOption (checkedAdd 64 fs.clusterHeapOffset blocks)
      ofExcept (fs.io.readFullBlocks sector fs.clusterSize)

def getNextClusterChecked (fs : ExFat) (cluster : Nat) : Outcome FsError Nat :=
  readFatEntryChecked granted fs.io fs.fatOffset cluster

/-- What the secondary entries of a file have told so far. -/
structure EntrySet where
  firstCluster : Nat
  dataLength : Nat
  nameLength : Nat
  name : Text
  contiguous : Bool

def fileEntry : UInt8 := 0x85

def streamExtEntry : UInt8 := 0xC0

def nameEntry : UInt8 := 0xC1

def readStream (data : List UInt8) (offset : Nat) (s : EntrySet) : Outcome FsError EntrySet := do
  let flags : UInt8 ← ofOption data[offset + 1]?
  let nameLength : UInt8 ← ofOption data[offset + 3]?
  let firstCluster ← ofOption (readLe 4 data (offset + 20))
  let dataLength ← ofOption (readLe 8 data (offset + 24))
  pure { s with
    contiguous := flags &&& 0x02 ≠ 0
    nameLength := nameLength.toNat
    firstCluster := firstCluster
    dataLength := dataLength }

/-- The characters of a name entry, up to a zero; what is no character is left out. -/
def pushName (data : List UInt8) : Nat → Nat → Text → Outcome FsError Text
  | 0, _, name => pure name
  | count + 1, charOffset, name =>
      if data.length < charOffset + 2 then pure name
      else do
        let c ← ofOption (readLe 2 data charOffset)
        match charFromU32 c with
        | none => pushName data count (charOffset + 2) name
        | some ch => if ch.toNat = 0 then pure name else pushName data count (charOffset + 2) (name ++ [ch])

def readName (data : List UInt8) (offset : Nat) (s : EntrySet) : Outcome FsError EntrySet := do
  let name ← pushName data (min (s.nameLength - s.name.length) 15) (offset + 2) s.name
  pure { s with name := name }

def readSecondary (data : List UInt8) (offset : Nat) (s : EntrySet) : Outcome FsError EntrySet := do
  let entryType : UInt8 ← ofOption data[offset]?
  if entryType = streamExtEntry then readStream data offset s
  else if entryType = nameEntry then readName data offset s
  else pure s

def readSecondaries (data : List UInt8) : Nat → Nat → EntrySet → Outcome FsError EntrySet
  | 0, _, s => pure s
  | count + 1, offset, s =>
      if data.length < offset + 32 then pure s
      else do
        let s ← readSecondary data offset s
        readSecondaries data count (offset + 32) s

/-- A file entry with the entries behind it; hidden and system files are left out. -/
def parseFileEntry (data : List UInt8) : Outcome FsError (Option DirectoryEntry) :=
  if data.length < 64 then pure none
  else do
    let secondaryCount : UInt8 ← ofOption data[1]?
    let attributes ← ofOption (readLe 2 data 4)
    let s ← readSecondaries data secondaryCount.toNat 32 ⟨0, 0, 0, [], false⟩
    if attributes &&& 0x0002 ≠ 0 ∨ attributes &&& 0x0004 ≠ 0 then pure none
    else
      pure (some {
        name := s.name
        size := s.dataLength
        isDir := attributes &&& 0x0010 ≠ 0
        attributes := (attributes &&& 0x0010) + (attributes &&& 0x0001)
        startCluster := s.firstCluster
        contiguous := s.contiguous })

/-- The entries of one cluster from a position on. Every round takes an entry of 32 bytes at least. -/
def readEntries (clusterData : List UInt8) : Nat → Nat → Outcome FsError (List DirectoryEntry)
  | 0, _ => pure []
  | fuel + 1, offset =>
      if clusterData.length < offset + 32 then pure []
      else do
        let entryType : UInt8 ← ofOption clusterData[offset]?
        if entryType = 0 then pure []
        else if entryType = 0xE5 then readEntries clusterData fuel (offset + 32)
        else if entryType = fileEntry then do
          let info ← parseFileEntry (clusterData.drop offset)
          let secondaryCount : UInt8 ← ofOption clusterData[offset + 1]?
          let rest ← readEntries clusterData fuel (offset + 32 * (1 + secondaryCount.toNat))
          pure (info.toList ++ rest)
        else readEntries clusterData fuel (offset + 32)

/-- `read_directory`, for as many clusters as there is fuel. -/
def readDirectory (fs : ExFat) : Nat → Nat → Outcome FsError (List DirectoryEntry)
  | 0, _ => pure []
  | fuel + 1, cluster => do
      let clusterData ← fs.readClusterChecked granted cluster
      let entries ← readEntries clusterData clusterData.length 0
      let next ← fs.getNextClusterChecked granted cluster
      if endOfChain ≤ next then pure entries
      else do
        let rest ← readDirectory fs fuel next
        pure (entries ++ rest)

/-- Opening a device as exFAT and listing its root. -/
def listRoot (fuel : Nat) (io : BlockIo) : Outcome FsError (List DirectoryEntry) := do
  let fs ← openChecked granted io
  fs.readDirectory granted fuel fs.rootCluster

variable {granted : Nat → Bool} {fs : ExFat} {io : BlockIo} {b : ExFatBootSector} {boot data : List UInt8}
variable {cluster offset : Nat}

theorem ofBytes_bounds (h : ExFatBootSector.ofBytes boot = some b) :
    b.fatOffset < 2 ^ 32 ∧ b.clusterHeapOffset < 2 ^ 32 ∧ b.clusterCount < 2 ^ 32 ∧ b.rootCluster < 2 ^ 32 := by
  simp only [ExFatBootSector.ofBytes, Option.bind_eq_bind, Option.bind_eq_some_iff, Option.pure_def, Option.some.injEq] at h
  obtain ⟨_, -, _, -, _, h₁, _, h₂, _, h₃, _, h₄, _, -, _, -, _, -, rfl⟩ := h
  exact ⟨readLe_lt h₁, readLe_lt h₂, readLe_lt h₃, readLe_lt h₄⟩

theorem exists_ofBytes (h : 512 ≤ boot.length) : ∃ b, ExFatBootSector.ofBytes boot = some b := by
  obtain ⟨_, h₁⟩ := @readLe_isSome 4 boot 80 (by omega)
  obtain ⟨_, h₂⟩ := @readLe_isSome 4 boot 88 (by omega)
  obtain ⟨_, h₃⟩ := @readLe_isSome 4 boot 92 (by omega)
  obtain ⟨_, h₄⟩ := @readLe_isSome 4 boot 96 (by omega)
  obtain ⟨_, h₅⟩ := @readLe_isSome 1 boot 108 (by omega)
  obtain ⟨_, h₆⟩ := @readLe_isSome 1 boot 109 (by omega)
  obtain ⟨_, h₇⟩ := @readLe_isSome 2 boot 510 (by omega)
  simp [ExFatBootSector.ofBytes, slice_eq_some (show 0 + 512 ≤ boot.length by omega),
    slice_eq_some (show 3 + 8 ≤ boot.length by omega), h₁, h₂, h₃, h₄, h₅, h₆, h₇]

theorem returns_readStream {s : EntrySet} (h : offset + 32 ≤ data.length) : (readStream data offset s).Returns := by
  obtain ⟨_, hcluster⟩ := @readLe_isSome 4 data (offset + 20) (by omega)
  obtain ⟨_, hlength⟩ := @readLe_isSome 8 data (offset + 24) (by omega)
  exact returns_ofOption_bind (List.getElem?_eq_getElem (by omega)) (returns_ofOption_bind (List.getElem?_eq_getElem (by omega))
    (returns_ofOption_bind hcluster (returns_ofOption_bind hlength returns_pure)))

theorem returns_pushName {count : Nat} {name : Text} : (pushName data count offset name).Returns := by
  induction count generalizing offset name with
  | zero => exact returns_pure
  | succ count ih =>
      rw [pushName]
      refine returns_ite (fun _ => returns_pure) fun hinside => ?_
      obtain ⟨c, hc⟩ := @readLe_isSome 2 data offset (by omega)
      refine returns_ofOption_bind hc ?_
      cases charFromU32 c with
      | none => exact ih
      | some ch => exact returns_ite (fun _ => returns_pure) fun _ => ih

theorem returns_readSecondary {s : EntrySet} (h : offset + 32 ≤ data.length) : (readSecondary data offset s).Returns := by
  refine returns_ofOption_bind (List.getElem?_eq_getElem (by omega)) ?_
  refine returns_ite (fun _ => returns_readStream h) fun _ => returns_ite (fun _ => ?_) fun _ => returns_pure
  exact returns_pushName.bind fun _ _ => returns_pure

theorem returns_readSecondaries {count : Nat} {s : EntrySet} : (readSecondaries data count offset s).Returns := by
  induction count generalizing offset s with
  | zero => exact returns_pure
  | succ count ih =>
      rw [readSecondaries]
      refine returns_ite (fun _ => returns_pure) fun hinside => ?_
      exact (returns_readSecondary (by omega)).bind fun _ _ => ih

theorem returns_parseFileEntry : (parseFileEntry data).Returns := by
  rw [parseFileEntry]
  refine returns_ite (fun _ => returns_pure) fun hlong => ?_
  obtain ⟨_, hattributes⟩ := @readLe_isSome 2 data 4 (by omega)
  refine returns_ofOption_bind (List.getElem?_eq_getElem (by omega)) ?_
  refine returns_ofOption_bind hattributes (returns_readSecondaries.bind fun s _ => ?_)
  exact returns_ite (fun _ => returns_pure) fun _ => returns_pure

/-- Parsing a cluster neither fails nor faults, whatever is in it. -/
theorem returns_readEntries {fuel : Nat} : (readEntries data fuel offset).Returns := by
  induction fuel generalizing offset with
  | zero => exact returns_pure
  | succ fuel ih =>
      rw [readEntries]
      refine returns_ite (fun _ => returns_pure) fun hinside => ?_
      refine returns_ofOption_bind (List.getElem?_eq_getElem (by omega)) ?_
      refine returns_ite (fun _ => returns_pure) fun _ => returns_ite (fun _ => ih) fun _ => ?_
      refine returns_ite (fun _ => ?_) fun _ => ih
      refine returns_parseFileEntry.bind fun info _ => ?_
      refine returns_ofOption_bind (List.getElem?_eq_getElem (by omega)) ?_
      exact ih.bind fun _ _ => returns_pure

/-- The clusters that listing a directory gets to, from its first one on. -/
inductive Reached (granted : Nat → Bool) (fs : ExFat) (first : Nat) : Nat → Prop
  | first : Reached granted fs first first
  | next {cluster next : Nat} {clusterData : List UInt8} {entries : List DirectoryEntry}
      (h : Reached granted fs first cluster) (hread : fs.readClusterChecked granted cluster = value clusterData)
      (hentries : readEntries clusterData clusterData.length 0 = value entries)
      (hnext : fs.getNextClusterChecked granted cluster = value next) (hmore : next < endOfChain) :
      Reached granted fs first next

/-- A cluster whose place on the device can be computed, or that is refused before that. -/
def SectorFits (granted : Nat → Bool) (fs : ExFat) (cluster : Nat) : Prop :=
  cluster < 2 ∨ fs.totalClusters + 2 < 2 ^ 32 ∧ (fs.totalClusters + 2 ≤ cluster ∨ granted fs.clusterSize = false ∨
    fs.clusterHeapOffset + (cluster - 2) * fs.blocksPerCluster < 2 ^ 64)

theorem noFault_readClusterChecked : (fs.readClusterChecked granted cluster).NoFault ↔ SectorFits granted fs cluster := by
  rw [readClusterChecked, SectorFits]
  by_cases hlow : cluster < 2
  · rw [if_pos hlow]
    exact ⟨fun _ => .inl hlow, fun _ => noFault_error _⟩
  · rw [if_neg hlow, noFault_ofOption_bind, or_iff_right hlow]
    constructor
    · rintro ⟨limit, hlimit, h⟩
      obtain ⟨hfits, rfl⟩ := checkedAdd_eq_some.mp hlimit
      refine ⟨hfits, ?_⟩
      by_cases hout : fs.totalClusters + 2 ≤ cluster
      · exact .inl hout
      · rw [if_neg hout] at h
        cases hgranted : granted fs.clusterSize with
        | false => exact .inr (.inl rfl)
        | true =>
            obtain ⟨_, h₁⟩ := noFault_bind.mp h
            obtain ⟨_, hblocks, h₂⟩ := noFault_ofOption_bind.mp (h₁ () (if_pos hgranted))
            obtain ⟨-, rfl⟩ := checkedMul_eq_some.mp hblocks
            obtain ⟨_, hsector, -⟩ := noFault_ofOption_bind.mp h₂
            exact .inr (.inr (checkedAdd_eq_some.mp hsector).1)
    · rintro ⟨hfits, h⟩
      refine ⟨_, checkedAdd_eq_some.mpr ⟨hfits, rfl⟩, noFault_ite.mpr ⟨fun _ => noFault_error _, fun hin => ?_⟩⟩
      refine noFault_bind.mpr ⟨noFault_allocBuffer, fun u hu => ?_⟩
      rw [allocBuffer_eq_value] at hu
      have hsector := (h.resolve_left hin).resolve_left (by rw [hu]; decide)
      refine noFault_ofOption_bind.mpr ⟨_, checkedMul_eq_some.mpr ⟨by omega, rfl⟩, ?_⟩
      exact noFault_ofOption_bind.mpr ⟨_, checkedAdd_eq_some.mpr ⟨hsector, rfl⟩, noFault_ofExcept _⟩

theorem readFatEntryChecked_lt {next : Nat} (h : fs.getNextClusterChecked granted cluster = value next) : next < 2 ^ 32 := by
  have hentry := readFatEntryChecked_eq_value h
  obtain ⟨sector, -, hread⟩ := bind_eq_ok.mp hentry
  exact readLe_lt (someOr_eq_ok.mp hread)

/-- Listing a directory is free of faults as long as every cluster it gets to has its place. -/
theorem noFault_readDirectory {first : Nat} (hfirst : first < 2 ^ 32) (hfat : fs.fatOffset < 2 ^ 32) :
    (∀ fuel, (fs.readDirectory granted fuel first).NoFault) ↔ ∀ c, Reached granted fs first c → SectorFits granted fs c := by
  constructor
  · intro h c hc
    have hall : ∀ fuel, (fs.readDirectory granted fuel c).NoFault := by
      induction hc with
      | first => exact h
      | next _ hread hentries hnext hmore ih =>
          intro fuel
          have hround := ih (fuel + 1)
          rw [readDirectory, hread, value_bind, hentries, value_bind, hnext, value_bind, if_neg (by omega)] at hround
          exact (noFault_bind.mp hround).1
    exact noFault_readClusterChecked.mp (noFault_bind.mp (hall 1)).1
  · intro h fuel
    have hall : ∀ fuel c, c < 2 ^ 32 → Reached granted fs first c → (fs.readDirectory granted fuel c).NoFault := by
      intro fuel
      induction fuel with
      | zero => exact fun _ _ _ => noFault_pure
      | succ fuel ih =>
          intro c hlt hc
          refine noFault_bind.mpr ⟨noFault_readClusterChecked.mpr (h c hc), fun data hread => ?_⟩
          refine noFault_bind.mpr ⟨returns_readEntries.noFault, fun entries hentries => ?_⟩
          refine noFault_bind.mpr ⟨noFault_readFatEntryChecked hlt (by omega), fun next hnext => ?_⟩
          refine noFault_ite.mpr ⟨fun _ => noFault_pure, fun hmore => noFault_bind.mpr ⟨?_, fun _ _ => noFault_pure⟩⟩
          exact ih next (readFatEntryChecked_lt hnext) (hc.next hread hentries hnext (by omega))
    exact hall fuel first hfirst .first

/-- A boot sector whose numbers `init` and the listing of the root can work with, or that is refused. -/
def SoundGeometry (granted : Nat → Bool) (io : BlockIo) (b : ExFatBootSector) : Prop :=
  b.signed → b.bytesPerSectorShift < 32 ∧ (2 ^ b.bytesPerSectorShift = io.blockSize → b.sectorsPerClusterShift < 64 ∧
    ∀ fs, openBooted io b = value fs → ∀ c, Reached granted fs fs.rootCluster c → SectorFits granted fs c)

theorem noFault_listBooted (h : ExFatBootSector.ofBytes boot = some b) :
    (∀ fuel, (openBooted io b >>= fun fs => fs.readDirectory granted fuel fs.rootCluster).NoFault) ↔
      SoundGeometry granted io b := by
  obtain ⟨hfat, -, -, hroot⟩ := ofBytes_bounds h
  rw [SoundGeometry, openBooted]
  by_cases hsigned : b.signed
  · rw [if_neg (not_not.mpr hsigned)]
    by_cases hsector : b.bytesPerSectorShift < 32
    · rw [if_neg (not_not.mpr hsector)]
      by_cases hsize : 2 ^ b.bytesPerSectorShift ≠ io.blockSize
      · rw [dif_pos hsize]
        exact ⟨fun _ _ => ⟨hsector, fun heq => absurd heq hsize⟩, fun _ _ => noFault_error _⟩
      · rw [dif_neg hsize]
        rw [not_not] at hsize
        by_cases hcluster : b.sectorsPerClusterShift < 64
        · rw [if_neg (not_not.mpr hcluster), pure_eq]
          simp only [value_bind, value.injEq]
          rw [noFault_readDirectory hroot hfat]
          constructor
          · rintro hreached -
            exact ⟨hsector, fun _ => ⟨hcluster, by rintro fs rfl; exact hreached⟩⟩
          · exact fun hsound => ((hsound hsigned).2 hsize).2 _ rfl
        · rw [if_pos hcluster]
          exact ⟨fun hfault => (hfault 0).elim, fun hsound => (hcluster ((hsound hsigned).2 hsize).1).elim⟩
    · rw [if_pos hsector]
      exact ⟨fun hfault => (hfault 0).elim, fun hsound => (hsector (hsound hsigned).1).elim⟩
  · rw [if_pos hsigned]
    exact ⟨fun _ hyes => absurd hyes hsigned, fun _ _ => noFault_error _⟩

theorem noFault_listRoot (hblock : io.blockSize % 512 = 0) : (∀ fuel, (listRoot granted fuel io).NoFault) ↔
    (granted io.blockSize = true → ∀ boot, io.readFullBlocks 0 io.blockSize = .ok boot →
      ∀ b, ExFatBootSector.ofBytes boot = some b → SoundGeometry granted io b) := by
  have hlist : ∀ fuel, listRoot granted fuel io = allocBuffer granted io.blockSize >>= fun _ =>
      ofExcept (io.readFullBlocks 0 io.blockSize) >>= fun boot => ofOption (ExFatBootSector.ofBytes boot) >>= fun b =>
        openBooted io b >>= fun fs => fs.readDirectory granted fuel fs.rootCluster := by
    intro fuel
    simp only [listRoot, openChecked, bind_assoc]
  constructor
  · intro h hgranted boot hread b hb
    rw [← noFault_listBooted hb]
    intro fuel
    have hfuel := h fuel
    rw [hlist, allocBuffer, if_pos hgranted, hread] at hfuel
    simp only [value_bind, ofExcept_ok] at hfuel
    rw [hb] at hfuel
    exact hfuel
  · intro h fuel
    rw [hlist, noFault_bind]
    refine ⟨noFault_allocBuffer, fun u hu => noFault_ofExcept_bind.mpr fun boot hread => ?_⟩
    have hlength : 512 ≤ boot.length := by
      obtain ⟨hargs, -, rfl⟩ := readFullBlocks_eq_ok.mp hread
      rw [BlockStore.length_window]
      omega
    obtain ⟨b, hb⟩ := exists_ofBytes hlength
    exact noFault_ofOption_bind.mpr ⟨b, hb,
      (noFault_listBooted hb).mpr (h (allocBuffer_eq_value.mp hu) boot hread b hb) fuel⟩

end ExFat

end NextBoot.Fs
