import NextBoot.Fs.Directory
import NextBoot.Fs.Fat32

namespace NextBoot.Fs

open Words Bytes Strings Results Faults Outcome

/-- The fields of the boot sector that `init` uses. -/
structure Fat32BootSector where
  bytesPerSector : Nat
  sectorsPerCluster : Nat
  reservedSectors : Nat
  numFats : Nat
  totalSectors16 : Nat
  totalSectors32 : Nat
  sectorsPerFat32 : Nat
  rootCluster : Nat

namespace Fat32BootSector

/-- The boot sector at the start of a buffer that is long enough for it. -/
def ofBytes (boot : List UInt8) : Option Fat32BootSector := do
  let _ ← slice boot 0 90
  let bytesPerSector ← readLe 2 boot 11
  let sectorsPerCluster ← readLe 1 boot 13
  let reservedSectors ← readLe 2 boot 14
  let numFats ← readLe 1 boot 16
  let totalSectors16 ← readLe 2 boot 19
  let totalSectors32 ← readLe 4 boot 32
  let sectorsPerFat32 ← readLe 4 boot 36
  let rootCluster ← readLe 4 boot 44
  pure ⟨bytesPerSector, sectorsPerCluster, reservedSectors, numFats, totalSectors16, totalSectors32, sectorsPerFat32,
    rootCluster⟩

def dataStart (b : Fat32BootSector) : Nat := b.reservedSectors + b.sectorsPerFat32 * b.numFats

def totalSectors (b : Fat32BootSector) : Nat := if b.totalSectors32 ≠ 0 then b.totalSectors32 else b.totalSectors16

end Fat32BootSector

namespace Fat32

variable (granted : Nat → Bool)

/-- The volume that the boot sector describes, once its block size has been compared with the device's. -/
def openedVolume (io : BlockIo) (hpos : 0 < io.blockSize) (boot : List UInt8) (b : Fat32BootSector) (dataStart : Nat) :
    Outcome FsError Fat32 := do
  let dataSectors ← ofOption (checkedSub b.totalSectors dataStart)
  if hspc : b.sectorsPerCluster = 0 then fault
  else do
    let _ ← ofOption (slice boot 71 11)
    pure {
      io := io
      sectorsPerCluster := b.sectorsPerCluster
      fatStart := b.reservedSectors
      dataStart := dataStart
      rootCluster := b.rootCluster
      totalClusters := dataSectors / b.sectorsPerCluster % 2 ^ 32
      blockSize_pos := hpos
      sectorsPerCluster_pos := Nat.pos_of_ne_zero hspc }

/-- `init` behind the reading of the boot sector, in checked arithmetic. -/
def openBooted (io : BlockIo) (boot : List UInt8) (b : Fat32BootSector) : Outcome FsError Fat32 :=
  if hzero : b.bytesPerSector = 0 then error .invalidSignature
  else if hsize : b.bytesPerSector ≠ io.blockSize then error .blockSizeMismatch
  else do
    let _ ← ofOption (checkedMul 32 b.bytesPerSector b.sectorsPerCluster)
    let fats ← ofOption (checkedMul 64 b.sectorsPerFat32 b.numFats)
    let dataStart ← ofOption (checkedAdd 64 b.reservedSectors fats)
    openedVolume io (by omega) boot b dataStart

def openChecked (io : BlockIo) : Outcome FsError Fat32 := do
  allocBuffer granted io.blockSize
  let boot ← ofExcept (io.readFullBlocks 0 io.blockSize)
  let b ← ofOption (Fat32BootSector.ofBytes boot)
  openBooted io boot b

def readClusterChecked (fs : Fat32) (cluster : Nat) : Outcome FsError (List UInt8) := do
  if cluster < 2 then error .invalidArgument
  else do
    let limit ← ofOption (checkedAdd 32 fs.totalClusters 2)
    if limit ≤ cluster then error .invalidArgument
    else do
      let blocks ← ofOption (checkedMul 64 (cluster - 2) fs.sectorsPerCluster)
      let lba ← ofOption (checkedAdd 64 fs.dataStart blocks)
      allocBuffer granted fs.clusterSize
      ofExcept (fs.io.readFullBlocks lba fs.clusterSize)

def getNextClusterChecked (fs : Fat32) (cluster : Nat) : Outcome FsError Nat := do
  let entry ← readFatEntryChecked granted fs.io fs.fatStart cluster
  pure (entry % 2 ^ 28)

def parseShortName (raw : List UInt8) : Outcome FsError Text := do
  let name ← ofOption (slice raw 0 8)
  let ext ← ofOption (slice raw 8 3)
  let name := trimEnd (fromUtf8Lossy name)
  let ext := trimEnd (fromUtf8Lossy ext)
  pure (if ext = [] then name else name ++ ['.'] ++ ext)

/-- The places of the characters in an entry of a long name: five, six and two of them. The second run is held inside
the entry, and of the third only what lies inside it is read. -/
def lfnOffsets (length : Nat) : List Nat :=
  (List.range 5).map (fun i => 1 + i * 2) ++ (List.range 6).map (fun i => min (14 + i * 2) (length - 2)) ++
    ((List.range 2).map fun i => 28 + i * 2).filter (· + 2 ≤ length)

/-- A long name is stored from its end; each entry is put before what has been read. -/
def parseLfnEntry (chunk : List UInt8) (buffer : Text) : Outcome FsError Text := do
  let first : UInt8 ← ofOption chunk[0]?
  let codes ← (lfnOffsets chunk.length).mapM fun offset => ofOption (readLe 2 chunk offset)
  let namePart := (codes.filter fun c => c ≠ 0 ∧ c ≠ 0xFFFF).filterMap charFromU32
  pure (namePart ++ if first &&& 0x40 ≠ 0 then [] else buffer)

def dotName : Text := ['.']

def dotDotName : Text := ['.', '.']

/-- The name of an entry: the long name, where entries of one stood before it. -/
def entryName (raw : List UInt8) (lfn : Text) : Outcome FsError Text :=
  if lfn = [] then parseShortName raw else pure lfn

/-- The entries of one cluster, with the long name read so far. -/
def readEntries : List (List UInt8) → Text → Outcome FsError (List DirectoryEntry × Text)
  | [], lfn => pure ([], lfn)
  | chunk :: chunks, lfn => do
      let first : UInt8 ← ofOption chunk[0]?
      if first = 0 then pure ([], lfn)
      else if first = 0xE5 then readEntries chunks []
      else do
        let attr : UInt8 ← ofOption chunk[11]?
        if attr = 0x0F then do
          let lfn ← parseLfnEntry chunk lfn
          readEntries chunks lfn
        else if attr &&& 0x08 ≠ 0 then readEntries chunks []
        else do
          let raw ← ofOption (slice chunk 0 11)
          let name ← entryName raw lfn
          let clusterHigh ← ofOption (readLe 2 chunk 20)
          let clusterLow ← ofOption (readLe 2 chunk 26)
          let fileSize ← ofOption (readLe 4 chunk 28)
          let listed ← readEntries chunks []
          if name = dotName ∨ name = dotDotName then pure listed
          else
            pure ({
              name := name
              size := fileSize
              isDir := attr &&& 0x10 ≠ 0
              attributes := attr.toNat % 0x40
              startCluster := clusterHigh * 2 ^ 16 + clusterLow
              contiguous := false } :: listed.1, listed.2)

/-- `read_directory`, for as many clusters as there is fuel. -/
def readDirectory (fs : Fat32) : Nat → Nat → Text → Outcome FsError (List DirectoryEntry)
  | 0, _, _ => pure []
  | fuel + 1, cluster, lfn => do
      let clusterData ← fs.readClusterChecked granted cluster
      let listed ← readEntries (chunks 32 clusterData) lfn
      let next ← fs.getNextClusterChecked granted cluster
      if endOfChain ≤ next then pure listed.1
      else do
        let rest ← readDirectory fs fuel next listed.2
        pure (listed.1 ++ rest)

/-- Opening a device as FAT32 and listing its root. -/
def listRoot (fuel : Nat) (io : BlockIo) : Outcome FsError (List DirectoryEntry) := do
  let fs ← openChecked granted io
  fs.readDirectory granted fuel fs.rootCluster []

variable {granted : Nat → Bool} {fs : Fat32} {io : BlockIo} {b : Fat32BootSector} {boot chunk : List UInt8} {cluster : Nat}

theorem ofBytes_bounds (h : Fat32BootSector.ofBytes boot = some b) :
    b.bytesPerSector < 2 ^ 16 ∧ b.sectorsPerCluster < 2 ^ 8 ∧ b.reservedSectors < 2 ^ 16 ∧ b.numFats < 2 ^ 8 ∧
      b.totalSectors < 2 ^ 32 ∧ b.sectorsPerFat32 < 2 ^ 32 ∧ b.rootCluster < 2 ^ 32 := by
  simp only [Fat32BootSector.ofBytes, Option.bind_eq_bind, Option.bind_eq_some_iff, Option.pure_def, Option.some.injEq] at h
  obtain ⟨_, -, _, h₁, _, h₂, _, h₃, _, h₄, _, h₅, _, h₆, _, h₇, _, h₈, rfl⟩ := h
  have h₅' := readLe_lt h₅
  refine ⟨readLe_lt h₁, readLe_lt h₂, readLe_lt h₃, readLe_lt h₄, ?_, readLe_lt h₇, readLe_lt h₈⟩
  rw [Fat32BootSector.totalSectors]
  split
  · exact readLe_lt h₆
  · exact Nat.lt_trans h₅' (by decide)

theorem exists_ofBytes (h : 90 ≤ boot.length) : ∃ b, Fat32BootSector.ofBytes boot = some b := by
  obtain ⟨_, h₁⟩ := @readLe_isSome 2 boot 11 (by omega)
  obtain ⟨_, h₂⟩ := @readLe_isSome 1 boot 13 (by omega)
  obtain ⟨_, h₃⟩ := @readLe_isSome 2 boot 14 (by omega)
  obtain ⟨_, h₄⟩ := @readLe_isSome 1 boot 16 (by omega)
  obtain ⟨_, h₅⟩ := @readLe_isSome 2 boot 19 (by omega)
  obtain ⟨_, h₆⟩ := @readLe_isSome 4 boot 32 (by omega)
  obtain ⟨_, h₇⟩ := @readLe_isSome 4 boot 36 (by omega)
  obtain ⟨_, h₈⟩ := @readLe_isSome 4 boot 44 (by omega)
  simp [Fat32BootSector.ofBytes, slice_eq_some (show 0 + 90 ≤ boot.length by omega), h₁, h₂, h₃, h₄, h₅, h₆, h₇, h₈]

theorem returns_parseLfnEntry {buffer : Text} (h : chunk.length = 32) : (parseLfnEntry chunk buffer).Returns := by
  refine returns_ofOption_bind (List.getElem?_eq_getElem (by omega)) ?_
  refine (returns_mapM fun offset hoffset => ?_).bind fun _ _ => returns_pure
  rw [h] at hoffset
  have hle : ∀ offset ∈ lfnOffsets 32, offset + 2 ≤ 32 := by decide
  obtain ⟨code, hcode⟩ := @readLe_isSome 2 chunk offset (by rw [h]; exact hle offset hoffset)
  exact ⟨code, by rw [hcode]; rfl⟩

theorem returns_parseShortName {raw : List UInt8} (h : raw.length = 11) : (parseShortName raw).Returns :=
  returns_ofOption_bind (slice_eq_some (by omega)) (returns_ofOption_bind (slice_eq_some (by omega)) returns_pure)

/-- Parsing whole entries neither fails nor faults, whatever is in them. -/
theorem returns_readEntries {cs : List (List UInt8)} {lfn : Text} (h : ∀ chunk ∈ cs, chunk.length = 32) :
    (readEntries cs lfn).Returns := by
  induction cs generalizing lfn with
  | nil => exact returns_pure
  | cons chunk cs ih =>
      rw [List.forall_mem_cons] at h
      have hlength := h.1
      refine returns_ofOption_bind (List.getElem?_eq_getElem (by omega)) ?_
      refine returns_ite (fun _ => returns_pure) fun _ => returns_ite (fun _ => ih h.2) fun _ => ?_
      refine returns_ofOption_bind (List.getElem?_eq_getElem (by omega)) ?_
      refine returns_ite (fun _ => ?_) fun _ => returns_ite (fun _ => ih h.2) fun _ => ?_
      · exact (returns_parseLfnEntry hlength).bind fun _ _ => ih h.2
      · obtain ⟨high, hhigh⟩ := @readLe_isSome 2 chunk 20 (by omega)
        obtain ⟨low, hlow⟩ := @readLe_isSome 2 chunk 26 (by omega)
        obtain ⟨size, hsize⟩ := @readLe_isSome 4 chunk 28 (by omega)
        refine returns_ofOption_bind (slice_eq_some (by omega)) (Returns.bind ?_ fun name _ => ?_)
        · refine returns_ite (fun _ => returns_parseShortName ?_) fun _ => returns_pure
          rw [List.length_take, List.length_drop]
          omega
        · refine returns_ofOption_bind hhigh (returns_ofOption_bind hlow (returns_ofOption_bind hsize ?_))
          exact (ih h.2).bind fun listed _ => returns_ite (fun _ => returns_pure) fun _ => returns_pure

/-- What opening a volume settles about it: the bounds of its fields. -/
structure Bounded (fs : Fat32) : Prop where
  sectorsPerCluster_lt : fs.sectorsPerCluster < 2 ^ 8
  fatStart_lt : fs.fatStart < 2 ^ 16
  dataStart_lt : fs.dataStart < 2 ^ 41
  rootCluster_lt : fs.rootCluster < 2 ^ 32
  totalClusters_lt : fs.totalClusters < 2 ^ 32

theorem noFault_readClusterChecked (hfs : fs.Bounded) (hcluster : cluster < 2 ^ 32) :
    (fs.readClusterChecked granted cluster).NoFault ↔ cluster < 2 ∨ fs.totalClusters + 2 < 2 ^ 32 := by
  have hmul : (cluster - 2) * fs.sectorsPerCluster ≤ 2 ^ 32 * 2 ^ 8 :=
    Nat.mul_le_mul (by omega) (Nat.le_of_lt hfs.sectorsPerCluster_lt)
  have hdata := hfs.dataStart_lt
  rw [readClusterChecked]
  by_cases hlow : cluster < 2
  · rw [if_pos hlow]
    exact ⟨fun _ => .inl hlow, fun _ => noFault_error _⟩
  · rw [if_neg hlow, noFault_ofOption_bind, or_iff_right hlow]
    constructor
    · rintro ⟨limit, hlimit, -⟩
      exact (checkedAdd_eq_some.mp hlimit).1
    · intro hfits
      refine ⟨_, checkedAdd_eq_some.mpr ⟨hfits, rfl⟩, noFault_ite.mpr ⟨fun _ => noFault_error _, fun _ => ?_⟩⟩
      refine noFault_ofOption_bind.mpr ⟨_, checkedMul_eq_some.mpr ⟨by omega, rfl⟩, ?_⟩
      refine noFault_ofOption_bind.mpr ⟨_, checkedAdd_eq_some.mpr ⟨by omega, rfl⟩, ?_⟩
      exact noFault_bind.mpr ⟨noFault_allocBuffer, fun _ _ => noFault_ofExcept _⟩

theorem length_readClusterChecked {data : List UInt8} (h : fs.readClusterChecked granted cluster = value data) :
    data.length = fs.clusterSize := by
  rw [readClusterChecked] at h
  split at h
  · cases h
  · obtain ⟨limit, -, h₁⟩ := bind_eq_value.mp h
    by_cases hout : limit ≤ cluster
    · rw [if_pos hout] at h₁
      cases h₁
    · rw [if_neg hout] at h₁
      obtain ⟨_, -, h₂⟩ := bind_eq_value.mp h₁
      obtain ⟨_, -, h₃⟩ := bind_eq_value.mp h₂
      obtain ⟨_, -, h₄⟩ := bind_eq_value.mp h₃
      obtain ⟨-, -, rfl⟩ := readFullBlocks_eq_ok.mp (ofExcept_eq_value.mp h₄)
      exact BlockStore.length_window _ _ _

theorem noFault_getNextClusterChecked (hfs : fs.Bounded) (hcluster : cluster < 2 ^ 32) :
    (fs.getNextClusterChecked granted cluster).NoFault :=
  noFault_bind.mpr ⟨noFault_readFatEntryChecked hcluster (Nat.lt_trans hfs.fatStart_lt (by decide)), fun _ _ => noFault_pure⟩

theorem getNextClusterChecked_lt {next : Nat} (h : fs.getNextClusterChecked granted cluster = value next) :
    next < 2 ^ 28 := by
  obtain ⟨entry, -, hnext⟩ := bind_eq_value.mp h
  rw [pure_eq, value.injEq] at hnext
  rw [← hnext]
  exact Nat.mod_lt _ (Nat.two_pow_pos 28)

/-- Listing faults at the first cluster or not at all. -/
theorem noFault_readDirectory {lfn : Text} (hfs : fs.Bounded) (hblock : fs.io.blockSize % 32 = 0)
    (hcluster : cluster < 2 ^ 32) : (∀ fuel, (fs.readDirectory granted fuel cluster lfn).NoFault) ↔
      cluster < 2 ∨ fs.totalClusters + 2 < 2 ^ 32 := by
  constructor
  · intro h
    exact (noFault_readClusterChecked hfs hcluster).mp (noFault_bind.mp (h 1)).1
  · intro h fuel
    induction fuel generalizing cluster lfn with
    | zero => exact noFault_pure
    | succ fuel ih =>
        refine noFault_bind.mpr ⟨(noFault_readClusterChecked hfs hcluster).mpr h, fun data hdata => ?_⟩
        have hchunks : ∀ chunk ∈ chunks 32 data, chunk.length = 32 := fun chunk => length_of_mem_chunks (by
          rw [length_readClusterChecked hdata, clusterSize, Nat.mul_mod, hblock, Nat.zero_mul, Nat.zero_mod])
        refine noFault_bind.mpr ⟨(returns_readEntries hchunks).noFault, fun listed _ => ?_⟩
        refine noFault_bind.mpr ⟨noFault_getNextClusterChecked hfs hcluster, fun next hnext => ?_⟩
        refine noFault_ite.mpr ⟨fun _ => noFault_pure, fun _ => noFault_bind.mpr ⟨?_, fun _ _ => noFault_pure⟩⟩
        have hlt := getNextClusterChecked_lt hnext
        refine ih (Nat.lt_trans hlt (by decide)) ?_
        rcases h with hlow | hfits
        · rw [readClusterChecked, if_pos hlow] at hdata
          cases hdata
        · exact .inr hfits

/-- A boot sector whose numbers `init` and the listing of the root can work with, or that is refused. -/
def SoundGeometry (io : BlockIo) (b : Fat32BootSector) : Prop :=
  b.bytesPerSector ≠ 0 → b.bytesPerSector = io.blockSize →
    b.dataStart ≤ b.totalSectors ∧ b.sectorsPerCluster ≠ 0 ∧
      (b.rootCluster < 2 ∨ (b.totalSectors - b.dataStart) / b.sectorsPerCluster + 2 < 2 ^ 32)

theorem dataStart_bounds (h : Fat32BootSector.ofBytes boot = some b) :
    b.sectorsPerFat32 * b.numFats < 2 ^ 40 ∧ b.dataStart < 2 ^ 41 := by
  obtain ⟨-, -, hreserved, hfats, -, hsize, -⟩ := ofBytes_bounds h
  have hmul : b.sectorsPerFat32 * b.numFats ≤ 2 ^ 32 * (2 ^ 8 - 1) := Nat.mul_le_mul (by omega) (by omega)
  rw [Fat32BootSector.dataStart]
  omega

/-- Opening refuses the boot sector, faults over its numbers, or gives the volume they describe. -/
theorem openBooted_cases (h : Fat32BootSector.ofBytes boot = some b) (hlength : 82 ≤ boot.length) :
    (b.bytesPerSector = 0 ∨ b.bytesPerSector ≠ io.blockSize) ∧ (∃ e, openBooted io boot b = error e) ∨
    b.bytesPerSector ≠ 0 ∧ b.bytesPerSector = io.blockSize ∧
      (¬ (b.dataStart ≤ b.totalSectors ∧ b.sectorsPerCluster ≠ 0) ∧ openBooted io boot b = fault ∨
      (b.dataStart ≤ b.totalSectors ∧ b.sectorsPerCluster ≠ 0) ∧ ∃ fs, openBooted io boot b = value fs ∧ fs.Bounded ∧
        fs.io = io ∧ fs.rootCluster = b.rootCluster ∧
          fs.totalClusters = (b.totalSectors - b.dataStart) / b.sectorsPerCluster) := by
  obtain ⟨hbytes, hspc, hreserved, hfats, htotal, hsize, hroot⟩ := ofBytes_bounds h
  obtain ⟨hmul, hdata⟩ := dataStart_bounds h
  have hcluster : b.bytesPerSector * b.sectorsPerCluster ≤ (2 ^ 16 - 1) * (2 ^ 8 - 1) := Nat.mul_le_mul (by omega) (by omega)
  by_cases hzero : b.bytesPerSector = 0
  · exact .inl ⟨.inl hzero, _, dif_pos hzero⟩
  · by_cases hmismatch : b.bytesPerSector ≠ io.blockSize
    · exact .inl ⟨.inr hmismatch, .blockSizeMismatch, by rw [openBooted, dif_neg hzero, dif_pos hmismatch]⟩
    · have hopen : openBooted io boot b = openedVolume io (by omega) boot b b.dataStart := by
        rw [openBooted, dif_neg hzero, dif_neg hmismatch,
          show checkedMul 32 b.bytesPerSector b.sectorsPerCluster = some _ from checkedMul_eq_some.mpr ⟨by omega, rfl⟩,
          show checkedMul 64 b.sectorsPerFat32 b.numFats = some _ from checkedMul_eq_some.mpr ⟨by omega, rfl⟩]
        simp only [ofOption_some, value_bind]
        rw [show checkedAdd 64 b.reservedSectors (b.sectorsPerFat32 * b.numFats) = some b.dataStart from
          checkedAdd_eq_some.mpr ⟨hdata.trans (by decide), rfl⟩]
        rfl
      rw [not_not] at hmismatch
      rw [hopen, openedVolume]
      refine .inr ⟨hzero, hmismatch, ?_⟩
      by_cases hunderflow : b.dataStart ≤ b.totalSectors
      · rw [show checkedSub b.totalSectors b.dataStart = some _ from checkedSub_eq_some.mpr ⟨hunderflow, rfl⟩]
        by_cases hspcZero : b.sectorsPerCluster = 0
        · exact .inl ⟨fun hsound => hsound.2 hspcZero, dif_pos hspcZero⟩
        · rw [slice_eq_some (show 71 + 11 ≤ boot.length by omega)]
          have hdiv := Nat.div_le_self (b.totalSectors - b.dataStart) b.sectorsPerCluster
          have hmod : (b.totalSectors - b.dataStart) / b.sectorsPerCluster % 2 ^ 32 =
              (b.totalSectors - b.dataStart) / b.sectorsPerCluster := Nat.mod_eq_of_lt (by omega)
          refine .inr ⟨⟨hunderflow, hspcZero⟩, _, dif_neg hspcZero, ⟨hspc, hreserved, hdata, hroot, ?_⟩, rfl, rfl, hmod⟩
          exact Nat.mod_lt _ (Nat.two_pow_pos 32)
      · rw [show checkedSub b.totalSectors b.dataStart = none from if_neg hunderflow]
        exact .inl ⟨fun hsound => hunderflow hsound.1, rfl⟩

theorem noFault_listBooted (h : Fat32BootSector.ofBytes boot = some b) (hlength : 82 ≤ boot.length)
    (hblock : io.blockSize % 32 = 0) :
    (∀ fuel, (openBooted io boot b >>= fun fs => fs.readDirectory granted fuel fs.rootCluster []).NoFault) ↔
      SoundGeometry io b := by
  rcases @openBooted_cases io b boot h hlength with ⟨hrefused, e, hopen⟩ | ⟨hzero, hsize, ⟨hunsound, hopen⟩ |
    ⟨hsound, fs, hopen, hbounded, hio, hroot, htotal⟩⟩
  · rw [hopen]
    refine ⟨fun _ hzero hsize => ?_, fun _ _ => noFault_error e⟩
    rcases hrefused with hrefused | hrefused
    · exact absurd hrefused hzero
    · exact absurd hsize hrefused
  · rw [hopen]
    exact ⟨fun hfault => (hfault 0).elim, fun hgeometry => (hunsound ⟨(hgeometry hzero hsize).1, (hgeometry hzero hsize).2.1⟩).elim⟩
  · have hdirectory := @noFault_readDirectory granted fs fs.rootCluster [] hbounded (by rw [hio]; exact hblock)
      hbounded.rootCluster_lt
    rw [hopen, SoundGeometry]
    simp only [value_bind]
    rw [hdirectory, hroot, htotal]
    exact ⟨fun h _ _ => ⟨hsound.1, hsound.2, h⟩, fun h => (h hzero hsize).2.2⟩

theorem noFault_listRoot (hblock : io.blockSize % 512 = 0) : (∀ fuel, (listRoot granted fuel io).NoFault) ↔
    (granted io.blockSize = true → ∀ boot, io.readFullBlocks 0 io.blockSize = .ok boot →
      ∀ b, Fat32BootSector.ofBytes boot = some b → SoundGeometry io b) := by
  have hlist : ∀ fuel, listRoot granted fuel io = allocBuffer granted io.blockSize >>= fun _ =>
      ofExcept (io.readFullBlocks 0 io.blockSize) >>= fun boot => ofOption (Fat32BootSector.ofBytes boot) >>= fun b =>
        openBooted io boot b >>= fun fs => fs.readDirectory granted fuel fs.rootCluster [] := by
    intro fuel
    simp only [listRoot, openChecked, bind_assoc]
  have hboot : ∀ boot, io.readFullBlocks 0 io.blockSize = .ok boot → 512 ≤ boot.length := by
    intro boot hread
    obtain ⟨hargs, -, rfl⟩ := readFullBlocks_eq_ok.mp hread
    rw [BlockStore.length_window]
    omega
  constructor
  · intro h hgranted boot hread b hb
    have hlength := hboot boot hread
    rw [← noFault_listBooted hb (by omega) (by omega)]
    intro fuel
    have hfuel := h fuel
    rw [hlist, allocBuffer, if_pos hgranted, hread] at hfuel
    simp only [value_bind, ofExcept_ok] at hfuel
    rw [hb] at hfuel
    exact hfuel
  · intro h fuel
    rw [hlist, noFault_bind]
    refine ⟨noFault_allocBuffer, fun u hu => noFault_ofExcept_bind.mpr fun boot hread => ?_⟩
    have hlength := hboot boot hread
    obtain ⟨b, hb⟩ := exists_ofBytes (show 90 ≤ boot.length by omega)
    refine noFault_ofOption_bind.mpr ⟨b, hb, ?_⟩
    exact (noFault_listBooted hb (by omega) (by omega)).mpr (h (allocBuffer_eq_value.mp hu) boot hread b hb) fuel

/-- Where the checked arithmetic does not fault, it is that of the reading functions. -/
theorem readClusterChecked_eq_value {data : List UInt8} (h : fs.readClusterChecked granted cluster = value data) :
    fs.readCluster cluster = .ok data := by
  rw [readClusterChecked] at h
  split at h
  · cases h
  · obtain ⟨_, hlimit, h₁⟩ := bind_eq_value.mp h
    obtain ⟨hfits, rfl⟩ := checkedAdd_eq_some.mp (ofOption_eq_value.mp hlimit)
    by_cases hout : fs.totalClusters + 2 ≤ cluster
    · rw [if_pos hout] at h₁
      cases h₁
    · rw [if_neg hout] at h₁
      obtain ⟨_, hblocks, h₂⟩ := bind_eq_value.mp h₁
      obtain ⟨hmul, rfl⟩ := checkedMul_eq_some.mp (ofOption_eq_value.mp hblocks)
      obtain ⟨_, hlba, h₃⟩ := bind_eq_value.mp h₂
      obtain ⟨hadd, rfl⟩ := checkedAdd_eq_some.mp (ofOption_eq_value.mp hlba)
      obtain ⟨_, -, h₄⟩ := bind_eq_value.mp h₃
      have hheap : fs.clusters.InHeap cluster := ⟨by omega, by
        show cluster < wrappingAdd 32 fs.totalClusters 2
        rw [wrappingAdd_eq hfits]
        omega⟩
      rw [readCluster, show refuseIf (¬ fs.clusters.InHeap cluster) FsError.invalidArgument = .ok () from
        if_neg (not_not.mpr hheap), clusterToLba, wrappingMul_eq hmul, wrappingAdd_eq hadd]
      exact ofExcept_eq_value.mp h₄

end Fat32

end NextBoot.Fs
