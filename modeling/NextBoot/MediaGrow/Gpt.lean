import NextBoot.MediaGrow.Device

namespace NextBoot.MediaGrow

open Results Words Bytes

def asciiBytes (cs : List Char) : List UInt8 := cs.map fun c => UInt8.ofNat c.toNat

def gptSignature : List UInt8 := asciiBytes ['E', 'F', 'I', ' ', 'P', 'A', 'R', 'T']

def nexbootEfi : List UInt8 := asciiBytes ['N', 'E', 'X', 'B', 'O', 'O', 'T', '_', 'E', 'F', 'I']

def nexbootData : List UInt8 := asciiBytes ['N', 'E', 'X', 'B', 'O', 'O', 'T', '_', 'D', 'A', 'T', 'A']

def gptHeaderLba : Nat := 1

def gptHeaderSize : Nat := 92

def gptEntryMaxBytes : Nat := 1024 * 1024

structure GptInfo where
  oldBackupLba : Nat
  lastUsableLba : Nat
  entryLba : Nat
  entryCount : Nat
  entrySize : Nat
deriving DecidableEq, Repr

structure PartitionInfo where
  index : Nat
  startLba : Nat
  endLba : Nat
deriving DecidableEq, Repr

def parseGptHeader (header : List UInt8) (blockSize : Nat) : Except GrowError GptInfo := do
  rejectIf (slice header 0 8 ≠ some gptSignature) "missing GPT header"
  let headerSize ← okOr (readLeU32 header 12) "missing GPT header size"
  rejectIf (¬ (gptHeaderSize ≤ headerSize ∧ headerSize ≤ blockSize)) "unsupported GPT header size"
  let expectedCrc ← okOr (readLeU32 header 16) "missing GPT header CRC"
  let scratch ← okOr (slice header 0 headerSize) "truncated GPT header"
  let scratch ← writeLeU32 scratch 16 0
  rejectIf (crc32 scratch ≠ expectedCrc) "GPT header CRC mismatch"
  let currentLba ← okOr (readLeU64 header 24) "missing GPT current LBA"
  rejectIf (currentLba ≠ gptHeaderLba) "GPT primary header is not at LBA 1"
  let entryCount ← okOr (readLeU32 header 80) "missing GPT entry count"
  let entrySize ← okOr (readLeU32 header 84) "missing GPT entry size"
  rejectIf (entryCount = 0 ∨ entrySize < 128 ∨ entrySize % 8 ≠ 0) "unsupported GPT entry geometry"
  rejectIf ((checkedMul 64 entryCount entrySize).all fun bytes => decide (bytes > gptEntryMaxBytes))
    "GPT entry array is too large"
  let oldBackupLba ← okOr (readLeU64 header 32) "missing GPT backup LBA"
  let lastUsableLba ← okOr (readLeU64 header 48) "missing GPT last usable LBA"
  let entryLba ← okOr (readLeU64 header 72) "missing GPT entry LBA"
  return ⟨oldBackupLba, lastUsableLba, entryLba, entryCount, entrySize⟩

/-- The header carries the checksum of its own bytes, taken with the checksum field cleared. -/
def HeaderCrcValid (header : List UInt8) (blockSize : Nat) : Prop :=
  ∃ headerSize crc covered, readLeU32 header 12 = some headerSize ∧ gptHeaderSize ≤ headerSize ∧
    headerSize ≤ blockSize ∧ readLeU32 header 16 = some crc ∧ slice header 0 headerSize = some covered ∧
    crc32 (splice covered 16 (toLeBytes 4 0)) = crc

def headerCrcCheck (header : List UInt8) (blockSize : Nat) : Bool :=
  match readLeU32 header 12, readLeU32 header 16 with
  | some headerSize, some crc =>
      match slice header 0 headerSize with
      | some covered => decide (gptHeaderSize ≤ headerSize ∧ headerSize ≤ blockSize ∧
          crc32 (splice covered 16 (toLeBytes 4 0)) = crc)
      | none => false
  | _, _ => false

theorem headerCrcCheck_iff {header : List UInt8} {blockSize : Nat} :
    headerCrcCheck header blockSize = true ↔ HeaderCrcValid header blockSize := by
  unfold headerCrcCheck
  constructor
  · intro h
    split at h
    · next headerSize crc hsize hcrc =>
        split at h
        · next covered hcov =>
            obtain ⟨hlo, hhi, hsum⟩ := of_decide_eq_true h
            exact ⟨headerSize, crc, covered, hsize, hlo, hhi, hcrc, hcov, hsum⟩
        · cases h
    · cases h
  · rintro ⟨headerSize, crc, covered, hsize, hlo, hhi, hcrc, hcov, hsum⟩
    simp only [hsize, hcrc, hcov]
    exact decide_eq_true ⟨hlo, hhi, hsum⟩

instance (header : List UInt8) (blockSize : Nat) : Decidable (HeaderCrcValid header blockSize) :=
  decidable_of_iff _ headerCrcCheck_iff

/-- What an accepted primary header says. -/
structure HeaderAccepted (header : List UInt8) (blockSize : Nat) (gpt : GptInfo) : Prop where
  signature : slice header 0 8 = some gptSignature
  crcValid : HeaderCrcValid header blockSize
  currentLba : readLeU64 header 24 = some gptHeaderLba
  entryCount : readLeU32 header 80 = some gpt.entryCount
  entrySize : readLeU32 header 84 = some gpt.entrySize
  entryCount_pos : 0 < gpt.entryCount
  entrySize_ge : 128 ≤ gpt.entrySize
  entrySize_mod : gpt.entrySize % 8 = 0
  entryBytes_le : gpt.entryCount * gpt.entrySize ≤ gptEntryMaxBytes
  oldBackupLba : readLeU64 header 32 = some gpt.oldBackupLba
  lastUsableLba : readLeU64 header 48 = some gpt.lastUsableLba
  entryLba : readLeU64 header 72 = some gpt.entryLba

theorem arraySize_accepted {count size : Nat} :
    ¬ ((checkedMul 64 count size).all fun bytes => decide (bytes > gptEntryMaxBytes)) = true ↔
      count * size ≤ gptEntryMaxBytes := by
  have hmax : gptEntryMaxBytes < 2 ^ 64 := by decide
  unfold checkedMul
  split
  · simp
  · next h =>
      simp only [Option.all_none, not_true_eq_false, false_iff]
      omega

theorem parseGptHeader_eq_ok {header : List UInt8} {blockSize : Nat} {gpt : GptInfo} :
    parseGptHeader header blockSize = .ok gpt ↔ HeaderAccepted header blockSize gpt := by
  simp only [parseGptHeader, bind_eq_ok, okOr_eq_ok, rejectIf_eq_ok, pure_eq_ok, writeLeU32_eq_ok,
    arraySize_accepted]
  constructor
  · rintro ⟨_, hsig, size, hsize, _, hrange, crc, hcrc, covered, hcov, _, ⟨hlen, rfl⟩, _, hsum, current, hcur, _,
      hone, count, hcount, esize, hes, _, hgeo, _, hmax, backup, hbak, usable, hus, lba, hlba, rfl⟩
    refine ⟨not_not.mp hsig, ?_, ?_, hcount, hes, by simp only; omega, by simp only; omega, by simp only; omega,
      hmax, hbak, hus, hlba⟩
    · exact ⟨size, crc, covered, hsize, by omega, by omega, hcrc, hcov, not_not.mp hsum⟩
    · rwa [← not_not.mp hone]
  · rintro ⟨hsig, ⟨size, crc, covered, hsize, hlo, hhi, hcrc, hcov, hsum⟩, hcur, hcount, hes, hpos, hge, hmod, hmax,
      hbak, hus, hlba⟩
    have hlen : 16 + 4 ≤ covered.length := by
      have hlo' : 92 ≤ size := hlo
      rw [slice_length hcov]
      omega
    exact ⟨(), not_not.mpr hsig, size, hsize, (), by omega, crc, hcrc, covered, hcov, _, ⟨hlen, rfl⟩, (),
      not_not.mpr hsum, _, hcur, (), not_not.mpr rfl, _, hcount, _, hes, (), by omega, (), hmax, _, hbak, _, hus, _,
      hlba, rfl⟩

/-- The UTF-16LE name is the ASCII text followed by zeros only. -/
def nameMatches : List UInt8 → List UInt8 → Bool
  | raw, [] => raw.all (· == 0)
  | lo :: hi :: raw, byte :: expected => lo == byte && hi == 0 && nameMatches raw expected
  | _, _ :: _ => false

def gptNameEq (entry expected : List UInt8) : Bool :=
  match slice entry 56 72 with
  | none => false
  | some raw => nameMatches raw expected

def entryUnused (entry : List UInt8) : Bool :=
  match slice entry 0 16 with
  | none => false
  | some guid => guid.all (· == 0)

def gptEntry (entries : List UInt8) (entrySize index : Nat) : Except GrowError (List UInt8) := do
  let offset ← okOr (checkedMul 64 index entrySize) "GPT entry offset overflow"
  okOr (slice entries offset entrySize) "truncated GPT entry"

/-- One pass of the first loop: the last `NEXBOOT_DATA` entry wins. -/
def scanEntry (entries : List UInt8) (entrySize : Nat) (found : Bool × Option PartitionInfo) (index : Nat) :
    Except GrowError (Bool × Option PartitionInfo) := do
  let entry ← gptEntry entries entrySize index
  if entryUnused entry then return found
  else
    let startLba ← okOr (readLeU64 entry 32) "missing partition start"
    let endLba ← okOr (readLeU64 entry 40) "missing partition end"
    if gptNameEq entry nexbootEfi then return (true, found.2)
    else if gptNameEq entry nexbootData then return (found.1, some ⟨index, startLba, endLba⟩)
    else return found

/-- One pass of the second loop: no used entry may start behind the data partition. -/
def checkFollowing (entries : List UInt8) (entrySize : Nat) (data : PartitionInfo) (index : Nat) :
    Except GrowError Unit := do
  let entry ← gptEntry entries entrySize index
  if entryUnused entry then return ()
  else
    let startLba ← okOr (readLeU64 entry 32) "missing partition start"
    rejectIf (startLba > data.startLba) "non-empty partition follows NEXBOOT_DATA"

def findReleaseDataPartition (entries : List UInt8) (entryCount entrySize : Nat) :
    Except GrowError PartitionInfo := do
  let (sawEfi, data) ← (List.range entryCount).foldlM (scanEntry entries entrySize) (false, none)
  rejectIf (sawEfi = false) "missing NEXBOOT_EFI partition"
  let data ← okOr data "missing NEXBOOT_DATA partition"
  (List.range entryCount).forM (checkFollowing entries entrySize data)
  return data

/-- The entry a partition found by the scan was read from. -/
def IsDataEntry (entries : List UInt8) (entrySize : Nat) (data : PartitionInfo) : Prop :=
  ∃ entry, gptEntry entries entrySize data.index = .ok entry ∧ readLeU64 entry 32 = some data.startLba ∧
    readLeU64 entry 40 = some data.endLba

theorem gptEntry_eq_ok {entries entry : List UInt8} {entrySize index : Nat} :
    gptEntry entries entrySize index = .ok entry ↔
      index * entrySize < 2 ^ 64 ∧ slice entries (index * entrySize) entrySize = some entry := by
  simp only [gptEntry, bind_eq_ok, okOr_eq_ok, checkedMul_eq_some]
  constructor
  · rintro ⟨_, ⟨hlt, rfl⟩, h⟩
    exact ⟨hlt, h⟩
  · rintro ⟨hlt, h⟩
    exact ⟨_, ⟨hlt, rfl⟩, h⟩

theorem scanEntry_eq_ok {entries : List UInt8} {entrySize index : Nat} {found found' : Bool × Option PartitionInfo} :
    scanEntry entries entrySize found index = .ok found' ↔
      ∃ entry, gptEntry entries entrySize index = .ok entry ∧
        (entryUnused entry = true ∧ found = found' ∨
          entryUnused entry = false ∧ ∃ startLba endLba, readLeU64 entry 32 = some startLba ∧
            readLeU64 entry 40 = some endLba ∧
            (if gptNameEq entry nexbootEfi then (true, found.2)
              else if gptNameEq entry nexbootData then (found.1, some ⟨index, startLba, endLba⟩) else found) = found') := by
  simp only [scanEntry, bind_eq_ok]
  refine exists_congr fun entry => and_congr_right fun _ => ?_
  cases hun : entryUnused entry with
  | true => simp [pure_eq_ok]
  | false =>
      simp only [Bool.false_eq_true, if_false, bind_eq_ok, okOr_eq_ok, false_and, false_or, true_and]
      refine exists_congr fun startLba => ?_
      rw [← exists_and_left]
      refine exists_congr fun endLba => ?_
      refine and_congr_right fun _ => and_congr_right fun _ => ?_
      split
      · exact pure_eq_ok
      · split <;> exact pure_eq_ok

theorem checkFollowing_eq_ok {entries : List UInt8} {entrySize index : Nat} {data : PartitionInfo} {u : Unit} :
    checkFollowing entries entrySize data index = .ok u ↔
      ∃ entry, gptEntry entries entrySize index = .ok entry ∧
        (entryUnused entry = true ∨
          entryUnused entry = false ∧ ∃ startLba, readLeU64 entry 32 = some startLba ∧ startLba ≤ data.startLba) := by
  simp only [checkFollowing, bind_eq_ok]
  refine exists_congr fun entry => and_congr_right fun _ => ?_
  cases hun : entryUnused entry with
  | true => simp [pure_eq_ok]
  | false => simp [bind_eq_ok, okOr_eq_ok, rejectIf_eq_ok]

theorem findReleaseDataPartition_eq_ok {entries : List UInt8} {entryCount entrySize : Nat} {data : PartitionInfo} :
    findReleaseDataPartition entries entryCount entrySize = .ok data ↔
      (List.range entryCount).foldlM (scanEntry entries entrySize) (false, none) = .ok (true, some data) ∧
        ∀ index < entryCount, checkFollowing entries entrySize data index = .ok () := by
  simp only [findReleaseDataPartition, bind_eq_ok, okOr_eq_ok, rejectIf_eq_ok, forM_eq_ok, pure_eq_ok, List.mem_range]
  constructor
  · rintro ⟨⟨sawEfi, found⟩, hscan, _, hefi, d, hd, _, hfollow, rfl⟩
    simp only [Bool.not_eq_false] at hefi hd
    subst hefi hd
    exact ⟨hscan, hfollow⟩
  · rintro ⟨hscan, hfollow⟩
    exact ⟨_, hscan, (), by simp, data, rfl, (), hfollow, rfl⟩

theorem findReleaseDataPartition_entry {entries : List UInt8} {entryCount entrySize : Nat} {data : PartitionInfo}
    (h : findReleaseDataPartition entries entryCount entrySize = .ok data) :
    data.index < entryCount ∧ IsDataEntry entries entrySize data := by
  have hscan := (findReleaseDataPartition_eq_ok.mp h).1
  refine foldlM_ok_invariant (P := fun found => ∀ d, found.2 = some d →
    d.index < entryCount ∧ IsDataEntry entries entrySize d) ?_ hscan (by simp) data rfl
  rintro found index found' hmem hstep hinv d hd
  obtain ⟨entry, hentry, hcase⟩ := scanEntry_eq_ok.mp hstep
  rcases hcase with ⟨_, rfl⟩ | ⟨_, startLba, endLba, hs, he, rfl⟩
  · exact hinv d hd
  · split at hd
    · exact hinv d hd
    · split at hd
      · obtain rfl := Option.some.inj hd
        exact ⟨List.mem_range.mp hmem, entry, hentry, hs, he⟩
      · exact hinv d hd

/-- An entry array with the end of one partition replaced. -/
def replaceEnd (entries : List UInt8) (entrySize index newEndLba : Nat) : List UInt8 :=
  splice entries (index * entrySize + 40) (toLeBytes 8 newEndLba)

theorem gptEntry_replaceEnd {entries entry : List UInt8} {entrySize index newEndLba i : Nat}
    (hsize : 128 ≤ entrySize) (hfit : index * entrySize + entrySize ≤ entries.length)
    (h : gptEntry entries entrySize i = .ok entry) :
    gptEntry (replaceEnd entries entrySize index newEndLba) entrySize i =
      .ok (if i = index then splice entry 40 (toLeBytes 8 newEndLba) else entry) := by
  obtain ⟨hlt, hs⟩ := gptEntry_eq_ok.mp h
  refine gptEntry_eq_ok.mpr ⟨hlt, ?_⟩
  unfold replaceEnd
  split
  · next heq =>
      subst heq
      exact slice_splice_inside hs (by simp; omega)
  · next hne =>
      rw [slice_splice_disjoint (by simp; omega) _, hs]
      rcases Nat.lt_or_gt_of_ne hne with hlt' | hlt'
      · have := Nat.mul_le_mul_right entrySize (show i + 1 ≤ index from hlt')
        rw [Nat.add_mul, Nat.one_mul] at this
        omega
      · have := Nat.mul_le_mul_right entrySize (show index + 1 ≤ i from hlt')
        rw [Nat.add_mul, Nat.one_mul] at this
        simp only [length_toLeBytes]
        omega

theorem entryUnused_replaceEnd {entry : List UInt8} {newEndLba : Nat} (h : 128 ≤ entry.length) :
    entryUnused (splice entry 40 (toLeBytes 8 newEndLba)) = entryUnused entry := by
  rw [entryUnused, slice_splice_disjoint (by simp; omega) (by omega), entryUnused]

theorem gptNameEq_replaceEnd {entry : List UInt8} {newEndLba : Nat} (h : 128 ≤ entry.length) (expected : List UInt8) :
    gptNameEq (splice entry 40 (toLeBytes 8 newEndLba)) expected = gptNameEq entry expected := by
  rw [gptNameEq, slice_splice_disjoint (by simp; omega) (by simp), gptNameEq]

theorem startLba_replaceEnd {entry : List UInt8} {newEndLba : Nat} (h : 128 ≤ entry.length) :
    readLeU64 (splice entry 40 (toLeBytes 8 newEndLba)) 32 = readLeU64 entry 32 :=
  readLe_splice_disjoint (by simp; omega) (by omega)

theorem endLba_replaceEnd {entry : List UInt8} {newEndLba : Nat} (h : 128 ≤ entry.length) (hend : newEndLba < 2 ^ 64) :
    readLeU64 (splice entry 40 (toLeBytes 8 newEndLba)) 40 = some newEndLba :=
  readLe_splice_self (by omega) (by omega)

def moveEnd (index newEndLba : Nat) (data : PartitionInfo) : PartitionInfo :=
  if data.index = index then { data with endLba := newEndLba } else data

theorem scanEntry_replaceEnd {entries : List UInt8} {entrySize index newEndLba : Nat} (hsize : 128 ≤ entrySize)
    (hfit : index * entrySize + entrySize ≤ entries.length) (hend : newEndLba < 2 ^ 64)
    (found : Bool × Option PartitionInfo) (i : Nat) (found' : Bool × Option PartitionInfo)
    (h : scanEntry entries entrySize found i = .ok found') :
    scanEntry (replaceEnd entries entrySize index newEndLba) entrySize
      (found.1, found.2.map (moveEnd index newEndLba)) i = .ok (found'.1, found'.2.map (moveEnd index newEndLba)) := by
  obtain ⟨entry, hentry, hcase⟩ := scanEntry_eq_ok.mp h
  have hlen : 128 ≤ entry.length := by
    rw [slice_length (gptEntry_eq_ok.mp hentry).2]
    exact hsize
  refine scanEntry_eq_ok.mpr ⟨_, gptEntry_replaceEnd hsize hfit hentry, ?_⟩
  by_cases hi : i = index
  · simp only [if_pos hi, entryUnused_replaceEnd hlen, gptNameEq_replaceEnd hlen, startLba_replaceEnd hlen,
      endLba_replaceEnd hlen hend]
    rcases hcase with ⟨hun, rfl⟩ | ⟨hun, startLba, endLba, hs, he, rfl⟩
    · exact .inl ⟨hun, rfl⟩
    · refine .inr ⟨hun, startLba, newEndLba, hs, rfl, ?_⟩
      split
      · rfl
      · split
        · simp [moveEnd, hi]
        · rfl
  · simp only [if_neg hi]
    rcases hcase with ⟨hun, rfl⟩ | ⟨hun, startLba, endLba, hs, he, rfl⟩
    · exact .inl ⟨hun, rfl⟩
    · refine .inr ⟨hun, startLba, endLba, hs, he, ?_⟩
      split
      · rfl
      · split
        · simp [moveEnd, hi]
        · rfl

theorem checkFollowing_replaceEnd {entries : List UInt8} {entrySize index newEndLba i : Nat} {data data' : PartitionInfo}
    (hsize : 128 ≤ entrySize) (hfit : index * entrySize + entrySize ≤ entries.length)
    (hstart : data'.startLba = data.startLba) (h : checkFollowing entries entrySize data i = .ok ()) :
    checkFollowing (replaceEnd entries entrySize index newEndLba) entrySize data' i = .ok () := by
  obtain ⟨entry, hentry, hcase⟩ := checkFollowing_eq_ok.mp h
  have hlen : 128 ≤ entry.length := by
    rw [slice_length (gptEntry_eq_ok.mp hentry).2]
    exact hsize
  refine checkFollowing_eq_ok.mpr ⟨_, gptEntry_replaceEnd hsize hfit hentry, ?_⟩
  rw [hstart]
  split
  · rwa [entryUnused_replaceEnd hlen, startLba_replaceEnd hlen]
  · exact hcase

/-- The scan of the updated array finds the same partition with its new end. -/
theorem findReleaseDataPartition_replaceEnd {entries : List UInt8} {entryCount entrySize newEndLba : Nat}
    {data : PartitionInfo} (hsize : 128 ≤ entrySize) (hfit : entryCount * entrySize ≤ entries.length)
    (hend : newEndLba < 2 ^ 64) (h : findReleaseDataPartition entries entryCount entrySize = .ok data) :
    findReleaseDataPartition (replaceEnd entries entrySize data.index newEndLba) entryCount entrySize =
      .ok { data with endLba := newEndLba } := by
  have hidx := (findReleaseDataPartition_entry h).1
  obtain ⟨hscan, hfollow⟩ := findReleaseDataPartition_eq_ok.mp h
  have hfit' : data.index * entrySize + entrySize ≤ entries.length := by
    have := Nat.mul_le_mul_right entrySize (show data.index + 1 ≤ entryCount from hidx)
    rw [Nat.add_mul, Nat.one_mul] at this
    omega
  refine findReleaseDataPartition_eq_ok.mpr ⟨?_, fun i hi => checkFollowing_replaceEnd hsize hfit' rfl (hfollow i hi)⟩
  have hrun := foldlM_ok_rename (r := fun found => (found.1, found.2.map (moveEnd data.index newEndLba)))
    (fun found i found' _ => scanEntry_replaceEnd hsize hfit' hend found i found') hscan
  simpa [moveEnd] using hrun

def updateGptEntries (entries : List UInt8) (entrySize index newEndLba : Nat) :
    Except GrowError (List UInt8) := do
  let offset ← okOr ((checkedMul 64 index entrySize).bind (checkedAdd 64 · 40)) "GPT entry offset overflows"
  writeLeU64 entries offset newEndLba

def updateHeaderCrc (header : List UInt8) : Except GrowError (List UInt8) := do
  let headerSize ← okOr (readLeU32 header 12) "missing GPT header size"
  rejectIf (headerSize > header.length) "truncated GPT header"
  let header ← writeLeU32 header 16 0
  let covered ← okOr (slice header 0 headerSize) "truncated GPT header"
  writeLeU32 header 16 (crc32 covered)

def updatePrimaryHeader (header : List UInt8) (backupLba lastUsableLba entryCrc : Nat) :
    Except GrowError (List UInt8) := do
  let header ← writeLeU64 header 32 backupLba
  let header ← writeLeU64 header 48 lastUsableLba
  let header ← writeLeU32 header 88 entryCrc
  updateHeaderCrc header

def updateBackupHeader (header : List UInt8) (currentLba entriesLba : Nat) : Except GrowError (List UInt8) := do
  let header ← writeLeU64 header 24 currentLba
  let header ← writeLeU64 header 32 gptHeaderLba
  let header ← writeLeU64 header 72 entriesLba
  updateHeaderCrc header

theorem updateGptEntries_eq {entries : List UInt8} {entrySize index newEndLba : Nat} (hsize : 128 ≤ entrySize)
    (hfit : index * entrySize + entrySize ≤ entries.length) (hlen : entries.length < 2 ^ 64) :
    updateGptEntries entries entrySize index newEndLba = .ok (replaceEnd entries entrySize index newEndLba) := by
  have hmul : checkedMul 64 index entrySize = some (index * entrySize) :=
    checkedMul_eq_some.mpr ⟨by omega, rfl⟩
  have hadd : checkedAdd 64 (index * entrySize) 40 = some (index * entrySize + 40) :=
    checkedAdd_eq_some.mpr ⟨by omega, rfl⟩
  rw [updateGptEntries, hmul, Option.bind_some, hadd]
  exact writeLeU64_eq_ok.mpr ⟨by omega, rfl⟩

/-- A header with its checksum field set for its other bytes. -/
def sealHeader (header : List UInt8) (headerSize : Nat) : List UInt8 :=
  splice header 16 (toLeBytes 4 (crc32 ((splice header 16 (toLeBytes 4 0)).take headerSize)))

theorem crc32_lt (bytes : List UInt8) : crc32 bytes < 256 ^ 4 := UInt32.toNat_lt _

theorem length_sealHeader {header : List UInt8} {headerSize : Nat} (h : gptHeaderSize ≤ header.length) :
    (sealHeader header headerSize).length = header.length := by
  have h' : 92 ≤ header.length := h
  exact length_splice _ _ _ (by simp; omega)

theorem slice_sealHeader {header : List UInt8} {headerSize offset len : Nat} (h : gptHeaderSize ≤ header.length)
    (hd : offset + len ≤ 16 ∨ 20 ≤ offset) :
    slice (sealHeader header headerSize) offset len = slice header offset len := by
  have h' : 92 ≤ header.length := h
  exact slice_splice_disjoint (by simp; omega) (by simpa using hd)

theorem updateHeaderCrc_eq {header : List UInt8} {headerSize : Nat} (hsize : readLeU32 header 12 = some headerSize)
    (hlo : gptHeaderSize ≤ headerSize) (hhi : headerSize ≤ header.length) :
    updateHeaderCrc header = .ok (sealHeader header headerSize) := by
  have hlo' : 92 ≤ headerSize := hlo
  have hl : (splice header 16 (toLeBytes 4 0)).length = header.length := length_splice _ _ _ (by simp; omega)
  have hcov : slice (splice header 16 (toLeBytes 4 0)) 0 headerSize = some _ := slice_eq_some (by omega)
  simp only [updateHeaderCrc, bind_eq_ok, okOr_eq_ok, rejectIf_eq_ok, writeLeU32_eq_ok]
  refine ⟨headerSize, hsize, (), by omega, _, ⟨by omega, rfl⟩, _, hcov, by omega, ?_⟩
  rw [List.drop_zero, sealHeader, splice_splice_same (by simp; omega) (by simp)]

theorem headerCrcValid_sealHeader {header : List UInt8} {headerSize : Nat}
    (hsize : readLeU32 header 12 = some headerSize) (hlo : gptHeaderSize ≤ headerSize)
    (hhi : headerSize ≤ header.length) : HeaderCrcValid (sealHeader header headerSize) header.length := by
  have hlo' : 92 ≤ headerSize := hlo
  obtain ⟨covered, hcov⟩ : ∃ covered, slice header 0 headerSize = some covered := ⟨_, slice_eq_some (by omega)⟩
  have hclen := slice_length hcov
  have hzero : (splice header 16 (toLeBytes 4 0)).take headerSize = splice covered 16 (toLeBytes 4 0) := by
    have htake : slice (splice header 16 (toLeBytes 4 0)) 0 headerSize = some _ :=
      slice_eq_some (by rw [length_splice _ _ _ (by simp; omega)]; omega)
    have hin : slice (splice header (0 + 16) (toLeBytes 4 0)) 0 headerSize = some _ :=
      slice_splice_inside hcov (by simp; omega)
    rw [Nat.zero_add, htake, List.drop_zero] at hin
    exact Option.some.inj hin
  have hsealed : slice (splice header (0 + 16) (toLeBytes 4 (crc32 (splice covered 16 (toLeBytes 4 0))))) 0 headerSize =
      some _ := slice_splice_inside hcov (by simp; omega)
  rw [Nat.zero_add] at hsealed
  refine ⟨headerSize, crc32 (splice covered 16 (toLeBytes 4 0)),
    splice covered 16 (toLeBytes 4 (crc32 (splice covered 16 (toLeBytes 4 0)))), ?_, hlo, hhi, ?_, ?_, ?_⟩
  · rw [sealHeader, readLeU32, readLe_splice_disjoint (by simp; omega) (by simp)]
    exact hsize
  · rw [sealHeader, hzero]
    exact readLe_splice_self (by omega) (crc32_lt _)
  · rw [sealHeader, hzero]
    exact hsealed
  · rw [splice_splice_same (by simp; omega) (by simp)]

def grownFields (backupLba lastUsableLba entryCrc : Nat) : List (Nat × List UInt8) :=
  [(32, toLeBytes 8 backupLba), (48, toLeBytes 8 lastUsableLba), (88, toLeBytes 4 entryCrc)]

def mirroredFields (currentLba entriesLba : Nat) : List (Nat × List UInt8) :=
  [(24, toLeBytes 8 currentLba), (32, toLeBytes 8 gptHeaderLba), (72, toLeBytes 8 entriesLba)]

/-- The primary header with the new backup location, end of the usable range and array checksum. -/
def grownHeader (header : List UInt8) (headerSize backupLba lastUsableLba entryCrc : Nat) : List UInt8 :=
  sealHeader (patch header (grownFields backupLba lastUsableLba entryCrc)) headerSize

/-- The backup header made from a primary header. -/
def mirroredHeader (header : List UInt8) (headerSize currentLba entriesLba : Nat) : List UInt8 :=
  sealHeader (patch header (mirroredFields currentLba entriesLba)) headerSize

/-- Replaced header fields lie inside the fixed part, apart from each other, the size and the checksum. -/
structure FieldPatch (ps : List (Nat × List UInt8)) : Prop where
  bounded : ∀ p ∈ ps, 20 ≤ p.1 ∧ p.1 + p.2.length ≤ gptHeaderSize
  apart : ps.Pairwise fun q r => q.1 + q.2.length ≤ r.1 ∨ r.1 + r.2.length ≤ q.1

theorem grownFields_patch (backupLba lastUsableLba entryCrc : Nat) :
    FieldPatch (grownFields backupLba lastUsableLba entryCrc) :=
  ⟨by simp [grownFields, gptHeaderSize], by simp [grownFields]⟩

theorem mirroredFields_patch (currentLba entriesLba : Nat) : FieldPatch (mirroredFields currentLba entriesLba) :=
  ⟨by simp [mirroredFields, gptHeaderSize], by simp [mirroredFields]⟩

variable {header : List UInt8} {headerSize : Nat} {ps : List (Nat × List UInt8)}

theorem FieldPatch.fits (h : FieldPatch ps) (hlen : gptHeaderSize ≤ header.length) :
    ∀ p ∈ ps, p.1 + p.2.length ≤ header.length := fun p hp => (h.bounded p hp).2.trans hlen

theorem FieldPatch.read_size (h : FieldPatch ps) (hlen : gptHeaderSize ≤ header.length) :
    readLeU32 (patch header ps) 12 = readLeU32 header 12 :=
  readLe_patch_disjoint (h.fits hlen) fun p hp => by have := (h.bounded p hp).1; omega

theorem FieldPatch.length_seal (h : FieldPatch ps) (hlen : gptHeaderSize ≤ header.length) :
    (sealHeader (patch header ps) headerSize).length = header.length := by
  have hp := length_patch (h.fits hlen)
  rw [length_sealHeader (by omega), hp]

theorem FieldPatch.slice_other (h : FieldPatch ps) (hlen : gptHeaderSize ≤ header.length) {offset len : Nat}
    (hcrc : offset + len ≤ 16 ∨ 20 ≤ offset)
    (hd : ∀ p ∈ ps, offset + len ≤ p.1 ∨ p.1 + p.2.length ≤ offset) :
    slice (sealHeader (patch header ps) headerSize) offset len = slice header offset len := by
  rw [slice_sealHeader (by rw [length_patch (h.fits hlen)]; exact hlen) hcrc, slice_patch_disjoint (h.fits hlen) hd]

theorem FieldPatch.read_other (h : FieldPatch ps) (hlen : gptHeaderSize ≤ header.length) {width offset : Nat}
    (hcrc : offset + width ≤ 16 ∨ 20 ≤ offset)
    (hd : ∀ p ∈ ps, offset + width ≤ p.1 ∨ p.1 + p.2.length ≤ offset) :
    readLe width (sealHeader (patch header ps) headerSize) offset = readLe width header offset := by
  rw [readLe, h.slice_other hlen hcrc hd, readLe]

theorem FieldPatch.read_field (h : FieldPatch ps) (hlen : gptHeaderSize ≤ header.length) {width offset value : Nat}
    (hp : (offset, toLeBytes width value) ∈ ps) (hv : value < 256 ^ width) :
    readLe width (sealHeader (patch header ps) headerSize) offset = some value := by
  have hread := readLe_patch_mem (h.fits hlen) h.apart hp hv
  have hlo := (h.bounded _ hp).1
  rw [readLe, slice_sealHeader (by rw [length_patch (h.fits hlen)]; exact hlen) (.inr hlo)]
  exact hread

theorem FieldPatch.crcValid (h : FieldPatch ps) (hlen : gptHeaderSize ≤ header.length)
    (hsize : readLeU32 header 12 = some headerSize) (hlo : gptHeaderSize ≤ headerSize)
    (hhi : headerSize ≤ header.length) :
    HeaderCrcValid (sealHeader (patch header ps) headerSize) header.length := by
  have hl := length_patch (h.fits hlen)
  have hv := headerCrcValid_sealHeader ((h.read_size hlen).trans hsize) hlo (by omega)
  rwa [hl] at hv

theorem updatePrimaryHeader_eq {backupLba lastUsableLba entryCrc : Nat} (hlen : gptHeaderSize ≤ header.length)
    (hsize : readLeU32 header 12 = some headerSize) (hlo : gptHeaderSize ≤ headerSize)
    (hhi : headerSize ≤ header.length) :
    updatePrimaryHeader header backupLba lastUsableLba entryCrc =
      .ok (grownHeader header headerSize backupLba lastUsableLba entryCrc) := by
  have hlen' : 92 ≤ header.length := hlen
  have hp := grownFields_patch backupLba lastUsableLba entryCrc
  have hl := length_patch (hp.fits hlen)
  have hs₁ := length_splice header 32 (toLeBytes 8 backupLba) (by simp; omega)
  have hs₂ := length_splice (splice header 32 (toLeBytes 8 backupLba)) 48 (toLeBytes 8 lastUsableLba) (by simp; omega)
  simp only [updatePrimaryHeader, bind_eq_ok, writeLeU64_eq_ok, writeLeU32_eq_ok]
  refine ⟨_, ⟨by omega, rfl⟩, _, ⟨by omega, rfl⟩, _, ⟨by omega, rfl⟩, ?_⟩
  exact updateHeaderCrc_eq ((hp.read_size hlen).trans hsize) hlo (hl ▸ hhi)

theorem updateBackupHeader_eq {currentLba entriesLba : Nat} (hlen : gptHeaderSize ≤ header.length)
    (hsize : readLeU32 header 12 = some headerSize) (hlo : gptHeaderSize ≤ headerSize)
    (hhi : headerSize ≤ header.length) :
    updateBackupHeader header currentLba entriesLba = .ok (mirroredHeader header headerSize currentLba entriesLba) := by
  have hlen' : 92 ≤ header.length := hlen
  have hp := mirroredFields_patch currentLba entriesLba
  have hl := length_patch (hp.fits hlen)
  have hs₁ := length_splice header 24 (toLeBytes 8 currentLba) (by simp; omega)
  have hs₂ := length_splice (splice header 24 (toLeBytes 8 currentLba)) 32 (toLeBytes 8 gptHeaderLba) (by simp; omega)
  simp only [updateBackupHeader, bind_eq_ok, writeLeU64_eq_ok]
  refine ⟨_, ⟨by omega, rfl⟩, _, ⟨by omega, rfl⟩, _, ⟨by omega, rfl⟩, ?_⟩
  exact updateHeaderCrc_eq ((hp.read_size hlen).trans hsize) hlo (hl ▸ hhi)

/-- The grown header is accepted again, with the new values in it. -/
theorem grownHeader_accepted {blockSize backupLba lastUsableLba entryCrc : Nat} {gpt : GptInfo}
    (hlen : header.length = blockSize) (hbs : gptHeaderSize ≤ blockSize)
    (h : HeaderAccepted header blockSize gpt) (hsize : readLeU32 header 12 = some headerSize)
    (hlo : gptHeaderSize ≤ headerSize) (hhi : headerSize ≤ blockSize) (hbak : backupLba < 2 ^ 64)
    (hus : lastUsableLba < 2 ^ 64) :
    HeaderAccepted (grownHeader header headerSize backupLba lastUsableLba entryCrc) blockSize
      { gpt with oldBackupLba := backupLba, lastUsableLba := lastUsableLba } := by
  subst hlen
  have hp := grownFields_patch backupLba lastUsableLba entryCrc
  have hother : ∀ width offset, (offset + width ≤ 16 ∨ 20 ≤ offset) →
      (∀ p ∈ grownFields backupLba lastUsableLba entryCrc, offset + width ≤ p.1 ∨ p.1 + p.2.length ≤ offset) →
      readLe width (grownHeader header headerSize backupLba lastUsableLba entryCrc) offset = readLe width header offset :=
    fun width offset => hp.read_other hbs
  refine ⟨?_, hp.crcValid hbs hsize hlo hhi, ?_, ?_, ?_, h.entryCount_pos, h.entrySize_ge, h.entrySize_mod,
    h.entryBytes_le, ?_, ?_, ?_⟩
  · exact (hp.slice_other hbs (by omega) (by simp [grownFields])).trans h.signature
  · exact (hother 8 24 (by omega) (by simp [grownFields])).trans h.currentLba
  · exact (hother 4 80 (by omega) (by simp [grownFields])).trans h.entryCount
  · exact (hother 4 84 (by omega) (by simp [grownFields])).trans h.entrySize
  · exact hp.read_field hbs (by simp [grownFields]) (by omega)
  · exact hp.read_field hbs (by simp [grownFields]) (by omega)
  · exact (hother 8 72 (by omega) (by simp [grownFields])).trans h.entryLba

theorem grownHeader_entryCrc {backupLba lastUsableLba : Nat} {covered : List UInt8}
    (hlen : gptHeaderSize ≤ header.length) :
    readLeU32 (grownHeader header headerSize backupLba lastUsableLba (crc32 covered)) 88 = some (crc32 covered) :=
  (grownFields_patch _ _ _).read_field hlen (by simp [grownFields]) (crc32_lt covered)

end NextBoot.MediaGrow
