import NextBoot.Wim.Xpress

namespace NextBoot.Wim

open Words Bytes Results BlockStore

variable (file : Nat → UInt8) (wimLen : Nat) (reader : Reader) (metadata : WimMetadata) (resource : WimResourceHeader)

def isChunked : Prop := resource.isCompressed = true ∨ resource.usesPackedStreams = true

instance : Decidable (isChunked resource) := inferInstanceAs (Decidable (_ ∨ _))

def chunkCount : Nat := (resource.uncompressedSize + (metadata.chunkLen - 1)) / metadata.chunkLen

/-- The length of the chunk table, which has an entry for each chunk but the first. -/
def tableLength : Nat := (chunkCount metadata resource - 1) * offsetEntryLen resource

def tableEntry (i : Nat) : Nat :=
  fromLeBytes (window file (resource.offset + i * offsetEntryLen resource) (offsetEntryLen resource))

/-- Where a chunk begins in its resource; behind the last one that is the end of the resource. -/
def chunkStart (i : Nat) : Nat :=
  if i = 0 then tableLength metadata resource
  else if chunkCount metadata resource ≤ i then resource.compressedSize
  else tableLength metadata resource + tableEntry file resource (i - 1)

def chunkStoredSize (i : Nat) : Nat := chunkStart file metadata resource (i + 1) - chunkStart file metadata resource i

def chunkLength (i : Nat) : Nat := min metadata.chunkLen (resource.uncompressedSize - i * metadata.chunkLen)

def chunkBytes (i : Nat) : List UInt8 :=
  window file (resource.offset + chunkStart file metadata resource i) (chunkStoredSize file metadata resource i)

/-- What a decompressor makes of some bytes, where that has the length wanted. -/
def decompressTo {ε : Type} (decoder : Decoder ε) (bytes : List UInt8) (length : Nat) : Option (List UInt8) :=
  match decoder.run bytes (List.replicate length 0) with
  | .ok result => if result.2 = length then some result.1 else none
  | .error _ => none

def decompress (bytes : List UInt8) (length : Nat) : Option (List UInt8) :=
  match metadata.compression with
  | .xpress => decompressTo reader.decompressXpress bytes length
  | .lzx => decompressTo reader.decompressLzx bytes length
  | _ => none

/-- What a chunk stands for: itself, where it is as long as what it stands for, else what it decompresses to. -/
def chunkContent (i : Nat) : Option (List UInt8) :=
  if chunkStoredSize file metadata resource i = chunkLength metadata resource i then
    some (chunkBytes file metadata resource i)
  else decompress reader metadata (chunkBytes file metadata resource i) (chunkLength metadata resource i)

/-- A resource whose chunk table is in order, and whose chunks decompress. -/
structure Chunked : Prop where
  chunkLen_pos : 0 < metadata.chunkLen
  table_fits : tableLength metadata resource ≤ resource.compressedSize
  ordered : ∀ i < chunkCount metadata resource, chunkStart file metadata resource i ≤ chunkStart file metadata resource (i + 1) ∧
    chunkStart file metadata resource (i + 1) ≤ resource.compressedSize
  decompresses : ∀ i < chunkCount metadata resource, (chunkContent file reader metadata resource i).isSome

/-- A resource that lies in the file. -/
structure Readable : Prop where
  wimLen_lt : wimLen < 2 ^ 64
  inside : resource.offset + resource.compressedSize ≤ wimLen
  plain : ¬ isChunked resource → resource.offset + resource.uncompressedSize ≤ wimLen
  chunked : isChunked resource → Chunked file reader metadata resource

/-- The bytes of a resource: its chunks decompressed, one behind the other. -/
def content : List UInt8 :=
  if isChunked resource then
    (List.range (chunkCount metadata resource)).flatMap fun i => (chunkContent file reader metadata resource i).getD []
  else window file resource.offset resource.uncompressedSize

/-- The caller's reads are reads of the file. -/
def ReadsFile : Prop :=
  ∀ offset len, offset + len ≤ wimLen → reader.readAt offset len = .ok (window file offset len)

/-- There is memory for each chunk. -/
def MemoryGranted : Prop :=
  ∀ i < chunkCount metadata resource, reader.granted (chunkStoredSize file metadata resource i) = true ∧
    reader.granted (chunkLength metadata resource i) = true

/-- A range of a resource, read in pieces. -/
def readPieces (offset : Nat) : List Nat → Except WimReadError (List UInt8)
  | [] => pure []
  | len :: lens => do
      let bytes ← readResourceRange reader metadata resource wimLen offset len
      let rest ← readPieces (offset + len) lens
      pure (bytes ++ rest)

variable {file wimLen reader metadata resource} {i offset len : Nat}

theorem lt_chunkCount (hpos : 0 < metadata.chunkLen) :
    i < chunkCount metadata resource ↔ i * metadata.chunkLen < resource.uncompressedSize := by
  rw [chunkCount, Nat.lt_div_iff_mul_lt hpos]
  omega

theorem chunkLength_eq (hpos : 0 < metadata.chunkLen) (h : i + 1 < chunkCount metadata resource) :
    chunkLength metadata resource i = metadata.chunkLen := by
  rw [lt_chunkCount hpos, Nat.succ_mul] at h
  rw [chunkLength, Nat.min_eq_left (by omega)]

theorem length_decompressTo {ε : Type} {decoder : Decoder ε} {bytes out : List UInt8} {length : Nat}
    (h : decompressTo decoder bytes length = some out) : out.length = length := by
  rw [decompressTo] at h
  split at h
  · next result hrun =>
      split at h
      · cases h
        rw [decoder.length_run hrun, List.length_replicate]
      · cases h
  · cases h

theorem length_chunkContent {bytes : List UInt8} (h : chunkContent file reader metadata resource i = some bytes) :
    bytes.length = chunkLength metadata resource i := by
  rw [chunkContent] at h
  split at h
  · next hstored =>
      cases h
      rw [chunkBytes, length_window, hstored]
  · rw [decompress] at h
    split at h
    · exact length_decompressTo h
    · exact length_decompressTo h
    · cases h

/-- The content from a chunk on starts with what that chunk stands for. -/
theorem content_drop {bytes : List UInt8} (hchunked : isChunked resource) (hwf : Chunked file reader metadata resource)
    (hi : i < chunkCount metadata resource) (hbytes : chunkContent file reader metadata resource i = some bytes) :
    ∃ rest, (content file reader metadata resource).drop (i * metadata.chunkLen) = bytes ++ rest := by
  obtain ⟨more, hmore⟩ := Nat.exists_eq_add_of_lt hi
  have hfront : ((List.range i).flatMap fun j => (chunkContent file reader metadata resource j).getD []).length =
      i * metadata.chunkLen := by
    have hlengths : ∀ j ∈ List.range i, ((chunkContent file reader metadata resource j).getD []).length = metadata.chunkLen := by
      intro j hj
      rw [List.mem_range] at hj
      obtain ⟨out, hout⟩ := Option.isSome_iff_exists.mp (hwf.decompresses j (by omega))
      rw [hout, Option.getD_some, length_chunkContent hout, chunkLength_eq hwf.chunkLen_pos (by omega)]
    rw [List.length_flatMap, List.map_congr_left hlengths, List.map_const', List.sum_replicate_nat, List.length_range]
  refine ⟨(List.range more).flatMap fun j => (chunkContent file reader metadata resource (i + (j + 1))).getD [], ?_⟩
  rw [content, if_pos hchunked, hmore, Nat.add_assoc, List.range_add, List.flatMap_append,
    List.drop_left' hfront, List.range_succ_eq_map, List.map_cons, List.flatMap_cons, Nat.add_zero, hbytes,
    Option.getD_some, List.map_map, List.flatMap_map]
  rfl

/-- A range inside one chunk is a range of what that chunk stands for. -/
theorem content_slice {bytes : List UInt8} (hchunked : isChunked resource) (hwf : Chunked file reader metadata resource)
    (hi : i < chunkCount metadata resource) (hbytes : chunkContent file reader metadata resource i = some bytes) {skip : Nat}
    (h : skip + len ≤ bytes.length) : ((content file reader metadata resource).drop (i * metadata.chunkLen + skip)).take len =
      (bytes.drop skip).take len := by
  obtain ⟨rest, hrest⟩ := content_drop hchunked hwf hi hbytes
  rw [← List.drop_drop, hrest, List.drop_append_of_le_length (by omega), List.take_append_of_le_length]
  rw [List.length_drop]
  omega

/-- The chunk table is read as it stands. -/
theorem resourceChunkDataOffset_eq (hfile : ReadsFile file wimLen reader)
    (hread : Readable file wimLen reader metadata resource) (hwf : Chunked file reader metadata resource)
    (hsize : resource.uncompressedSize + metadata.chunkLen ≤ 2 ^ 64) (hpos : 0 < resource.uncompressedSize) :
    resourceChunkDataOffset reader resource metadata.chunkLen i = .ok (chunkStart file metadata resource i) := by
  have hlen := hwf.chunkLen_pos
  have hinside := hread.inside
  have hwim := hread.wimLen_lt
  have hfits := hwf.table_fits
  have hcompressed := resource.compressedSize_lt
  have hdiv : divRoundUp 64 resource.uncompressedSize metadata.chunkLen = some (chunkCount metadata resource) :=
    divRoundUp_eq_some.mpr ⟨by omega, by omega, rfl⟩
  have htable : checkedMul 64 (chunkCount metadata resource - 1) (offsetEntryLen resource) =
      some (tableLength metadata resource) := checkedMul_eq_some.mpr ⟨by rw [tableLength] at hfits; omega, rfl⟩
  rw [resourceChunkDataOffset, if_neg (by omega)]
  refine bind_eq_ok.mpr ⟨(), refuseIf_eq_ok.mpr (by omega), ?_⟩
  refine bind_eq_ok.mpr ⟨_, someOr_eq_ok.mpr hdiv, bind_eq_ok.mpr ⟨_, someOr_eq_ok.mpr htable, ?_⟩⟩
  refine bind_eq_ok.mpr ⟨(), refuseIf_eq_ok.mpr (by omega), ?_⟩
  rw [chunkStart]
  by_cases hfirst : i = 0
  · rw [if_pos hfirst, if_pos hfirst]
    rfl
  · rw [if_neg hfirst, if_neg hfirst]
    by_cases hlast : chunkCount metadata resource ≤ i
    · rw [if_pos hlast, if_pos hlast]
      rfl
    · rw [if_neg hlast, if_neg hlast, readChunkTableEntry]
      have hentry : (i - 1) * offsetEntryLen resource + offsetEntryLen resource ≤ tableLength metadata resource := by
        rw [tableLength, ← Nat.succ_mul]
        exact Nat.mul_le_mul_right _ (by omega)
      have hbounds := (hwf.ordered (i - 1) (by omega)).2
      rw [show i - 1 + 1 = i by omega, chunkStart, if_neg hfirst, if_neg hlast] at hbounds
      have hraw : readLe (offsetEntryLen resource) (window file (resource.offset + (i - 1) * offsetEntryLen resource)
          (offsetEntryLen resource)) 0 = some (tableEntry file resource (i - 1)) := by
        rw [readLe, slice_eq_some (by rw [length_window]; omega), List.drop_zero, List.take_of_length_le
          (by rw [length_window]), Option.map_some, tableEntry]
      refine bind_eq_ok.mpr ⟨i - 1, someOr_eq_ok.mpr (checkedSub_eq_some.mpr ⟨by omega, rfl⟩), ?_⟩
      refine bind_eq_ok.mpr ⟨_, someOr_eq_ok.mpr (checkedMul_eq_some.mpr ⟨by omega, rfl⟩), ?_⟩
      refine bind_eq_ok.mpr ⟨_, someOr_eq_ok.mpr (checkedAdd_eq_some.mpr ⟨by omega, rfl⟩), ?_⟩
      refine bind_eq_ok.mpr ⟨_, hfile _ _ (by omega), bind_eq_ok.mpr ⟨_, someOr_eq_ok.mpr hraw, ?_⟩⟩
      refine bind_eq_ok.mpr ⟨_, someOr_eq_ok.mpr (checkedAdd_eq_some.mpr ⟨by omega, rfl⟩), ?_⟩
      exact bind_eq_ok.mpr ⟨(), refuseIf_eq_ok.mpr (by omega), rfl⟩

variable (file metadata resource) in
/-- The chunk of an index, as the code describes it. -/
def chunkSpan (i : Nat) : WimChunkSpan where
  index := i
  uncompressedOffset := i * metadata.chunkLen
  uncompressedSize := chunkLength metadata resource i
  compressedOffset := resource.offset + chunkStart file metadata resource i
  compressedSize := chunkStoredSize file metadata resource i

theorem resourceChunkSpan_eq (hfile : ReadsFile file wimLen reader)
    (hread : Readable file wimLen reader metadata resource) (hwf : Chunked file reader metadata resource)
    (hsize : resource.uncompressedSize + metadata.chunkLen ≤ 2 ^ 64) (hoffset : offset < resource.uncompressedSize) :
    resourceChunkSpan reader metadata resource offset =
      .ok (chunkSpan file metadata resource (offset / metadata.chunkLen)) := by
  have hlen := hwf.chunkLen_pos
  have hinside := hread.inside
  have hwim := hread.wimLen_lt
  have hstart := Nat.div_mul_le_self offset metadata.chunkLen
  have hi : offset / metadata.chunkLen < chunkCount metadata resource := (lt_chunkCount hlen).mpr (by omega)
  obtain ⟨hle, hend⟩ := hwf.ordered _ hi
  refine bind_eq_ok.mpr ⟨(), refuseIf_eq_ok.mpr (by omega), bind_eq_ok.mpr ⟨(), refuseIf_eq_ok.mpr (by omega), ?_⟩⟩
  refine bind_eq_ok.mpr ⟨_, someOr_eq_ok.mpr (checkedMul_eq_some.mpr ⟨by omega, rfl⟩), ?_⟩
  refine bind_eq_ok.mpr ⟨_, someOr_eq_ok.mpr (checkedSub_eq_some.mpr ⟨by omega, rfl⟩), ?_⟩
  refine bind_eq_ok.mpr ⟨_, resourceChunkDataOffset_eq hfile hread hwf hsize (by omega), ?_⟩
  refine bind_eq_ok.mpr ⟨_, resourceChunkDataOffset_eq hfile hread hwf hsize (by omega), ?_⟩
  refine bind_eq_ok.mpr ⟨(), refuseIf_eq_ok.mpr (by omega), ?_⟩
  exact bind_eq_ok.mpr ⟨_, someOr_eq_ok.mpr (checkedAdd_eq_some.mpr ⟨by omega, rfl⟩), rfl⟩

theorem decompressChunk_eq {ε : Type} {decoder : Decoder ε} {failed : ε → WimReadError} {overflow : ε}
    {chunk : WimChunkSpan} {bytes out : List UInt8} (hbytes : readCompressedChunk reader chunk = .ok bytes)
    (hgranted : reader.granted chunk.uncompressedSize = true)
    (hout : decompressTo decoder bytes chunk.uncompressedSize = some out) :
    decompressChunk reader decoder failed overflow chunk = .ok out := by
  refine bind_eq_ok.mpr ⟨_, hbytes, bind_eq_ok.mpr ⟨(), refuseIf_eq_ok.mpr (by rw [hgranted]; decide), ?_⟩⟩
  rw [decompressTo] at hout
  split at hout
  · next result hrun =>
      split at hout
      · next hproduced =>
          cases hout
          refine bind_eq_ok.mpr ⟨result, by rw [hrun]; rfl, ?_⟩
          exact bind_eq_ok.mpr ⟨(), refuseIf_eq_ok.mpr (not_not.mpr hproduced), rfl⟩
      · cases hout
  · cases hout

theorem cutChunk_ok {bytes : List UInt8} {skip : Nat} (h : skip + len < 2 ^ 64) :
    cutChunk (.ok bytes) skip len = .ok ((bytes.drop skip).take len) := by
  refine bind_eq_ok.mpr ⟨bytes, rfl, bind_eq_ok.mpr ⟨_, someOr_eq_ok.mpr (checkedAdd_eq_some.mpr ⟨h, rfl⟩), ?_⟩⟩
  rw [List.drop_take, Nat.add_sub_cancel_left]
  rfl

/-- Part of a chunk is read as part of what the chunk stands for. -/
theorem readChunk_eq (hfile : ReadsFile file wimLen reader) (hread : Readable file wimLen reader metadata resource)
    (hwf : Chunked file reader metadata resource) (hmemory : MemoryGranted file reader metadata resource)
    (hi : i < chunkCount metadata resource) {bytes : List UInt8}
    (hbytes : chunkContent file reader metadata resource i = some bytes) {skip : Nat} (h : skip + len ≤ bytes.length) :
    readChunk reader metadata (chunkSpan file metadata resource i) skip len = .ok ((bytes.drop skip).take len) := by
  have hinside := hread.inside
  have hwim := hread.wimLen_lt
  have hsize := resource.uncompressedSize_lt
  have hlength := length_chunkContent hbytes
  have hle : chunkLength metadata resource i ≤ resource.uncompressedSize :=
    (Nat.min_le_right _ _).trans (Nat.sub_le _ _)
  obtain ⟨hordered, hend⟩ := hwf.ordered i hi
  obtain ⟨hgranted, hgranted'⟩ := hmemory i hi
  have hstored : (chunkSpan file metadata resource i).isStored = true ↔
      chunkStoredSize file metadata resource i = chunkLength metadata resource i := decide_eq_true_iff
  have hcompressed : readCompressedChunk reader (chunkSpan file metadata resource i) =
      .ok (chunkBytes file metadata resource i) := by
    refine bind_eq_ok.mpr ⟨(), refuseIf_eq_ok.mpr ?_, hfile _ _ ?_⟩
    · rw [chunkSpan, hgranted]
      decide
    · show _ + chunkStart file metadata resource i + chunkStoredSize file metadata resource i ≤ _
      rw [chunkStoredSize]
      omega
  have hcut := @cutChunk_ok len bytes skip (by omega)
  rw [readChunk]
  rw [chunkContent] at hbytes
  by_cases hstoredSize : chunkStoredSize file metadata resource i = chunkLength metadata resource i
  · rw [if_pos hstoredSize] at hbytes
    cases hbytes
    rw [chunkBytes, length_window, chunkStoredSize] at h
    rw [if_pos (hstored.mpr hstoredSize)]
    refine bind_eq_ok.mpr ⟨_, someOr_eq_ok.mpr (checkedAdd_eq_some.mpr ⟨?_, rfl⟩), ?_⟩
    · show resource.offset + chunkStart file metadata resource i + skip < 2 ^ 64
      omega
    · rw [hfile _ _ (by show resource.offset + chunkStart file metadata resource i + skip + len ≤ wimLen; omega)]
      have hslice := slice_window file (resource.offset + chunkStart file metadata resource i) h
      rw [slice_eq_some (by rwa [length_window]), ← chunkStoredSize, ← chunkBytes] at hslice
      exact congrArg Except.ok (Option.some.inj hslice).symm
  · rw [if_neg hstoredSize] at hbytes
    rw [if_neg (mt hstored.mp hstoredSize)]
    rw [decompress] at hbytes
    cases hkind : metadata.compression with
    | xpress =>
        rw [hkind] at hbytes
        show cutChunk (decompressXpressChunk _ _) skip len = _
        rw [decompressXpressChunk, decompressChunk_eq hcompressed hgranted' hbytes]
        exact hcut
    | lzx =>
        rw [hkind] at hbytes
        show cutChunk (decompressLzxChunk _ _) skip len = _
        rw [decompressLzxChunk, decompressChunk_eq hcompressed hgranted' hbytes]
        exact hcut
    | _ =>
        rw [hkind] at hbytes
        cases hbytes

theorem readChunks_eq (hfile : ReadsFile file wimLen reader) (hread : Readable file wimLen reader metadata resource)
    (hmemory : MemoryGranted file reader metadata resource) (hchunked : isChunked resource)
    (hsize : resource.uncompressedSize + metadata.chunkLen ≤ 2 ^ 64) {rounds : Nat} (hrounds : len ≤ rounds)
    (hrange : offset + len ≤ resource.uncompressedSize) : readChunks reader metadata resource rounds len offset =
      .ok (((content file reader metadata resource).drop offset).take len) := by
  have hwf := hread.chunked hchunked
  have hpos := hwf.chunkLen_pos
  induction rounds generalizing len offset with
  | zero =>
      rw [Nat.le_zero.mp hrounds, List.take_zero]
      rfl
  | succ rounds ih =>
      rw [readChunks]
      by_cases hdone : len = 0
      · rw [if_pos hdone, hdone, List.take_zero]
        rfl
      · rw [if_neg hdone]
        have hdiv := Nat.div_add_mod' offset metadata.chunkLen
        have hmod := Nat.mod_lt offset hpos
        have hi : offset / metadata.chunkLen < chunkCount metadata resource := (lt_chunkCount hpos).mpr (by omega)
        obtain ⟨bytes, hbytes⟩ := Option.isSome_iff_exists.mp (hwf.decompresses _ hi)
        have hlength := length_chunkContent hbytes
        have hlength' := hlength
        rw [chunkLength] at hlength'
        -- the part of the chunk that is copied, behind the offset and no longer than the range
        obtain ⟨copyLen, hcopy⟩ : ∃ copyLen, copyLen = min len (bytes.length - offset % metadata.chunkLen) := ⟨_, rfl⟩
        have hbytesRead := @readChunk_eq file wimLen reader metadata resource _ copyLen hfile hread hwf hmemory hi bytes
          hbytes (offset % metadata.chunkLen) (by omega)
        have hslice := @content_slice file reader metadata resource _ copyLen bytes hchunked hwf hi hbytes
          (offset % metadata.chunkLen) (by omega)
        rw [hdiv] at hslice
        refine bind_eq_ok.mpr ⟨_, resourceChunkSpan_eq hfile hread hwf hsize (by omega), ?_⟩
        refine bind_eq_ok.mpr ⟨offset % metadata.chunkLen, someOr_eq_ok.mpr (checkedSub_eq_some.mpr ?_), ?_⟩
        · show offset / metadata.chunkLen * metadata.chunkLen ≤ offset ∧
            offset % metadata.chunkLen = offset - offset / metadata.chunkLen * metadata.chunkLen
          omega
        refine bind_eq_ok.mpr ⟨bytes.length - offset % metadata.chunkLen, someOr_eq_ok.mpr (checkedSub_eq_some.mpr ?_), ?_⟩
        · rw [hlength]
          exact ⟨show offset % metadata.chunkLen ≤ chunkLength metadata resource _ by omega, rfl⟩
        rw [← hcopy]
        refine bind_eq_ok.mpr ⟨_, hbytesRead, bind_eq_ok.mpr ⟨_, someOr_eq_ok.mpr (checkedAdd_eq_some.mpr ⟨by omega, rfl⟩), ?_⟩⟩
        rw [ih (by omega) (by omega), ← hslice]
        show Except.ok _ = Except.ok _
        rw [← List.drop_drop, ← List.take_add, Nat.add_sub_cancel' (by omega)]

/-- Reading a range of a resource yields that range of its content, and reading it in pieces yields the same. -/
theorem read_resource_range (hfile : ReadsFile file wimLen reader) (hread : Readable file wimLen reader metadata resource)
    (hmemory : MemoryGranted file reader metadata resource)
    (hsize : isChunked resource → resource.uncompressedSize + metadata.chunkLen ≤ 2 ^ 64) :
    (∀ offset len, offset + len ≤ resource.uncompressedSize →
      readResourceRange reader metadata resource wimLen offset len =
        .ok (((content file reader metadata resource).drop offset).take len)) ∧
      ∀ offset lens, offset + lens.sum ≤ resource.uncompressedSize →
        readPieces wimLen reader metadata resource offset lens =
          readResourceRange reader metadata resource wimLen offset lens.sum := by
  have hone : ∀ offset len, offset + len ≤ resource.uncompressedSize →
      readResourceRange reader metadata resource wimLen offset len =
        .ok (((content file reader metadata resource).drop offset).take len) := by
    intro offset len hrange
    have hinside := hread.inside
    have hwim := hread.wimLen_lt
    have hlt := resource.uncompressedSize_lt
    rw [readResourceRange]
    by_cases hnone : len = 0
    · rw [if_pos hnone, hnone, List.take_zero]
      rfl
    · have hvalid : validateResourceBounds wimLen resource = .ok () :=
        bind_eq_ok.mpr ⟨_, someOr_eq_ok.mpr (checkedAdd_eq_some.mpr ⟨by omega, rfl⟩), refuseIf_eq_ok.mpr (by omega)⟩
      rw [if_neg hnone, hvalid]
      refine bind_eq_ok.mpr ⟨(), rfl, bind_eq_ok.mpr ⟨_, someOr_eq_ok.mpr (checkedAdd_eq_some.mpr ⟨by omega, rfl⟩), ?_⟩⟩
      refine bind_eq_ok.mpr ⟨(), refuseIf_eq_ok.mpr (by omega), ?_⟩
      by_cases hchunked : isChunked resource
      · rw [if_neg (fun hplain => hchunked.elim hplain.1 hplain.2)]
        exact readChunks_eq hfile hread hmemory hchunked (hsize hchunked) le_rfl hrange
      · have hplain := hread.plain hchunked
        rw [if_pos (not_or.mp hchunked)]
        refine bind_eq_ok.mpr ⟨_, someOr_eq_ok.mpr (checkedAdd_eq_some.mpr ⟨by omega, rfl⟩), ?_⟩
        have hslice := slice_window file resource.offset hrange
        rw [slice_eq_some (by rwa [length_window])] at hslice
        rw [hfile _ _ (by omega), content, if_neg hchunked, Option.some.inj hslice]
  refine ⟨hone, fun offset lens hrange => ?_⟩
  rw [hone offset lens.sum hrange]
  induction lens generalizing offset with
  | nil => rfl
  | cons len lens ih =>
      rw [List.sum_cons] at hrange ⊢
      rw [readPieces, hone offset len (by omega)]
      refine bind_eq_ok.mpr ⟨_, rfl, bind_eq_ok.mpr ⟨_, ih (offset + len) (by omega), ?_⟩⟩
      rw [← List.drop_drop, ← List.take_add]
      rfl

theorem inputTooShort_length {input out : List UInt8} {result : List UInt8 × Nat}
    (h : Except.error LzxDecodeError.inputTooShort = .ok result) : result.1.length = out.length := by
  cases h

/-- A reader of a file with the XPRESS decompressor, an allocator that grants everything, and no LZX decompressor. -/
def fileReader (file : Nat → UInt8) (wimLen : Nat) : Reader where
  decompressXpress := Xpress.decoder
  decompressLzx := ⟨fun _ _ => .error .inputTooShort, @inputTooShort_length⟩
  granted := fun _ => true
  readAt offset len := if offset + len ≤ wimLen then .ok (window file offset len) else .error .resourceOutOfBounds

theorem fileReader_readsFile : ReadsFile file wimLen (fileReader file wimLen) := fun _ _ h => if_pos h

/-- Three stored chunks of at most four bytes, behind their table. -/
def storedFile : List UInt8 :=
  List.replicate 16 0 ++ [4, 0, 0, 0, 8, 0, 0, 0] ++ [0x61, 0x62, 0x63, 0x64, 0x65, 0x66, 0x67, 0x68, 0x69, 0x6A]

def storedResource : WimResourceHeader := ⟨18, 0x04, 16, 10, by decide, Words.sixteen_lt_u64, by decide⟩

def storedMetadata : WimMetadata := ⟨.xpress, 4, Words.four_lt_u32⟩

theorem storedResource_read :
    readResourceRange (fileReader (storedFile.getD · 0) 34) storedMetadata storedResource 34 2 6 =
      .ok [0x63, 0x64, 0x65, 0x66, 0x67, 0x68] := by
  have hwf : Chunked (storedFile.getD · 0) (fileReader (storedFile.getD · 0) 34) storedMetadata storedResource := {
    chunkLen_pos := by decide
    table_fits := by decide
    ordered := by decide
    decompresses := by decide }
  have hread : Readable (storedFile.getD · 0) 34 (fileReader (storedFile.getD · 0) 34) storedMetadata storedResource := {
    wimLen_lt := by decide
    inside := by decide
    plain := by decide
    chunked := fun _ => hwf }
  rw [(read_resource_range fileReader_readsFile hread (fun _ _ => ⟨rfl, rfl⟩) (fun _ => by decide)).1 2 6 (by decide)]
  decide

/-- A chunk that decompresses to 273 bytes: the literal 0, and a match of 272 bytes behind it. -/
def zeroChunk : List UInt8 :=
  1 :: List.replicate 134 0 ++ 0x10 :: List.replicate 120 0 ++ [0, 0x40, 0, 0, 0xfe]

/-- As many chunks of 273 bytes as there can be in a resource whose size has 64 bits. -/
def hugeCount : Nat := 2 ^ 64 / 273

def hugeTable : Nat := (hugeCount - 1) * 8

def hugeResource : WimResourceHeader :=
  ⟨hugeTable + hugeCount * 261, 0x04, 0, hugeCount * 273, by decide, Words.zero_lt_u64, by decide⟩

def hugeMetadata : WimMetadata := ⟨.xpress, 273, by decide⟩

/-- A chunk table, and each of its chunks the same. -/
def hugeFile (x : Nat) : UInt8 :=
  if x < hugeTable then (toLeBytes 8 ((x / 8 + 1) * 261)).getD (x % 8) 0 else zeroChunk.getD ((x - hugeTable) % 261) 0

def hugeReader : Reader := fileReader hugeFile hugeResource.compressedSize

theorem chunkCount_huge : chunkCount hugeMetadata hugeResource = hugeCount := by decide

theorem tableLength_huge : tableLength hugeMetadata hugeResource = hugeTable := by decide

theorem window_eq_of_getD {bytes : List UInt8} {start : Nat} (h : ∀ k < bytes.length, file (start + k) = bytes.getD k 0) :
    window file start bytes.length = bytes := by
  apply List.ext_getElem?
  intro k
  by_cases hk : k < bytes.length
  · rw [getElem?_window file start hk, h k hk, List.getD_eq_getElem?_getD, List.getElem?_eq_getElem hk, Option.getD_some]
  · rw [List.getElem?_eq_none (by simpa using hk), List.getElem?_eq_none (by omega)]

theorem chunkStart_huge (hi : i ≤ hugeCount) : chunkStart hugeFile hugeMetadata hugeResource i = hugeTable + i * 261 := by
  have hcount : hugeCount = 67570491112489200 := by decide
  rw [chunkStart, chunkCount_huge, tableLength_huge]
  by_cases hfirst : i = 0
  · rw [if_pos hfirst, hfirst, Nat.zero_mul, Nat.add_zero]
  · rw [if_neg hfirst]
    by_cases hlast : hugeCount ≤ i
    · rw [if_pos hlast, show i = hugeCount by omega]
      rfl
    · rw [if_neg hlast]
      have hbytes : window hugeFile ((i - 1) * 8) 8 = toLeBytes 8 (i * 261) := by
        have h := @window_eq_of_getD hugeFile (toLeBytes 8 (i * 261)) ((i - 1) * 8) (fun k hk => ?_)
        · rwa [length_toLeBytes] at h
        · rw [length_toLeBytes] at hk
          have hdiv : ((i - 1) * 8 + k) / 8 + 1 = i := by omega
          have hmod : ((i - 1) * 8 + k) % 8 = k := by omega
          rw [hugeFile, if_pos (by rw [hugeTable]; omega), hdiv, hmod]
      show hugeTable + fromLeBytes (window hugeFile (0 + (i - 1) * 8) 8) = _
      rw [Nat.zero_add, hbytes, fromLeBytes_toLeBytes, Nat.mod_eq_of_lt (by omega)]

theorem length_zeroChunk : zeroChunk.length = 261 := by decide +kernel

theorem chunkBytes_huge (hi : i < hugeCount) : chunkBytes hugeFile hugeMetadata hugeResource i = zeroChunk := by
  have h := @window_eq_of_getD hugeFile zeroChunk (hugeTable + i * 261) (fun k hk => ?_)
  · rw [chunkBytes, chunkStoredSize, chunkStart_huge hi, chunkStart_huge hi.le]
    show window hugeFile (0 + (hugeTable + i * 261)) (hugeTable + (i + 1) * 261 - (hugeTable + i * 261)) = zeroChunk
    rw [length_zeroChunk] at h
    rw [Nat.zero_add, show hugeTable + (i + 1) * 261 - (hugeTable + i * 261) = 261 by omega, h]
  · rw [length_zeroChunk] at hk
    rw [hugeFile, if_neg (by omega), show (hugeTable + i * 261 + k - hugeTable) % 261 = k by omega]

/-- A resource whose chunk table is in order and whose chunks decompress, and whose size is too close to `2 ^ 64` for the
number of its chunks to be computed. -/
theorem hugeResource_refused :
    Readable hugeFile hugeResource.compressedSize hugeReader hugeMetadata hugeResource ∧
      ReadsFile hugeFile hugeResource.compressedSize hugeReader ∧
      MemoryGranted hugeFile hugeReader hugeMetadata hugeResource ∧ 0 + 1 ≤ hugeResource.uncompressedSize ∧
      readResourceRange hugeReader hugeMetadata hugeResource hugeResource.compressedSize 0 1 =
        .error .invalidChunkTable := by
  have hwf : Chunked hugeFile hugeReader hugeMetadata hugeResource := {
    chunkLen_pos := by decide
    table_fits := by decide
    ordered := by
      intro i hi
      rw [chunkCount_huge] at hi
      rw [chunkStart_huge hi, chunkStart_huge hi.le]
      show _ ∧ _ ≤ hugeTable + hugeCount * 261
      omega
    decompresses := by
      intro i hi
      rw [chunkCount_huge] at hi
      have hstored : chunkStoredSize hugeFile hugeMetadata hugeResource i = 261 := by
        rw [chunkStoredSize, chunkStart_huge hi, chunkStart_huge hi.le]
        omega
      have hlength : chunkLength hugeMetadata hugeResource i = 273 := by
        show min 273 (hugeCount * 273 - i * 273) = 273
        omega
      rw [chunkContent, hstored, hlength, if_neg (by decide), chunkBytes_huge hi]
      decide +kernel }
  refine ⟨⟨by decide, by decide, by decide, fun _ => hwf⟩, fileReader_readsFile, fun _ _ => ⟨rfl, rfl⟩, by decide, ?_⟩
  decide +kernel

end NextBoot.Wim
