import NextBoot.Requests
import NextBoot.Wim.Ranges

namespace NextBoot.Wim

open Words Bytes Results BlockStore Requests

/-- A reader whose answer to a read of the file may depend on the reads before it. -/
structure AskedReader where
  decompressXpress : Decoder XpressDecodeError
  decompressLzx : Decoder LzxDecodeError
  granted : Nat → Bool
  answer : List (Nat × Nat) → Nat × Nat → Except WimReadError (List UInt8)

/-- A run that records the offset and the length of each of its reads. -/
abbrev Reading := Asking (Nat × Nat) WimReadError

abbrev getOr {α : Type} (o : Option α) (error : WimReadError) : Reading α := liftM (someOr o error)

abbrev failIf (bad : Prop) [Decidable bad] (error : WimReadError) : Reading Unit := liftM (refuseIf bad error)

def Reader.asked (reader : Reader) : AskedReader where
  decompressXpress := reader.decompressXpress
  decompressLzx := reader.decompressLzx
  granted := reader.granted
  answer := fun _ r => reader.readAt r.1 r.2

section Model

variable (reader : AskedReader) (metadata : WimMetadata) (resource : WimResourceHeader)

def askAt (offset len : Nat) : Reading (List UInt8) := ask reader.answer (offset, len)

def askChunkTableEntry (chunksLen chunkIndex : Nat) : Reading Nat := do
  let before ← getOr (checkedSub chunkIndex 1) .invalidChunkTable
  let entry ← getOr (checkedMul 64 before (offsetEntryLen resource)) .invalidChunkTable
  let tableEntryOffset ← getOr (checkedAdd 64 resource.offset entry) .resourceOutOfBounds
  let raw ← askAt reader tableEntryOffset (offsetEntryLen resource)
  let rawOffset ← getOr (readLe (offsetEntryLen resource) raw 0) .invalidChunkTable
  let offset ← getOr (checkedAdd 64 chunksLen rawOffset) .invalidChunkTable
  failIf (resource.compressedSize < offset) .invalidChunkTable
  pure offset

def askChunkDataOffset (chunkLen chunkIndex : Nat) : Reading Nat :=
  if resource.uncompressedSize = 0 then pure 0
  else do
    failIf (chunkLen = 0) .invalidChunkLength
    let chunkCount ← getOr (divRoundUp 64 resource.uncompressedSize chunkLen) .invalidChunkTable
    let chunksLen ← getOr (checkedMul 64 (chunkCount - 1) (offsetEntryLen resource)) .invalidChunkTable
    failIf (resource.compressedSize < chunksLen) .invalidChunkTable
    if chunkIndex = 0 then pure chunksLen
    else if chunkCount ≤ chunkIndex then pure resource.compressedSize
    else askChunkTableEntry reader resource chunksLen chunkIndex

def askChunkSpan (uncompressedOffset : Nat) : Reading WimChunkSpan := do
  let chunkLen := metadata.chunkLen
  failIf (chunkLen = 0) .invalidChunkLength
  failIf (resource.uncompressedSize ≤ uncompressedOffset) .invalidRange
  let chunkIndex := uncompressedOffset / chunkLen
  let chunkUncompressedOffset ← getOr (checkedMul 64 chunkIndex chunkLen) .invalidRange
  let left ← getOr (checkedSub resource.uncompressedSize chunkUncompressedOffset) .invalidRange
  let chunkStart ← askChunkDataOffset reader resource chunkLen chunkIndex
  let chunkEnd ← askChunkDataOffset reader resource chunkLen (chunkIndex + 1)
  failIf (chunkEnd < chunkStart ∨ resource.compressedSize < chunkEnd) .invalidChunkTable
  let compressedOffset ← getOr (checkedAdd 64 resource.offset chunkStart) .resourceOutOfBounds
  pure {
    index := chunkIndex
    uncompressedOffset := chunkUncompressedOffset
    uncompressedSize := min chunkLen left
    compressedOffset := compressedOffset
    compressedSize := chunkEnd - chunkStart }

def askCompressedChunk (chunk : WimChunkSpan) : Reading (List UInt8) := do
  failIf (reader.granted chunk.compressedSize = false) .outputReserveFailed
  askAt reader chunk.compressedOffset chunk.compressedSize

def askDecompressedChunk {ε : Type} (decoder : Decoder ε) (failed : ε → WimReadError) (overflow : ε)
    (chunk : WimChunkSpan) : Reading (List UInt8) := do
  let compressed ← askCompressedChunk reader chunk
  failIf (reader.granted chunk.uncompressedSize = false) .outputReserveFailed
  let result ← liftM ((decoder.run compressed (List.replicate chunk.uncompressedSize 0)).mapError failed)
  failIf (result.2 ≠ chunk.uncompressedSize) (failed overflow)
  pure result.1

def askCutChunk (decompressed : Reading (List UInt8)) (skip copyLen : Nat) : Reading (List UInt8) := do
  let bytes ← decompressed
  let stop ← getOr (checkedAdd 64 skip copyLen) .resourceOutOfBounds
  pure ((bytes.take stop).drop skip)

def askChunk (chunk : WimChunkSpan) (skip copyLen : Nat) : Reading (List UInt8) :=
  if chunk.isStored then do
    let sourceStart ← getOr (checkedAdd 64 chunk.compressedOffset skip) .resourceOutOfBounds
    askAt reader sourceStart copyLen
  else
    match metadata.compression with
    | .xpress =>
        askCutChunk (askDecompressedChunk reader reader.decompressXpress .xpressDecodeFailed .outputOverflow chunk) skip copyLen
    | .lzx => askCutChunk (askDecompressedChunk reader reader.decompressLzx .lzxDecodeFailed .outputOverflow chunk) skip copyLen
    | _ => liftM (.error (.unsupportedCompressedChunk chunk.index chunk.compressedSize chunk.uncompressedSize) : Except WimReadError (List UInt8))

def askChunks : Nat → Nat → Nat → Reading (List UInt8)
  | 0, _, _ => pure []
  | rounds + 1, remaining, resourceOffset =>
      if remaining = 0 then pure []
      else do
        let chunk ← askChunkSpan reader metadata resource resourceOffset
        let skip ← getOr (checkedSub resourceOffset chunk.uncompressedOffset) .invalidRange
        let available ← getOr (checkedSub chunk.uncompressedSize skip) .invalidRange
        let copyLen := min remaining available
        let bytes ← askChunk reader metadata chunk skip copyLen
        let next ← getOr (checkedAdd 64 resourceOffset copyLen) .invalidRange
        let rest ← askChunks rounds (remaining - copyLen) next
        pure (bytes ++ rest)

/-- `read_resource_range_with`, with a record of what it asks its reader for. -/
def askResourceRange (wimLen offset len : Nat) : Reading (List UInt8) :=
  if len = 0 then pure []
  else do
    liftM (validateResourceBounds wimLen resource)
    let readEnd ← getOr (checkedAdd 64 offset len) .invalidRange
    failIf (resource.uncompressedSize < readEnd) .invalidRange
    if ¬ resource.isCompressed ∧ ¬ resource.usesPackedStreams then do
      let start ← getOr (checkedAdd 64 resource.offset offset) .resourceOutOfBounds
      askAt reader start len
    else askChunks reader metadata resource len len offset

end Model

section Values

variable (reader : Reader) (metadata : WimMetadata) (resource : WimResourceHeader)

theorem askAt_gives (offset len : Nat) : Gives (askAt reader.asked offset len) (reader.readAt offset len) :=
  gives_ask (offset, len)

theorem askChunkTableEntry_gives (chunksLen chunkIndex : Nat) :
    Gives (askChunkTableEntry reader.asked resource chunksLen chunkIndex)
      (readChunkTableEntry reader resource chunksLen chunkIndex) := by
  refine (gives_lift _).bind fun _ => (gives_lift _).bind fun _ => (gives_lift _).bind fun _ => ?_
  refine (askAt_gives reader _ _).bind fun _ => (gives_lift _).bind fun _ => ?_
  exact (gives_lift _).bind fun _ => (gives_lift _).bind fun _ => gives_pure _

theorem askChunkDataOffset_gives (chunkLen chunkIndex : Nat) :
    Gives (askChunkDataOffset reader.asked resource chunkLen chunkIndex)
      (resourceChunkDataOffset reader resource chunkLen chunkIndex) := by
  apply gives_ite (gives_pure _)
  refine (gives_lift _).bind fun _ => (gives_lift _).bind fun _ => (gives_lift _).bind fun _ => (gives_lift _).bind fun _ => ?_
  apply gives_ite (gives_pure _)
  apply gives_ite (gives_pure _)
  apply askChunkTableEntry_gives

theorem askChunkSpan_gives (uncompressedOffset : Nat) :
    Gives (askChunkSpan reader.asked metadata resource uncompressedOffset)
      (resourceChunkSpan reader metadata resource uncompressedOffset) := by
  refine (gives_lift _).bind fun _ => (gives_lift _).bind fun _ => (gives_lift _).bind fun _ => (gives_lift _).bind fun _ => ?_
  refine (askChunkDataOffset_gives reader resource _ _).bind fun _ => ?_
  refine (askChunkDataOffset_gives reader resource _ _).bind fun _ => ?_
  exact (gives_lift _).bind fun _ => (gives_lift _).bind fun _ => gives_pure _

theorem askDecompressedChunk_gives {ε : Type} (decoder : Decoder ε) (failed : ε → WimReadError) (overflow : ε)
    (chunk : WimChunkSpan) : Gives (askDecompressedChunk reader.asked decoder failed overflow chunk)
      (decompressChunk reader decoder failed overflow chunk) := by
  have hcompressed : Gives (askCompressedChunk reader.asked chunk) (readCompressedChunk reader chunk) :=
    (gives_lift _).bind fun _ => askAt_gives reader _ _
  refine hcompressed.bind fun _ => (gives_lift _).bind fun _ => ?_
  exact (gives_lift _).bind fun _ => (gives_lift _).bind fun _ => gives_pure _

theorem askCutChunk_gives {x : Reading (List UInt8)} {e : Except WimReadError (List UInt8)} (h : Gives x e)
    (skip copyLen : Nat) : Gives (askCutChunk x skip copyLen) (cutChunk e skip copyLen) :=
  h.bind fun _ => (gives_lift _).bind fun _ => gives_pure _

theorem askChunk_gives (chunk : WimChunkSpan) (skip copyLen : Nat) :
    Gives (askChunk reader.asked metadata chunk skip copyLen) (readChunk reader metadata chunk skip copyLen) := by
  apply gives_ite
  · exact (gives_lift _).bind fun _ => askAt_gives reader _ _
  · cases metadata.compression with
    | xpress => exact askCutChunk_gives (askDecompressedChunk_gives reader _ _ _ _) _ _
    | lzx => exact askCutChunk_gives (askDecompressedChunk_gives reader _ _ _ _) _ _
    | _ => exact gives_lift _

theorem askChunks_gives (rounds remaining resourceOffset : Nat) :
    Gives (askChunks reader.asked metadata resource rounds remaining resourceOffset)
      (readChunks reader metadata resource rounds remaining resourceOffset) := by
  induction rounds generalizing remaining resourceOffset with
  | zero => exact gives_pure _
  | succ rounds ih =>
      apply gives_ite (gives_pure _)
      refine (askChunkSpan_gives reader metadata resource _).bind fun _ => (gives_lift _).bind fun _ => ?_
      refine (gives_lift _).bind fun _ => (askChunk_gives reader metadata _ _ _).bind fun _ => ?_
      exact (gives_lift _).bind fun _ => (ih _ _).bind fun _ => gives_pure _

/-- Where the answers only depend on the read, recording the reads changes nothing. -/
theorem askResourceRange_gives (wimLen offset len : Nat) :
    Gives (askResourceRange reader.asked metadata resource wimLen offset len)
      (readResourceRange reader metadata resource wimLen offset len) := by
  apply gives_ite (gives_pure _)
  refine (gives_lift _).bind fun _ => (gives_lift _).bind fun _ => (gives_lift _).bind fun _ => ?_
  apply gives_ite
  · exact (gives_lift _).bind fun _ => askAt_gives reader _ _
  · apply askChunks_gives

end Values

/-- The read is one of bytes of the resource. -/
def Inside (resource : WimResourceHeader) (r : Nat × Nat) : Prop :=
  resource.offset ≤ r.1 ∧ r.1 + r.2 ≤ resource.offset + resource.compressedSize

variable {reader : AskedReader} {metadata : WimMetadata} {resource : WimResourceHeader}

theorem asksOnly_getOr {α : Type} {P : Nat × Nat → Prop} {o : Option α} {error : WimReadError} :
    AsksOnly P (getOr o error) fun a => o = some a :=
  asksOnly_lift fun _ h => someOr_eq_ok.mp h

theorem asksOnly_failIf {P : Nat × Nat → Prop} {bad : Prop} [Decidable bad] {error : WimReadError} :
    AsksOnly P (failIf bad error) fun _ => ¬ bad :=
  asksOnly_lift fun _ h => refuseIf_eq_ok.mp h

theorem askChunkTableEntry_inside {chunksLen chunkIndex : Nat} (hfits : chunksLen ≤ resource.compressedSize)
    (hindex : chunkIndex * offsetEntryLen resource ≤ chunksLen) :
    AsksOnly (Inside resource) (askChunkTableEntry reader resource chunksLen chunkIndex) fun offset =>
      offset ≤ resource.compressedSize := by
  refine asksOnly_getOr.bind fun before hbefore => asksOnly_getOr.bind fun entry hentry => ?_
  refine asksOnly_getOr.bind fun tableEntryOffset hoffset => ?_
  obtain ⟨hone, hbefore⟩ := checkedSub_eq_some.mp hbefore
  obtain ⟨-, hentry⟩ := checkedMul_eq_some.mp hentry
  obtain ⟨-, hoffset⟩ := checkedAdd_eq_some.mp hoffset
  have hend : entry + offsetEntryLen resource = chunkIndex * offsetEntryLen resource := by
    rw [hentry, hbefore, ← Nat.succ_mul, Nat.succ_eq_add_one, Nat.sub_add_cancel hone]
  refine (asksOnly_ask ⟨by dsimp only; omega, by dsimp only; omega⟩).bind fun raw _ => ?_
  refine asksOnly_getOr.bind fun _ _ => asksOnly_getOr.bind fun offset _ => asksOnly_failIf.bind fun _ hle => ?_
  exact asksOnly_pure (by omega)

theorem askChunkDataOffset_inside {chunkLen chunkIndex : Nat} :
    AsksOnly (Inside resource) (askChunkDataOffset reader resource chunkLen chunkIndex) fun offset =>
      offset ≤ resource.compressedSize := by
  refine asksOnly_ite (fun _ => asksOnly_pure (Nat.zero_le _)) fun _ => ?_
  refine asksOnly_failIf.bind fun _ _ => asksOnly_getOr.bind fun chunkCount _ => ?_
  refine asksOnly_getOr.bind fun chunksLen hlen => asksOnly_failIf.bind fun _ hfits => ?_
  refine asksOnly_ite (fun _ => asksOnly_pure (by omega)) fun hfirst => ?_
  refine asksOnly_ite (fun _ => asksOnly_pure (Nat.le_refl _)) fun hlast => ?_
  apply askChunkTableEntry_inside (by omega)
  rw [(checkedMul_eq_some.mp hlen).2]
  exact Nat.mul_le_mul_right _ (by omega)

/-- The stored bytes of a chunk are bytes of its resource. -/
def SpanInside (resource : WimResourceHeader) (chunk : WimChunkSpan) : Prop :=
  Inside resource (chunk.compressedOffset, chunk.compressedSize)

theorem askChunkSpan_inside {uncompressedOffset : Nat} :
    AsksOnly (Inside resource) (askChunkSpan reader metadata resource uncompressedOffset) (SpanInside resource) := by
  refine asksOnly_failIf.bind fun _ _ => asksOnly_failIf.bind fun _ _ => asksOnly_getOr.bind fun _ _ => ?_
  refine asksOnly_getOr.bind fun left _ => askChunkDataOffset_inside.bind fun chunkStart _ => ?_
  refine askChunkDataOffset_inside.bind fun chunkEnd _ => asksOnly_failIf.bind fun _ horder => ?_
  refine asksOnly_getOr.bind fun compressedOffset hoffset => asksOnly_pure ?_
  obtain ⟨-, hoffset⟩ := checkedAdd_eq_some.mp hoffset
  refine ⟨?_, ?_⟩
  · dsimp only
    omega
  · dsimp only
    omega

theorem askDecompressedChunk_inside {ε : Type} {decoder : Decoder ε} {failed : ε → WimReadError} {overflow : ε}
    {chunk : WimChunkSpan} (hchunk : SpanInside resource chunk) :
    AsksOnly (Inside resource) (askDecompressedChunk reader decoder failed overflow chunk) fun _ => True := by
  have hcompressed : AsksOnly (Inside resource) (askCompressedChunk reader chunk) fun _ => True :=
    asksOnly_failIf.bind fun _ _ => asksOnly_ask hchunk
  refine hcompressed.bind fun _ _ => asksOnly_failIf.bind fun _ _ => ?_
  refine (asksOnly_lift (Q := fun _ => True) fun _ _ => trivial).bind fun _ _ => ?_
  exact asksOnly_failIf.bind fun _ _ => asksOnly_pure trivial

theorem askCutChunk_inside {P : Nat × Nat → Prop} {x : Reading (List UInt8)} {skip copyLen : Nat}
    (h : AsksOnly P x fun _ => True) : AsksOnly P (askCutChunk x skip copyLen) fun _ => True :=
  h.bind fun _ _ => asksOnly_getOr.bind fun _ _ => asksOnly_pure trivial

theorem askChunk_inside {chunk : WimChunkSpan} {skip copyLen : Nat} (hchunk : SpanInside resource chunk)
    (hcopy : skip + copyLen ≤ chunk.uncompressedSize) :
    AsksOnly (Inside resource) (askChunk reader metadata chunk skip copyLen) fun _ => True := by
  refine asksOnly_ite (fun hstored => ?_) fun _ => ?_
  · -- a stored chunk is as long as what it stands for, so what is copied of it lies in it
    have hsize : chunk.compressedSize = chunk.uncompressedSize := of_decide_eq_true hstored
    obtain ⟨hlow, hhigh⟩ := hchunk
    refine asksOnly_getOr.bind fun sourceStart hstart => asksOnly_ask ?_
    obtain ⟨-, hstart⟩ := checkedAdd_eq_some.mp hstart
    dsimp only at hlow hhigh
    exact ⟨by dsimp only; omega, by dsimp only; omega⟩
  · cases metadata.compression with
    | xpress => exact askCutChunk_inside (askDecompressedChunk_inside hchunk)
    | lzx => exact askCutChunk_inside (askDecompressedChunk_inside hchunk)
    | _ => exact asksOnly_lift fun _ _ => trivial

theorem askChunks_inside {rounds remaining resourceOffset : Nat} :
    AsksOnly (Inside resource) (askChunks reader metadata resource rounds remaining resourceOffset) fun _ => True := by
  induction rounds generalizing remaining resourceOffset with
  | zero => exact asksOnly_pure trivial
  | succ rounds ih =>
      refine asksOnly_ite (fun _ => asksOnly_pure trivial) fun _ => ?_
      refine askChunkSpan_inside.bind fun chunk hchunk => asksOnly_getOr.bind fun skip _ => ?_
      refine asksOnly_getOr.bind fun available havailable => ?_
      obtain ⟨hskip, havailable⟩ := checkedSub_eq_some.mp havailable
      refine (askChunk_inside hchunk (by omega)).bind fun _ _ => asksOnly_getOr.bind fun _ _ => ?_
      exact ih.bind fun _ _ => asksOnly_pure trivial

/-- The range is refused before anything is read: it is empty, or the resource leaves the file, or the range leaves what
the header says of the resource or the offsets of 64 bits. -/
def RefusedUnread (resource : WimResourceHeader) (wimLen offset len : Nat) : Prop :=
  len = 0 ∨ wimLen < resource.offset + resource.compressedSize ∨ 2 ^ 64 ≤ resource.offset + resource.compressedSize ∨
    resource.uncompressedSize < offset + len ∨ 2 ^ 64 ≤ resource.offset + offset

/-- The reads stay inside: the chunks of a chunked resource are checked, a plain one is read as far as the range goes. -/
def StaysInside (resource : WimResourceHeader) (wimLen offset len : Nat) : Prop :=
  isChunked resource ∨ offset + len ≤ resource.compressedSize ∨ RefusedUnread resource wimLen offset len

theorem askResourceRange_inside {wimLen offset len : Nat} (h : StaysInside resource wimLen offset len) :
    AsksOnly (Inside resource) (askResourceRange reader metadata resource wimLen offset len) fun _ => True := by
  refine asksOnly_ite (fun _ => asksOnly_pure trivial) fun hlen => ?_
  have hbounds : ∀ u, validateResourceBounds wimLen resource = .ok u →
      resource.offset + resource.compressedSize < 2 ^ 64 ∧ resource.offset + resource.compressedSize ≤ wimLen := by
    intro u hu
    obtain ⟨stop, hstop, hle⟩ := bind_eq_ok.mp hu
    obtain ⟨hlt, rfl⟩ := checkedAdd_eq_some.mp (someOr_eq_ok.mp hstop)
    have := refuseIf_eq_ok.mp hle
    omega
  refine (asksOnly_lift hbounds).bind fun _ hinside => asksOnly_getOr.bind fun readEnd hend => ?_
  obtain ⟨-, hend⟩ := checkedAdd_eq_some.mp hend
  refine asksOnly_failIf.bind fun _ hrange => asksOnly_ite (fun hplain => ?_) fun _ => askChunks_inside
  refine asksOnly_getOr.bind fun start hstart => asksOnly_ask ?_
  obtain ⟨hlt, hstart⟩ := checkedAdd_eq_some.mp hstart
  have hread : offset + len ≤ resource.compressedSize := by
    rcases h with hchunked | hread | hrefused
    · exact absurd hchunked (not_or.mpr hplain)
    · exact hread
    · unfold RefusedUnread at hrefused
      omega
  exact ⟨by dsimp only; omega, by dsimp only; omega⟩

/-- A reader that answers every read, without decompressors. -/
def zeroReader : AskedReader where
  decompressXpress := ⟨fun _ _ => .error .inputTooShort, fun h => nomatch h⟩
  decompressLzx := ⟨fun _ _ => .error .inputTooShort, @inputTooShort_length⟩
  granted := fun _ => true
  answer := fun _ r => .ok (List.replicate r.2 0)

/-- Where the reads do not stay inside, the first one already leaves the resource, and its answer is passed on. -/
theorem askResourceRange_plain {wimLen offset len : Nat} (h : ¬ StaysInside resource wimLen offset len) :
    outcome (askResourceRange reader metadata resource wimLen offset len) [] =
        (reader.answer [] (resource.offset + offset, len), [(resource.offset + offset, len)]) ∧
      ¬ Inside resource (resource.offset + offset, len) := by
  obtain ⟨hplain, hlong, hread⟩ : ¬ isChunked resource ∧ resource.compressedSize < offset + len ∧
      ¬ RefusedUnread resource wimLen offset len := by
    unfold StaysInside at h
    push Not at h
    exact h
  simp only [RefusedUnread, not_or, Nat.not_lt, Nat.not_le] at hread
  obtain ⟨hlen, hfile, hcompressed, hrange, hstart⟩ := hread
  have hsize := resource.uncompressedSize_lt
  have hvalid : validateResourceBounds wimLen resource = .ok () :=
    bind_eq_ok.mpr ⟨_, someOr_eq_ok.mpr (checkedAdd_eq_some.mpr ⟨hcompressed, rfl⟩), refuseIf_eq_ok.mpr (by omega)⟩
  have hend : checkedAdd 64 offset len = some (offset + len) := checkedAdd_eq_some.mpr ⟨by omega, rfl⟩
  have hle : refuseIf (resource.uncompressedSize < offset + len) WimReadError.invalidRange = .ok () :=
    refuseIf_eq_ok.mpr (by omega)
  have hadd : checkedAdd 64 resource.offset offset = some (resource.offset + offset) :=
    checkedAdd_eq_some.mpr ⟨hstart, rfl⟩
  constructor
  · rw [askResourceRange, if_neg hlen, hvalid, hend, if_pos (not_or.mp hplain), hadd]
    simp only [outcome_bind, outcome_lift, someOr_some, hle]
    rfl
  · unfold Inside
    dsimp only
    omega

/-- The property for every reader: whatever the reads are answered, each of them is one of bytes of the resource, or the
range is refused. -/
def NeverLeaves (metadata : WimMetadata) (resource : WimResourceHeader) (wimLen offset len : Nat) : Prop :=
  ∀ reader : AskedReader, (∃ error, (outcome (askResourceRange reader metadata resource wimLen offset len) []).1 = .error error) ∨
    ∀ r ∈ (outcome (askResourceRange reader metadata resource wimLen offset len) []).2, Inside resource r

theorem not_neverLeaves {wimLen offset len : Nat} (h : ¬ StaysInside resource wimLen offset len) :
    ¬ NeverLeaves metadata resource wimLen offset len := by
  intro hnever
  have hzero := hnever zeroReader
  obtain ⟨hout, hleaves⟩ := @askResourceRange_plain zeroReader metadata resource wimLen offset len h
  rw [hout] at hzero
  rcases hzero with ⟨error, herror⟩ | hinside
  · cases herror
  · exact hleaves (hinside _ (List.mem_singleton_self _))

theorem readResourceRange_inside_iff (metadata : WimMetadata) (resource : WimResourceHeader) (wimLen offset len : Nat) :
    (∀ reader : AskedReader,
      (∀ r ∈ (outcome (askResourceRange reader metadata resource wimLen offset len) []).2, Inside resource r) ↔
        StaysInside resource wimLen offset len) ∧
      (NeverLeaves metadata resource wimLen offset len ↔ StaysInside resource wimLen offset len) := by
  have hinside : ∀ reader : AskedReader, StaysInside resource wimLen offset len →
      ∀ r ∈ (outcome (askResourceRange reader metadata resource wimLen offset len) []).2, Inside resource r := by
    intro reader h
    obtain ⟨asked, hlog, hasked, -⟩ := @askResourceRange_inside reader metadata resource wimLen offset len h []
    rw [hlog]
    exact hasked
  refine ⟨fun reader => ⟨fun h => ?_, hinside reader⟩, fun h => ?_, fun h reader => .inr (hinside reader h)⟩
  · by_contra hstays
    obtain ⟨hout, hleaves⟩ := @askResourceRange_plain reader metadata resource wimLen offset len hstays
    rw [hout] at h
    exact hleaves (h _ (List.mem_singleton_self _))
  · by_contra hstays
    exact not_neverLeaves hstays h

/-- A plain resource of four bytes whose header says that it stands for twelve. -/
def inconsistentResource : WimResourceHeader := ⟨4, 0, 16, 12, Words.four_lt_u64, Words.sixteen_lt_u64, Words.twelve_lt_u64⟩

theorem inconsistentResource_leaves : ¬ NeverLeaves storedMetadata inconsistentResource 64 4 8 := by
  apply not_neverLeaves
  unfold StaysInside RefusedUnread isChunked
  decide

end NextBoot.Wim
