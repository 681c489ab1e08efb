import NextBoot.Fs.Udf.RangedRead

namespace NextBoot.Fs.Udf

open Words BlockStore Bytes Results Tiling Volume

variable {fs : Volume} {node : Node} {extents before rest : List NodeExtent} {e : NodeExtent}
variable {E : List FileExtent} {blockSize offset len n i vb : Nat}

/-- The volume with other bytes on its device. -/
def Volume.withBytes (fs : Volume) (bytes : Nat → UInt8) : Volume :=
  { fs with io := { fs.io with bytes := bytes }, blockSize_pos := fs.blockSize_pos }

def byteAt (bytes : Nat → UInt8) (a : Option Nat) : UInt8 := a.elim 0 bytes

/-- Where the bytes of a range of the file are. -/
def wanted (blockSize : Nat) (extents : List NodeExtent) (offset n : Nat) : List (Option Nat) :=
  ((contents some none blockSize extents).drop offset).take n

/-- Every extent that ends before the position `stop` fills its last block. -/
def FillsBlocks (blockSize : Nat) : List NodeExtent → Nat → Prop
  | [], _ => True
  | e :: extents, stop => e.length < stop → e.length % blockSize = 0 ∧ FillsBlocks blockSize extents (stop - e.length)

/-- The ranges that are read rightly: recorded on the device, from the first block of an extent or the start of a block
on, with no partly filled block before the last byte. -/
structure PlainRange (fs : Volume) (extents : List NodeExtent) (offset n : Nat) : Prop where
  recorded : ∀ a ∈ wanted fs.io.blockSize extents offset n, ∃ x, a = some x ∧ x / fs.io.blockSize < fs.io.totalBlocks
  source : 0 < n → withinExtent extents offset < fs.io.blockSize ∨ withinExtent extents offset % fs.io.blockSize = 0
  filled : wanted fs.io.blockSize extents offset n ≠ [] →
    FillsBlocks fs.io.blockSize extents (offset + (wanted fs.io.blockSize extents offset n).length)

/-- Whatever is on the device, the read returns the range of the contents, and so do the reported extents. -/
structure ReadsRange (fs : Volume) (node : Node) (extents : List NodeExtent) (E : List FileExtent)
    (offset len : Nat) : Prop where
  reads : ∀ bytes, (fs.withBytes bytes).readFile node offset len =
    .ok (((contents bytes 0 fs.io.blockSize extents).drop offset).take (min len (node.fileSize - offset)))
  agrees : ∀ bytes i, offset ≤ i → i < offset + min len (node.fileSize - offset) → ∀ b,
    (contents bytes 0 fs.io.blockSize extents)[i]? = some b → fileByte (fs.withBytes bytes).io E i = b

theorem pushDescriptor_total {partRefOf : List UInt8 → Except FsError Nat} {chunk : List UInt8}
    {out : List NodeExtent} (h : fs.pushDescriptor partRefOf extents chunk = .ok out) :
    totalLength out ≤ totalLength extents + 2 ^ 30 := by
  simp only [pushDescriptor, bind_eq_ok] at h
  obtain ⟨rawLength, -, h⟩ := h
  split at h
  · rw [pure_eq_ok] at h
    rw [← h]
    omega
  · simp only [bind_eq_ok, pure_eq_ok] at h
    obtain ⟨blockNum, -, partRef, -, lba, -, h⟩ := h
    have hlt := Nat.mod_lt rawLength (Nat.two_pow_pos 30)
    rw [← h, totalLength, List.map_append, List.sum_append_nat, ← totalLength]
    simp only [List.map_cons, List.map_nil, List.sum_singleton]
    omega

theorem foldlM_total {partRefOf : List UInt8 → Except FsError Nat} {chunks : List (List UInt8)}
    {out : List NodeExtent} (h : chunks.foldlM (fs.pushDescriptor partRefOf) extents = .ok out) :
    totalLength out ≤ totalLength extents + chunks.length * 2 ^ 30 := by
  induction chunks generalizing extents with
  | nil =>
      rw [List.foldlM_nil, pure_eq_ok] at h
      rw [← h]
      exact Nat.le_add_right _ _
  | cons chunk chunks ih =>
      rw [List.foldlM_cons] at h
      obtain ⟨mid, hmid, h⟩ := bind_eq_ok.mp h
      have hone := pushDescriptor_total hmid
      have hrest := ih h
      rw [List.length_cons, Nat.succ_mul]
      omega

theorem length_chunksExact (width : Nat) (xs : List UInt8) : (chunksExact width xs).length = xs.length / width := by
  simp [chunksExact]

theorem totalLength_lt (h : fs.nodeDataExtents node = .ok extents) : totalLength extents < 2 ^ 62 := by
  have hentry := node.entry_lt
  have hlen : (descriptors node).length < 2 ^ 32 := by
    rw [descriptors, List.length_take, List.length_drop]
    omega
  have hstart : totalLength [] = 0 := rfl
  rw [nodeDataExtents] at h
  split at h
  · have htotal := foldlM_total h
    rw [length_chunksExact] at htotal
    omega
  · split at h
    · have htotal := foldlM_total h
      rw [length_chunksExact] at htotal
      omega
    · split at h
      · rw [pure_eq_ok] at h
        rw [← h, hstart]
        decide
      · cases h

theorem readBlock_withBytes (bytes : Nat → UInt8) (lba : Nat) : (fs.withBytes bytes).io.readBlock lba =
    (readAddresses fs.io.blockSize fs.io.totalBlocks lba).map (List.map (byteAt bytes)) := by
  rw [BlockIo.readBlock, readAddresses]
  show (if lba < fs.io.totalBlocks then _ else _) = _
  split
  · exact congrArg Except.ok (map_window (byteAt bytes) some _ _).symm
  · rfl

theorem map_wanted (bytes : Nat → UInt8) : (wanted blockSize extents offset n).map (byteAt bytes) =
    ((contents bytes 0 blockSize extents).drop offset).take n := by
  rw [wanted, List.map_take, List.map_drop, contents_map]
  rfl

/-- Two lists of places that hold the same bytes on every device are the same. -/
theorem eq_of_map_byteAt {as bs : List (Option Nat)} (h : ∀ bytes, as.map (byteAt bytes) = bs.map (byteAt bytes)) :
    as = bs := by
  induction as generalizing bs with
  | nil => exact (List.map_eq_nil_iff.mp (h 0).symm).symm
  | cons a as ih =>
      cases bs with
      | nil => exact absurd (h 0) (List.cons_ne_nil _ _)
      | cons b bs =>
          have hhead : a = b := by
            have hone := (List.cons.inj (h fun _ => 1)).1
            cases a with
            | none =>
                cases b with
                | none => rfl
                | some y => exact absurd (show (0 : UInt8) = 1 from hone) (by decide)
            | some x =>
                have hx := (List.cons.inj (h fun i => if i = x then 1 else 0)).1
                cases b with
                | none => exact absurd (show (1 : UInt8) = 0 from hone) (by decide)
                | some y =>
                    simp only [byteAt, Option.elim_some, if_true] at hx
                    split at hx
                    · next hyx => rw [hyx]
                    · exact absurd hx (by decide)
          rw [hhead, ih fun bytes => (List.cons.inj (h bytes)).2]

theorem readFile_withBytes (bytes : Nat → UInt8) (hregular : node.fileType = fileTypeRegular)
    (hicb : node.flags.land icbAdMask ≠ icbAdInIcb) (hextents : fs.nodeDataExtents node = .ok extents)
    (hsome : 0 < min len (node.fileSize - offset)) :
    (fs.withBytes bytes).readFile node offset len =
      (walkExtents (readAddresses fs.io.blockSize fs.io.totalBlocks) fs.io.blockSize offset
        (min len (node.fileSize - offset)) extents 0 0).map (List.map (byteAt bytes)) := by
  have hsame : (fs.withBytes bytes).nodeDataExtents node = .ok extents := hextents
  have hdevice : (fs.withBytes bytes).io.readBlock =
      fun lba => (readAddresses fs.io.blockSize fs.io.totalBlocks lba).map (List.map (byteAt bytes)) :=
    funext (readBlock_withBytes bytes)
  rw [readFile, if_neg (not_not.mpr hregular), readNodeData, if_neg (by omega), if_neg hicb, hsame, hdevice]
  exact walkExtents_map (byteAt bytes)

/-- The reads are right exactly where the walk over the addresses returns the wanted ones. -/
theorem reads_iff_walk (hregular : node.fileType = fileTypeRegular)
    (hicb : node.flags.land icbAdMask ≠ icbAdInIcb) (hextents : fs.nodeDataExtents node = .ok extents)
    (hn : n = min len (node.fileSize - offset)) (hsome : 0 < n) :
    (∀ bytes, (fs.withBytes bytes).readFile node offset len =
        .ok (((contents bytes 0 fs.io.blockSize extents).drop offset).take n)) ↔
      walkExtents (readAddresses fs.io.blockSize fs.io.totalBlocks) fs.io.blockSize offset n extents 0 0 =
        .ok (wanted fs.io.blockSize extents offset n) := by
  subst hn
  constructor
  · intro h
    have hmapped : ∀ bytes, (walkExtents (readAddresses fs.io.blockSize fs.io.totalBlocks) fs.io.blockSize offset
        (min len (node.fileSize - offset)) extents 0 0).map (List.map (byteAt bytes)) =
          .ok ((wanted fs.io.blockSize extents offset (min len (node.fileSize - offset))).map (byteAt bytes)) :=
      fun bytes => by rw [← readFile_withBytes bytes hregular hicb hextents hsome, h bytes, map_wanted]
    cases hwalk : walkExtents (readAddresses fs.io.blockSize fs.io.totalBlocks) fs.io.blockSize offset
        (min len (node.fileSize - offset)) extents 0 0 with
    | error error =>
        rw [hwalk] at hmapped
        cases hmapped 0
    | ok cells =>
        rw [hwalk] at hmapped
        rw [eq_of_map_byteAt fun bytes => Except.ok.inj (hmapped bytes)]
  · intro h bytes
    rw [readFile_withBytes bytes hregular hicb hextents hsome, h, ← map_wanted]
    rfl

theorem readAddresses_forall {totalBlocks lba : Nat} {block : List (Option Nat)} (hbs : 0 < blockSize)
    (h : readAddresses blockSize totalBlocks lba = .ok block) :
    ∀ a ∈ block, ∃ x, a = some x ∧ x / blockSize < totalBlocks := by
  rw [readAddresses] at h
  split at h
  · next hlba =>
      rw [← Except.ok.inj h]
      intro a ha
      obtain ⟨i, hi, rfl⟩ := mem_window.mp ha
      refine ⟨_, rfl, ?_⟩
      rwa [Nat.add_comm, Nat.add_mul_div_right _ _ hbs, Nat.div_eq_of_lt hi, Nat.zero_add]
  · cases h

theorem walk_iff (hextents : fs.nodeDataExtents node = .ok extents) (hsome : 0 < n) :
    walkExtents (readAddresses fs.io.blockSize fs.io.totalBlocks) fs.io.blockSize offset n extents 0 0 =
        .ok (wanted fs.io.blockSize extents offset n) ↔
      (∀ a ∈ wanted fs.io.blockSize extents offset n, ∃ x, a = some x ∧ x / fs.io.blockSize < fs.io.totalBlocks) ∧
        (withinExtent extents offset < fs.io.blockSize ∨ withinExtent extents offset % fs.io.blockSize = 0) := by
  have hbs := fs.blockSize_pos
  have htotal := totalLength_lt hextents
  have hbound : 0 + totalLength extents < 2 ^ 64 := by omega
  constructor
  · intro h
    have hrecorded := walkExtents_forall (fun lba block => readAddresses_forall hbs) h
    refine ⟨hrecorded, source_of_walkExtents hbs hbound (Nat.zero_le offset) hsome h fun hnone => ?_⟩
    obtain ⟨x, hx, -⟩ := hrecorded none hnone
    cases hx
  · rintro ⟨hrecorded, hsource⟩
    exact walkExtents_ok hbs hbound (Nat.zero_sub offset).symm hsome hrecorded hsource

section Agreement

/-- The blocks that the extents fill, the last one of each perhaps only in part. -/
def blocksOf (blockSize : Nat) (extents : List NodeExtent) : Nat :=
  (extents.map fun e => Volume.divRoundUp e.length blockSize).sum

theorem blocksOf_cons :
    blocksOf blockSize (e :: extents) = Volume.divRoundUp e.length blockSize + blocksOf blockSize extents :=
  List.sum_cons

theorem divRoundUp_eq (hpos : 0 < blockSize) (hlt : blockSize < 2 ^ 32) :
    Volume.divRoundUp e.length blockSize = (e.length + (blockSize - 1)) / blockSize := by
  have hlength := e.length_lt
  rw [Volume.divRoundUp, if_neg (by omega), show saturatingAdd 64 e.length (blockSize - 1) = _ from
    Nat.min_eq_left (by omega)]

theorem le_divRoundUp_mul (hpos : 0 < blockSize) (hlt : blockSize < 2 ^ 32) :
    e.length ≤ Volume.divRoundUp e.length blockSize * blockSize := by
  have hsplit := Nat.div_add_mod (e.length + (blockSize - 1)) blockSize
  have hmod := Nat.mod_lt (e.length + (blockSize - 1)) hpos
  rw [divRoundUp_eq hpos hlt, Nat.mul_comm]
  omega

theorem divRoundUp_le (hpos : 0 < blockSize) (hlt : blockSize < 2 ^ 32) :
    Volume.divRoundUp e.length blockSize ≤ e.length := by
  have hlength := e.length_pos
  rw [divRoundUp_eq hpos hlt]
  refine Nat.le_of_lt_succ (Nat.div_lt_of_lt_mul ?_)
  have hmul := Nat.mul_le_mul hpos hlength
  rw [Nat.mul_succ]
  have hle : e.length ≤ blockSize * e.length := Nat.le_mul_of_pos_left _ hpos
  omega

theorem divRoundUp_mul_eq_iff (hpos : 0 < blockSize) (hlt : blockSize < 2 ^ 32) :
    Volume.divRoundUp e.length blockSize * blockSize = e.length ↔ e.length % blockSize = 0 := by
  constructor
  · intro h
    rw [← h, Nat.mul_mod_left]
  · intro h
    obtain ⟨k, hk⟩ := Nat.dvd_of_mod_eq_zero h
    rw [divRoundUp_eq hpos hlt, hk, Nat.mul_add_div hpos, Nat.div_eq_of_lt (by omega), Nat.add_zero, Nat.mul_comm]

theorem blocksOf_le (hpos : 0 < blockSize) (hlt : blockSize < 2 ^ 32) : blocksOf blockSize extents ≤ totalLength extents := by
  induction extents with
  | nil => exact Nat.le_refl 0
  | cons e extents ih =>
      have hone := @divRoundUp_le e _ hpos hlt
      rw [blocksOf_cons, totalLength_cons]
      omega

theorem totalLength_le_blocksOf (hpos : 0 < blockSize) (hlt : blockSize < 2 ^ 32) :
    totalLength extents ≤ blocksOf blockSize extents * blockSize := by
  induction extents with
  | nil => exact Nat.zero_le _
  | cons e extents ih =>
      have hone := @le_divRoundUp_mul e _ hpos hlt
      rw [blocksOf_cons, totalLength_cons, Nat.add_mul]
      omega

theorem blocksOf_mul_eq_iff (hpos : 0 < blockSize) (hlt : blockSize < 2 ^ 32) :
    blocksOf blockSize extents * blockSize = totalLength extents ↔ ∀ e ∈ extents, e.length % blockSize = 0 := by
  induction extents with
  | nil => simp [blocksOf, totalLength]
  | cons e extents ih =>
      have hone := @le_divRoundUp_mul e _ hpos hlt
      have hrest := @totalLength_le_blocksOf extents _ hpos hlt
      rw [blocksOf_cons, totalLength_cons, Nat.add_mul, List.forall_mem_cons, ← ih, ← divRoundUp_mul_eq_iff hpos hlt]
      omega

theorem exists_split (h : i < totalLength extents) : ∃ before e rest, extents = before ++ e :: rest ∧
    totalLength before ≤ i ∧ i < totalLength before + e.length := by
  induction extents generalizing i with
  | nil => exact absurd h (Nat.not_lt_zero i)
  | cons e extents ih =>
      rw [totalLength_cons] at h
      by_cases hfirst : i < e.length
      · exact ⟨[], e, extents, rfl, Nat.zero_le i, by rw [totalLength, List.map_nil, List.sum_nil]; omega⟩
      · obtain ⟨before, x, rest, rfl, hlo, hhi⟩ := ih (show i - e.length < totalLength extents by omega)
        refine ⟨e :: before, x, rest, rfl, ?_, ?_⟩ <;> rw [totalLength_cons] <;> omega

theorem length_contents {β : Type} (cell : Nat → β) (zero : β) :
    (contents cell zero blockSize extents).length = totalLength extents := by
  induction extents with
  | nil => rfl
  | cons e extents ih =>
      rw [contents_cons, List.length_append, ih, totalLength_cons]
      split <;> simp

theorem getElem?_contents {β : Type} (cell : Nat → β) (zero : β) (hlo : totalLength before ≤ i)
    (hhi : i < totalLength before + e.length) :
    (contents cell zero blockSize (before ++ e :: rest))[i]? =
      some (if e.extentType = 0 then cell (e.physicalLba * blockSize + (i - totalLength before)) else zero) := by
  rw [contents, List.flatMap_append, ← contents, ← contents, List.getElem?_append_right (by rwa [length_contents]),
    length_contents, contents_cons]
  split
  · rw [List.getElem?_append_left (by rw [length_window]; omega), getElem?_window cell _ (by omega)]
  · rw [List.getElem?_append_left (by rw [List.length_replicate]; omega), List.getElem?_replicate, if_pos (by omega)]

theorem extentsFrom_ordered (hbound : vb + blocksOf blockSize extents < 2 ^ 64) :
    Ordered FileExtent.virtualBlockStart FileExtent.blockCount (extentsFrom blockSize extents vb) vb := by
  induction extents generalizing vb with
  | nil => trivial
  | cons e extents ih =>
      rw [blocksOf_cons] at hbound
      rw [extentsFrom]
      rw [show saturatingAdd 64 vb (Volume.divRoundUp e.length blockSize) = vb + Volume.divRoundUp e.length blockSize from
        Nat.min_eq_left (by omega)]
      split
      · exact (ih (by omega)).mono (Nat.le_add_right _ _)
      · exact ⟨Nat.le_refl vb, ih (by omega)⟩

theorem mem_extentsFrom (hrecorded : e.extentType = 0) (hbound : vb + blocksOf blockSize (before ++ e :: rest) < 2 ^ 64) :
    ⟨vb + blocksOf blockSize before, e.physicalLba, Volume.divRoundUp e.length blockSize⟩ ∈
      extentsFrom blockSize (before ++ e :: rest) vb := by
  induction before generalizing vb with
  | nil =>
      rw [List.nil_append, extentsFrom, if_neg (not_not.mpr hrecorded)]
      exact List.mem_cons_self
  | cons x before ih =>
      rw [List.cons_append, blocksOf_cons] at hbound
      rw [List.cons_append, extentsFrom, blocksOf_cons, ← Nat.add_assoc]
      rw [show saturatingAdd 64 vb (Volume.divRoundUp x.length blockSize) = vb + Volume.divRoundUp x.length blockSize from
        Nat.min_eq_left (by omega)]
      have hmem := ih (show vb + Volume.divRoundUp x.length blockSize + blocksOf blockSize (before ++ e :: rest) < 2 ^ 64 by
        omega)
      split
      · exact hmem
      · exact List.mem_cons_of_mem _ hmem

theorem extentsFrom_bounds (hpos : 0 < blockSize) (hlt : blockSize < 2 ^ 32) {x : FileExtent}
    (hx : x ∈ extentsFrom blockSize extents vb) : x.physicalLba < 2 ^ 33 ∧ x.blockCount < 2 ^ 30 := by
  induction extents generalizing vb with
  | nil => cases hx
  | cons e extents ih =>
      rw [extentsFrom] at hx
      split at hx
      · exact ih hx
      · rcases List.mem_cons.mp hx with rfl | hx
        · exact ⟨e.physicalLba_lt, Nat.lt_of_le_of_lt (divRoundUp_le hpos hlt) e.length_lt⟩
        · exact ih hx

theorem fillsBlocks_iff (hlo : totalLength before ≤ i) (hhi : i < totalLength before + e.length) :
    FillsBlocks blockSize (before ++ e :: rest) (i + 1) ↔ ∀ x ∈ before, x.length % blockSize = 0 := by
  induction before generalizing i with
  | nil =>
      rw [totalLength, List.map_nil, List.sum_nil] at hhi
      exact ⟨fun _ x hx => absurd hx (List.not_mem_nil), fun _ hlt => absurd hlt (by omega)⟩
  | cons x before ih =>
      rw [totalLength_cons] at hlo hhi
      rw [List.cons_append, FillsBlocks, List.forall_mem_cons, show i + 1 - x.length = i - x.length + 1 by omega,
        ih (by omega) (by omega)]
      exact ⟨fun h => h (by omega), fun h _ => h⟩

variable (hextents : fs.nodeDataExtents node = .ok (before ++ e :: rest)) (hrecorded : e.extentType = 0)
variable (hlo : totalLength before ≤ i) (hhi : i < totalLength before + e.length)

include hextents hrecorded hlo hhi

theorem fileByte_of_filled (bytes : Nat → UInt8) (hfilled : ∀ x ∈ before, x.length % fs.io.blockSize = 0) :
    fileByte (fs.withBytes bytes).io (extentsFrom fs.io.blockSize (before ++ e :: rest) 0) i =
      bytes (e.physicalLba * fs.io.blockSize + (i - totalLength before)) := by
  have hpos := fs.blockSize_pos
  have hlt := fs.io.blockSize_lt
  have htotal := totalLength_lt hextents
  have hblocks := @blocksOf_le (before ++ e :: rest) _ hpos hlt
  have hstart := (blocksOf_mul_eq_iff hpos hlt).mpr hfilled
  have hcount := @divRoundUp_le e _ hpos hlt
  have hfits := @le_divRoundUp_mul e _ hpos hlt
  have hlength := e.length_lt
  have hphysical := e.physicalLba_lt
  have hmem := @mem_extentsFrom before rest e fs.io.blockSize 0 hrecorded (by omega)
  rw [Nat.zero_add] at hmem
  have hlow : blocksOf fs.io.blockSize before ≤ i / fs.io.blockSize := (Nat.le_div_iff_mul_le hpos).mpr (by omega)
  have hhigh : i / fs.io.blockSize < blocksOf fs.io.blockSize before + Volume.divRoundUp e.length fs.io.blockSize := by
    refine Nat.div_lt_of_lt_mul ?_
    rw [Nat.mul_comm, Nat.add_mul]
    omega
  have hplace := translate_of_mem (@extentsFrom_ordered (before ++ e :: rest) fs.io.blockSize 0 (by omega)) hmem
    ⟨hlow, hhigh⟩
  rw [fileByte]
  change translate _ (i / (fs.withBytes bytes).io.blockSize) = _ at hplace
  rw [hplace]
  dsimp only [FileExtent.place, Volume.withBytes]
  rw [wrappingAdd_eq (by omega)]
  have hsplit := Nat.div_add_mod i fs.io.blockSize
  rw [Nat.mul_comm] at hsplit
  have hmul := Nat.mul_le_mul_right fs.io.blockSize hlow
  rw [Nat.add_mul, Nat.sub_mul]
  congr 1
  omega

/-- When no two extents share a device block, the reported extents put a byte where the descriptors do only if every
block before it is filled. -/
theorem filled_of_fileByte
    (hdisjoint : ∀ x ∈ extentsFrom fs.io.blockSize (before ++ e :: rest) 0,
      ∀ y ∈ extentsFrom fs.io.blockSize (before ++ e :: rest) 0, x ≠ y →
        x.physicalLba + x.blockCount ≤ y.physicalLba ∨ y.physicalLba + y.blockCount ≤ x.physicalLba)
    (h : ∀ bytes, fileByte (fs.withBytes bytes).io (extentsFrom fs.io.blockSize (before ++ e :: rest) 0) i =
      bytes (e.physicalLba * fs.io.blockSize + (i - totalLength before))) :
    ∀ x ∈ before, x.length % fs.io.blockSize = 0 := by
  have hpos := fs.blockSize_pos
  have hlt := fs.io.blockSize_lt
  have htotal := totalLength_lt hextents
  have hblocks := @blocksOf_le (before ++ e :: rest) _ hpos hlt
  have hmem := @mem_extentsFrom before rest e fs.io.blockSize 0 hrecorded (by omega)
  rw [Nat.zero_add] at hmem
  have hbounds := fun x hx => @extentsFrom_bounds (before ++ e :: rest) fs.io.blockSize 0 hpos hlt x hx
  generalize extentsFrom fs.io.blockSize (before ++ e :: rest) 0 = E at hdisjoint h hmem hbounds
  have hcell : [(translate E (i / fs.io.blockSize)).map fun block => block * fs.io.blockSize + i % fs.io.blockSize] =
      [some (e.physicalLba * fs.io.blockSize + (i - totalLength before))] := by
    refine eq_of_map_byteAt fun bytes => ?_
    rw [List.map_singleton, List.map_singleton, ← show fileByte (fs.withBytes bytes).io E i =
      byteAt bytes (some (e.physicalLba * fs.io.blockSize + (i - totalLength before))) from h bytes, fileByte]
    dsimp only [Volume.withBytes]
    cases translate E (i / fs.io.blockSize) <;> rfl
  obtain ⟨block, hplace, haddress⟩ := Option.map_eq_some_iff.mp (List.cons.inj hcell).1
  obtain ⟨x, hx, rfl⟩ := Option.map_eq_some_iff.mp hplace
  obtain ⟨hxE, hcovers⟩ := locate_mem hx
  have hxlow := hcovers.1
  have hxhigh := hcovers.2
  obtain ⟨hxphysical, hxcount⟩ := hbounds x hxE
  rw [FileExtent.place, wrappingAdd_eq (by omega)] at haddress
  have hmod := Nat.mod_lt i hpos
  have hblock : x.physicalLba + (i / fs.io.blockSize - x.virtualBlockStart) =
      e.physicalLba + (i - totalLength before) / fs.io.blockSize := by
    have hdiv := congrArg (· / fs.io.blockSize) haddress
    rwa [Nat.add_comm, Nat.add_mul_div_right _ _ hpos, Nat.div_eq_of_lt hmod, Nat.zero_add, Nat.add_comm (_ * _),
      Nat.add_mul_div_right _ _ hpos, Nat.add_comm (_ / _)] at hdiv
  have hfits := @le_divRoundUp_mul e _ hpos hlt
  have hwithin : (i - totalLength before) / fs.io.blockSize < Volume.divRoundUp e.length fs.io.blockSize := by
    refine Nat.div_lt_of_lt_mul ?_
    rw [Nat.mul_comm]
    omega
  obtain rfl : x = ⟨blocksOf fs.io.blockSize before, e.physicalLba, Volume.divRoundUp e.length fs.io.blockSize⟩ := by
    by_contra hne
    have hapart := hdisjoint x hxE _ hmem hne
    generalize (i - totalLength before) / fs.io.blockSize = within at hblock hwithin
    dsimp only at hapart
    omega
  rw [← blocksOf_mul_eq_iff hpos hlt]
  dsimp only at hxlow hblock haddress
  have hsplit := Nat.div_add_mod i fs.io.blockSize
  have hmul := Nat.mul_le_mul_right fs.io.blockSize hxlow
  rw [Nat.mul_comm] at hsplit
  rw [Nat.add_mul, Nat.sub_mul] at haddress
  omega

end Agreement

theorem length_wanted : (wanted blockSize extents offset n).length = min n (totalLength extents - offset) := by
  rw [wanted, List.length_take, List.length_drop, length_contents]

theorem getElem?_wanted (hi : i < n) :
    (wanted blockSize extents offset n)[i]? = (contents some none blockSize extents)[offset + i]? := by
  rw [wanted, List.getElem?_take_of_lt hi, List.getElem?_drop]

theorem FillsBlocks.mono {stop stop' : Nat} (h : FillsBlocks blockSize extents stop') (hle : stop ≤ stop') :
    FillsBlocks blockSize extents stop := by
  induction extents generalizing stop stop' with
  | nil => trivial
  | cons e extents ih => exact fun hlt => ⟨(h (by omega)).1, ih (h (by omega)).2 (by omega)⟩

/-- A byte of the range lies in a recorded extent when every place of the range is on the device. -/
theorem recorded_of_wanted (hlo : totalLength before ≤ i) (hhi : i < totalLength before + e.length) (hoffset : offset ≤ i)
    (hn : i < offset + n) (h : ∀ a ∈ wanted blockSize (before ++ e :: rest) offset n, ∃ x, a = some x) :
    e.extentType = 0 := by
  by_contra hunrecorded
  have hcell := @getElem?_wanted (before ++ e :: rest) blockSize offset n (i - offset) (by omega)
  rw [Nat.add_sub_cancel' hoffset, getElem?_contents some none hlo hhi, if_neg hunrecorded] at hcell
  obtain ⟨x, hx⟩ := h none (List.mem_of_getElem? hcell)
  cases hx

section Ranges

variable (hregular : node.fileType = fileTypeRegular) (hicb : node.flags.land icbAdMask ≠ icbAdInIcb)
variable (hextents : fs.nodeDataExtents node = .ok extents)

include hregular hicb hextents

theorem PlainRange.readsRange (h : PlainRange fs extents offset (min len (node.fileSize - offset))) :
    ReadsRange fs node extents (extentsFrom fs.io.blockSize extents 0) offset len := by
  generalize hn : min len (node.fileSize - offset) = n at h
  refine ⟨?_, fun bytes i hlo hhi b hb => ?_⟩
  · rw [hn]
    rcases Nat.eq_zero_or_pos n with rfl | hsome
    · intro bytes
      rw [readFile, if_neg (not_not.mpr hregular), readNodeData, if_pos (by omega), List.take_zero]
      rfl
    · rw [reads_iff_walk hregular hicb hextents hn.symm hsome, walk_iff hextents hsome]
      exact ⟨h.recorded, h.source hsome⟩
  · have hi : i < totalLength extents := by
      rw [← length_contents bytes 0]
      exact (List.getElem?_eq_some_iff.mp hb).1
    obtain ⟨before, e, rest, rfl, hbefore, hafter⟩ := exists_split hi
    have hrecorded := recorded_of_wanted hbefore hafter hlo (show i < offset + n by omega) fun a ha => by
      obtain ⟨x, hx, -⟩ := h.recorded a ha
      exact ⟨x, hx⟩
    have hlength := @length_wanted (before ++ e :: rest) fs.io.blockSize offset n
    have hfilled := (h.filled (List.ne_nil_of_length_pos (by omega))).mono
      (show i + 1 ≤ offset + (wanted fs.io.blockSize (before ++ e :: rest) offset n).length by omega)
    rw [fillsBlocks_iff hbefore hafter] at hfilled
    rw [getElem?_contents bytes 0 hbefore hafter, if_pos hrecorded] at hb
    rw [fileByte_of_filled hextents hrecorded hbefore hafter bytes hfilled, ← Option.some.inj hb]

theorem ReadsRange.plainRange
    (hdisjoint : ∀ x ∈ extentsFrom fs.io.blockSize extents 0, ∀ y ∈ extentsFrom fs.io.blockSize extents 0, x ≠ y →
      x.physicalLba + x.blockCount ≤ y.physicalLba ∨ y.physicalLba + y.blockCount ≤ x.physicalLba)
    (h : ReadsRange fs node extents (extentsFrom fs.io.blockSize extents 0) offset len) :
    PlainRange fs extents offset (min len (node.fileSize - offset)) := by
  obtain ⟨hreads, hagrees⟩ := h
  generalize hn : min len (node.fileSize - offset) = n at hreads hagrees
  rcases Nat.eq_zero_or_pos n with rfl | hsome
  · refine ⟨fun a ha => ?_, fun h => absurd h (Nat.lt_irrefl 0), fun h => absurd List.take_zero h⟩
    rw [wanted, List.take_zero] at ha
    cases ha
  · rw [reads_iff_walk hregular hicb hextents hn.symm hsome, walk_iff hextents hsome] at hreads
    refine ⟨hreads.1, fun _ => hreads.2, fun hne => ?_⟩
    -- the last byte of the range tells that every block before it is filled
    have hlength := @length_wanted extents fs.io.blockSize offset n
    have hpos := List.length_pos_iff.mpr hne
    obtain ⟨i, hi⟩ : ∃ i, offset + (wanted fs.io.blockSize extents offset n).length = i + 1 := ⟨_, (Nat.succ_pred (by omega)).symm⟩
    rw [hi]
    obtain ⟨before, e, rest, rfl, hbefore, hafter⟩ := exists_split (show i < totalLength extents by omega)
    have hrecorded := recorded_of_wanted hbefore hafter (show offset ≤ i by omega) (show i < offset + n by omega) fun a ha => by
      obtain ⟨x, hx, -⟩ := hreads.1 a ha
      exact ⟨x, hx⟩
    rw [fillsBlocks_iff hbefore hafter]
    refine filled_of_fileByte hextents hrecorded hbefore hafter hdisjoint fun bytes => ?_
    exact hagrees bytes i (by omega) (by omega) _ (by
      rw [getElem?_contents bytes 0 hbefore hafter, if_pos hrecorded])

end Ranges

/-- Ranged reads of UDF files against their allocation descriptors: the plain ranges are read rightly and as the
reported extents place them, and where no two of these share a device block, no other range is. -/
theorem udf_ranged_reads (fs : Volume) (node : Node) (extents : List NodeExtent) (E : List FileExtent)
    (offset len : Nat) (hregular : node.fileType = fileTypeRegular) (hicb : node.flags.land icbAdMask ≠ icbAdInIcb)
    (hextents : fs.nodeDataExtents node = .ok extents) (hE : fs.nodeExtents node = .ok E) :
    (PlainRange fs extents offset (min len (node.fileSize - offset)) → ReadsRange fs node extents E offset len) ∧
      ((∀ x ∈ E, ∀ y ∈ E, x ≠ y →
          x.physicalLba + x.blockCount ≤ y.physicalLba ∨ y.physicalLba + y.blockCount ≤ x.physicalLba) →
        ReadsRange fs node extents E offset len →
          PlainRange fs extents offset (min len (node.fileSize - offset))) := by
  rw [nodeExtents, hextents] at hE
  obtain rfl := Except.ok.inj hE
  exact ⟨PlainRange.readsRange hregular hicb hextents, ReadsRange.plainRange hregular hicb hextents⟩

theorem sampleBlock_pos : 0 < 4 := by decide

def sampleVolume : Volume where
  io := ⟨4, 16, fun i => UInt8.ofNat i, Words.four_lt_u32, Words.sixteen_lt_u64⟩
  partitions := [⟨0, 2, 10, 1, Words.two_lt_u32, by decide⟩]
  partitionMaps := [0]
  blockSize_pos := sampleBlock_pos

/-- A file of thirteen bytes: two blocks from block 2 of the device on, and five bytes from block 6 on. -/
def sampleNode : Node where
  entryLba := 1
  tagIdent := 261
  partRef := 0
  fileType := 5
  flags := 0
  fileSize := 13
  allocDescOffset := 0
  allocDescLen := 16
  entry := [8, 0, 0, 0, 0, 0, 0, 0, 5, 0, 0, 0, 4, 0, 0, 0]
  entry_lt := by decide
  descriptors_le := by decide

def sampleExtents : List NodeExtent :=
  [⟨8, 2, 0, Words.eight_pos, by decide, by decide⟩, ⟨5, 6, 0, by decide, by decide, by decide⟩]

theorem sampleNode_reads : ReadsRange sampleVolume sampleNode sampleExtents [⟨0, 2, 2⟩, ⟨2, 6, 2⟩] 4 20 :=
  (udf_ranged_reads sampleVolume sampleNode sampleExtents [⟨0, 2, 2⟩, ⟨2, 6, 2⟩] 4 20 (by decide) (by decide)
    (by decide +kernel) (by decide +kernel)).1 {
      recorded := fun a ha => by
        have hall : ∀ a ∈ wanted 4 sampleExtents 4 9, a.any (fun x => x / 4 < 16) = true := by decide
        obtain ⟨x, rfl, hx⟩ := (Option.any_eq_true _ _).mp (hall a ha)
        exact ⟨x, rfl, of_decide_eq_true hx⟩
      source := fun _ => .inr (by decide)
      filled := fun _ _ => ⟨by decide, fun h => absurd h (by decide)⟩ }

/-- A read from inside the second block of the extent starts at the beginning of that block. -/
theorem sampleNode_inside_block : ¬ ReadsRange sampleVolume sampleNode sampleExtents [⟨0, 2, 2⟩, ⟨2, 6, 2⟩] 5 2 := by
  intro h
  have hread := h.reads sampleVolume.io.bytes
  have hgot : (sampleVolume.withBytes sampleVolume.io.bytes).readFile sampleNode 5 2 = .ok [12, 13] := by decide +kernel
  rw [hgot] at hread
  exact absurd hread (by decide +kernel)

end NextBoot.Fs.Udf
