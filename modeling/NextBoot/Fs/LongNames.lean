import NextBoot.Fs.DirectoryWalks
import NextBoot.Wim.Metadata

namespace NextBoot.Fs

open Words Bytes Strings Results Faults Outcome Walks Wim

namespace Fat32

/-- The code units of a name in pieces of thirteen: a zero behind the name and filling bits up to a whole piece. -/
def paddedUnits (units : List Nat) : List Nat :=
  units ++ if units.length % 13 = 0 then [] else 0 :: List.replicate (12 - units.length % 13) 0xFFFF

def lfnEntry (seq checksum : UInt8) (units : List Nat) : List UInt8 :=
  seq :: ((units.take 5).flatMap (toLeBytes 2) ++ [0x0F, 0, checksum] ++ ((units.drop 5).take 6).flatMap (toLeBytes 2) ++
    [0, 0] ++ (units.drop 11).flatMap (toLeBytes 2))

/-- The entries of a long name from the piece `seq` on, the last piece first. -/
def lfnEntries (checksum : UInt8) : Nat → List (List Nat) → List (List UInt8)
  | _, [] => []
  | seq, piece :: pieces =>
      lfnEntries checksum (seq + 1) pieces ++
        [lfnEntry (UInt8.ofNat (if pieces = [] then 0x40 + seq else seq)) checksum piece]

def aliasChecksum (shortAlias : List UInt8) : UInt8 :=
  shortAlias.foldl (fun sum b => (sum <<< 7) + (sum >>> 1) + b) 0

/-- A file in a directory: its long name, its short one, and the fields of its entry. -/
structure StoredFile where
  name : Text
  shortAlias : List UInt8
  attr : UInt8
  times : List UInt8
  writeTime : List UInt8
  startCluster : Nat
  size : Nat
  name_ne_nil : name ≠ []
  units_le : (name.flatMap utf16Units).length ≤ 255
  alias_length : shortAlias.length = 11
  alias_start : shortAlias.getD 0 0 ≠ 0 ∧ shortAlias.getD 0 0 ≠ 0xE5
  attr_file : attr &&& 0x08 = 0
  times_length : times.length = 8
  writeTime_length : writeTime.length = 4
  startCluster_lt : startCluster < 2 ^ 32
  size_lt : size < 2 ^ 32

namespace StoredFile

def shortEntry (f : StoredFile) : List UInt8 :=
  f.shortAlias ++ [f.attr] ++ f.times ++ toLeBytes 2 (f.startCluster / 2 ^ 16) ++ f.writeTime ++
    toLeBytes 2 (f.startCluster % 2 ^ 16) ++ toLeBytes 4 f.size

def encode (f : StoredFile) : List (List UInt8) :=
  lfnEntries (aliasChecksum f.shortAlias) 1 (chunks 13 (paddedUnits (f.name.flatMap utf16Units))) ++ [f.shortEntry]

def entry (f : StoredFile) (name : Text) : DirectoryEntry where
  name := name
  size := f.size
  isDir := f.attr &&& 0x10 ≠ 0
  attributes := f.attr.toNat % 0x40
  startCluster := f.startCluster
  contiguous := false

end StoredFile

/-- A character that the code units of a long name keep: one of a single unit that is neither zero nor filling. -/
def Keeps (c : Char) : Prop := 0 < c.toNat ∧ c.toNat < 0xFFFF

instance (c : Char) : Decidable (Keeps c) := inferInstanceAs (Decidable (_ ∧ _))

def decodeUnits (units : List Nat) : Text := (units.filter fun c => c ≠ 0 ∧ c ≠ 0xFFFF).filterMap charFromU32

theorem decodeUnits_append {units more : List Nat} : decodeUnits (units ++ more) = decodeUnits units ++ decodeUnits more := by
  rw [decodeUnits, List.filter_append, List.filterMap_append]
  rfl

theorem decodeUnits_padded {units : List Nat} : decodeUnits (paddedUnits units) = decodeUnits units := by
  rw [paddedUnits]
  split
  · rw [List.append_nil]
  · rw [decodeUnits_append]
    have hfill : ∀ count, decodeUnits (0 :: List.replicate count 0xFFFF) = [] := by
      intro count
      rw [decodeUnits, List.filter_cons_of_neg (by simp), List.filter_eq_nil_iff.mpr]
      · rfl
      · intro unit hunit
        rw [(List.mem_replicate.mp hunit).2]
        simp
    rw [hfill, List.append_nil]

/-- Of a character, its units give it back or nothing. -/
theorem decodeUnits_char (c : Char) : decodeUnits (utf16Units c) = if Keeps c then [c] else [] := by
  have hvalid := c.valid
  simp only [UInt32.isValidChar, Nat.isValidChar] at hvalid
  change c.toNat < 0xD800 ∨ 0xDFFF < c.toNat ∧ c.toNat < 0x110000 at hvalid
  rw [utf16Units]
  split
  · have hchar : charFromU32 c.toNat = some c := by
      rw [charFromU32, if_pos (by omega), Char.ofNat_toNat]
    rw [decodeUnits]
    by_cases hkeeps : Keeps c
    · have hpos : c.toNat ≠ 0 ∧ c.toNat ≠ 0xFFFF := ⟨by have := hkeeps.1; omega, by have := hkeeps.2; omega⟩
      rw [if_pos hkeeps, List.filter_cons_of_pos (by simpa using hpos), List.filterMap_cons_some hchar]
      rfl
    · have hlost : ¬ (c.toNat ≠ 0 ∧ c.toNat ≠ 0xFFFF) := fun h => hkeeps ⟨by omega, by omega⟩
      rw [if_neg hkeeps, List.filter_cons_of_neg (by simpa using hlost)]
      rfl
  · have hlost : ∀ unit, 0xD800 ≤ unit → unit < 0xE000 → charFromU32 unit = none := fun unit hlo hhi =>
      if_neg (by omega)
    have hkeeps : ¬ Keeps c := fun hkeeps => by
      have hsmall : c.toNat < 0xFFFF := hkeeps.2
      omega
    rw [if_neg hkeeps, decodeUnits]
    refine List.filterMap_eq_nil_iff.mpr fun unit hunit => ?_
    obtain ⟨hmem, -⟩ := List.mem_filter.mp hunit
    have hbound := char_toNat_lt c
    rcases List.mem_pair.mp hmem with hhigh | hlow
    · exact hlost unit (by omega) (by omega)
    · exact hlost unit (by omega) (by omega)

theorem decodeUnits_name {name : Text} : decodeUnits (name.flatMap utf16Units) = name.filter Keeps := by
  induction name with
  | nil => rfl
  | cons c name ih =>
      rw [List.flatMap_cons, decodeUnits_append, decodeUnits_char, ih]
      split
      · next hkeeps => rw [List.filter_cons_of_pos (by simpa using hkeeps)]; rfl
      · next hlost => rw [List.filter_cons_of_neg (by simpa using hlost)]; rfl

theorem parseLfnEntry_lfnEntry {seq checksum : UInt8} {units : List Nat} {buffer : Text} (hlength : units.length = 13)
    (hlt : ∀ unit ∈ units, unit < 2 ^ 16) : parseLfnEntry (lfnEntry seq checksum units) buffer =
      value (decodeUnits units ++ if seq &&& 0x40 ≠ 0 then [] else buffer) := by
  match units, hlength with
  | [a, b, c, d, e, f, g, h, i, j, k, l, m], _ =>
      have hunit : ∀ u ∈ [a, b, c, d, e, f, g, h, i, j, k, l, m], fromLeBytes (toLeBytes 2 u) = u := by
        intro u hu
        rw [fromLeBytes_toLeBytes]
        exact Nat.mod_eq_of_lt (hlt u hu)
      have hcodes : (lfnOffsets 32).mapM (fun offset =>
          (ofOption (readLe 2 (lfnEntry seq checksum [a, b, c, d, e, f, g, h, i, j, k, l, m]) offset) : Outcome FsError Nat)) =
            value ([a, b, c, d, e, f, g, h, i, j, k, l, m].map fun u => fromLeBytes (toLeBytes 2 u)) := rfl
      rw [List.map_congr_left hunit, List.map_id'] at hcodes
      have hfirst : (lfnEntry seq checksum [a, b, c, d, e, f, g, h, i, j, k, l, m])[0]? = some seq := rfl
      rw [parseLfnEntry, hfirst]
      exact bind_eq_value.mpr ⟨seq, rfl, bind_eq_value.mpr ⟨_, hcodes, rfl⟩⟩

theorem length_paddedUnits {units : List Nat} : (paddedUnits units).length % 13 = 0 := by
  rw [paddedUnits]
  split
  · rwa [List.append_nil]
  · rw [List.length_append, List.length_cons, List.length_replicate]
    omega

section Reading

variable {chunk : List UInt8} {before after : List (List UInt8)} {lfn : Text} {checksum : UInt8}
variable {listed rest : List DirectoryEntry × Text}

/-- Entries one after the other, as long as none of the first marks the end. -/
theorem readEntries_append (hmark : ∀ chunk ∈ before, chunk[0]? ≠ some 0) (hbefore : readEntries before lfn = value listed)
    (hafter : readEntries after listed.2 = value rest) :
    readEntries (before ++ after) lfn = value (listed.1 ++ rest.1, rest.2) := by
  induction before generalizing lfn listed with
  | nil =>
      cases hbefore
      exact hafter
  | cons chunk before ih =>
      rw [List.forall_mem_cons] at hmark
      rw [readEntries] at hbefore
      obtain ⟨first, hfirst, h⟩ := bind_eq_value.mp hbefore
      have hlive : first ≠ 0 := fun hzero => hmark.1 (by rw [ofOption_eq_value.mp hfirst, hzero])
      rw [List.cons_append, readEntries]
      refine bind_eq_value.mpr ⟨first, hfirst, ?_⟩
      rw [if_neg hlive] at h ⊢
      by_cases hdeleted : first = 0xE5
      · rw [if_pos hdeleted] at h ⊢
        exact ih hmark.2 h hafter
      rw [if_neg hdeleted] at h ⊢
      obtain ⟨attr, hattr, h⟩ := bind_eq_value.mp h
      refine bind_eq_value.mpr ⟨attr, hattr, ?_⟩
      by_cases hlong : attr = 0x0F
      · rw [if_pos hlong] at h ⊢
        obtain ⟨lfn', hparse, h⟩ := bind_eq_value.mp h
        exact bind_eq_value.mpr ⟨lfn', hparse, ih hmark.2 h hafter⟩
      rw [if_neg hlong] at h ⊢
      by_cases hlabel : attr &&& 0x08 ≠ 0
      · rw [if_pos hlabel] at h ⊢
        exact ih hmark.2 h hafter
      rw [if_neg hlabel] at h ⊢
      obtain ⟨raw, hraw, h⟩ := bind_eq_value.mp h
      obtain ⟨name, hname, h⟩ := bind_eq_value.mp h
      obtain ⟨high, hhigh, h⟩ := bind_eq_value.mp h
      obtain ⟨low, hlow, h⟩ := bind_eq_value.mp h
      obtain ⟨size, hsize, h⟩ := bind_eq_value.mp h
      obtain ⟨others, hothers, h⟩ := bind_eq_value.mp h
      refine bind_eq_value.mpr ⟨raw, hraw, bind_eq_value.mpr ⟨name, hname, bind_eq_value.mpr ⟨high, hhigh, ?_⟩⟩⟩
      refine bind_eq_value.mpr ⟨low, hlow, bind_eq_value.mpr ⟨size, hsize, ?_⟩⟩
      by_cases hdot : name = dotName ∨ name = dotDotName
      · rw [if_pos hdot] at h
        cases h
        exact bind_eq_value.mpr ⟨_, ih hmark.2 hothers hafter, if_pos hdot⟩
      · rw [if_neg hdot] at h
        cases h
        exact bind_eq_value.mpr ⟨_, ih hmark.2 hothers hafter, if_neg hdot⟩

theorem lfnEntry_attr {seq : UInt8} {units : List Nat} (hlength : units.length = 13) :
    (lfnEntry seq checksum units)[11]? = some 0x0F := by
  match units, hlength with
  | [_, _, _, _, _, _, _, _, _, _, _, _, _], _ => rfl

theorem readEntries_lfnEntry {seq : UInt8} {units : List Nat} (hseq : seq ≠ 0 ∧ seq ≠ 0xE5) (hlength : units.length = 13)
    (hlt : ∀ unit ∈ units, unit < 2 ^ 16) : readEntries [lfnEntry seq checksum units] lfn =
      value ([], decodeUnits units ++ if seq &&& 0x40 ≠ 0 then [] else lfn) := by
  rw [readEntries]
  refine bind_eq_value.mpr ⟨seq, rfl, ?_⟩
  rw [if_neg hseq.1, if_neg hseq.2, lfnEntry_attr hlength]
  refine bind_eq_value.mpr ⟨0x0F, rfl, ?_⟩
  rw [if_pos rfl]
  exact bind_eq_value.mpr ⟨_, parseLfnEntry_lfnEntry hlength hlt, rfl⟩

/-- The first byte of an entry of a long name: neither that of an end mark nor that of a deleted entry, and marked in the
last piece only. -/
theorem seq_byte {seq : Nat} (hpos : 0 < seq) (hlt : seq < 0x40) :
    (UInt8.ofNat (0x40 + seq) ≠ 0 ∧ UInt8.ofNat (0x40 + seq) ≠ 0xE5 ∧ UInt8.ofNat (0x40 + seq) &&& 0x40 ≠ 0) ∧
      UInt8.ofNat seq ≠ 0 ∧ UInt8.ofNat seq ≠ 0xE5 ∧ UInt8.ofNat seq &&& 0x40 = 0 := by
  have hall : ∀ seq < 0x40, 0 < seq →
      (UInt8.ofNat (0x40 + seq) ≠ 0 ∧ UInt8.ofNat (0x40 + seq) ≠ 0xE5 ∧ UInt8.ofNat (0x40 + seq) &&& 0x40 ≠ 0) ∧
        UInt8.ofNat seq ≠ 0 ∧ UInt8.ofNat seq ≠ 0xE5 ∧ UInt8.ofNat seq &&& 0x40 = 0 := by decide
  exact hall seq hlt hpos

theorem lfnEntries_live {pieces : List (List Nat)} {seq : Nat} (hseq : 0 < seq) (hlast : seq + pieces.length ≤ 0x40) :
    ∀ chunk ∈ lfnEntries checksum seq pieces, chunk[0]? ≠ some 0 := by
  induction pieces generalizing seq with
  | nil => exact fun chunk hchunk => absurd hchunk List.not_mem_nil
  | cons piece pieces ih =>
      rw [List.length_cons] at hlast
      obtain ⟨⟨hlastByte, -⟩, hbyte, -⟩ := seq_byte hseq (by omega)
      intro chunk hchunk
      rw [lfnEntries, List.mem_append, List.mem_singleton] at hchunk
      rcases hchunk with hrest | rfl
      · exact ih (by omega) (by omega) chunk hrest
      · show some _ ≠ some 0
        rw [Ne, Option.some.injEq]
        split
        · exact hlastByte
        · exact hbyte

/-- The entries of a long name leave the characters of its pieces, whatever stood before. -/
theorem readEntries_lfnEntries {pieces : List (List Nat)} {seq : Nat} (hpieces : pieces ≠ []) (hseq : 0 < seq)
    (hlast : seq + pieces.length ≤ 0x40) (hunits : ∀ piece ∈ pieces, piece.length = 13 ∧ ∀ unit ∈ piece, unit < 2 ^ 16) :
    readEntries (lfnEntries checksum seq pieces) lfn = value ([], decodeUnits pieces.flatten) := by
  induction pieces generalizing seq with
  | nil => exact absurd rfl hpieces
  | cons piece pieces ih =>
      rw [List.length_cons] at hlast
      rw [List.forall_mem_cons] at hunits
      obtain ⟨hfinal, hinner⟩ := seq_byte hseq (by omega)
      obtain ⟨⟨hlength, hlt⟩, hrest⟩ := hunits
      rw [lfnEntries, List.flatten_cons, decodeUnits_append]
      cases pieces with
      | nil =>
          rw [lfnEntries, List.nil_append, if_pos rfl, readEntries_lfnEntry ⟨hfinal.1, hfinal.2.1⟩ hlength hlt, if_pos hfinal.2.2]
          rfl
      | cons next pieces =>
          have hothers := ih (List.cons_ne_nil _ _) (Nat.succ_pos seq) (by omega) hrest
          have hthis := @readEntries_lfnEntry (decodeUnits (next :: pieces).flatten) checksum _ piece
            ⟨hinner.1, hinner.2.1⟩ hlength hlt
          rw [if_neg (not_not.mpr hinner.2.2)] at hthis
          rw [if_neg (List.cons_ne_nil _ _)]
          exact readEntries_append (lfnEntries_live (Nat.succ_pos seq) (by omega)) hothers hthis

end Reading

namespace StoredFile

variable {lfn : Text}

def shortName (shortAlias : List UInt8) : Text :=
  let name := trimEnd (fromUtf8Lossy (shortAlias.take 8))
  let ext := trimEnd (fromUtf8Lossy ((shortAlias.drop 8).take 3))
  if ext = [] then name else name ++ ['.'] ++ ext

/-- A file whose name survives: its characters are all kept, or are all lost and the short name says the same; and it is
not the name of a directory itself or of the one above. -/
def Shown (f : StoredFile) : Prop :=
  ((∀ c ∈ f.name, Keeps c) ∨ (∀ c ∈ f.name, ¬ Keeps c) ∧ shortName f.shortAlias = f.name) ∧
    f.name ≠ dotName ∧ f.name ≠ dotDotName

/-- The name under which a file is listed. -/
def listedName (f : StoredFile) : Text := if f.name.filter Keeps = [] then shortName f.shortAlias else f.name.filter Keeps

/-- What a file adds to the listing. -/
def listed (f : StoredFile) : List DirectoryEntry :=
  if f.listedName = dotName ∨ f.listedName = dotDotName then [] else [f.entry f.listedName]

theorem length_shortEntry (f : StoredFile) : f.shortEntry.length = 32 := by
  simp [shortEntry, f.alias_length, f.times_length, f.writeTime_length]

theorem getElem?_shortEntry_zero (f : StoredFile) : f.shortEntry[0]? = some (f.shortAlias.getD 0 0) := by
  have halias := f.alias_length
  rw [shortEntry, List.append_assoc, List.append_assoc, List.append_assoc, List.append_assoc, List.append_assoc,
    List.getElem?_append_left (by omega), List.getD_eq_getElem?_getD, List.getElem?_eq_getElem (by omega), Option.getD_some]

theorem readEntries_shortEntry (f : StoredFile) (hname : lfn = f.name.filter Keeps) :
    readEntries [f.shortEntry] lfn = value (f.listed, []) := by
  have halias := f.alias_length
  have htimes := f.times_length
  have hwrite := f.writeTime_length
  have hcluster := f.startCluster_lt
  have hhigh : readLe 2 f.shortEntry 20 = some (f.startCluster / 2 ^ 16) := by
    rw [shortEntry, List.append_assoc, List.append_assoc, List.append_assoc]
    exact readLe_append (by simp [halias, htimes]) (by omega)
  have hlow : readLe 2 f.shortEntry 26 = some (f.startCluster % 2 ^ 16) := by
    rw [shortEntry, List.append_assoc]
    exact readLe_append (by simp [halias, htimes, hwrite]) (by omega)
  have hsize : readLe 4 f.shortEntry 28 = some f.size := by
    rw [shortEntry, ← List.append_nil (toLeBytes 4 f.size)]
    exact readLe_append (by simp [halias, htimes, hwrite]) f.size_lt
  have hattr : f.shortEntry[11]? = some f.attr := by
    rw [shortEntry, List.append_assoc, List.append_assoc, List.append_assoc, List.append_assoc, List.append_assoc,
      List.getElem?_append_right (by omega), halias]
    rfl
  have hraw : slice f.shortEntry 0 11 = some f.shortAlias := by
    rw [slice_eq_some (by rw [length_shortEntry]; omega), List.drop_zero, shortEntry, List.append_assoc, List.append_assoc,
      List.append_assoc, List.append_assoc, List.append_assoc, List.take_left' halias]
  have hshort : entryName f.shortAlias lfn = (value f.listedName : Outcome FsError Text) := by
    rw [entryName, hname, listedName]
    split
    · rw [parseShortName, slice_eq_some (by omega), slice_eq_some (by omega)]
      rfl
    · rfl
  have hlong : f.attr ≠ 0x0F := fun h => by
    have hfile := f.attr_file
    rw [h] at hfile
    exact absurd hfile (by decide)
  rw [readEntries]
  refine bind_eq_value.mpr ⟨_, ofOption_eq_value.mpr f.getElem?_shortEntry_zero, ?_⟩
  rw [if_neg f.alias_start.1, if_neg f.alias_start.2]
  refine bind_eq_value.mpr ⟨_, ofOption_eq_value.mpr hattr, ?_⟩
  rw [if_neg hlong, if_neg (not_not.mpr f.attr_file)]
  refine bind_eq_value.mpr ⟨_, ofOption_eq_value.mpr hraw, bind_eq_value.mpr ⟨_, hshort, ?_⟩⟩
  refine bind_eq_value.mpr ⟨_, ofOption_eq_value.mpr hhigh, bind_eq_value.mpr ⟨_, ofOption_eq_value.mpr hlow, ?_⟩⟩
  refine bind_eq_value.mpr ⟨_, ofOption_eq_value.mpr hsize, bind_eq_value.mpr ⟨_, rfl, ?_⟩⟩
  rw [listed]
  split
  · rfl
  · have hjoin : f.startCluster / 2 ^ 16 * 2 ^ 16 + f.startCluster % 2 ^ 16 = f.startCluster := by omega
    rw [hjoin]
    rfl

theorem pieces_units (f : StoredFile) : ∀ piece ∈ chunks 13 (paddedUnits (f.name.flatMap utf16Units)),
    piece.length = 13 ∧ ∀ unit ∈ piece, unit < 2 ^ 16 := by
  intro piece hpiece
  refine ⟨length_of_mem_chunks length_paddedUnits hpiece, fun unit hunit => ?_⟩
  have hmem : unit ∈ paddedUnits (f.name.flatMap utf16Units) := by
    rw [← @flatten_chunks _ 13 (paddedUnits _) (by decide)]
    exact List.mem_flatten.mpr ⟨piece, hpiece, hunit⟩
  rw [paddedUnits, List.mem_append] at hmem
  rcases hmem with hname | hfill
  · obtain ⟨c, -, hc⟩ := List.mem_flatMap.mp hname
    exact utf16Units_lt hc
  · split at hfill
    · exact absurd hfill List.not_mem_nil
    · rcases List.mem_cons.mp hfill with rfl | hfill
      · decide
      · rw [(List.mem_replicate.mp hfill).2]
        decide

theorem utf16Units_ne_nil (c : Char) : utf16Units c ≠ [] := by
  rw [utf16Units]
  split <;> exact List.cons_ne_nil _ _

theorem pieces_ne_nil (f : StoredFile) : chunks 13 (paddedUnits (f.name.flatMap utf16Units)) ≠ [] := by
  intro hempty
  have hflat := @flatten_chunks _ 13 (paddedUnits (f.name.flatMap utf16Units)) (by decide)
  rw [hempty, List.flatten_nil, paddedUnits] at hflat
  have hunits := (List.append_eq_nil_iff.mp hflat.symm).1
  obtain ⟨c, name, hname⟩ := List.exists_cons_of_ne_nil f.name_ne_nil
  rw [hname, List.flatMap_cons] at hunits
  exact utf16Units_ne_nil c (List.append_eq_nil_iff.mp hunits).1

theorem pieces_le (f : StoredFile) : 1 + (chunks 13 (paddedUnits (f.name.flatMap utf16Units))).length ≤ 0x40 := by
  have hunits := f.units_le
  have hpadded : (paddedUnits (f.name.flatMap utf16Units)).length ≤ 268 := by
    rw [paddedUnits, List.length_append]
    split
    · rw [List.length_nil]
      omega
    · rw [List.length_cons, List.length_replicate]
      omega
  rw [chunks, List.length_map, List.length_range]
  omega

theorem encode_live (f : StoredFile) : ∀ chunk ∈ f.encode, chunk[0]? ≠ some 0 := by
  intro chunk hchunk
  rw [encode, List.mem_append, List.mem_singleton] at hchunk
  rcases hchunk with hlong | rfl
  · exact lfnEntries_live Nat.one_pos f.pieces_le chunk hlong
  · rw [getElem?_shortEntry_zero, Ne, Option.some.injEq]
    exact f.alias_start.1

/-- The entries of a file, whatever stood before them, list the file under the characters that its units keep. -/
theorem readEntries_encode (f : StoredFile) : readEntries f.encode lfn = value (f.listed, []) := by
  have hlong := @readEntries_lfnEntries lfn (aliasChecksum f.shortAlias) _ 1 f.pieces_ne_nil Nat.one_pos f.pieces_le f.pieces_units
  rw [flatten_chunks (by decide), decodeUnits_padded, decodeUnits_name] at hlong
  have hread := readEntries_append (lfnEntries_live Nat.one_pos f.pieces_le) hlong (f.readEntries_shortEntry rfl)
  exact hread

theorem listedName_eq_iff (f : StoredFile) : f.listedName = f.name ↔
    (∀ c ∈ f.name, Keeps c) ∨ (∀ c ∈ f.name, ¬ Keeps c) ∧ shortName f.shortAlias = f.name := by
  have hnil : f.name.filter Keeps = [] ↔ ∀ c ∈ f.name, ¬ Keeps c := by simp [List.filter_eq_nil_iff]
  have hself : f.name.filter Keeps = f.name ↔ ∀ c ∈ f.name, Keeps c := by simp [List.filter_eq_self]
  rw [listedName]
  split
  · next hempty =>
      obtain ⟨c, name, hname⟩ := List.exists_cons_of_ne_nil f.name_ne_nil
      have hlost := hnil.mp hempty
      refine ⟨fun h => .inr ⟨hlost, h⟩, ?_⟩
      rintro (hall | ⟨-, h⟩)
      · have hc : c ∈ f.name := by rw [hname]; exact List.mem_cons_self
        exact absurd (hall c hc) (hlost c hc)
      · exact h
  · next hsome =>
      rw [hself]
      exact ⟨.inl, fun h => h.resolve_right fun hlost => hsome (hnil.mpr hlost.1)⟩

theorem listed_eq_iff (f : StoredFile) : f.listed = [f.entry f.name] ↔ f.Shown := by
  rw [listed, Shown, ← listedName_eq_iff]
  split
  · next hdot =>
      refine ⟨fun h => (nomatch h), ?_⟩
      rintro ⟨hname, hne⟩
      rw [hname] at hdot
      exact absurd hdot (not_or.mpr hne)
  · next hdot =>
      constructor
      · intro h
        have hname : f.listedName = f.name := congrArg DirectoryEntry.name (List.singleton_inj.mp h)
        rw [hname] at hdot
        exact ⟨hname, not_or.mp hdot⟩
      · rintro ⟨hname, -⟩
        rw [hname]

theorem length_listed_le (f : StoredFile) : f.listed.length ≤ 1 := by
  rw [listed]
  split
  · exact Nat.zero_le 1
  · exact Nat.le_refl 1

/-- Each file is listed under its name, when all are in order. -/
theorem flatMap_listed_iff {files : List StoredFile} :
    files.flatMap listed = (files.map fun f => f.entry f.name) ↔ ∀ f ∈ files, f.Shown := by
  induction files with
  | nil => exact ⟨fun _ f hf => absurd hf List.not_mem_nil, fun _ => rfl⟩
  | cons f files ih =>
      rw [List.flatMap_cons, List.map_cons, List.forall_mem_cons, ← ih, ← listed_eq_iff]
      constructor
      · intro h
        have hle : (files.flatMap listed).length ≤ files.length := by
          clear h ih
          induction files with
          | nil => exact Nat.le_refl 0
          | cons g files ih =>
              rw [List.flatMap_cons, List.length_append, List.length_cons]
              have := g.length_listed_le
              omega
        have hlength := congrArg List.length h
        rw [List.length_append, List.length_cons, List.length_map] at hlength
        have hone := f.length_listed_le
        obtain ⟨e, he⟩ := List.length_eq_one_iff.mp (show f.listed.length = 1 by omega)
        rw [he, List.singleton_append] at h
        obtain ⟨hhead, htail⟩ := List.cons.inj h
        exact ⟨by rw [he, hhead], htail⟩
      · rintro ⟨hhead, htail⟩
        rw [hhead, htail]
        rfl

end StoredFile

/-- What is stored in a directory up to its end: a file, or a deleted entry behind its first byte. -/
inductive DirItem where
  | file (f : StoredFile)
  | deleted (rest : List UInt8)

namespace DirItem

def encode : DirItem → List (List UInt8)
  | file f => f.encode
  | deleted rest => [0xE5 :: rest]

def files : List DirItem → List StoredFile
  | [] => []
  | file f :: items => f :: files items
  | deleted _ :: items => files items

theorem encode_live (item : DirItem) : ∀ chunk ∈ item.encode, chunk[0]? ≠ some 0 := by
  cases item with
  | file f => exact f.encode_live
  | deleted rest =>
      intro chunk hchunk
      rw [List.mem_singleton.mp hchunk]
      show some (0xE5 : UInt8) ≠ some 0
      decide

theorem readEntries_encode (items : List DirItem) :
    readEntries (items.flatMap encode) [] = value ((files items).flatMap StoredFile.listed, []) := by
  induction items with
  | nil => rfl
  | cons item items ih =>
      rw [List.flatMap_cons]
      cases item with
      | file f => exact readEntries_append f.encode_live f.readEntries_encode ih
      | deleted rest => exact @readEntries_append _ _ _ ([], []) _ (encode_live (deleted rest)) rfl ih

end DirItem

/-- The entries of clusters one after the other, with the long name read at their end. -/
def listClusters : List (List (List UInt8)) → Text → Outcome FsError (List DirectoryEntry × Text)
  | [], lfn => pure ([], lfn)
  | cluster :: clusters, lfn => do
      let listed ← readEntries cluster lfn
      let others ← listClusters clusters listed.2
      pure (listed.1 ++ others.1, others.2)

def listing (clusters : List (List (List UInt8))) : Outcome FsError (List DirectoryEntry) :=
  Prod.fst <$> listClusters clusters []

/-- A directory laid out over clusters: its items split anywhere, and where there is an end mark anything behind it, in
its cluster and in later ones. -/
inductive Layout (items : List DirItem) : List (List (List UInt8)) → List (List (List UInt8)) → Prop
  | full {clusters} (h : clusters.flatten = items.flatMap DirItem.encode) : Layout items clusters []
  | ended {early last mark junk later} (h : (early ++ [last]).flatten = items.flatMap DirItem.encode)
      (hmark : mark[0]? = some 0) : Layout items (early ++ [last ++ mark :: junk]) later

section Clusters

variable {clusters later : List (List (List UInt8))} {cs : List (List UInt8)} {lfn : Text} {items : List DirItem}
variable {listed rest : List DirectoryEntry × Text}

theorem listClusters_append (hfirst : listClusters clusters lfn = value listed) (hrest : listClusters later listed.2 = value rest) :
    listClusters (clusters ++ later) lfn = value (listed.1 ++ rest.1, rest.2) := by
  induction clusters generalizing lfn listed with
  | nil =>
      cases hfirst
      exact hrest
  | cons cluster clusters ih =>
      obtain ⟨first, hread, h⟩ := bind_eq_value.mp hfirst
      obtain ⟨others, hothers, h⟩ := bind_eq_value.mp h
      cases h
      refine bind_eq_value.mpr ⟨first, hread, bind_eq_value.mpr ⟨_, ih hothers hrest, ?_⟩⟩
      rw [List.append_assoc]
      rfl

theorem returns_listClusters (h : ∀ chunk ∈ clusters.flatten, chunk.length = 32) : (listClusters clusters lfn).Returns := by
  induction clusters generalizing lfn with
  | nil => exact returns_pure
  | cons cluster clusters ih =>
      rw [List.flatten_cons, List.forall_mem_append] at h
      refine (returns_readEntries h.1).bind fun listed _ => ?_
      exact (ih h.2).bind fun others _ => returns_pure

/-- How entries are split over clusters makes no difference. -/
theorem listClusters_live (hlength : ∀ chunk ∈ clusters.flatten, chunk.length = 32)
    (hlive : ∀ chunk ∈ clusters.flatten, chunk[0]? ≠ some 0) :
    listClusters clusters lfn = readEntries clusters.flatten lfn := by
  induction clusters generalizing lfn with
  | nil => rfl
  | cons cluster clusters ih =>
      rw [List.flatten_cons, List.forall_mem_append] at hlength hlive
      obtain ⟨first, hfirst⟩ := @returns_readEntries cluster lfn hlength.1
      obtain ⟨others, hothers⟩ := @returns_readEntries clusters.flatten first.2 hlength.2
      rw [List.flatten_cons, readEntries_append hlive.1 hfirst hothers]
      exact bind_eq_value.mpr ⟨first, hfirst, bind_eq_value.mpr ⟨others, (ih hlength.2 hlive.2).trans hothers, rfl⟩⟩

theorem listClusters_layout (h : Layout items clusters later) (hlength : ∀ chunk ∈ clusters.flatten, chunk.length = 32) :
    listClusters clusters [] = value ((DirItem.files items).flatMap StoredFile.listed, []) := by
  have hitems : ∀ chunk ∈ items.flatMap DirItem.encode, chunk[0]? ≠ some 0 := fun chunk hchunk => by
    obtain ⟨item, -, hmem⟩ := List.mem_flatMap.mp hchunk
    exact item.encode_live chunk hmem
  cases h with
  | full h => rw [listClusters_live hlength (by rwa [h]), h, DirItem.readEntries_encode]
  | @ended early last mark junk later h hmark =>
      rw [List.flatten_append, List.flatten_singleton, ← List.append_assoc, List.forall_mem_append,
        List.forall_mem_append] at hlength
      rw [List.flatten_append, List.flatten_singleton] at h
      rw [← h, List.forall_mem_append] at hitems
      obtain ⟨first, hfirst⟩ := @returns_readEntries early.flatten [] hlength.1.1
      obtain ⟨second, hsecond⟩ := @returns_readEntries last first.2 hlength.1.2
      have hwhole := readEntries_append hitems.1 hfirst hsecond
      rw [h, DirItem.readEntries_encode] at hwhole
      have hend : readEntries (mark :: junk) second.2 = value ([], second.2) :=
        bind_eq_value.mpr ⟨0, ofOption_eq_value.mpr hmark, if_pos rfl⟩
      have hlast : listClusters [last ++ mark :: junk] first.2 = value second := by
        refine bind_eq_value.mpr ⟨_, readEntries_append hitems.2 hsecond hend, bind_eq_value.mpr ⟨_, rfl, ?_⟩⟩
        rw [List.append_nil, List.append_nil]
        rfl
      rw [hwhole]
      exact listClusters_append ((listClusters_live hlength.1.1 hitems.1).trans hfirst) hlast

/-- Entries of a cluster that are not listed, behind some long name: all those before an end mark are deleted, pieces of
long names, labels, or named as a directory itself or the one above. -/
def UnlistedIn : List (List UInt8) → Text → Prop
  | [], _ => True
  | chunk :: chunks, lfn =>
      if chunk.getD 0 0 = 0 then True
      else if chunk.getD 0 0 = 0xE5 then UnlistedIn chunks []
      else if chunk.getD 11 0 = 0x0F then ∀ lfn', parseLfnEntry chunk lfn = value lfn' → UnlistedIn chunks lfn'
      else if chunk.getD 11 0 &&& 0x08 ≠ 0 then UnlistedIn chunks []
      else (∀ name, entryName (chunk.take 11) lfn = value name → name = dotName ∨ name = dotDotName) ∧ UnlistedIn chunks []

def Unlisted : List (List (List UInt8)) → Text → Prop
  | [], _ => True
  | cluster :: clusters, lfn =>
      UnlistedIn cluster lfn ∧ ∀ listed, readEntries cluster lfn = value listed → Unlisted clusters listed.2

theorem unlistedIn_iff (hlength : ∀ chunk ∈ cs, chunk.length = 32) (h : readEntries cs lfn = value listed) :
    listed.1 = [] ↔ UnlistedIn cs lfn := by
  induction cs generalizing lfn listed with
  | nil =>
      cases h
      exact ⟨fun _ => trivial, fun _ => rfl⟩
  | cons chunk cs ih =>
      rw [List.forall_mem_cons] at hlength
      obtain ⟨hchunk, hlength⟩ := hlength
      have hbyte : ∀ {i : Nat} {b : UInt8}, (ofOption chunk[i]? : Outcome FsError UInt8) = value b → chunk.getD i 0 = b := by
        intro i b hb
        rw [List.getD_eq_getElem?_getD, ofOption_eq_value.mp hb, Option.getD_some]
      obtain ⟨first, hfirst, h⟩ := bind_eq_value.mp h
      rw [UnlistedIn, hbyte hfirst]
      by_cases hmark : first = 0
      · rw [if_pos hmark] at h ⊢
        cases h
        exact ⟨fun _ => trivial, fun _ => rfl⟩
      rw [if_neg hmark] at h ⊢
      by_cases hdeleted : first = 0xE5
      · rw [if_pos hdeleted] at h ⊢
        exact ih hlength h
      rw [if_neg hdeleted] at h ⊢
      obtain ⟨attr, hattr, h⟩ := bind_eq_value.mp h
      rw [hbyte hattr]
      by_cases hlong : attr = 0x0F
      · rw [if_pos hlong] at h ⊢
        obtain ⟨lfn', hparse, h⟩ := bind_eq_value.mp h
        rw [ih hlength h]
        refine ⟨fun hrest other hother => ?_, fun hrest => hrest lfn' hparse⟩
        rw [hparse, value.injEq] at hother
        rwa [← hother]
      rw [if_neg hlong] at h ⊢
      by_cases hlabel : attr &&& 0x08 ≠ 0
      · rw [if_pos hlabel] at h ⊢
        exact ih hlength h
      rw [if_neg hlabel] at h ⊢
      obtain ⟨raw, hraw, h⟩ := bind_eq_value.mp h
      obtain ⟨name, hname, h⟩ := bind_eq_value.mp h
      obtain ⟨high, -, h⟩ := bind_eq_value.mp h
      obtain ⟨low, -, h⟩ := bind_eq_value.mp h
      obtain ⟨size, -, h⟩ := bind_eq_value.mp h
      obtain ⟨others, hothers, h⟩ := bind_eq_value.mp h
      have htake : raw = chunk.take 11 := by
        have hslice := ofOption_eq_value.mp hraw
        rw [slice_eq_some (by omega), List.drop_zero, Option.some.injEq] at hslice
        exact hslice.symm
      rw [← htake, hname]
      by_cases hdot : name = dotName ∨ name = dotDotName
      · rw [if_pos hdot] at h
        cases h
        rw [ih hlength hothers]
        refine ⟨fun hrest => ⟨fun other hother => ?_, hrest⟩, fun hrest => hrest.2⟩
        rw [value.injEq] at hother
        rwa [← hother]
      · rw [if_neg hdot] at h
        cases h
        exact ⟨fun hnil => absurd hnil (List.cons_ne_nil _ _), fun hrest => absurd (hrest.1 name rfl) hdot⟩

theorem unlisted_iff (hlength : ∀ chunk ∈ later.flatten, chunk.length = 32) (h : listClusters later lfn = value listed) :
    listed.1 = [] ↔ Unlisted later lfn := by
  induction later generalizing lfn listed with
  | nil =>
      cases h
      exact ⟨fun _ => trivial, fun _ => rfl⟩
  | cons cluster later ih =>
      rw [List.flatten_cons, List.forall_mem_append] at hlength
      obtain ⟨first, hread, h⟩ := bind_eq_value.mp h
      obtain ⟨others, hothers, h⟩ := bind_eq_value.mp h
      cases h
      rw [Unlisted, List.append_eq_nil_iff, unlistedIn_iff hlength.1 hread, ih hlength.2 hothers]
      refine and_congr_right fun _ => ⟨fun hrest listed hlisted => ?_, fun hrest => hrest first hread⟩
      rw [hread, value.injEq] at hlisted
      rwa [← hlisted]

end Clusters

/-- The chain of clusters from a number on holds the given data, one cluster after the other. -/
def Stores (fs : Fat32) : Nat → List (List UInt8) → Prop
  | _, [] => False
  | cluster, [data] =>
      fs.readCluster cluster = .ok data ∧ ∃ entry, fs.getNextCluster cluster = .ok entry ∧ endOfChain ≤ entry
  | cluster, data :: next :: rest =>
      fs.readCluster cluster = .ok data ∧
        ∃ entry, fs.getNextCluster cluster = .ok entry ∧ entry < endOfChain ∧ Stores fs entry (next :: rest)

variable {fs : Fat32} {items : List DirItem} {clusters later : List (List (List UInt8))} {data : List (List UInt8)}

theorem length_of_stores {cluster : Nat} (hblock : fs.io.blockSize % 32 = 0) (h : fs.Stores cluster data) :
    ∀ chunk ∈ (data.map (chunks 32)).flatten, chunk.length = 32 := by
  induction data generalizing cluster with
  | nil => exact h.elim
  | cons first data ih =>
      rw [List.map_cons, List.flatten_cons, List.forall_mem_append]
      cases data with
      | nil => exact ⟨chunks_readCluster hblock h.1, fun chunk hchunk => absurd hchunk List.not_mem_nil⟩
      | cons second data =>
          obtain ⟨hread, entry, -, -, hrest⟩ := h
          exact ⟨chunks_readCluster hblock hread, ih hrest⟩

/-- A walk over stored clusters lists their entries. -/
theorem walk_of_stores {cluster : Nat} {lfn : Text} (hblock : fs.io.blockSize % 32 = 0) (h : fs.Stores cluster data) :
    ∃ fuel, walk fs.directoryRound fuel (cluster, lfn) = some (Prod.fst <$> listClusters (data.map (chunks 32)) lfn) := by
  induction data generalizing cluster lfn with
  | nil => exact h.elim
  | cons first data ih =>
      cases data with
      | nil =>
          obtain ⟨hread, entry, hentry, hlast⟩ := h
          obtain ⟨listed, hlisted⟩ := @returns_readEntries (chunks 32 first) lfn (chunks_readCluster hblock hread)
          refine ⟨1, ?_⟩
          have hround : fs.directoryRound (cluster, lfn) = value (listed.1, none) := by
            rw [directoryRound, hread, ofExcept_ok, value_bind, hlisted, value_bind, hentry, ofExcept_ok, value_bind,
              if_pos hlast]
            rfl
          have hlist : listClusters [chunks 32 first] lfn = value listed := by
            refine bind_eq_value.mpr ⟨listed, hlisted, bind_eq_value.mpr ⟨_, rfl, ?_⟩⟩
            rw [List.append_nil]
            rfl
          rw [walk, hround, List.map_cons, List.map_nil, hlist]
          rfl
      | cons second data =>
          obtain ⟨hread, entry, hentry, hmore, hrest⟩ := h
          obtain ⟨listed, hlisted⟩ := @returns_readEntries (chunks 32 first) lfn (chunks_readCluster hblock hread)
          obtain ⟨fuel, hwalk⟩ := @ih entry listed.2 hrest
          obtain ⟨others, hothers⟩ := @returns_listClusters ((second :: data).map (chunks 32)) listed.2
            (length_of_stores hblock hrest)
          refine ⟨fuel + 1, ?_⟩
          have hround : fs.directoryRound (cluster, lfn) = value (listed.1, some (entry, listed.2)) := by
            rw [directoryRound, hread, ofExcept_ok, value_bind, hlisted, value_bind, hentry, ofExcept_ok, value_bind,
              if_neg (by omega)]
            rfl
          have hlist : listClusters ((first :: second :: data).map (chunks 32)) lfn =
              value (listed.1 ++ others.1, others.2) :=
            bind_eq_value.mpr ⟨listed, hlisted, bind_eq_value.mpr ⟨others, hothers, rfl⟩⟩
          rw [walk, hround, hlist]
          dsimp only
          rw [hwalk, hothers]
          rfl

/-- A directory that is stored in a chain of clusters lists its files up to the end mark under their names just when the
names survive, and nothing from behind the mark just when no later cluster has an entry to list. -/
theorem long_names_iff (fs : Fat32) (hblock : fs.io.blockSize % 32 = 0) (cluster : Nat) (data : List (List UInt8))
    (hstores : fs.Stores cluster data) (items : List DirItem) (clusters later : List (List (List UInt8)))
    (hlayout : Layout items clusters later) (hdata : data.map (chunks 32) = clusters ++ later) :
    (∃ fuel, fs.walkDirectory fuel cluster = some (listing (clusters ++ later))) ∧
      (listing clusters = value ((DirItem.files items).map fun f => f.entry f.name) ∧
          listing (clusters ++ later) = listing clusters ↔
        (∀ f ∈ DirItem.files items, f.Shown) ∧ Unlisted later []) := by
  have hlength := length_of_stores hblock hstores
  rw [hdata, List.flatten_append, List.forall_mem_append] at hlength
  have hclusters := listClusters_layout hlayout hlength.1
  obtain ⟨behind, hbehind⟩ := @returns_listClusters later [] hlength.2
  have hall := listClusters_append hclusters hbehind
  refine ⟨?_, ?_⟩
  · rw [← hdata]
    exact walk_of_stores hblock hstores
  · have hfiles : listing clusters = value ((DirItem.files items).flatMap StoredFile.listed) := by
      rw [listing, hclusters]
      rfl
    have hwhole : listing (clusters ++ later) = value ((DirItem.files items).flatMap StoredFile.listed ++ behind.1) := by
      rw [listing, hall]
      rfl
    rw [hwhole, hfiles, value.injEq, value.injEq, StoredFile.flatMap_listed_iff, ← unlisted_iff hlength.2 hbehind,
      List.append_right_eq_self]

/-- A file whose long name is one piece. -/
def storedNamed (name : Text) (hne : name ≠ []) (hunits : (name.flatMap utf16Units).length ≤ 255) : StoredFile where
  name := name
  shortAlias := [0x41, 0x7E, 0x31, 0x20, 0x20, 0x20, 0x20, 0x20, 0x20, 0x20, 0x20]
  attr := 0x20
  times := List.replicate 8 0
  writeTime := List.replicate 4 0
  startCluster := 9
  size := 5
  name_ne_nil := hne
  units_le := hunits
  alias_length := rfl
  alias_start := by decide
  attr_file := by decide
  times_length := rfl
  writeTime_length := rfl
  startCluster_lt := by decide
  size_lt := by decide

def bmpFile : StoredFile := storedNamed ['a'] (by decide) (by decide)

def astralFile : StoredFile := storedNamed [Char.ofNat 0x1F600, 'a'] (by decide) (by decide)

/-- A volume with clusters of one entry, and a table that links four clusters from cluster 2 on. -/
def entryVolume (entries : List (List UInt8)) : Fat32 where
  io := {
    blockSize := 32
    totalBlocks := 5
    bytes := fun i => (([0, 0, 0, 0, 0, 0, 0, 0, 3, 0, 0, 0, 4, 0, 0, 0, 5, 0, 0, 0, 0xFF, 0xFF, 0xFF, 0x0F] ++
      List.replicate 8 0 ++ entries.flatten : List UInt8)).getD i 0
    blockSize_lt := by decide
    totalBlocks_lt := Words.five_lt_u64 }
  sectorsPerCluster := 1
  fatStart := 0
  dataStart := 1
  rootCluster := 2
  totalClusters := 4
  blockSize_pos := Nat.succ_pos 31
  sectorsPerCluster_pos := Nat.one_pos

theorem bmpFiles_stored : (entryVolume (bmpFile.encode ++ bmpFile.encode)).Stores 2 (bmpFile.encode ++ bmpFile.encode) :=
  ⟨by decide +kernel, 3, by decide +kernel, by decide, by decide +kernel, 4, by decide +kernel,
    by decide, by decide +kernel, 5, by decide +kernel, by decide, by decide +kernel,
    0x0FFFFFFF, by decide +kernel, by decide⟩

theorem bmpFiles_listed : ∃ fuel, (entryVolume (bmpFile.encode ++ bmpFile.encode)).walkDirectory fuel 2 =
    some (value [bmpFile.entry ['a'], bmpFile.entry ['a']]) := by
  have hlayout : Layout [.file bmpFile, .file bmpFile] ((bmpFile.encode ++ bmpFile.encode).map fun chunk => [chunk]) [] :=
    .full (by decide +kernel)
  have hkeeps : ∀ c ∈ bmpFile.name, Keeps c := fun c hc => by
    rw [List.mem_singleton.mp hc]
    decide
  have hshown : bmpFile.Shown := ⟨.inl hkeeps, by decide, by decide⟩
  obtain ⟨⟨fuel, hwalk⟩, hiff⟩ := long_names_iff _ rfl 2 _ bmpFiles_stored _ _ [] hlayout (by decide +kernel)
  obtain ⟨hlist, -⟩ := hiff.mpr ⟨by simpa [DirItem.files] using hshown, trivial⟩
  rw [List.append_nil, hlist] at hwalk
  exact ⟨fuel, hwalk⟩

/-- A file is listed without the character outside the basic plane, and an entry behind the end mark is listed. -/
theorem astralFile_misnamed :
    (entryVolume (astralFile.encode ++ [List.replicate 32 0, bmpFile.shortEntry])).walkDirectory 4 2 =
        some (value [astralFile.entry ['a'], bmpFile.entry ['A', '~', '1']]) ∧
      astralFile.name = [Char.ofNat 0x1F600, 'a'] ∧
      (entryVolume (astralFile.encode ++ [List.replicate 32 0, bmpFile.shortEntry])).Stores 2
        (astralFile.encode ++ [List.replicate 32 0, bmpFile.shortEntry]) ∧
      Layout [.file astralFile] [[astralFile.encode.head (by decide)], [astralFile.shortEntry], [List.replicate 32 0]]
        [[bmpFile.shortEntry]] := by
  refine ⟨by decide +kernel, rfl, ?_, ?_⟩
  · exact ⟨by decide +kernel, 3, by decide +kernel, by decide, by decide +kernel, 4, by decide +kernel,
      by decide, by decide +kernel, 5, by decide +kernel, by decide, by decide +kernel,
      0x0FFFFFFF, by decide +kernel, by decide⟩
  · exact @Layout.ended _ [[astralFile.encode.head (by decide)], [astralFile.shortEntry]] [] (List.replicate 32 0) [] _
      (by decide +kernel) rfl

end Fat32

end NextBoot.Fs
