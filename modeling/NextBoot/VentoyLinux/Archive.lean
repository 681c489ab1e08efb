import NextBoot.VentoyLinux.Cpio

namespace NextBoot.VentoyLinux

open Newc Results Strings Words

variable {archive payload rest name contents : List UInt8} {entry trailer : Entry} {entries done : List Entry}
  {builder builder' : NewcArchiveBuilder} {file : Text × List UInt8} {files : List (Text × List UInt8)}

/-- A base archive and its entries: an empty one, or entries up to a trailer. A slice is no longer than `isizeMax`. -/
structure IsArchive (archive : List UInt8) (entries : List Entry) : Prop where
  length_le : archive.length ≤ isizeMax
  reads : archive = [] ∧ entries = [] ∨ ∃ located tail trailer, readArchive archive = some (located, tail) ∧
    located.map Prod.snd = entries ++ [trailer]

/-- The length of an entry with its padding. -/
def entrySize (name contents : List UInt8) : Nat := alignUp4 (headerLen + (name.length + 1)) + alignUp4 contents.length

/-- A file that an archive takes. -/
structure Accepted (file : Text × List UInt8) : Prop where
  nul : 0 ∉ utf8 file.1
  name_lt : (utf8 file.1).length + 1 < 2 ^ 32
  contents_lt : file.2.length < 2 ^ 32

/-- An archive that reads as entries, then files, then one trailer, each at a multiple of four, with zeros behind. -/
structure Holds (archive : List UInt8) (entries : List Entry) (files : List (Text × List UInt8)) : Prop where
  length_mod : archive.length % 512 = 0
  reads : ∃ located tail added trailer, readArchive archive = some (located, tail) ∧
    located.map Prod.snd = entries ++ added ++ [trailer] ∧
    added.map (fun entry => (entry.name, entry.header.mode, entry.data)) =
      files.map (fun file => (utf8 file.1, 0o100777, file.2)) ∧
    trailer.name = trailerName ∧ (∀ entry ∈ entries ++ added, entry.name ≠ trailerName) ∧
    (∀ p ∈ located, p.1 % 4 = 0) ∧ ∀ b ∈ tail, b = 0

theorem isUtf8_utf8 (text : Text) : IsUtf8 (utf8 text) := ⟨text, rfl⟩

theorem utf8_cpioTrailer : utf8 cpioTrailer = trailerName := by decide +kernel

/-- The payload of an archive ends where its trailer starts. -/
theorem payloadEndFrom_eq {rounds : Nat} {before : List UInt8} (h : Spells payload entries)
    (htrailer : readEntry rest = some trailer) (hname : trailer.name = trailerName) (hbefore : before.length % 4 = 0)
    (hlen : (before ++ (payload ++ rest)).length ≤ isizeMax) (hrounds : payload.length < rounds) :
    payloadEndFrom (before ++ (payload ++ rest)) rounds before.length =
      if ∀ entry ∈ entries, IsUtf8 entry.name then .ok (before.length + payload.length) else .error .invalidArchive := by
  have hpos : ∀ {e : Entry} {bytes : List UInt8}, readEntry bytes = some e → 0 < bytes.length := by
    intro e bytes hread
    have hlen := (readEntry_eq_some.mp hread).2.2.2.2
    have hpos := entryLen_pos e.header
    omega
  induction h generalizing rounds before with
  | nil =>
      obtain ⟨rounds, rfl⟩ := Nat.exists_eq_add_one.mpr hrounds
      have hrest := hpos htrailer
      have hread : readEntry ((before ++ ([] ++ rest)).drop before.length) = some trailer := by
        rw [List.drop_left, List.nil_append]
        exact htrailer
      have hin : refuseIf ((before ++ ([] ++ rest)).length ≤ before.length) VentoyLinuxInitrdError.invalidArchive = .ok () :=
        refuseIf_eq_ok.mpr (by rw [List.length_append, List.nil_append]; omega)
      rw [payloadEndFrom, hin, ok_bind, parseEntry_eq hread hbefore hlen, hname, ← utf8_cpioTrailer,
        if_pos (isUtf8_utf8 _), ok_bind, if_pos rfl, if_pos (fun _ h => absurd h List.not_mem_nil)]
      rfl
  | @cons bytes others entry entries h hlength hne _ ih =>
      have hmod := entryLen_mod entry.header
      have hbytes := hpos h
      rw [List.length_append] at hrounds
      obtain ⟨rounds, rfl⟩ := Nat.exists_eq_add_one.mpr (show 0 < rounds by omega)
      have hread : readEntry ((before ++ (bytes ++ others ++ rest)).drop before.length) = some entry := by
        rw [List.drop_left, List.append_assoc]
        exact (readEntry_append hlength.ge).mpr h
      have hin : refuseIf ((before ++ (bytes ++ others ++ rest)).length ≤ before.length)
          VentoyLinuxInitrdError.invalidArchive = .ok () :=
        refuseIf_eq_ok.mpr (by rw [List.length_append, List.length_append, List.length_append]; omega)
      rw [payloadEndFrom, hin, ok_bind, parseEntry_eq hread hbefore hlen]
      have hsplit : before ++ (bytes ++ others ++ rest) = (before ++ bytes) ++ (others ++ rest) := by
        rw [List.append_assoc, List.append_assoc]
      by_cases hutf8 : IsUtf8 entry.name
      · rw [if_pos hutf8, ok_bind, utf8_cpioTrailer, if_neg hne]
        show payloadEndFrom _ rounds (before.length + entryLen entry.header) = _
        rw [hsplit] at hlen ⊢
        rw [← hlength, ← List.length_append, ih (by rw [List.length_append]; omega) hlen (by omega)]
        simp only [List.forall_mem_cons, hutf8, true_and, List.length_append, Nat.add_assoc]
      · rw [if_neg hutf8, if_neg (fun hall => hutf8 (hall entry List.mem_cons_self))]
        rfl

/-- What `append_archive_without_trailer` does with a base archive. -/
theorem appendArchive_eq (h : IsArchive archive entries) : ∃ payload, Spells payload entries ∧
    payload.length ≤ archive.length ∧ builder.appendArchiveWithoutTrailer archive =
      if ∀ entry ∈ entries, IsUtf8 entry.name then
        if isizeMax < builder.data.length + payload.length then .error .outputReserveFailed
        else .ok { builder with data := builder.data ++ payload }
      else .error .invalidArchive := by
  rcases h.reads with ⟨rfl, rfl⟩ | ⟨located, tail, trailer, hread, hmap⟩
  · refine ⟨[], .nil, Nat.le_refl _, ?_⟩
    rw [if_pos (fun _ h => absurd h List.not_mem_nil)]
    show (refuseIf (isizeMax < builder.data.length + 0) _ >>= fun _ => _) =
      if isizeMax < builder.data.length + 0 then _ else .ok { builder with data := builder.data ++ [] }
    rw [refuseIf]
    split <;> rfl
  · obtain ⟨payload, rest, entries', trailer', hbytes, hmap', hspells, htrailer, hname⟩ := spells_of_readFrom hread
    obtain ⟨rfl, htrailers⟩ := List.append_inj' (hmap.symm.trans hmap') rfl
    have hend : archivePayloadEnd archive =
        if ∀ entry ∈ entries, IsUtf8 entry.name then .ok payload.length else .error .invalidArchive := by
      have hne : archive ≠ [] := by
        rintro rfl
        cases hread
      have hloop := @payloadEndFrom_eq payload rest trailer' entries (archive.length + 1) [] hspells htrailer hname rfl
        (by rw [List.nil_append, ← hbytes]; exact h.length_le)
        (by rw [hbytes, List.length_append]; omega)
      rw [List.nil_append, ← hbytes, List.length_nil, Nat.zero_add] at hloop
      rw [archivePayloadEnd, if_neg hne, hloop]
    refine ⟨payload, hspells, by rw [hbytes, List.length_append]; omega, ?_⟩
    rw [NewcArchiveBuilder.appendArchiveWithoutTrailer, hend]
    split
    · rw [ok_bind, refuseIf, hbytes, List.take_left]
      split <;> rfl
    · rfl

theorem alignUp_four_eq_some {n m : Nat} : alignUp n 4 = some m ↔ n + 3 < 2 ^ 64 ∧ m = alignUp4 n := by
  rw [alignUp, if_neg (by decide), Option.map_eq_some_iff]
  constructor
  · rintro ⟨sum, hsum, rfl⟩
    obtain ⟨hlt, rfl⟩ := checkedAdd_eq_some.mp hsum
    exact ⟨hlt, rfl⟩
  · rintro ⟨hlt, rfl⟩
    exact ⟨_, checkedAdd_eq_some.mpr ⟨hlt, rfl⟩, rfl⟩

/-- What `add_entry` does, its padding counted from the start of the entry. -/
theorem addEntry_eq_ok {text : Text} {mode : UInt32} (hmod : builder.data.length % 4 = 0) :
    builder.addEntry text mode contents = .ok builder' ↔
      0 ∉ utf8 text ∧ (utf8 text).length + 1 < 2 ^ 32 ∧ contents.length < 2 ^ 32 ∧
        builder.data.length + entrySize (utf8 text) contents ≤ isizeMax ∧
        builder' = ⟨builder.data ++ encodeEntry builder.nextIno mode (utf8 text) contents, builder.nextIno - 1⟩ := by
  have hpushed : builder.data.length + entrySize (utf8 text) contents ≤ isizeMax →
      alignVec (alignVec (builder.data ++ entryHeader builder.nextIno mode (UInt32.ofNat contents.length)
        (UInt32.ofNat ((utf8 text).length + 1)) ++ utf8 text ++ [0]) 4 ++ contents) 4 =
          builder.data ++ encodeEntry builder.nextIno mode (utf8 text) contents := by
    intro hroom
    rw [entrySize, isizeMax] at hroom
    have hnamed := alignUp4_le (headerLen + ((utf8 text).length + 1))
    have hnamedMod := alignUp4_mod (headerLen + ((utf8 text).length + 1))
    have hcontents := alignUp4_le contents.length
    have hlength : (entryHeader builder.nextIno mode (UInt32.ofNat contents.length)
        (UInt32.ofNat ((utf8 text).length + 1)) ++ utf8 text ++ [0]).length = headerLen + ((utf8 text).length + 1) := by
      rw [List.length_append, List.length_append, length_entryHeader, List.length_singleton, Nat.add_assoc]
    rw [List.append_assoc, List.append_assoc, ← List.append_assoc (entryHeader _ _ _ _),
      alignVec_four hmod (by rw [hlength]; omega), alignVec_four ?_ ?_]
    · rw [encodeEntry]
      simp only [List.append_assoc]
    · rw [List.length_append, List.length_append, hlength, List.length_replicate]
      omega
    · rw [List.length_append, List.length_append, hlength, List.length_replicate]
      omega
  simp only [NewcArchiveBuilder.addEntry, bind_eq_ok, refuseIf_eq_ok, someOr_eq_ok, checkedAdd_eq_some, alignUp_four_eq_some,
    pure_eq_ok]
  constructor
  · rintro ⟨-, hnul, nameSize, ⟨-, rfl⟩, -, hfile, _, ⟨-, rfl⟩, _, ⟨-, rfl⟩, _, ⟨-, rfl⟩, _, ⟨-, rfl⟩, -, hroom, -, hname, rfl⟩
    have hroom' : builder.data.length + entrySize (utf8 text) contents ≤ isizeMax := by
      rw [entrySize]
      exact Nat.not_lt.mp hroom
    exact ⟨hnul, by omega, by omega, hroom', by rw [hpushed hroom']⟩
  · rintro ⟨hnul, hname, hcontents, hroom, rfl⟩
    have hroom' := hroom
    have hnamed := alignUp4_lt (headerLen + ((utf8 text).length + 1))
    have hdata := alignUp4_lt contents.length
    rw [entrySize, isizeMax] at hroom'
    rw [headerLen] at hnamed
    refine ⟨(), hnul, _, ⟨by omega, rfl⟩, (), by omega, _, ⟨by rw [cpioHeaderLen]; omega, rfl⟩, _,
      ⟨by rw [cpioHeaderLen]; omega, rfl⟩, _, ⟨by omega, rfl⟩, _, ⟨?_, rfl⟩, (), ?_, (), by omega, ?_⟩
    · show alignUp4 (headerLen + ((utf8 text).length + 1)) + alignUp4 contents.length < 2 ^ 64
      omega
    · exact Nat.not_lt.mpr hroom
    · rw [hpushed hroom]

theorem utf8_injective {a b : Text} (h : utf8 a = utf8 b) : a = b := by
  have hbytes : a.utf8Encode = b.utf8Encode := congrArg List.toByteArray h
  have hstring : String.ofList a = String.ofList b := String.toByteArray_inj.mp hbytes
  rw [← String.toList_ofList (l := a), hstring, String.toList_ofList]

/-- Files added to a builder, each an entry behind the others. -/
theorem addFiles_spells (hspells : Spells builder.data done) (hfiles : ∀ file ∈ files, file.1 ≠ cpioTrailer)
    (h : files.foldlM (fun builder file => builder.addFile file.1 file.2) builder = .ok builder') :
    ∃ added, Spells builder'.data (done ++ added) ∧
      added.map (fun entry => (entry.name, entry.header.mode, entry.data)) =
        files.map fun file => (utf8 file.1, 0o100777, file.2) := by
  induction files generalizing builder done with
  | nil =>
      rw [List.foldlM_nil, pure_eq_ok] at h
      refine ⟨[], ?_, rfl⟩
      rwa [List.append_nil, ← h]
  | cons file files ih =>
      rw [List.forall_mem_cons] at hfiles
      rw [List.foldlM_cons, bind_eq_ok] at h
      obtain ⟨next, hadd, h⟩ := h
      obtain ⟨hnul, hname, hcontents, -, rfl⟩ := (addEntry_eq_ok hspells.mod_four).mp hadd
      obtain ⟨hread, hlength⟩ := @readEntry_encodeEntry (utf8 file.1) file.2 builder.nextIno cpioFileMode hnul hname hcontents
      have hne : utf8 file.1 ≠ trailerName := by
        rw [← utf8_cpioTrailer]
        exact fun heq => hfiles.1 (utf8_injective heq)
      obtain ⟨added, hadded, hmap⟩ := ih (hspells.append (.single hread hlength hne)) hfiles.2 h
      refine ⟨builtEntry builder.nextIno cpioFileMode (utf8 file.1) file.2 :: added, ?_, ?_⟩
      · rwa [List.append_assoc] at hadded
      · rw [List.map_cons, hmap]
        rfl

theorem appendArchives_spells {bases : List (List UInt8 × List Entry)} (hspells : Spells builder.data done)
    (hbases : ∀ base ∈ bases, IsArchive base.1 base.2)
    (h : (bases.map Prod.fst).foldlM NewcArchiveBuilder.appendArchiveWithoutTrailer builder = .ok builder') :
    Spells builder'.data (done ++ bases.flatMap Prod.snd) := by
  induction bases generalizing builder done with
  | nil =>
      rw [List.map_nil, List.foldlM_nil, pure_eq_ok] at h
      rwa [List.flatMap_nil, List.append_nil, ← h]
  | cons base bases ih =>
      rw [List.forall_mem_cons] at hbases
      rw [List.map_cons, List.foldlM_cons, bind_eq_ok] at h
      obtain ⟨next, happend, h⟩ := h
      obtain ⟨payload, hpayload, -, heq⟩ := @appendArchive_eq base.1 base.2 builder hbases.1
      rw [heq] at happend
      split at happend
      · split at happend
        · cases happend
        · cases happend
          rw [List.flatMap_cons, ← List.append_assoc]
          exact ih (hspells.append hpayload) hbases.2 h
      · cases happend

theorem alignVec_final {data : List UInt8} (h : data.length + 511 < 2 ^ 64) : ∃ zeros,
    alignVec data cpioFinalAlignment = data ++ zeros ∧ (∀ b ∈ zeros, b = 0) ∧ (data ++ zeros).length % 512 = 0 := by
  have hup : alignUp data.length cpioFinalAlignment = some ((data.length + 511) / 512 * 512) := by
    rw [alignUp, if_neg (by decide), show checkedAdd 64 data.length (cpioFinalAlignment - 1) = _ from
      checkedAdd_eq_some.mpr ⟨h, rfl⟩]
    rfl
  refine ⟨List.replicate ((data.length + 511) / 512 * 512 - data.length) 0, ?_, fun b hb => List.eq_of_mem_replicate hb, ?_⟩
  · rw [alignVec, hup]
  · rw [List.length_append, List.length_replicate]
    omega

/-- A builder whose data spell its entries is finished into an archive that holds them. -/
theorem finish_holds {added : List Entry} (hspells : Spells builder.data (done ++ added))
    (hadded : added.map (fun entry => (entry.name, entry.header.mode, entry.data)) =
      files.map fun file => (utf8 file.1, 0o100777, file.2)) (h : builder.finish = .ok archive) :
    Holds archive done files := by
  rw [NewcArchiveBuilder.finish, bind_eq_ok] at h
  obtain ⟨last, hlast, h⟩ := h
  obtain ⟨hnul, hname, hcontents, hroom, rfl⟩ := (addEntry_eq_ok hspells.mod_four).mp hlast
  obtain ⟨hread, hlength⟩ := @readEntry_encodeEntry (utf8 cpioTrailer) [] builder.nextIno 0 hnul hname hcontents
  have hroom' : (builder.data ++ encodeEntry builder.nextIno 0 (utf8 cpioTrailer) []).length ≤ 2 ^ 63 - 1 := by
    rw [List.length_append, hlength]
    exact hroom
  have hlt : (builder.data ++ encodeEntry builder.nextIno 0 (utf8 cpioTrailer) []).length + 511 < 2 ^ 64 := by omega
  obtain ⟨zeros, hpadded, hzeros, hmod⟩ := alignVec_final hlt
  rw [pure_eq_ok] at h
  dsimp only at h
  rw [hpadded] at h
  subst h
  have htrailer := (@readEntry_append _ zeros _ hlength.ge).mpr hread
  have hrounds : builder.data.length <
      (builder.data ++ encodeEntry builder.nextIno 0 (utf8 cpioTrailer) [] ++ zeros).length + 1 := by
    rw [List.length_append, List.length_append]
    omega
  obtain ⟨located, hlocated, hmap, hoffsets⟩ := hspells.read htrailer utf8_cpioTrailer hrounds (Nat.zero_mod 4)
  refine ⟨hmod, located, zeros, added, _, ?_, hmap, hadded, utf8_cpioTrailer, hspells.names, hoffsets, hzeros⟩
  rw [readArchive]
  rw [List.append_assoc] at hlocated ⊢
  rw [hlocated, ← hlength, List.drop_left]

/-- Base archives and files that an archive is built of: the names in the bases are UTF-8, the files are accepted, and
there is room for all. -/
structure Fits (bases : List (List UInt8 × List Entry)) (files : List (Text × List UInt8)) : Prop where
  utf8 : ∀ base ∈ bases, ∀ entry ∈ base.2, IsUtf8 entry.name
  accepted : ∀ file ∈ files, Accepted file
  room : (bases.map fun base => base.1.length).sum + (files.map fun file => entrySize (VentoyLinux.utf8 file.1) file.2).sum +
    entrySize (VentoyLinux.utf8 cpioTrailer) [] ≤ isizeMax

theorem appendArchives_builds {bases : List (List UInt8 × List Entry)} (hspells : Spells builder.data done)
    (hbases : ∀ base ∈ bases, IsArchive base.1 base.2) (hutf8 : ∀ base ∈ bases, ∀ entry ∈ base.2, IsUtf8 entry.name)
    (hroom : builder.data.length + (bases.map fun base => base.1.length).sum ≤ isizeMax) : ∃ builder',
      (bases.map Prod.fst).foldlM NewcArchiveBuilder.appendArchiveWithoutTrailer builder = .ok builder' ∧
        builder'.data.length ≤ builder.data.length + (bases.map fun base => base.1.length).sum := by
  induction bases generalizing builder done with
  | nil => exact ⟨builder, rfl, Nat.le_refl _⟩
  | cons base bases ih =>
      rw [List.forall_mem_cons] at hbases hutf8
      rw [List.map_cons, List.sum_cons] at hroom
      obtain ⟨payload, hpayload, hle, heq⟩ := @appendArchive_eq base.1 base.2 builder hbases.1
      rw [if_pos hutf8.1, if_neg (by omega)] at heq
      obtain ⟨builder', hfold, hlength⟩ := @ih _ ⟨builder.data ++ payload, builder.nextIno⟩ (hspells.append hpayload)
        hbases.2 hutf8.2 (by rw [List.length_append]; omega)
      rw [List.length_append] at hlength
      rw [List.map_cons, List.foldlM_cons, heq, ok_bind]
      refine ⟨builder', hfold, ?_⟩
      rw [List.map_cons, List.sum_cons]
      omega

theorem addFiles_builds (hmod : builder.data.length % 4 = 0) (hfiles : ∀ file ∈ files, Accepted file)
    (hroom : builder.data.length + (files.map fun file => entrySize (utf8 file.1) file.2).sum ≤ isizeMax) : ∃ builder',
      files.foldlM (fun builder file => builder.addFile file.1 file.2) builder = .ok builder' ∧
        builder'.data.length % 4 = 0 ∧
        builder'.data.length = builder.data.length + (files.map fun file => entrySize (utf8 file.1) file.2).sum := by
  induction files generalizing builder with
  | nil => exact ⟨builder, rfl, hmod, rfl⟩
  | cons file files ih =>
      rw [List.forall_mem_cons] at hfiles
      rw [List.map_cons, List.sum_cons] at hroom ⊢
      have hadd := (@addEntry_eq_ok file.2 builder _ file.1 cpioFileMode hmod).mpr
        ⟨hfiles.1.nul, hfiles.1.name_lt, hfiles.1.contents_lt, by omega, rfl⟩
      obtain ⟨-, hlength⟩ := @readEntry_encodeEntry (utf8 file.1) file.2 builder.nextIno cpioFileMode hfiles.1.nul
        hfiles.1.name_lt hfiles.1.contents_lt
      have hsize : (builder.data ++ encodeEntry builder.nextIno cpioFileMode (utf8 file.1) file.2).length =
          builder.data.length + entrySize (utf8 file.1) file.2 := by
        rw [List.length_append, hlength]
        rfl
      have hmod' := entryLen_mod (builtEntry builder.nextIno cpioFileMode (utf8 file.1) file.2).header
      obtain ⟨builder', hfold, hmod'', hlength'⟩ :=
        @ih ⟨builder.data ++ encodeEntry builder.nextIno cpioFileMode (utf8 file.1) file.2, builder.nextIno - 1⟩
          (by rw [List.length_append, hlength]; omega) hfiles.2 (by rw [hsize]; omega)
      rw [List.foldlM_cons, NewcArchiveBuilder.addFile, hadd, ok_bind]
      refine ⟨builder', hfold, hmod'', ?_⟩
      rw [hlength', hsize]
      omega

/-- Archives and files that fit are built into an archive, and what is built holds the entries of the archives and then
the files, unless a file has the name of the trailer. -/
theorem buildArchive_holds {bases : List (List UInt8 × List Entry)} (hbases : ∀ base ∈ bases, IsArchive base.1 base.2)
    (hfiles : ∀ file ∈ files, file.1 ≠ cpioTrailer) :
    (Fits bases files → ∃ archive, buildArchive (bases.map Prod.fst) files = .ok archive) ∧
      ∀ archive, buildArchive (bases.map Prod.fst) files = .ok archive → Holds archive (bases.flatMap Prod.snd) files := by
  constructor
  · intro h
    have hroom := h.room
    obtain ⟨builder, hbuilder, hlength⟩ := @appendArchives_builds [] .new bases .nil hbases h.utf8
      (by show 0 + _ ≤ _; omega)
    have hspells := @appendArchives_spells [] .new builder bases .nil hbases hbuilder
    have hlength' : builder.data.length ≤ (bases.map fun base => base.1.length).sum := by
      rw [← Nat.zero_add (List.sum _)]
      exact hlength
    obtain ⟨builder', hbuilder', hmod, hlength'⟩ := @addFiles_builds builder files hspells.mod_four h.accepted (by omega)
    have hlast := (@addEntry_eq_ok [] builder' _ cpioTrailer 0 hmod).mpr
      ⟨by decide +kernel, by decide +kernel, by decide, by omega, rfl⟩
    rw [buildArchive, hbuilder, ok_bind, hbuilder', ok_bind, NewcArchiveBuilder.finish, hlast]
    exact ⟨_, rfl⟩
  · intro archive h
    rw [buildArchive, bind_eq_ok] at h
    obtain ⟨builder, hbuilder, h⟩ := h
    obtain ⟨builder', hbuilder', h⟩ := bind_eq_ok.mp h
    have hspells := @appendArchives_spells [] .new builder bases .nil hbases hbuilder
    obtain ⟨added, hadded, hmap⟩ := addFiles_spells hspells hfiles hbuilder'
    exact finish_holds hadded hmap h

/-- A base archive with one file. -/
def sampleBase : List UInt8 := encodeEntry 1 0o100644 (utf8 ['i']) [7] ++ encodeEntry 0 0 trailerName []

def sampleFiles : List (Text × List UInt8) := [(['a'], [1, 2, 3, 4, 5]), (['b'], [])]

theorem sampleArchive_holds : (∃ archive, buildArchive [sampleBase] sampleFiles = .ok archive) ∧
    ∀ archive, buildArchive [sampleBase] sampleFiles = .ok archive →
      Holds archive [builtEntry 1 0o100644 (utf8 ['i']) [7]] sampleFiles := by
  have hbase : IsArchive sampleBase [builtEntry 1 0o100644 (utf8 ['i']) [7]] := by
    refine ⟨by decide +kernel, .inr ⟨[(0, builtEntry 1 0o100644 (utf8 ['i']) [7]), (116, builtEntry 0 0 trailerName [])], [],
      builtEntry 0 0 trailerName [], by decide +kernel, rfl⟩⟩
  have hfits : Fits [(sampleBase, [builtEntry 1 0o100644 (utf8 ['i']) [7]])] sampleFiles := by
    refine ⟨?_, ?_, by decide +kernel⟩
    · rintro _ (_ | ⟨_, ⟨⟩⟩) _ (_ | ⟨_, ⟨⟩⟩)
      exact isUtf8_utf8 ['i']
    · rintro _ (_ | ⟨_, _ | ⟨_, ⟨⟩⟩⟩)
      · exact ⟨by decide +kernel, by decide +kernel, by decide +kernel⟩
      · exact ⟨by decide +kernel, by decide +kernel, by decide +kernel⟩
  obtain ⟨hbuilt, hholds⟩ := @buildArchive_holds sampleFiles [(sampleBase, [builtEntry 1 0o100644 (utf8 ['i']) [7]])]
    (by rintro _ (_ | ⟨_, ⟨⟩⟩); exact hbase) (by decide)
  exact ⟨hbuilt hfits, hholds⟩

/-- A file with the name of the trailer ends the archive for who reads it. -/
theorem trailerFile_cuts_archive : ∃ archive, buildArchive [] [(cpioTrailer, []), (['a'], [1])] = .ok archive ∧
    ¬ Holds archive [] [(cpioTrailer, []), (['a'], [1])] := by
  have hbuilt : (buildArchive [] [(cpioTrailer, []), (['a'], [1])]).toOption.isSome = true := by decide +kernel
  have hread : ((buildArchive [] [(cpioTrailer, []), (['a'], [1])]).toOption.bind readArchive).map (·.1.length) = some 1 := by
    decide +kernel
  cases hbuild : buildArchive [] [(cpioTrailer, []), (['a'], [1])] with
  | error error =>
      rw [hbuild] at hbuilt
      cases hbuilt
  | ok archive =>
      rw [hbuild] at hread
      refine ⟨archive, rfl, fun h => ?_⟩
      obtain ⟨located, tail, added, trailer, hlocated, hmap, hadded, -⟩ := h.reads
      have hcount := congrArg List.length hmap
      have hfiles := congrArg List.length hadded
      simp only [List.length_map, List.length_append, List.length_cons, List.length_nil] at hcount hfiles
      change (readArchive archive).map (·.1.length) = some 1 at hread
      rw [hlocated] at hread
      have hone : located.length = 1 := Option.some.inj hread
      rw [hone, hfiles] at hcount
      cases hcount

end NextBoot.VentoyLinux
