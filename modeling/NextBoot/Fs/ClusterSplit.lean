import Mathlib.Data.List.GetD
import NextBoot.Fs.DirectoryWalks

namespace NextBoot.Fs.ExFat

open Words Bytes Strings Results Faults Outcome Walks

/-- The entries of files that the parsing of a cluster comes to from a position on, and the position behind the last
entry; there is none when the end of the directory is reached. -/
def walkEntries (clusterData : List UInt8) : Nat → Nat → List Nat × Option Nat
  | 0, offset => ([], some offset)
  | fuel + 1, offset =>
      if clusterData.length < offset + 32 then ([], some offset)
      else if clusterData.getD offset 0 = 0 then ([], none)
      else if clusterData.getD offset 0 = fileEntry then
        let rest := walkEntries clusterData fuel (offset + 32 * (1 + (clusterData.getD (offset + 1) 0).toNat))
        (offset :: rest.1, rest.2)
      else walkEntries clusterData fuel (offset + 32)

/-- What is found at some file entries of a cluster, with more data behind it. -/
def listedAt (clusterData behind : List UInt8) (offsets : List Nat) : List DirectoryEntry := offsets.flatMap fun offset =>
  match parseFileEntry (clusterData.drop offset ++ behind) with
  | .value info => info.toList
  | _ => []

/-- Entries that are passed over one by one: none is that of a file, and none ends the directory. -/
def PassedOver (bytes : List UInt8) : Prop :=
  bytes.length % 32 = 0 ∧ ∀ k < bytes.length / 32, bytes.getD (32 * k) 0 ≠ 0 ∧ bytes.getD (32 * k) 0 ≠ fileEntry

instance (bytes : List UInt8) : Decidable (PassedOver bytes) := inferInstanceAs (Decidable (_ ∧ ∀ _ < _, _))

/-- The data of a chain of clusters are a directory: what a set whose first `pending` bytes are in an earlier cluster has
in this one is passed over. -/
def Aligned : Nat → List (List UInt8) → Prop
  | _, [] => True
  | pending, clusterData :: rest => PassedOver (clusterData.take pending) ∧
      ∀ stop ∈ (walkEntries clusterData clusterData.length pending).2, rest = [] ∨
        clusterData.length ≤ stop ∧ Aligned (stop - clusterData.length) rest

/-- Where a set is cut, what its first cluster has of it says the same as the whole of it. -/
def WholeSets : Nat → List (List UInt8) → Prop
  | _, [] => True
  | pending, clusterData :: rest =>
      (∀ offset ∈ (walkEntries clusterData clusterData.length pending).1,
        parseFileEntry (clusterData.drop offset) = parseFileEntry (clusterData.drop offset ++ rest.flatten)) ∧
      ∀ stop ∈ (walkEntries clusterData clusterData.length pending).2, WholeSets (stop - clusterData.length) rest

instance decidableAligned : (pending : Nat) → (datas : List (List UInt8)) → Decidable (Aligned pending datas)
  | _, [] => inferInstanceAs (Decidable True)
  | _, clusterData :: rest =>
      have := fun stop => decidableAligned (stop - clusterData.length) rest
      inferInstanceAs (Decidable (_ ∧ ∀ _ ∈ _, _ ∨ _))

instance decidableWholeSets : (pending : Nat) → (datas : List (List UInt8)) → Decidable (WholeSets pending datas)
  | _, [] => inferInstanceAs (Decidable True)
  | _, clusterData :: rest =>
      have := fun stop => decidableWholeSets (stop - clusterData.length) rest
      inferInstanceAs (Decidable ((∀ _ ∈ _, _) ∧ ∀ _ ∈ _, _))

/-- What clusters list, each by itself. -/
def listedApart (datas : List (List UInt8)) : List DirectoryEntry :=
  datas.flatMap fun clusterData => listedAt clusterData [] (walkEntries clusterData clusterData.length 0).1

/-- What clusters list, put together, behind the set that is pending. -/
def listedTogether (pending : Nat) (datas : List (List UInt8)) : List DirectoryEntry :=
  listedAt datas.flatten [] (walkEntries datas.flatten datas.flatten.length pending).1

/-- The clusters up to the one that the directory ends in. -/
def upToEnd : Nat → List (List UInt8) → List (List UInt8)
  | _, [] => []
  | pending, clusterData :: rest =>
      match (walkEntries clusterData clusterData.length pending).2 with
      | none => [clusterData]
      | some stop => clusterData :: upToEnd (stop - clusterData.length) rest

/-- The clusters behind the one that the directory ends in. -/
def behindEnd : Nat → List (List UInt8) → List (List UInt8)
  | _, [] => []
  | pending, clusterData :: rest =>
      match (walkEntries clusterData clusterData.length pending).2 with
      | none => rest
      | some stop => behindEnd (stop - clusterData.length) rest

/-- No file that is shown begins in a cluster. -/
def ShowsNone (clusterData : List UInt8) : Prop :=
  ∀ offset ∈ (walkEntries clusterData clusterData.length 0).1, parseFileEntry (clusterData.drop offset) = value none

instance (clusterData : List UInt8) : Decidable (ShowsNone clusterData) := inferInstanceAs (Decidable (∀ _ ∈ _, _))

/-- The data of the clusters of a chain. -/
inductive Chained (fs : ExFat) : Nat → List (List UInt8) → Prop
  | last {cluster next : Nat} {clusterData : List UInt8} (hread : fs.readCluster cluster = .ok clusterData)
      (hnext : fs.getNextCluster cluster = .ok next) (hend : endOfChain ≤ next) : Chained fs cluster [clusterData]
  | more {cluster next : Nat} {clusterData : List UInt8} {rest : List (List UInt8)}
      (hread : fs.readCluster cluster = .ok clusterData) (hnext : fs.getNextCluster cluster = .ok next)
      (hmore : next < endOfChain) (h : Chained fs next rest) : Chained fs cluster (clusterData :: rest)

variable {fs : ExFat} {data rest : List UInt8} {datas : List (List UInt8)} {offsets : List Nat} {offset fuel fuel' cluster pending : Nat}

theorem getElem?_getD {i : Nat} (h : i < data.length) : data[i]? = some (data.getD i 0) := by
  rw [List.getD_eq_getElem?_getD, List.getElem?_eq_getElem h, Option.getD_some]

theorem listedAt_cons {info : Option DirectoryEntry} {offsets : List Nat}
    (h : parseFileEntry (data.drop offset ++ rest) = value info) :
    listedAt data rest (offset :: offsets) = info.toList ++ listedAt data rest offsets := by
  rw [listedAt, List.flatMap_cons, h, listedAt]

/-- Parsing a cluster lists what is found at the entries that the walk comes to. -/
theorem readEntries_eq : readEntries data fuel offset = value (listedAt data [] (walkEntries data fuel offset).1) := by
  induction fuel generalizing offset with
  | zero => rfl
  | succ fuel ih =>
      rw [readEntries, walkEntries]
      by_cases hout : data.length < offset + 32
      · rw [if_pos hout, if_pos hout]
        rfl
      · rw [if_neg hout, if_neg hout, getElem?_getD (by omega), getElem?_getD (show offset + 1 < data.length by omega),
          ofOption_some, value_bind]
        by_cases hend : data.getD offset 0 = 0
        · rw [if_pos hend, if_pos hend]
          rfl
        · rw [if_neg hend, if_neg hend]
          by_cases hfile : data.getD offset 0 = fileEntry
          · obtain ⟨info, hinfo⟩ := @returns_parseFileEntry (data.drop offset)
            rw [if_neg (by rw [hfile]; decide), if_pos hfile, if_pos hfile, hinfo, value_bind, ofOption_some, value_bind, ih,
              value_bind, listedAt_cons (by rwa [List.append_nil])]
            rfl
          · rw [if_neg hfile, if_neg hfile, ih]
            split <;> rfl

/-- More fuel than there are entries changes nothing. -/
theorem walkEntries_fuel (h : data.length < offset + 32 * (fuel + 1)) (h' : data.length < offset + 32 * (fuel' + 1)) :
    walkEntries data fuel offset = walkEntries data fuel' offset := by
  induction fuel generalizing fuel' offset with
  | zero =>
      cases fuel' with
      | zero => rfl
      | succ fuel' => rw [walkEntries, walkEntries, if_pos (by omega)]
  | succ fuel ih =>
      cases fuel' with
      | zero => rw [walkEntries, walkEntries, if_pos (by omega)]
      | succ fuel' =>
          have hnext : ∀ step, 32 ≤ step → walkEntries data fuel (offset + step) = walkEntries data fuel' (offset + step) :=
            fun step hstep => ih (by omega) (by omega)
          rw [walkEntries, walkEntries, hnext 32 le_rfl, hnext _ (by omega)]

theorem walkEntries_outside (h : data.length < offset + 32) : walkEntries data fuel offset = ([], some offset) := by
  cases fuel with
  | zero => rfl
  | succ fuel => rw [walkEntries, if_pos h]

/-- The entries that a walk comes to are all there. -/
theorem walkEntries_inside : ∀ o ∈ (walkEntries data fuel offset).1, o + 32 ≤ data.length := by
  induction fuel generalizing offset with
  | zero => exact fun _ h => nomatch h
  | succ fuel ih =>
      intro o ho
      rw [walkEntries] at ho
      split at ho
      · cases ho
      · split at ho
        · cases ho
        · split at ho
          · rcases List.mem_cons.mp ho with rfl | ho
            · omega
            · exact ih o ho
          · exact ih o ho

/-- A walk may as well begin at the start of the data. -/
theorem walkEntries_drop (start : Nat) : (walkEntries data fuel (offset + start)).1 =
    (walkEntries (data.drop offset) fuel start).1.map (offset + ·) := by
  induction fuel generalizing start with
  | zero => rfl
  | succ fuel ih =>
      have houtside : (data.length - offset < start + 32) = (data.length < offset + (start + 32)) := by
        rw [eq_iff_iff]
        omega
      have hbyte : ∀ i, (data.drop offset).getD i 0 = data.getD (offset + i) 0 := fun i => by
        rw [List.getD_eq_getElem?_getD, List.getElem?_drop, ← List.getD_eq_getElem?_getD]
      rw [walkEntries, walkEntries, List.length_drop, hbyte, hbyte]
      simp only [Nat.add_assoc, houtside]
      split
      · rfl
      · split
        · rfl
        · split
          · exact congrArg ((offset + start) :: ·) (ih _)
          · exact ih _

/-- Behind a cluster a walk is one over what follows. -/
theorem walkEntries_behind (hle : data.length ≤ offset) (hfuel : (data ++ rest).length < offset + 32 * (fuel + 1)) :
    (walkEntries (data ++ rest) fuel offset).1 =
      (walkEntries rest rest.length (offset - data.length)).1.map (data.length + ·) := by
  rw [List.length_append] at hfuel
  calc (walkEntries (data ++ rest) fuel offset).1
      = (walkEntries (data ++ rest) fuel (data.length + (offset - data.length))).1 := by rw [Nat.add_sub_cancel' hle]
    _ = (walkEntries rest fuel (offset - data.length)).1.map (data.length + ·) := by rw [walkEntries_drop, List.drop_left]
    _ = _ := by rw [walkEntries_fuel (by omega) (show rest.length < _ + 32 * (rest.length + 1) by omega)]

/-- With more data behind it, a walk over a cluster comes to the same entries, and then it goes on. -/
theorem walkEntries_append (hfuel : data.length < offset + 32 * (fuel + 1))
    (hfuel' : (data ++ rest).length < offset + 32 * (fuel' + 1)) :
    match (walkEntries data fuel offset).2 with
    | none => (walkEntries (data ++ rest) fuel' offset).1 = (walkEntries data fuel offset).1
    | some stop => data.length ≤ stop → (walkEntries (data ++ rest) fuel' offset).1 =
        (walkEntries data fuel offset).1 ++ (walkEntries rest rest.length (stop - data.length)).1.map (data.length + ·) := by
  induction fuel generalizing fuel' offset with
  | zero => exact fun hle => walkEntries_behind hle hfuel'
  | succ fuel ih =>
      by_cases hout : data.length < offset + 32
      · rw [walkEntries_outside hout]
        exact fun hle => walkEntries_behind hle hfuel'
      · have hlength : (data ++ rest).length = data.length + rest.length := List.length_append
        obtain ⟨fuel', rfl⟩ : ∃ f, fuel' = f + 1 := ⟨fuel' - 1, by omega⟩
        have htype : (data ++ rest).getD offset 0 = data.getD offset 0 := List.getD_append _ _ _ _ (by omega)
        have hcount : (data ++ rest).getD (offset + 1) 0 = data.getD (offset + 1) 0 := List.getD_append _ _ _ _ (by omega)
        have hout' : ¬ (data ++ rest).length < offset + 32 := by omega
        rw [walkEntries, walkEntries, if_neg hout, if_neg hout', htype, hcount]
        by_cases hend : data.getD offset 0 = 0
        · rw [if_pos hend, if_pos hend]
        · rw [if_neg hend, if_neg hend]
          by_cases hfile : data.getD offset 0 = fileEntry
          · rw [if_pos hfile, if_pos hfile]
            obtain ⟨next, hnext⟩ : ∃ n, offset + 32 * (1 + (data.getD (offset + 1) 0).toNat) = n := ⟨_, rfl⟩
            rw [hnext]
            have hothers := ih (show data.length < next + 32 * (fuel + 1) by omega)
              (show (data ++ rest).length < next + 32 * (fuel' + 1) by omega)
            dsimp only
            cases hstop : (walkEntries data fuel next).2 with
            | none =>
                rw [hstop] at hothers
                exact congrArg (offset :: ·) hothers
            | some stop =>
                rw [hstop] at hothers
                exact fun hle => congrArg (offset :: ·) (hothers hle)
          · rw [if_neg hfile, if_neg hfile]
            exact ih (by omega) (by omega)

theorem listedAt_append (h : ∀ o ∈ offsets, o ≤ data.length) : listedAt (data ++ rest) [] offsets = listedAt data rest offsets := by
  refine List.flatMap_congr fun o ho => ?_
  rw [List.append_nil, List.drop_append_of_le_length (h o ho)]

theorem listedAt_behind : listedAt (data ++ rest) [] (offsets.map (data.length + ·)) = listedAt rest [] offsets := by
  rw [listedAt, List.flatMap_map, listedAt]
  refine List.flatMap_congr fun o _ => ?_
  rw [← List.drop_drop, List.drop_left]

theorem walkEntries_next (hinside : offset + 32 ≤ data.length) (hend : data.getD offset 0 ≠ 0)
    (hfile : data.getD offset 0 ≠ fileEntry) : walkEntries data (fuel + 1) offset = walkEntries data fuel (offset + 32) := by
  rw [walkEntries, if_neg (by omega), if_neg hend, if_neg hfile]

/-- What is passed over has no part in the listing. -/
theorem walkEntries_passedOver (h : PassedOver (data.take pending)) (hfuel : data.length < 32 * (fuel + 1)) :
    (walkEntries data fuel 0).1 = (walkEntries data fuel pending).1 := by
  obtain ⟨hsize, hpassed⟩ := h
  rw [List.length_take] at hsize hpassed
  have hskip : ∀ k ≤ min pending data.length / 32, walkEntries data fuel 0 = walkEntries data fuel (32 * k) := by
    intro k
    induction k with
    | zero => exact fun _ => rfl
    | succ k ih =>
        intro hk
        obtain ⟨hend, hfile⟩ := hpassed k (by omega)
        rw [List.getD_eq_getElem?_getD, List.getElem?_take_of_lt (by omega), ← List.getD_eq_getElem?_getD] at hend hfile
        obtain ⟨fuel, rfl⟩ : ∃ f, fuel = f + 1 := ⟨fuel - 1, by omega⟩
        rw [ih (by omega), walkEntries_next (by omega) hend hfile]
        exact walkEntries_fuel (by omega) (by omega)
  have hwhole := hskip _ le_rfl
  rw [show 32 * (min pending data.length / 32) = min pending data.length by omega] at hwhole
  rw [hwhole]
  rcases Nat.le_total pending data.length with hle | hle
  · rw [Nat.min_eq_left hle]
  · rw [Nat.min_eq_right hle, walkEntries_outside (by omega), walkEntries_outside (by omega)]

/-- The main entry of a set that is shown: there is room for a second entry, and the file is neither hidden nor a system
file. -/
def Shown (data : List UInt8) : Prop :=
  64 ≤ data.length ∧ ∃ attributes, readLe 2 data 4 = some attributes ∧
    ¬ (attributes &&& 0x0002 ≠ 0 ∨ attributes &&& 0x0004 ≠ 0)

theorem parseFileEntry_eq_some : (∃ info, parseFileEntry data = value (some info)) ↔ Shown data := by
  by_cases hlong : data.length < 64
  · rw [parseFileEntry, if_pos hlong]
    refine iff_of_false ?_ fun h => absurd h.1 (by omega)
    rintro ⟨_, h⟩
    cases h
  · obtain ⟨attributes, hattributes⟩ := @readLe_isSome 2 data 4 (by omega)
    obtain ⟨set, hset⟩ := @returns_readSecondaries data 32 (data.getD 1 0).toNat ⟨0, 0, 0, [], false⟩
    rw [parseFileEntry, if_neg hlong, getElem?_getD (by omega), ofOption_some, value_bind, hattributes, ofOption_some, value_bind,
      hset, value_bind]
    by_cases hhidden : attributes &&& 0x0002 ≠ 0 ∨ attributes &&& 0x0004 ≠ 0
    · rw [if_pos hhidden]
      refine iff_of_false ?_ ?_
      · rintro ⟨_, h⟩
        cases h
      rintro ⟨-, attributes', hattributes', hshown⟩
      cases hattributes.symm.trans hattributes'
      exact hshown hhidden
    · rw [if_neg hhidden]
      exact iff_of_true ⟨_, rfl⟩ ⟨by omega, attributes, hattributes, hhidden⟩

theorem Shown.append (h : Shown data) : Shown (data ++ rest) := by
  obtain ⟨hlong, attributes, hattributes, hshown⟩ := h
  refine ⟨by rw [List.length_append]; omega, attributes, ?_, hshown⟩
  rw [readLe, slice_append_left (by omega), ← readLe, hattributes]

/-- Of two sums of lists with parts no longer than those of the other, equality is that of the parts. -/
theorem append_eq_append_iff_of_le {α : Type} {a b c d : List α} (hac : a.length ≤ c.length) (hbd : b.length ≤ d.length) :
    a ++ b = c ++ d ↔ a = c ∧ b = d := by
  constructor
  · intro h
    have hlength := congrArg List.length h
    rw [List.length_append, List.length_append] at hlength
    exact List.append_inj h (by omega)
  · rintro ⟨rfl, rfl⟩
    rfl

/-- What is found at one entry, in its cluster alone and with more data behind it. -/
theorem exists_parsed (data rest : List UInt8) (offset : Nat) : ∃ part whole : Option DirectoryEntry,
    parseFileEntry (data.drop offset ++ []) = value part ∧ parseFileEntry (data.drop offset ++ rest) = value whole ∧
      part.toList.length ≤ whole.toList.length := by
  obtain ⟨part, hpart⟩ := @returns_parseFileEntry (data.drop offset ++ [])
  obtain ⟨whole, hwhole⟩ := @returns_parseFileEntry (data.drop offset ++ rest)
  refine ⟨part, whole, hpart, hwhole, ?_⟩
  cases part with
  | none => exact Nat.zero_le _
  | some info =>
      rw [List.append_nil] at hpart
      obtain ⟨info', hinfo'⟩ := parseFileEntry_eq_some.mpr (parseFileEntry_eq_some.mp ⟨info, hpart⟩).append
      obtain rfl := value.inj (hwhole.symm.trans hinfo')
      exact le_rfl

theorem length_listedAt_le : (listedAt data [] offsets).length ≤ (listedAt data rest offsets).length := by
  induction offsets with
  | nil => exact le_rfl
  | cons offset offsets ih =>
      obtain ⟨part, whole, hpart, hwhole, hle⟩ := exists_parsed data rest offset
      rw [listedAt_cons hpart, listedAt_cons hwhole, List.length_append, List.length_append]
      exact Nat.add_le_add hle ih

theorem listedAt_eq_iff : listedAt data [] offsets = listedAt data rest offsets ↔
    ∀ o ∈ offsets, parseFileEntry (data.drop o) = parseFileEntry (data.drop o ++ rest) := by
  induction offsets with
  | nil => exact iff_of_true rfl fun _ h => nomatch h
  | cons offset offsets ih =>
      obtain ⟨part, whole, hpart, hwhole, hle⟩ := exists_parsed data rest offset
      have hparts : part.toList = whole.toList ↔ part = whole := by
        cases part <;> cases whole <;> simp
      have hfound : parseFileEntry (data.drop offset) = parseFileEntry (data.drop offset ++ rest) ↔ part = whole := by
        rw [List.append_nil] at hpart
        rw [hpart, hwhole, value.injEq]
      rw [listedAt_cons hpart, listedAt_cons hwhole, append_eq_append_iff_of_le hle length_listedAt_le, ih, hparts, ← hfound,
        List.forall_mem_cons]

theorem listedAt_append_offsets {others : List Nat} :
    listedAt data rest (offsets ++ others) = listedAt data rest offsets ++ listedAt data rest others := List.flatMap_append

/-- A cluster in which the directory ends is all that is listed of the clusters put together. -/
theorem listedTogether_of_end {clusterData : List UInt8} {rest : List (List UInt8)}
    (hend : (walkEntries clusterData clusterData.length pending).2 = none) :
    listedTogether pending (clusterData :: rest) =
      listedAt clusterData rest.flatten (walkEntries clusterData clusterData.length pending).1 := by
  have hwalk := walkEntries_append (show clusterData.length < pending + 32 * (clusterData.length + 1) by omega)
    (show (clusterData ++ rest.flatten).length < pending + 32 * ((clusterData ++ rest.flatten).length + 1) by omega)
  rw [hend] at hwalk
  rw [listedTogether, List.flatten_cons, hwalk]
  exact listedAt_append fun o ho => by have := walkEntries_inside o ho; omega

/-- Otherwise the listing goes on behind the last set of the cluster. -/
theorem listedTogether_of_stop {clusterData : List UInt8} {rest : List (List UInt8)} {stop : Nat}
    (hstop : (walkEntries clusterData clusterData.length pending).2 = some stop) (hle : clusterData.length ≤ stop) :
    listedTogether pending (clusterData :: rest) =
      listedAt clusterData rest.flatten (walkEntries clusterData clusterData.length pending).1 ++
        listedTogether (stop - clusterData.length) rest := by
  have hwalk := walkEntries_append (show clusterData.length < pending + 32 * (clusterData.length + 1) by omega)
    (show (clusterData ++ rest.flatten).length < pending + 32 * ((clusterData ++ rest.flatten).length + 1) by omega)
  rw [hstop] at hwalk
  rw [listedTogether, List.flatten_cons, hwalk hle, listedAt_append_offsets, listedAt_behind, listedTogether]
  rw [listedAt_append fun o ho => by have := walkEntries_inside o ho; omega]

theorem upToEnd_append_behindEnd : upToEnd pending datas ++ behindEnd pending datas = datas := by
  induction datas generalizing pending with
  | nil => rfl
  | cons clusterData rest ih =>
      rw [upToEnd, behindEnd]
      cases (walkEntries clusterData clusterData.length pending).2 with
      | none => rfl
      | some stop => exact congrArg (clusterData :: ·) ih

theorem listedApart_cons {clusterData : List UInt8} {rest : List (List UInt8)} (h : PassedOver (clusterData.take pending)) :
    listedApart (clusterData :: rest) =
      listedAt clusterData [] (walkEntries clusterData clusterData.length pending).1 ++ listedApart rest := by
  rw [listedApart, List.flatMap_cons, walkEntries_passedOver h (by omega), listedApart]

/-- Up to the end of the directory the clusters by themselves list no more than put together, and the same only if no set
is cut short. -/
theorem listedApart_upToEnd (h : Aligned pending datas) :
    (listedApart (upToEnd pending datas)).length ≤ (listedTogether pending datas).length ∧
      (listedApart (upToEnd pending datas) = listedTogether pending datas ↔ WholeSets pending datas) := by
  induction datas generalizing pending with
  | nil => exact ⟨Nat.zero_le _, by rw [listedTogether, List.flatten_nil]; exact ⟨fun _ => trivial, fun _ => rfl⟩⟩
  | cons clusterData rest ih =>
      obtain ⟨hpassed, hstops⟩ := h
      rw [WholeSets, ← listedAt_eq_iff, upToEnd]
      cases hstop : (walkEntries clusterData clusterData.length pending).2 with
      | none =>
          have hown : listedApart [clusterData] =
              listedAt clusterData [] (walkEntries clusterData clusterData.length pending).1 :=
            (listedApart_cons hpassed).trans (List.append_nil _)
          rw [listedTogether_of_end hstop, hown]
          exact ⟨length_listedAt_le, (and_iff_left fun _ h => nomatch h).symm⟩
      | some stop =>
          rw [listedApart_cons hpassed]
          rcases hstops stop hstop with rfl | ⟨hle, haligned⟩
          · have htogether : listedTogether pending [clusterData] =
                listedAt clusterData [] (walkEntries clusterData clusterData.length pending).1 := by
              rw [listedTogether, List.flatten_cons, List.flatten_nil, List.append_nil]
            rw [htogether, show listedApart (upToEnd (stop - clusterData.length) []) = [] from rfl, List.append_nil]
            exact ⟨le_rfl, fun _ => ⟨rfl, fun _ _ => trivial⟩, fun _ => rfl⟩
          · obtain ⟨hlength, hwhole⟩ := ih haligned
            rw [listedTogether_of_stop hstop hle]
            constructor
            · rw [List.length_append, List.length_append]
              exact Nat.add_le_add length_listedAt_le hlength
            · rw [append_eq_append_iff_of_le length_listedAt_le hlength, hwhole]
              exact and_congr_right fun _ => ⟨fun h s hs => Option.some.inj hs ▸ h, fun h => h stop rfl⟩

theorem listedApart_eq_nil : listedApart datas = [] ↔ ∀ clusterData ∈ datas, ShowsNone clusterData := by
  rw [listedApart, List.flatMap_eq_nil_iff]
  refine forall₂_congr fun clusterData _ => ?_
  rw [listedAt, List.flatMap_eq_nil_iff, ShowsNone]
  refine forall₂_congr fun offset _ => ?_
  obtain ⟨info, hinfo⟩ := @returns_parseFileEntry (clusterData.drop offset)
  rw [List.append_nil, hinfo, value.injEq]
  exact Option.toList_eq_nil_iff

/-- The listing of a chain goes through it cluster by cluster. -/
theorem walkDirectory_chained (h : Chained fs cluster datas) :
    ∃ fuel, fs.walkDirectory fuel cluster = some (value (listedApart datas)) := by
  have hround : ∀ {cluster next : Nat} {clusterData : List UInt8}, fs.readCluster cluster = .ok clusterData →
      fs.getNextCluster cluster = .ok next → fs.directoryRound cluster =
        value (listedAt clusterData [] (walkEntries clusterData clusterData.length 0).1,
          if endOfChain ≤ next then none else some next) := by
    intro cluster next clusterData hread hnext
    rw [directoryRound, hread, ofExcept_ok, value_bind, readEntries_eq, value_bind, hnext, ofExcept_ok, value_bind]
    rfl
  induction h with
  | last hread hnext hend =>
      refine ⟨1, ?_⟩
      rw [walkDirectory, walk, hround hread hnext, if_pos hend, listedApart, List.flatMap_cons, List.flatMap_nil, List.append_nil]
  | more hread hnext hmore _ ih =>
      obtain ⟨fuel, hfuel⟩ := ih
      refine ⟨fuel + 1, ?_⟩
      rw [walkDirectory] at hfuel
      rw [walkDirectory, walk, hround hread hnext, if_neg (by omega)]
      dsimp only
      rw [hfuel, Option.map_some]
      rfl

/-- A listing that ends is the same with any bound. -/
theorem walkDirectory_iff {out out' : Outcome FsError (List DirectoryEntry)}
    (h : ∃ fuel, fs.walkDirectory fuel cluster = some out) : (∃ fuel, fs.walkDirectory fuel cluster = some out') ↔ out = out' := by
  obtain ⟨fuel, hfuel⟩ := h
  constructor
  · rintro ⟨fuel', hfuel'⟩
    exact Option.some.inj ((walk_mono hfuel (Nat.le_max_left fuel fuel')).symm.trans (walk_mono hfuel' (Nat.le_max_right fuel fuel')))
  · rintro rfl
    exact ⟨fuel, hfuel⟩

/-- A directory is listed like the bytes of its clusters put together, up to the first end and from the clusters up to
there, if and only if what its clusters have of the sets that are cut says the same as the whole of them, and no file is
shown in the clusters behind. -/
theorem chained_listing_exact (h : Chained fs cluster datas) (haligned : Aligned 0 datas) :
    ((∃ fuel, fs.walkDirectory fuel cluster = some (readEntries datas.flatten datas.flatten.length 0)) ∧
      ∃ fuel, fs.walkDirectory fuel cluster = some (value (listedApart (upToEnd 0 datas)))) ↔
        WholeSets 0 datas ∧ ∀ clusterData ∈ behindEnd 0 datas, ShowsNone clusterData := by
  obtain ⟨-, hwhole⟩ := listedApart_upToEnd haligned
  have hsplit : listedApart datas = listedApart (upToEnd 0 datas) ++ listedApart (behindEnd 0 datas) := by
    conv_lhs => rw [← @upToEnd_append_behindEnd datas 0]
    exact List.flatMap_append
  rw [walkDirectory_iff (walkDirectory_chained h), walkDirectory_iff (walkDirectory_chained h), readEntries_eq, value.injEq,
    value.injEq, ← hwhole, ← listedApart_eq_nil, hsplit, List.append_right_eq_self]
  constructor
  · rintro ⟨hlisted, hbehind⟩
    rw [hbehind, List.append_nil] at hlisted
    exact ⟨hlisted, hbehind⟩
  · rintro ⟨hlisted, hbehind⟩
    rw [hbehind, List.append_nil]
    exact ⟨hlisted, rfl⟩

/-- The bytes of a table that chains clusters 2 and 3, and of these clusters: unused entries up to a position, and there a
file with a name of one character. -/
def setBytes (start i : Nat) : UInt8 :=
  if i = 8 then 3
  else if 12 ≤ i ∧ i < 16 then 0xFF
  else if i = 512 + start then 0x85
  else if i = 513 + start then 2
  else if i = 544 + start then 0xC0
  else if i = 547 + start then 1
  else if i = 576 + start then 0xC1
  else if i = 578 + start then 70
  else if 512 ≤ i ∧ i < 512 + start ∧ i % 32 = 0 then 1
  else 0

def setVolume (start : Nat) : ExFat where
  io := {
    blockSize := 512
    totalBlocks := 3
    bytes := setBytes start
    blockSize_lt := Words.sector_lt_u32
    totalBlocks_lt := Words.three_lt_u64 }
  clusterSize := 512
  totalClusters := 2
  rootCluster := 2
  fatOffset := 0
  clusterHeapOffset := 1
  sectorSize_pos := Words.sector_pos

/-- The data of cluster 2 and of cluster 3. -/
def setClusters (start : Nat) : List (List UInt8) :=
  [(List.range 512).map fun i => setBytes start (512 + i), (List.range 512).map fun i => setBytes start (1024 + i)]

theorem setVolume_chained {start : Nat} (h : start = 416 ∨ start = 480) : Chained (setVolume start) 2 (setClusters start) := by
  have hreads : (setVolume start).readCluster 2 = .ok ((List.range 512).map fun i => setBytes start (512 + i)) ∧
      (setVolume start).readCluster 3 = .ok ((List.range 512).map fun i => setBytes start (1024 + i)) ∧
      (setVolume start).getNextCluster 2 = .ok 3 ∧ (setVolume start).getNextCluster 3 = .ok 0xFFFFFFFF := by
    rcases h with rfl | rfl <;> decide +kernel
  exact .more hreads.1 hreads.2.2.1 (by decide) (.last hreads.2.1 hreads.2.2.2 (by decide))

theorem setClusters_listed : ∃ fuel, (setVolume 416).walkDirectory fuel 2 =
    some (readEntries (setClusters 416).flatten (setClusters 416).flatten.length 0) :=
  ((chained_listing_exact (setVolume_chained (.inl rfl)) (by decide +kernel)).mpr
    ⟨by decide +kernel, by decide +kernel⟩).1

/-- A set that begins in the last place of its cluster is not listed, although the chain holds all of it. -/
theorem cutSet_not_listed : ¬ ∀ (fs : ExFat) (cluster : Nat) (datas : List (List UInt8)), Chained fs cluster datas →
    Aligned 0 datas → ∃ fuel, fs.walkDirectory fuel cluster = some (readEntries datas.flatten datas.flatten.length 0) := by
  intro h
  obtain ⟨fuel, hfuel⟩ := h _ _ _ (setVolume_chained (.inr rfl)) (by decide +kernel)
  obtain ⟨more, hmore⟩ := walkDirectory_chained (setVolume_chained (.inr rfl))
  have hgrown := (walk_mono hfuel (Nat.le_max_left fuel more)).symm.trans (walk_mono hmore (Nat.le_max_right fuel more))
  revert hgrown
  decide +kernel

end NextBoot.Fs.ExFat
