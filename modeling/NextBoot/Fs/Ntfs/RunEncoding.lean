import NextBoot.Fs.Ntfs.Runs

namespace NextBoot.Fs.Ntfs

open Words Tiling Bytes Results

/-- A run as it is written, with the width of its length field and that of its delta; a sparse run has no delta. -/
structure EncodedRun where
  clusterCount : Nat
  lenSize : Nat
  delta : Option (Int × Nat)
  lenSize_pos : 0 < lenSize
  lenSize_le : lenSize ≤ 8
  clusterCount_lt : clusterCount < 256 ^ lenSize
  delta_fits : ∀ d w, delta = some (d, w) → 0 < w ∧ w ≤ 8 ∧ -((256 ^ w : Nat) : Int) ≤ 2 * d ∧ 2 * d < (256 ^ w : Nat)

namespace EncodedRun

variable (r : EncodedRun)

def deltaBytes : List UInt8 :=
  match r.delta with
  | none => []
  | some (d, w) => toLeBytes w (d % (256 ^ w : Nat)).toNat

def header : UInt8 := UInt8.ofNat (r.lenSize + 16 * r.deltaBytes.length)

def encode : List UInt8 := r.header :: toLeBytes r.lenSize r.clusterCount ++ r.deltaBytes

/-- What the run adds to the position that the next delta counts from. -/
def shift : Int := (r.delta.map Prod.fst).getD 0

/-- The position of a run is one that a signed word holds and that is not negative. -/
def Positioned (lcn : Int) : Prop := r.delta ≠ none → 0 ≤ lcn + r.shift ∧ lcn + r.shift < 2 ^ 63

end EncodedRun

def encodeRuns (runs : List EncodedRun) : List UInt8 := runs.flatMap EncodedRun.encode

def clusterSum (runs : List EncodedRun) : Nat := (runs.map (·.clusterCount)).sum

def shiftSum (runs : List EncodedRun) : Int := (runs.map (·.shift)).sum

/-- The runs from a first cluster in the file and a position on. -/
def placedRuns : Nat → Int → List EncodedRun → List DataRun
  | _, _, [] => []
  | vcn, lcn, r :: runs =>
      ⟨vcn, r.delta.map fun _ => (lcn + r.shift).toNat, r.clusterCount⟩ ::
        placedRuns (vcn + r.clusterCount) (lcn + r.shift) runs

/-- No run is empty, every run has a position, and the clusters can be counted. -/
def Placeable : Nat → Int → List EncodedRun → Prop
  | _, _, [] => True
  | vcn, lcn, r :: runs =>
      0 < r.clusterCount ∧ r.Positioned lcn ∧ vcn + r.clusterCount < 2 ^ 64 ∧
        Placeable (vcn + r.clusterCount) (lcn + r.shift) runs

variable {r : EncodedRun} {runs : List EncodedRun} {rest data : List UInt8} {fuel vcn : Nat} {lcn : Int}

theorem length_deltaBytes_le (r : EncodedRun) : r.deltaBytes.length ≤ 8 := by
  unfold EncodedRun.deltaBytes
  split
  · exact Nat.zero_le _
  · next d w h =>
      rw [length_toLeBytes]
      exact (r.delta_fits d w h).2.1

theorem deltaBytes_eq_nil (r : EncodedRun) : r.deltaBytes = [] ↔ r.delta = none := by
  unfold EncodedRun.deltaBytes
  split
  · next h => simp [h]
  · next d w h =>
      have hpos := (r.delta_fits d w h).1
      have hne : toLeBytes w (d % (256 ^ w : Nat)).toNat ≠ [] := by
        intro hnil
        have hlen := length_toLeBytes w (d % (256 ^ w : Nat)).toNat
        rw [hnil, List.length_nil] at hlen
        omega
      exact iff_of_false hne (by rw [h]; exact nofun)

theorem header_toNat (r : EncodedRun) : r.header.toNat = r.lenSize + 16 * r.deltaBytes.length := by
  have hlen := length_deltaBytes_le r
  have hle := r.lenSize_le
  rw [EncodedRun.header, UInt8.toNat_ofNat']
  exact Nat.mod_eq_of_lt (by omega)

theorem header_low (r : EncodedRun) : r.header.toNat % 16 = r.lenSize := by
  have hle := r.lenSize_le
  rw [header_toNat]
  omega

theorem header_high (r : EncodedRun) : r.header.toNat / 16 = r.deltaBytes.length := by
  have hle := r.lenSize_le
  rw [header_toNat]
  omega

theorem readLeInt_toLeBytes {d : Int} {w : Nat} (hlo : -((256 ^ w : Nat) : Int) ≤ 2 * d) (hhi : 2 * d < (256 ^ w : Nat)) :
    readLeInt (toLeBytes w (d % (256 ^ w : Nat)).toNat) = d := by
  have hpos : 0 < 256 ^ w := Nat.pow_pos (by decide)
  rw [readLeInt, length_toLeBytes, fromLeBytes_toLeBytes]
  generalize 256 ^ w = B at hlo hhi hpos
  have hmod : 0 ≤ d % (B : Int) := Int.emod_nonneg _ (by omega)
  have hlt : d % (B : Int) < B := Int.emod_lt_of_pos _ (by omega)
  rw [Nat.mod_eq_of_lt (by omega)]
  by_cases hneg : d < 0
  · have heq : d % (B : Int) = d + B := by
      rw [← Int.add_emod_right, Int.emod_eq_of_lt (by omega) (by omega)]
    rw [if_neg (by omega)]
    omega
  · have heq : d % (B : Int) = d := Int.emod_eq_of_lt (by omega) (by omega)
    rw [if_pos (by omega)]
    omega

theorem readLeInt_deltaBytes (h : r.delta ≠ none) : readLeInt r.deltaBytes = r.shift := by
  obtain ⟨⟨d, w⟩, hdelta⟩ := Option.ne_none_iff_exists'.1 h
  obtain ⟨-, -, hlo, hhi⟩ := r.delta_fits d w hdelta
  simp only [EncodedRun.deltaBytes, EncodedRun.shift, hdelta, Option.map_some, Option.getD_some]
  exact readLeInt_toLeBytes hlo hhi

theorem nextLcn_positioned (h : r.Positioned lcn) :
    nextLcn r.deltaBytes lcn = .ok (r.delta.map fun _ => (lcn + r.shift).toNat, lcn + r.shift) := by
  unfold nextLcn
  by_cases hdelta : r.delta = none
  · rw [if_pos ((deltaBytes_eq_nil r).2 hdelta), hdelta]
    simp [EncodedRun.shift, hdelta, pure, Except.pure]
  · obtain ⟨hlo, hhi⟩ := h hdelta
    obtain ⟨d, hd⟩ := Option.ne_none_iff_exists'.1 hdelta
    rw [if_neg (mt (deltaBytes_eq_nil r).1 hdelta), readLeInt_deltaBytes hdelta, checkedAddI64, if_pos ⟨by omega, hhi⟩,
      someOr_some, ok_bind, refuseIf, if_neg (by omega), hd]
    rfl

theorem nextLcn_stray (h : ¬ r.Positioned lcn) : nextLcn r.deltaBytes lcn = .error .corrupted := by
  unfold nextLcn
  rw [EncodedRun.Positioned, Classical.not_imp] at h
  obtain ⟨hdelta, hout⟩ := h
  rw [if_neg (mt (deltaBytes_eq_nil r).1 hdelta), readLeInt_deltaBytes hdelta, checkedAddI64]
  split
  · next hword =>
      rw [someOr_some, ok_bind, refuseIf, if_pos (by omega)]
      rfl
  · rfl

theorem header_ne_zero (r : EncodedRun) : r.header ≠ 0 := by
  intro h
  have hheader := header_toNat r
  have hpos := r.lenSize_pos
  rw [h] at hheader
  have hzero : (0 : UInt8).toNat = 0 := rfl
  omega

/-- The reading of a run behind whose header there are enough bytes. -/
theorem parseRuns_encode :
    parseRuns (fuel + 1) (r.encode ++ rest) vcn lcn =
      if r.clusterCount = 0 then .error .corrupted
      else (nextLcn r.deltaBytes lcn).bind fun next =>
        if vcn + r.clusterCount < 2 ^ 64 then
          (parseRuns fuel rest (vcn + r.clusterCount) next.2).map (⟨vcn, next.1, r.clusterCount⟩ :: ·)
        else .error .corrupted := by
  have hlen := length_deltaBytes_le r
  have hle := r.lenSize_le
  have hpos := r.lenSize_pos
  have hcount : fromLeBytes (toLeBytes r.lenSize r.clusterCount) = r.clusterCount := by
    rw [fromLeBytes_toLeBytes, Nat.mod_eq_of_lt r.clusterCount_lt]
  have htake : (toLeBytes r.lenSize r.clusterCount ++ r.deltaBytes ++ rest).take r.lenSize =
      toLeBytes r.lenSize r.clusterCount := by
    rw [List.append_assoc, List.take_left' (length_toLeBytes _ _)]
  have hdelta : ((toLeBytes r.lenSize r.clusterCount ++ r.deltaBytes ++ rest).drop r.lenSize).take r.deltaBytes.length =
      r.deltaBytes := by
    rw [List.append_assoc, List.drop_left' (length_toLeBytes _ _), List.take_left' rfl]
  have hrest : (toLeBytes r.lenSize r.clusterCount ++ r.deltaBytes ++ rest).drop (r.lenSize + r.deltaBytes.length) =
      rest := List.drop_left' (by rw [List.length_append, length_toLeBytes])
  have hbytes : r.encode ++ rest = r.header :: (toLeBytes r.lenSize r.clusterCount ++ r.deltaBytes ++ rest) := rfl
  rw [hbytes, parseRuns, if_neg (header_ne_zero r), header_low, header_high]
  dsimp only
  rw [htake, hdelta, hrest, hcount, refuseIf, if_neg (by simp only [List.length_append, length_toLeBytes]; omega), ok_bind, refuseIf]
  split
  · rfl
  · rw [ok_bind]
    cases nextLcn r.deltaBytes lcn with
    | error e => rfl
    | ok next =>
        rw [ok_bind, checkedAdd]
        change _ = if _ then _ else _
        split
        · rw [someOr_some, ok_bind]
          cases parseRuns fuel rest (vcn + r.clusterCount) next.2 <;> rfl
        · rfl

theorem length_encode_pos (r : EncodedRun) : 0 < r.encode.length := by simp [EncodedRun.encode]

theorem encodeRuns_cons (r : EncodedRun) (runs : List EncodedRun) (tail : List UInt8) :
    encodeRuns (r :: runs) ++ tail = r.encode ++ (encodeRuns runs ++ tail) := by
  rw [encodeRuns, List.flatMap_cons, List.append_assoc, encodeRuns]

/-- Runs that can be placed are read, and the reading goes on behind them. -/
theorem parseRuns_placeable {tail : List UInt8} (h : Placeable vcn lcn runs)
    (hfuel : (encodeRuns runs ++ tail).length ≤ fuel) :
    ∃ fuel', tail.length ≤ fuel' ∧ parseRuns fuel (encodeRuns runs ++ tail) vcn lcn =
      (parseRuns fuel' tail (vcn + clusterSum runs) (lcn + shiftSum runs)).map (placedRuns vcn lcn runs ++ ·) := by
  induction runs generalizing fuel vcn lcn with
  | nil =>
      refine ⟨fuel, hfuel, ?_⟩
      simp only [encodeRuns, List.flatMap_nil, List.nil_append, clusterSum, shiftSum, List.map_nil, List.sum_nil,
        Nat.add_zero, Int.add_zero, placedRuns]
      cases parseRuns fuel tail vcn lcn <;> rfl
  | cons r runs ih =>
      obtain ⟨hcount, hposition, hvcn, hrest⟩ := h
      rw [encodeRuns_cons, List.length_append] at hfuel
      have hpos := length_encode_pos r
      obtain ⟨fuel, rfl⟩ : ∃ f, fuel = f + 1 := ⟨fuel - 1, by omega⟩
      have hroom : (encodeRuns runs ++ tail).length ≤ fuel := by omega
      obtain ⟨fuel', hfuel', hread⟩ := ih hrest hroom
      refine ⟨fuel', hfuel', ?_⟩
      rw [encodeRuns_cons, parseRuns_encode, if_neg (by omega), nextLcn_positioned hposition]
      simp only [Except.bind]
      rw [if_pos hvcn, hread]
      simp only [clusterSum, shiftSum, List.map_cons, List.sum_cons, Nat.add_assoc, Int.add_assoc]
      cases parseRuns fuel' tail (vcn + (r.clusterCount + (runs.map (·.clusterCount)).sum))
        (lcn + (r.shift + (runs.map (·.shift)).sum)) <;> rfl

theorem parseRuns_unplaceable {tail : List UInt8} (h : ¬ Placeable vcn lcn runs)
    (hfuel : (encodeRuns runs ++ tail).length ≤ fuel) :
    parseRuns fuel (encodeRuns runs ++ tail) vcn lcn = .error .corrupted := by
  induction runs generalizing fuel vcn lcn with
  | nil => exact absurd trivial h
  | cons r runs ih =>
      rw [encodeRuns_cons, List.length_append] at hfuel
      have hpos := length_encode_pos r
      obtain ⟨fuel, rfl⟩ : ∃ f, fuel = f + 1 := ⟨fuel - 1, by omega⟩
      rw [encodeRuns_cons, parseRuns_encode]
      split
      · rfl
      · next hcount =>
          by_cases hposition : r.Positioned lcn
          · rw [nextLcn_positioned hposition]
            simp only [Except.bind]
            split
            · next hvcn =>
                rw [ih (fun hrest => h ⟨by omega, hposition, hvcn, hrest⟩) (by omega)]
                rfl
            · rfl
          · rw [nextLcn_stray hposition]
            rfl

/-- A run list ends with its data or with a zero header, behind which anything may stand. -/
theorem parseRuns_end {tail : List UInt8} (hend : tail = [] ∨ tail.head? = some 0) :
    parseRuns fuel tail vcn lcn = .ok [] := by
  cases fuel with
  | zero => rfl
  | succ fuel =>
      rcases hend with rfl | hzero
      · rfl
      · obtain ⟨rest, rfl⟩ := List.head?_eq_some_iff.1 hzero
        rw [parseRuns, if_pos rfl]
        rfl

/-- A run of which only a part is there is refused. -/
theorem parseRuns_cut {cut : List UInt8} (hcut : cut <+: r.encode) (hne : cut ≠ []) (hshort : cut ≠ r.encode) :
    parseRuns (fuel + 1) cut vcn lcn = .error .corrupted := by
  obtain ⟨rest, hrest⟩ := hcut
  cases cut with
  | nil => exact absurd rfl hne
  | cons header data =>
      rw [EncodedRun.encode, List.cons_append, List.cons_append, List.cons.injEq] at hrest
      obtain ⟨rfl, hrest⟩ := hrest
      have hlen := congrArg List.length hrest
      rw [List.length_append, List.length_append, length_toLeBytes] at hlen
      have hpos : 0 < rest.length := by
        rcases List.eq_nil_or_concat rest with rfl | ⟨init, last, rfl⟩
        · rw [List.append_nil] at hrest
          exact absurd (by rw [EncodedRun.encode, hrest]; rfl) hshort
        · simp
      rw [parseRuns, if_neg (header_ne_zero r), header_low, header_high]
      dsimp only
      rw [refuseIf, if_pos (by omega)]
      rfl

/-- Every run starts behind the clusters of those before it, at the sum of the deltas up to its own. -/
def WrittenAt (lowestVcn : Nat) (runs : List EncodedRun) (out : List DataRun) : Prop :=
  out.length = runs.length ∧ ∀ (i : Nat) (r : EncodedRun), runs[i]? = some r →
    out[i]? = some ⟨lowestVcn + clusterSum (runs.take i), r.delta.map fun _ => (shiftSum (runs.take (i + 1))).toNat,
      r.clusterCount⟩

theorem length_placedRuns : (placedRuns vcn lcn runs).length = runs.length := by
  induction runs generalizing vcn lcn with
  | nil => rfl
  | cons r runs ih => rw [placedRuns, List.length_cons, List.length_cons, ih]

theorem getElem?_placedRuns {i : Nat} (hi : runs[i]? = some r) :
    (placedRuns vcn lcn runs)[i]? = some ⟨vcn + clusterSum (runs.take i),
      r.delta.map fun _ => (lcn + shiftSum (runs.take (i + 1))).toNat, r.clusterCount⟩ := by
  induction runs generalizing i vcn lcn with
  | nil => cases hi
  | cons first runs ih =>
      cases i with
      | zero =>
          cases hi
          simp [placedRuns, clusterSum, shiftSum]
      | succ i =>
          rw [List.getElem?_cons_succ] at hi
          rw [placedRuns, List.getElem?_cons_succ, ih hi, List.take_succ_cons, List.take_succ_cons]
          simp only [clusterSum, shiftSum, List.map_cons, List.sum_cons, Nat.add_assoc, Int.add_assoc]

/-- A list of runs is read as it was written, whatever widths its fields have, unless a run is empty or has no place;
it must not stop inside a run. -/
theorem run_list_parse (lowestVcn : Nat) (runs : List EncodedRun) :
    (∀ tail : List UInt8, tail = [] ∨ tail.head? = some 0 →
      (Placeable lowestVcn 0 runs →
        ∃ out, parseDataRuns (encodeRuns runs ++ tail) lowestVcn = .ok out ∧ WrittenAt lowestVcn runs out) ∧
      (¬ Placeable lowestVcn 0 runs → parseDataRuns (encodeRuns runs ++ tail) lowestVcn = .error .corrupted)) ∧
    ∀ (r : EncodedRun) (cut : List UInt8), cut <+: r.encode → cut ≠ [] → cut ≠ r.encode →
      parseDataRuns (encodeRuns runs ++ cut) lowestVcn = .error .corrupted := by
  refine ⟨fun tail hend => ⟨fun hplace => ?_, fun hstray => parseRuns_unplaceable hstray (Nat.le_refl _)⟩,
    fun r cut hcut hne hshort => ?_⟩
  · obtain ⟨fuel, -, hread⟩ := parseRuns_placeable hplace (Nat.le_refl (encodeRuns runs ++ tail).length)
    rw [parseRuns_end hend] at hread
    refine ⟨placedRuns lowestVcn 0 runs, ?_, length_placedRuns, fun i r hi => ?_⟩
    · rw [parseDataRuns, hread]
      simp [Except.map]
    · rw [getElem?_placedRuns hi, Int.zero_add]
  · by_cases hplace : Placeable lowestVcn 0 runs
    · obtain ⟨fuel, hfuel, hread⟩ := parseRuns_placeable hplace (Nat.le_refl (encodeRuns runs ++ cut).length)
      have hpos := List.length_pos_iff.2 hne
      obtain ⟨fuel, rfl⟩ : ∃ f, fuel = f + 1 := ⟨fuel - 1, by omega⟩
      rw [parseDataRuns, hread, parseRuns_cut hcut hne hshort]
      rfl
    · exact parseRuns_unplaceable hplace (Nat.le_refl _)

/-- Five clusters, the first of which is cluster 300. -/
def sampleRun : EncodedRun :=
  ⟨5, 1, some (300, 2), Nat.one_pos, by decide, by decide, by rintro d w h; cases h; decide⟩

/-- A hole, and three clusters that lie a hundred before the ones in front of it. -/
def sampleHole : EncodedRun := ⟨1000, 2, none, Nat.two_pos, by decide, by decide, nofun⟩

def sampleBack : EncodedRun :=
  ⟨3, 1, some (-100, 1), Nat.one_pos, by decide, by decide, by rintro d w h; cases h; decide⟩

theorem sampleRuns_parse : Placeable 0 0 [sampleRun, sampleHole, sampleBack] ∧
    ∃ out, parseDataRuns (encodeRuns [sampleRun, sampleHole, sampleBack] ++ [0]) 0 = .ok out ∧
      WrittenAt 0 [sampleRun, sampleHole, sampleBack] out := by
  have hplace : Placeable 0 0 [sampleRun, sampleHole, sampleBack] := by
    simp [Placeable, EncodedRun.Positioned, EncodedRun.shift, sampleRun, sampleHole, sampleBack]
  exact ⟨hplace, ((run_list_parse 0 [sampleRun, sampleHole, sampleBack]).1 [0] (.inr rfl)).1 hplace⟩

/-- More clusters than half of those that can be counted. -/
def sampleHuge : EncodedRun := ⟨2 ^ 63, 8, none, Words.eight_pos, by decide, by decide, nofun⟩

/-- A run list that has lost a whole run is read without it, and runs whose clusters cannot be counted are refused. -/
theorem boundary_cut_accepted :
    parseDataRuns ((encodeRuns [sampleRun, sampleBack] ++ [0]).take 4) 0 = .ok [⟨0, some 300, 5⟩] ∧
    parseDataRuns (encodeRuns [sampleHuge, sampleHuge] ++ [0]) 0 = .error .corrupted := by
  constructor <;> rfl

end NextBoot.Fs.Ntfs
