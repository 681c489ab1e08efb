import NextBoot.Lzx.Safety
import NextBoot.Wim.XpressChecked
import NextBoot.Wim.XpressTables

namespace NextBoot.Wim.Xpress.Checked

open Words Bytes Results Faults Outcome Appending CanonicalCode

section tables

variable {lengthBytes : List UInt8} {lengths counts xs : List Nat} {c : Counted} {i k v : Nat}

theorem setAt_of_lt (v : Nat) (h : i < xs.length) : setAt xs i v = .value (xs.set i v) := if_pos h

theorem getElem?_codeLengths : (codeLengths lengthBytes)[i]? =
    lengthBytes[i / 2]?.map fun byte => if i % 2 = 0 then byte.toNat % 16 else byte.toNat / 16 := by
  induction lengthBytes generalizing i with
  | nil => rfl
  | cons byte lengthBytes ih =>
      have hcons : codeLengths (byte :: lengthBytes) = byte.toNat % 16 :: byte.toNat / 16 :: codeLengths lengthBytes := rfl
      rw [hcons]
      match i with
      | 0 => rfl
      | 1 => rfl
      | i + 2 =>
          rw [List.getElem?_cons_succ, List.getElem?_cons_succ, ih, show (i + 2) / 2 = i / 2 + 1 by omega,
            List.getElem?_cons_succ, show (i + 2) % 2 = i % 2 by omega]

/-- What the rounds of the first loop have made of the lengths up to a symbol. -/
structure CountedTo (lengths : List Nat) (k : Nat) (c : Counted) : Prop where
  length_lengths : c.lengths.length = lengths.length
  take_eq : c.lengths.take k = lengths.take k
  length_counts : c.counts.length = huffmanBits + 1
  counts_eq : ∀ len ≤ huffmanBits, c.counts[len]? = some (used (lengths.take k) len)
  nonEmpty_eq : c.nonEmpty = !(lengths.take k).all (· = 0)

theorem take_set_succ (h : i < xs.length) : (xs.set i v).take (i + 1) = xs.take i ++ [v] := by
  rw [List.take_add_one, List.getElem?_set_self h, Option.toList_some, List.take_set_of_le (Nat.le_refl _)]

theorem used_concat {len l : Nat} (hzero : len ≠ 0) :
    used (xs ++ [len]) l = if l = len then used xs l + 1 else used xs l := by
  rw [used, used, List.count_append, List.count_singleton]
  by_cases hsame : l = len
  · subst hsame
    simp [hzero]
  · simp [hsame, Ne.symm hsame]

theorem used_concat_zero {l : Nat} : used (xs ++ [0]) l = used xs l := by
  rw [used, used, List.count_append, List.count_singleton]
  by_cases hl : l = 0
  · rw [if_pos hl, if_pos hl]
  · simp [Ne.symm hl]

theorem countSymbol_eq {len : Nat} (hlen : (codeLengths lengthBytes)[k]? = some len)
    (hsmall : (codeLengths lengthBytes).length < 2 ^ 16) (hc : CountedTo (codeLengths lengthBytes) k c) :
    ∃ c', countSymbol lengthBytes c k = .value c' ∧ CountedTo (codeLengths lengthBytes) (k + 1) c' := by
  obtain ⟨hk, -⟩ := List.getElem?_eq_some_iff.mp hlen
  have hle := codeLengths_le len (List.mem_of_getElem? hlen)
  have htake : (codeLengths lengthBytes).take (k + 1) = (codeLengths lengthBytes).take k ++ [len] := by
    rw [List.take_add_one, hlen, Option.toList_some]
  have hset : (c.lengths.set k len).take (k + 1) = (codeLengths lengthBytes).take (k + 1) := by
    rw [take_set_succ (hc.length_lengths ▸ hk), hc.take_eq, htake]
  have hread := hlen
  rw [getElem?_codeLengths] at hread
  obtain ⟨byte, hbyte, hnibble⟩ := Option.map_eq_some_iff.mp hread
  rw [countSymbol, hbyte, ofOption_some, value_bind]
  dsimp only
  rw [hnibble, if_neg (Nat.not_lt.mpr hle), setAt_of_lt _ (hc.length_lengths ▸ hk), value_bind, countLength]
  by_cases hzero : len = 0
  · rw [if_pos hzero]
    refine ⟨_, rfl, List.length_set.trans hc.length_lengths, hset, hc.length_counts, fun l hl => ?_, ?_⟩
    · rw [hc.counts_eq l hl, htake, hzero, used_concat_zero]
    · rw [hc.nonEmpty_eq, htake, hzero]
      simp
  · have hcount := hc.counts_eq len hle
    have hmany : used ((codeLengths lengthBytes).take k) len ≤ k := by
      rw [used, if_neg hzero]
      exact List.count_le_length.trans (List.length_take_le _ _)
    rw [if_neg hzero, hcount, ofOption_some, value_bind, checkedAdd_eq_some.mpr ⟨by omega, rfl⟩, ofOption_some, value_bind,
      setAt_of_lt _ (List.getElem?_eq_some_iff.mp hcount).1, value_bind]
    refine ⟨_, rfl, List.length_set.trans hc.length_lengths, hset, List.length_set.trans hc.length_counts,
      fun l hl => ?_, ?_⟩
    · rw [htake, used_concat hzero]
      by_cases hsame : l = len
      · rw [hsame, List.getElem?_set_self (List.getElem?_eq_some_iff.mp hcount).1, if_pos rfl]
      · rw [List.getElem?_set_ne (Ne.symm hsame), hc.counts_eq l hl, if_neg hsame]
    · rw [htake]
      simp [hzero]

theorem countSymbols_run (hsmall : (codeLengths lengthBytes).length < 2 ^ 16) (hk : k ≤ (codeLengths lengthBytes).length)
    (hinit : CountedTo (codeLengths lengthBytes) 0 c) :
    ∃ c', (List.range k).foldlM (countSymbol lengthBytes) c = .value c' ∧ CountedTo (codeLengths lengthBytes) k c' := by
  induction k with
  | zero => exact ⟨c, rfl, hinit⟩
  | succ k ih =>
      obtain ⟨c', hfold, hc'⟩ := ih (by omega)
      obtain ⟨c'', hround, hc''⟩ := countSymbol_eq (List.getElem?_eq_getElem hk) hsmall hc'
      refine ⟨c'', ?_, hc''⟩
      rw [List.range_succ, List.foldlM_append, hfold, value_bind, List.foldlM_cons, hround]
      rfl

/-- The tables of an assignment with room for the lengths that are left. -/
def padded (k : Nat) (a : Assignment) : Assignment where
  huf := a.huf
  cumulative := a.cumulative
  starts := a.starts ++ List.replicate (huffmanBits - k) 0
  firstSymbol := a.firstSymbol ++ List.replicate (huffmanBits - k) 0

theorem setAt_padded (v : Nat) (hlen : xs.length = k + 1) (hk : k < huffmanBits) :
    setAt (xs ++ List.replicate (huffmanBits - k) 0) (k + 1) v =
      .value ((xs ++ [v]) ++ List.replicate (huffmanBits - (k + 1)) 0) := by
  have hroom : huffmanBits - k = (huffmanBits - (k + 1)) + 1 := by omega
  rw [hroom, List.replicate_succ, setAt_of_lt _ (by rw [List.length_append, List.length_cons]; omega), ← hlen,
    List.set_append_right _ _ (Nat.le_refl _), Nat.sub_self, List.set_cons_zero, List.append_assoc, List.singleton_append]

theorem assignBits_eq {a : Assignment} (hcounts : counts[k + 1]? = some (used lengths (k + 1))) (hk : k < huffmanBits)
    (hsmall : lengths.length < 2 ^ 16) (ha : Assigned lengths k a) :
    assignBits counts (padded k a) (k + 1) =
      ofExcept (assignLength counts a (k + 1)) >>= fun a' => value (padded (k + 1) a') := by
  have hpow : 2 ^ (k + 1) * 2 ^ (huffmanBits - (k + 1)) = 2 ^ huffmanBits := by
    rw [← Nat.pow_add, Nat.add_sub_cancel' hk]
  have hstart : a.huf * 2 ^ (huffmanBits - (k + 1)) ≤ 2 ^ (k + 1) * 2 ^ (huffmanBits - (k + 1)) :=
    Nat.mul_le_mul_right _ ha.huf_le
  have hle : 2 ^ (k + 1) ≤ 2 ^ 16 := Nat.pow_le_pow_right (by decide) hk
  rw [hpow, huffmanBits] at hstart
  have hcount : counts.getD (k + 1) 0 = used lengths (k + 1) := getD_of_getElem? hcounts
  have hindex := @firstIndex_le lengths (k + 2)
  rw [firstIndex] at hindex
  have hcumulative : checkedAdd 64 a.cumulative (used lengths (k + 1)) = some (a.cumulative + used lengths (k + 1)) := by
    rw [checkedAdd_eq_some, ha.cumulative_eq]
    exact ⟨by omega, rfl⟩
  rw [assignBits, assignLength, hcount]
  dsimp only [padded]
  rw [checkedShl_eq_some.mpr ⟨by rw [huffmanBits]; omega, rfl⟩, ofOption_some, value_bind,
    Nat.mod_eq_of_lt (by rw [huffmanBits]; omega), setAt_padded _ ha.length_starts hk, value_bind,
    setAt_padded _ ha.length_firstSymbol hk, value_bind, hcounts, ofOption_some, value_bind]
  cases hadd : checkedAdd 32 a.huf (used lengths (k + 1)) with
  | none => rfl
  | some huf =>
      rw [someOr_some, ofExcept_ok, value_bind, ok_bind, refuseIf]
      by_cases hfull : 2 ^ (k + 1) < huf
      · rw [if_pos hfull, if_pos hfull]
        rfl
      · rw [if_neg hfull, if_neg hfull, checkedShl_eq_some.mpr ⟨by decide, rfl⟩, ofOption_some, value_bind, hcumulative,
          someOr_some, ofExcept_ok, value_bind, Nat.mod_eq_of_lt (by omega)]
        rfl

theorem assignBits_run (hcounts : ∀ len, 0 < len → len ≤ huffmanBits → counts[len]? = some (used lengths len))
    (hk : k ≤ huffmanBits) (hsmall : lengths.length < 2 ^ 16) :
    (List.range' 1 k).foldlM (assignBits counts) (padded 0 ⟨0, 0, [0], [0]⟩) =
      ofExcept ((List.range' 1 k).foldlM (assignLength counts) ⟨0, 0, [0], [0]⟩) >>= fun a => value (padded k a) := by
  induction k with
  | zero => rfl
  | succ k ih =>
      rw [List.range'_1_concat, List.foldlM_append, List.foldlM_append, ih (by omega)]
      rcases assignLength_run hcounts (show k ≤ huffmanBits by omega) hsmall with ⟨a, hfold, ha⟩ | ⟨herror, -⟩
      · rw [hfold, ofExcept_ok, value_bind, value_bind, ok_bind, List.foldlM_cons, List.foldlM_cons, Nat.add_comm 1 k,
          assignBits_eq (hcounts (k + 1) (Nat.succ_pos k) hk) hk hsmall ha]
        cases assignLength counts a (k + 1) with
        | ok a' => rfl
        | error e => rfl
      · rw [herror]
        rfl

theorem placeSymbols_run {cursor symbols : List Nat} (hplaced : Placed huffmanBits lengths k cursor symbols)
    (hall : ∀ l ∈ lengths, l ≤ huffmanBits) :
    ((lengths.drop k).zipIdx k).foldlM placeSymbol (cursor, symbols) =
      .value (((lengths.drop k).zipIdx k).foldl sortSymbol (cursor, symbols)) := by
  obtain ⟨rest, hrest⟩ : ∃ rest, rest = lengths.drop k := ⟨_, rfl⟩
  induction rest generalizing k cursor symbols with
  | nil =>
      rw [← hrest]
      rfl
  | cons len rest ih =>
      obtain ⟨hlt, hget, hnext, hsplit⟩ := drop_cons hrest
      rw [hsplit, List.zipIdx_cons, List.foldlM_cons, List.foldl_cons, placeSymbol, sortSymbol]
      by_cases hzero : len = 0
      · rw [if_pos hzero, if_pos hzero]
        subst hzero
        exact ih (hplaced.skip hget) hnext
      · obtain ⟨hcursor, hroom, hplaced'⟩ := hplaced.place hget hzero (hall len (List.mem_of_getElem? hget))
        rw [if_neg hzero, if_neg hzero, hcursor, ofOption_some, value_bind, setAt_of_lt _ hroom, value_bind,
          setAt_of_lt _ (List.getElem?_eq_some_iff.mp hcursor).1, value_bind, getD_of_getElem? hcursor]
        exact ih hplaced' hnext

/-- The checked construction is the plain one. -/
theorem fromLengthBytes_eq : fromLengthBytes lengthBytes = ofExcept (XpressHuffman.fromLengthBytes lengthBytes) := by
  rw [fromLengthBytes, XpressHuffman.fromLengthBytes, refuseIf]
  by_cases hlen : lengthBytes.length ≠ lengthTableSize
  · rw [if_pos hlen, if_pos hlen]
    rfl
  have hmany : (codeLengths lengthBytes).length = codeCount := by
    rw [length_codeLengths, not_not.mp hlen]
    rfl
  have hsmall : (codeLengths lengthBytes).length < 2 ^ 16 := by
    rw [hmany, codeCount]
    omega
  have hlong : (codeLengths lengthBytes).any (huffmanBits < ·) = false := by
    simpa using @codeLengths_le lengthBytes
  have hinit : CountedTo (codeLengths lengthBytes) 0
      ⟨List.replicate codeCount 0, List.replicate (huffmanBits + 1) 0, false⟩ := by
    refine ⟨List.length_replicate.trans hmany.symm, rfl, List.length_replicate, fun len hle => ?_, rfl⟩
    rw [List.getElem?_replicate, if_pos (Nat.lt_succ_of_le hle), List.take_zero, used]
    simp
  obtain ⟨c, hcount, hc⟩ := countSymbols_run hsmall (Nat.le_of_eq hmany.symm) hinit
  have htake : (codeLengths lengthBytes).take codeCount = codeLengths lengthBytes := by
    rw [← hmany, List.take_length]
  have hlengths : c.lengths = codeLengths lengthBytes := by
    have heq := hc.take_eq
    rwa [htake, ← hmany, ← hc.length_lengths, List.take_length] at heq
  have hcounts : c.counts = (List.range (huffmanBits + 1)).map fun bits => if bits = 0 then 0 else
      (codeLengths lengthBytes).count bits := by
    refine List.ext_getElem? fun len => ?_
    by_cases hle : len ≤ huffmanBits
    · rw [hc.counts_eq len hle, htake, List.getElem?_map, List.getElem?_range (Nat.lt_succ_of_le hle), Option.map_some, used]
    · rw [List.getElem?_eq_none (by rw [hc.length_counts]; omega), List.getElem?_eq_none (by simp; omega)]
  rw [if_neg hlen, if_neg hlen, ok_bind, hcount, value_bind, hc.nonEmpty_eq, htake]
  dsimp only
  rw [hlong, refuseIf, if_neg Bool.false_ne_true, ok_bind, refuseIf]
  cases hzero : (codeLengths lengthBytes).all (· = 0) with
  | true => rfl
  | false =>
      have hrun := @assignBits_run (codeLengths lengthBytes) c.counts huffmanBits
        (fun len _ hle => by rw [hc.counts_eq len hle, htake]) (Nat.le_refl _) hsmall
      rw [Bool.not_false, if_neg (by decide), if_neg Bool.false_ne_true, ok_bind, ← hcounts]
      have hstart : padded 0 ⟨0, 0, [0], [0]⟩ =
          ⟨0, 0, List.replicate (huffmanBits + 1) 0, List.replicate (huffmanBits + 1) 0⟩ := rfl
      rw [← hstart, hrun]
      cases hassign : (List.range' 1 huffmanBits).foldlM (assignLength c.counts) ⟨0, 0, [0], [0]⟩ with
      | error e => rfl
      | ok a =>
          have hassigned : Assigned (codeLengths lengthBytes) huffmanBits a := by
            rcases assignLength_run (fun len _ hle => by rw [hc.counts_eq len hle, htake]) (Nat.le_refl _) hsmall with
              ⟨a', hfold, ha'⟩ | ⟨herror, -⟩
            · cases hassign.symm.trans hfold
              exact ha'
            · cases hassign.symm.trans herror
          have hpadded : padded huffmanBits a = a := by
            rw [padded, Nat.sub_self, List.replicate_zero, List.append_nil, List.append_nil]
          rw [ofExcept_ok, value_bind, value_bind, ok_bind, refuseIf, hpadded]
          by_cases hhuf : a.huf ≠ 2 ^ (huffmanBits + 1)
          · rw [if_pos hhuf, if_pos hhuf]
            rfl
          · have hsymbols : (List.replicate codeCount 0).length = (codeLengths lengthBytes).length := by
              rw [List.length_replicate, hmany]
            have hplace := placeSymbols_run (Placed.zero hsymbols hassigned.firstSymbol_eq) codeLengths_le
            rw [List.drop_zero] at hplace
            rw [if_neg hhuf, if_neg hhuf, ok_bind, hlengths, hplace]
            rfl

/-- A table whose entries can be reached from any window. -/
structure Sound (alphabet : XpressHuffman) : Prop where
  counts_long : huffmanBits < alphabet.counts.length
  starts_long : huffmanBits < alphabet.starts.length
  firstSymbol_long : huffmanBits < alphabet.firstSymbol.length
  range_le : ∀ bits, 0 < bits → bits ≤ huffmanBits → alphabet.counts.getD bits 0 ≠ 0 →
    alphabet.starts.getD bits 0 + alphabet.counts.getD bits 0 * 2 ^ (huffmanBits - bits) ≤ 2 ^ huffmanBits ∧
      alphabet.firstSymbol.getD bits 0 + alphabet.counts.getD bits 0 ≤ alphabet.symbols.length

theorem sound_empty : Sound XpressHuffman.empty := by
  refine ⟨by decide, by decide, by decide, fun bits _ hle hne => absurd ?_ hne⟩
  rw [List.getD_eq_getElem?_getD, XpressHuffman.empty, List.getElem?_replicate, if_pos (Nat.lt_succ_of_le hle),
    Option.getD_some]

variable {alphabet : XpressHuffman} {window : Nat}

theorem getElem?_of_getD (h : i < xs.length) : xs[i]? = some (xs.getD i 0) := by
  rw [List.getD_eq_getElem?_getD, List.getElem?_eq_getElem h, Option.getD_some]

theorem decodeFrom_eq (h : Sound alphabet) {bits : List Nat} (hbits : ∀ b ∈ bits, 0 < b ∧ b ≤ huffmanBits) :
    decodeFrom alphabet window bits = ofExcept (Xpress.decodeFrom alphabet window bits) := by
  induction bits with
  | nil => rfl
  | cons b bits ih =>
      rw [List.forall_mem_cons] at hbits
      obtain ⟨⟨hpos, hle⟩, hrest⟩ := hbits
      rw [decodeFrom, Xpress.decodeFrom, getElem?_of_getD (Nat.lt_of_le_of_lt hle h.counts_long), ofOption_some, value_bind]
      by_cases hzero : alphabet.counts.getD b 0 = 0
      · rw [if_pos hzero, if_neg fun hin => hin.1 hzero]
        exact ih hrest
      · obtain ⟨hrange, hsymbols⟩ := h.range_le b hpos hle hzero
        rw [huffmanBits] at hrange
        rw [if_neg hzero, getElem?_of_getD (Nat.lt_of_le_of_lt hle h.starts_long), ofOption_some, value_bind,
          checkedShl_eq_some.mpr ⟨by rw [huffmanBits]; omega, rfl⟩, ofOption_some, value_bind,
          Nat.mod_eq_of_lt (by rw [huffmanBits]; omega), checkedAdd_eq_some.mpr ⟨by rw [huffmanBits]; omega, rfl⟩,
          ofOption_some, value_bind]
        by_cases hin : alphabet.starts.getD b 0 ≤ window ∧
            window < alphabet.starts.getD b 0 + alphabet.counts.getD b 0 * 2 ^ (huffmanBits - b)
        · have hindex : (window - alphabet.starts.getD b 0) / 2 ^ (huffmanBits - b) < alphabet.counts.getD b 0 := by
            rw [Nat.div_lt_iff_lt_mul (Nat.two_pow_pos _)]
            omega
          rw [if_pos hin, if_pos ⟨hzero, hin⟩, getElem?_of_getD (Nat.lt_of_le_of_lt hle h.firstSymbol_long), ofOption_some,
            value_bind, getElem?_of_getD (Nat.lt_of_lt_of_le (Nat.add_lt_add_left hindex _) hsymbols), ofOption_some,
            value_bind]
          rfl
        · rw [if_neg hin, if_neg fun h => hin h.2]
          exact ih hrest

theorem decode_eq (h : Sound alphabet) : decode alphabet window = ofExcept (alphabet.decode window) :=
  decodeFrom_eq h fun _ => mem_lens

theorem sound_fromLengthBytes (h : XpressHuffman.fromLengthBytes lengthBytes = .ok alphabet) : Sound alphabet := by
  have hlen : lengthBytes.length = lengthTableSize := by
    by_contra hne
    rw [XpressHuffman.fromLengthBytes, refuseIf, if_pos hne] at h
    cases h
  have hkraft := (fromLengthBytes_ok_iff hlen).mp ⟨alphabet, h⟩
  obtain ⟨alphabet', halphabet', hrepresents⟩ := fromLengthBytes_of_kraft hlen hkraft
  cases halphabet'.symm.trans h
  have hlong {ys : List Nat} {v : Nat} (hget : ys[huffmanBits]? = some v) : huffmanBits < ys.length :=
    (List.getElem?_eq_some_iff.mp hget).1
  refine ⟨hlong (hrepresents.counts_eq _ (by decide) (Nat.le_refl _)),
    hlong (hrepresents.starts_eq _ (by decide) (Nat.le_refl _)),
    hlong (hrepresents.firstSymbol_eq _ (by decide) (Nat.le_refl _)), fun bits hpos hle hne => ?_⟩
  rw [getD_of_getElem? (hrepresents.counts_eq bits hpos hle)] at hne ⊢
  rw [getD_of_getElem? (hrepresents.starts_eq bits hpos hle), getD_of_getElem? (hrepresents.firstSymbol_eq bits hpos hle)]
  constructor
  · rw [← shorter_succ, ← (kraftEquality_iff codeLengths_le).mp hkraft]
    exact start_mono shorter_succ (Nat.succ_le_succ hle)
  · rw [used, if_neg (Nat.ne_of_gt hpos)] at hne ⊢
    obtain ⟨s, hs, hrank⟩ := exists_symbol (show (codeLengths lengthBytes).count bits - 1 < _ from Nat.pred_lt hne)
    have hplace := (List.getElem?_eq_some_iff.mp (hrepresents.symbols_eq s bits hs (Nat.ne_of_gt hpos))).1
    omega

end tables

section bits

variable {input : List UInt8} {stream next : XpressBitstream} {bits : Nat}

/-- What the bits at hand are: a word and a half at most, of which the first 16 are there. -/
structure Ready (stream : XpressBitstream) : Prop where
  accum_lt : stream.accum < 2 ^ 32
  extraBits_nonneg : 0 ≤ stream.extraBits
  extraBits_le : stream.extraBits ≤ 16

theorem ready_empty : Ready XpressBitstream.empty := ⟨by decide, by decide, by decide⟩

theorem readU16_eq_ok {word : Nat × XpressBitstream} (h : XpressBitstream.readU16 input stream = .ok word) :
    word.1 < 2 ^ 16 ∧ word.2.accum = stream.accum ∧ word.2.extraBits = stream.extraBits := by
  obtain ⟨value, hread, h⟩ := bind_eq_ok.mp h
  cases h
  exact ⟨readLe_lt (someOr_eq_ok.mp hread), rfl, rfl⟩

theorem readU8_eq_ok {byte : Nat × XpressBitstream} (h : XpressBitstream.readU8 input stream = .ok byte) :
    byte.2.accum = stream.accum ∧ byte.2.extraBits = stream.extraBits := by
  obtain ⟨value, -, h⟩ := bind_eq_ok.mp h
  cases h
  exact ⟨rfl, rfl⟩

theorem ready_new {position : Nat} (h : XpressBitstream.new input position = .ok stream) : Ready stream := by
  obtain ⟨high, hhigh, h⟩ := bind_eq_ok.mp h
  obtain ⟨low, hlow, h⟩ := bind_eq_ok.mp h
  cases h
  obtain ⟨hhigh, -, hextra⟩ := readU16_eq_ok hhigh
  obtain ⟨hlow, -, hextra'⟩ := readU16_eq_ok hlow
  dsimp only at hextra hextra'
  refine ⟨?_, ?_, ?_⟩
  · dsimp only
    omega
  · dsimp only
    omega
  · dsimp only
    omega

theorem advance_eq (h : Ready stream) (hbits : bits ≤ huffmanBits) :
    advance input stream bits = ofExcept (XpressBitstream.advance input stream bits) := by
  obtain ⟨haccum, hlo, hhi⟩ := h
  rw [huffmanBits] at hbits
  rw [advance, XpressBitstream.advance, checkedShl_eq_some.mpr ⟨by omega, rfl⟩, ofOption_some, value_bind]
  dsimp only
  by_cases hneg : stream.extraBits - bits < 0
  · rw [if_pos hneg, if_pos hneg]
    cases hread : XpressBitstream.readU16 input
        { stream with accum := stream.accum * 2 ^ bits % 2 ^ 32, extraBits := stream.extraBits - bits } with
    | error e => rfl
    | ok word =>
        obtain ⟨hword, -⟩ := readU16_eq_ok hread
        have hshift : (stream.extraBits - bits).natAbs ≤ 16 := by omega
        have hsmall : word.1 * 2 ^ (stream.extraBits - bits).natAbs ≤ (2 ^ 16 - 1) * 2 ^ 16 :=
          Nat.mul_le_mul (by omega) (Nat.pow_le_pow_right (by decide) hshift)
        have hmod : word.1 * 2 ^ (stream.extraBits - bits).natAbs % 2 ^ 32 = word.1 * 2 ^ (stream.extraBits - bits).natAbs :=
          Nat.mod_eq_of_lt (by omega)
        rw [ofExcept_ok, value_bind, ok_bind, checkedShl_eq_some.mpr ⟨by omega, rfl⟩, ofOption_some, value_bind, hmod]
        rfl
  · rw [if_neg hneg, if_neg hneg]
    rfl

theorem ready_advance (h : Ready stream) (hbits : bits ≤ huffmanBits)
    (hadvance : XpressBitstream.advance input stream bits = .ok next) : Ready next := by
  obtain ⟨haccum, hlo, hhi⟩ := h
  rw [huffmanBits] at hbits
  rw [XpressBitstream.advance] at hadvance
  dsimp only at hadvance
  by_cases hneg : stream.extraBits - bits < 0
  · rw [if_pos hneg] at hadvance
    obtain ⟨word, hread, hadvance⟩ := bind_eq_ok.mp hadvance
    cases hadvance
    obtain ⟨hword, -, -⟩ := readU16_eq_ok hread
    have hshift : (stream.extraBits - bits).natAbs ≤ 16 := by omega
    have hsmall : word.1 * 2 ^ (stream.extraBits - bits).natAbs ≤ (2 ^ 16 - 1) * 2 ^ 16 :=
      Nat.mul_le_mul (by omega) (Nat.pow_le_pow_right (by decide) hshift)
    refine ⟨Nat.or_lt_two_pow (Nat.mod_lt _ (by decide)) (by omega), ?_, ?_⟩
    · dsimp only
      omega
    · dsimp only
      omega
  · rw [if_neg hneg] at hadvance
    cases hadvance
    refine ⟨Nat.mod_lt _ (by decide), ?_, ?_⟩
    · dsimp only
      omega
    · dsimp only
      omega

theorem consume_eq (h : Ready stream) : consume input stream bits = ofExcept (XpressBitstream.consume input stream bits) := by
  rw [consume, XpressBitstream.consume, refuseIf]
  by_cases hbits : bits = 0 ∨ huffmanBits < bits
  · rw [if_pos hbits, if_pos hbits]
    rfl
  · rw [if_neg hbits, if_neg hbits, ok_bind]
    exact advance_eq h (by omega)

theorem ready_consume (h : Ready stream) (hconsume : XpressBitstream.consume input stream bits = .ok next) : Ready next := by
  obtain ⟨_, hbits, hconsume⟩ := bind_eq_ok.mp hconsume
  exact ready_advance h (by have := refuseIf_eq_ok.mp hbits; omega) hconsume

theorem readOffset_eq (h : Ready stream) :
    readOffset input stream bits = ofExcept (XpressBitstream.readOffset input stream bits) := by
  rw [readOffset, XpressBitstream.readOffset, refuseIf]
  by_cases hbits : bits = 0 ∨ huffmanBits < bits
  · rw [if_pos hbits, if_pos hbits]
    rfl
  · obtain ⟨hzero, hle⟩ := not_or.mp hbits
    have hhigh : stream.accum / 2 ^ (32 - bits) < 2 ^ bits := by
      rw [Nat.div_lt_iff_lt_mul (Nat.two_pow_pos _), ← Nat.pow_add, Nat.add_sub_cancel' (by rw [huffmanBits] at hle; omega)]
      exact h.accum_lt
    have hpow : 2 ^ bits ≤ 2 ^ 16 := Nat.pow_le_pow_right (by decide) (Nat.not_lt.mp hle)
    have hmod : 1 * 2 ^ bits % 2 ^ 32 = 2 ^ bits := by
      rw [Nat.one_mul]
      exact Nat.mod_eq_of_lt (by omega)
    rw [huffmanBits] at hle
    rw [if_neg hbits, if_neg hbits, ok_bind, checkedSub_eq_some.mpr ⟨by omega, rfl⟩, ofOption_some, value_bind,
      checkedShr_eq_some.mpr ⟨by omega, rfl⟩, ofOption_some, value_bind, checkedShl_eq_some.mpr ⟨by omega, rfl⟩,
      ofOption_some, value_bind, hmod, checkedAdd_eq_some.mpr ⟨by omega, rfl⟩, ofOption_some, value_bind,
      advance_eq h (by rw [huffmanBits]; omega)]
    cases XpressBitstream.advance input stream bits with
    | ok next => rfl
    | error e => rfl

theorem ready_readOffset {offset : Nat × XpressBitstream} (h : Ready stream)
    (hread : XpressBitstream.readOffset input stream bits = .ok offset) : Ready offset.2 := by
  obtain ⟨_, hbits, hread⟩ := bind_eq_ok.mp hread
  obtain ⟨next, hadvance, hread⟩ := bind_eq_ok.mp hread
  cases hread
  exact ready_advance h (by have := refuseIf_eq_ok.mp hbits; omega) hadvance

theorem readMatchOffset_eq (h : Ready stream) :
    readMatchOffset input bits stream = ofExcept (Xpress.readMatchOffset input bits stream) := by
  rw [readMatchOffset, Xpress.readMatchOffset]
  split
  · rfl
  · exact readOffset_eq h

theorem ready_readMatchOffset {offset : Nat × XpressBitstream} (h : Ready stream)
    (hread : Xpress.readMatchOffset input bits stream = .ok offset) : Ready offset.2 := by
  rw [Xpress.readMatchOffset] at hread
  split at hread
  · cases hread
    exact h
  · exact ready_readOffset h hread

theorem Ready.of_same (h : Ready stream) (haccum : next.accum = stream.accum) (hextra : next.extraBits = stream.extraBits) :
    Ready next :=
  ⟨haccum ▸ h.accum_lt, hextra ▸ h.extraBits_nonneg, hextra ▸ h.extraBits_le⟩

theorem ready_readMatchLen {low : Nat} {matchLen : Nat × XpressBitstream} (h : Ready stream)
    (hread : readMatchLen input low stream = .ok matchLen) : 3 ≤ matchLen.1 ∧ Ready matchLen.2 := by
  rw [readMatchLen] at hread
  split at hread
  · cases hread
    exact ⟨Nat.le_add_left 3 low, h⟩
  · obtain ⟨byte, hbyte, hread⟩ := bind_eq_ok.mp hread
    obtain ⟨haccum, hextra⟩ := readU8_eq_ok hbyte
    split at hread
    · obtain ⟨word, hword, hread⟩ := bind_eq_ok.mp hread
      cases hread
      obtain ⟨-, haccum', hextra'⟩ := readU16_eq_ok hword
      exact ⟨Nat.le_add_left 3 _, h.of_same (haccum'.trans haccum) (hextra'.trans hextra)⟩
    · cases hread
      exact ⟨Nat.le_add_left 3 _, h.of_same haccum hextra⟩

end bits

section rounds

variable {input : List UInt8} {s : Reading} {d d' : Decompression} {front : List UInt8} {size outputLen rounds raw : Nat}

/-- The decompressor while its table and its bits can be used. -/
structure Usable (s : Reading) : Prop where
  alphabet : Sound s.alphabet
  bitstream : Ready s.bitstream

/-- The parts of the state of the plain decompressor. -/
def reading (d : Decompression) : Reading := ⟨d.nextBlockAt, d.alphabet, d.bitstream⟩

def written (d : Decompression) : Buffer UInt8 := ⟨d.out, d.outputLen⟩

theorem beginBlock_eq : beginBlock input d.outputLen (reading d) =
    ofExcept (Xpress.beginBlock input d) >>= fun d' => value (reading d') := by
  rw [beginBlock, Xpress.beginBlock, reading]
  dsimp only
  split
  · rfl
  · cases slice input d.bitstream.position lengthTableSize with
    | none => rfl
    | some lengthBytes =>
        rw [someOr_some, ofExcept_ok, value_bind, ok_bind, fromLengthBytes_eq]
        cases XpressHuffman.fromLengthBytes lengthBytes with
        | error e => rfl
        | ok alphabet =>
            rw [ofExcept_ok, value_bind, ok_bind]
            cases XpressBitstream.new input (d.bitstream.position + lengthTableSize) with
            | error e => rfl
            | ok bitstream =>
                rw [ofExcept_ok, value_bind, ok_bind]
                cases checkedAdd 64 d.outputLen blockSize with
                | none => rfl
                | some nextBlockAt => rfl

theorem usable_beginBlock (hs : Usable (reading d)) (h : Xpress.beginBlock input d = .ok d') :
    Usable (reading d') ∧ written d' = written d := by
  rw [Xpress.beginBlock] at h
  split at h
  · cases h
    exact ⟨hs, rfl⟩
  · obtain ⟨lengthBytes, -, h⟩ := bind_eq_ok.mp h
    obtain ⟨alphabet, halphabet, h⟩ := bind_eq_ok.mp h
    obtain ⟨bitstream, hbitstream, h⟩ := bind_eq_ok.mp h
    obtain ⟨nextBlockAt, -, h⟩ := bind_eq_ok.mp h
    cases h
    exact ⟨⟨sound_fromLengthBytes halphabet, ready_new hbitstream⟩, rfl⟩

/-- Where a copy is inside the buffer, it is the plain one. -/
theorem copyMatch_eq {out : List UInt8} {used distance count : Nat} (hpos : 0 < distance) (hinside : distance ≤ used)
    (hroom : used + count ≤ out.length) :
    Buffer.copyMatch distance count (⟨out, used⟩ : Buffer UInt8) =
      (value ⟨copyMatch out used distance count, used + count⟩ : Outcome XpressDecodeError (Buffer UInt8)) := by
  induction count generalizing out used with
  | zero => rfl
  | succ count ih =>
      have hsource : used - distance < out.length := by omega
      rw [Buffer.copyMatch, copyMatch, checkedSub_eq_some.mpr ⟨hinside, rfl⟩, ofOption_some, value_bind,
        List.getElem?_eq_getElem hsource, ofOption_some, value_bind]
      simp only [Buffer.push]
      rw [if_pos (by omega), pure_eq, value_bind, ih (by omega) (by rw [List.length_set]; omega),
        List.getD_eq_getElem?_getD, List.getElem?_eq_getElem hsource, Option.getD_some, Nat.add_right_comm, Nat.add_assoc]

theorem copyBack_eq (hs : Usable (reading d)) :
    copyBack input raw (reading d) (written d) =
      ofExcept (Xpress.copyBack input raw d) >>= fun d' => value (reading d', written d') := by
  rw [copyBack, Xpress.copyBack]
  cases hlen : readMatchLen input (raw % 16) d.bitstream with
  | error e => simp only [reading, hlen]; rfl
  | ok matchLen =>
      have hready := (ready_readMatchLen hs.bitstream hlen).2
      have hlen' : readMatchLen input (raw % 16) (reading d).bitstream = .ok matchLen := hlen
      rw [hlen', ofExcept_ok, value_bind, ok_bind, readMatchOffset_eq hready]
      cases Xpress.readMatchOffset input (raw / 16) matchLen.2 with
      | error e => rfl
      | ok matchOffset =>
          rw [ofExcept_ok, value_bind, ok_bind, putMatch, refuseIf]
          by_cases hunderrun : matchOffset.1 = 0 ∨ d.outputLen < matchOffset.1
          · rw [if_pos hunderrun, if_pos (show matchOffset.1 = 0 ∨ (written d).used < matchOffset.1 from hunderrun)]
            rfl
          · rw [if_neg hunderrun, if_neg (show ¬ (matchOffset.1 = 0 ∨ (written d).used < matchOffset.1) from hunderrun),
              ok_bind, show (written d).used = d.outputLen from rfl]
            cases hstop : checkedAdd 64 d.outputLen matchLen.1 with
            | none => rfl
            | some stop =>
                obtain ⟨-, rfl⟩ := checkedAdd_eq_some.mp hstop
                rw [someOr_some, ofExcept_ok, value_bind, ok_bind, refuseIf]
                by_cases hfull : d.out.length < d.outputLen + matchLen.1
                · rw [if_pos hfull, if_pos (show (written d).bytes.length < d.outputLen + matchLen.1 from hfull)]
                  rfl
                · have hcopy : (written d).copyMatch matchOffset.1 matchLen.1 = _ :=
                    @copyMatch_eq d.out d.outputLen matchOffset.1 matchLen.1 (by omega) (by omega) (by omega)
                  rw [if_neg hfull, if_neg (show ¬ (written d).bytes.length < d.outputLen + matchLen.1 from hfull), ok_bind,
                    hcopy]
                  rfl

theorem usable_copyBack (hs : Usable (reading d)) (h : Xpress.copyBack input raw d = .ok d') :
    Usable (reading d') ∧ d.outputLen < d'.outputLen ∧ d'.outputLen ≤ d.out.length ∧ d'.out.length = d.out.length := by
  have hlength := length_copyBack h
  obtain ⟨matchLen, hlen, h⟩ := bind_eq_ok.mp h
  obtain ⟨matchOffset, hoffset, h⟩ := bind_eq_ok.mp h
  obtain ⟨_, -, h⟩ := bind_eq_ok.mp h
  obtain ⟨stop, hstop, h⟩ := bind_eq_ok.mp h
  obtain ⟨_, hfits, h⟩ := bind_eq_ok.mp h
  cases h
  obtain ⟨-, rfl⟩ := checkedAdd_eq_some.mp (someOr_eq_ok.mp hstop)
  obtain ⟨hthree, hready⟩ := ready_readMatchLen hs.bitstream hlen
  have hroom := refuseIf_eq_ok.mp hfits
  refine ⟨⟨hs.alphabet, ready_readMatchOffset hready hoffset⟩, ?_, ?_, hlength⟩
  · dsimp only
    omega
  · dsimp only
    omega

/-- The checked rounds are the plain ones, and they come to an end. -/
theorem decompressLoop_eq (hs : Usable (reading d)) (hused : d.outputLen ≤ d.out.length)
    (hrounds : d.out.length ≤ d.outputLen + rounds) :
    (decompressLoop input rounds (reading d) (written d) >>= fun r => value (r.2.bytes, r.2.used)) =
      ofExcept (Xpress.decompressLoop input (rounds + 1) d) := by
  induction rounds generalizing d with
  | zero =>
      have hdone : d.out.length ≤ d.outputLen := hrounds
      rw [decompressLoop, Xpress.decompressLoop, if_pos (show (written d).bytes.length ≤ (written d).used from hdone),
        if_pos hdone]
      rfl
  | succ rounds ih =>
      rw [decompressLoop, Xpress.decompressLoop]
      by_cases hdone : d.out.length ≤ d.outputLen
      · rw [if_pos (show (written d).bytes.length ≤ (written d).used from hdone), if_pos hdone]
        rfl
      · rw [if_neg (show ¬ (written d).bytes.length ≤ (written d).used from hdone), if_neg hdone,
          show (written d).used = d.outputLen from rfl, beginBlock_eq]
        cases hbegin : Xpress.beginBlock input d with
        | error e => rfl
        | ok d₁ =>
            obtain ⟨hs₁, hwritten⟩ := usable_beginBlock hs hbegin
            have hout : d₁.out = d.out := congrArg Buffer.bytes hwritten
            have hlen : d₁.outputLen = d.outputLen := congrArg Buffer.used hwritten
            rw [← hout] at hused hrounds hdone
            rw [← hlen] at hused hrounds hdone
            rw [← hwritten, ofExcept_ok, value_bind, value_bind, ok_bind, decode_eq hs₁.alphabet]
            cases hsymbol : d₁.alphabet.decode d₁.bitstream.peek with
            | error e => simp only [reading, hsymbol]; rfl
            | ok symbol =>
                have hsymbol' : (reading d₁).alphabet.decode (reading d₁).bitstream.peek = .ok symbol := hsymbol
                rw [hsymbol', ofExcept_ok, value_bind, ok_bind, consume_eq hs₁.bitstream]
                cases hconsume : XpressBitstream.consume input d₁.bitstream symbol.2 with
                | error e => simp only [reading, hconsume]; rfl
                | ok bitstream =>
                    have hconsume' : XpressBitstream.consume input (reading d₁).bitstream symbol.2 = .ok bitstream := hconsume
                    have hready := ready_consume hs₁.bitstream hconsume
                    rw [hconsume', ofExcept_ok, value_bind, ok_bind]
                    dsimp only
                    by_cases hliteral : symbol.1 < endMarker
                    · have hput : putLiteral (UInt8.ofNat symbol.1) { reading d₁ with bitstream := bitstream } (written d₁) =
                          value ({ reading d₁ with bitstream := bitstream },
                            ⟨d₁.out.set d₁.outputLen (UInt8.ofNat symbol.1), d₁.outputLen + 1⟩) := by
                        rw [putLiteral, if_neg (show ¬ (written d₁).bytes.length ≤ (written d₁).used from hdone), Buffer.push,
                          if_pos (show (written d₁).used < (written d₁).bytes.length from Nat.lt_of_not_le hdone)]
                        rfl
                      rw [if_pos hliteral, if_pos hliteral, hput, value_bind]
                      refine ih (d := ⟨d₁.out.set d₁.outputLen (UInt8.ofNat symbol.1), d₁.outputLen + 1, d₁.nextBlockAt,
                        d₁.alphabet, bitstream⟩) ⟨hs₁.alphabet, hready⟩ ?_ ?_
                      · simp only [List.length_set]
                        omega
                      · simp only [List.length_set]
                        omega
                    · rw [if_neg hliteral, if_neg hliteral]
                      by_cases hend : symbol.1 = endMarker ∧ input.length - 1 ≤ bitstream.position
                      · rw [if_pos hend, if_pos hend]
                        rfl
                      · have hs₂ : Usable (reading { d₁ with bitstream := bitstream }) := ⟨hs₁.alphabet, hready⟩
                        have hcopy := @copyBack_eq input { d₁ with bitstream := bitstream } (symbol.1 - endMarker) hs₂
                        rw [if_neg hend, if_neg hend, bind_assoc,
                          show copyBack input (symbol.1 - endMarker) { reading d₁ with bitstream := bitstream } (written d₁) = _
                            from hcopy]
                        cases hback : Xpress.copyBack input (symbol.1 - endMarker) { d₁ with bitstream := bitstream } with
                        | error e => rfl
                        | ok d₂ =>
                            obtain ⟨hs₃, hmore, hroom, hsize⟩ := usable_copyBack hs₂ hback
                            rw [ofExcept_ok, value_bind, value_bind, ok_bind]
                            refine ih hs₃ ?_ ?_
                            · rw [hsize]
                              exact hroom
                            · rw [hsize]
                              dsimp only at hmore ⊢
                              omega

theorem beginBlock_ensures (hs : Usable s) : (beginBlock input outputLen s).Ensures Usable := by
  have heq := @beginBlock_eq input ⟨[], outputLen, s.nextBlockAt, s.alphabet, s.bitstream⟩
  rw [show beginBlock input outputLen s = _ from heq]
  refine ensures_ofExcept_bind fun d hd => ?_
  have hs' : Usable (reading ⟨[], outputLen, s.nextBlockAt, s.alphabet, s.bitstream⟩) := hs
  exact (usable_beginBlock hs' hd).1

theorem putLiteral_appends {byte : UInt8} (hsize : 0 < size) :
    Appends (putLiteral byte s) front size fun s' more => s' = s ∧ 0 < more.length := by
  refine (appends_push (a := byte) hsize ⟨rfl, Nat.one_pos⟩).congr fun room hlength => ?_
  have hsmall : ¬ (front ++ room).length ≤ front.length := by
    rw [List.length_append]
    omega
  rw [putLiteral, if_neg hsmall]

theorem putMatch_appends {matchLen matchOffset : Nat} (hlength : 0 < matchLen) :
    Appends (putMatch matchLen matchOffset s) front size fun s' more => s' = s ∧ 0 < more.length := by
  by_cases hunderrun : matchOffset = 0 ∨ front.length < matchOffset
  · exact (appends_error .invalidMatchOffset).congr fun room _ => by rw [putMatch, if_pos hunderrun]
  · cases hstop : checkedAdd 64 front.length matchLen with
    | none =>
        refine (appends_error .outputOverflow).congr fun room _ => ?_
        rw [putMatch, if_neg hunderrun, hstop]
        rfl
    | some stop =>
        obtain ⟨-, rfl⟩ := checkedAdd_eq_some.mp hstop
        by_cases hfull : front.length + size < front.length + matchLen
        · refine (appends_error .outputOverflow).congr fun room hroom => ?_
          rw [putMatch, if_neg hunderrun, hstop, someOr_some, ofExcept_ok, value_bind, List.length_append, hroom,
            if_pos hfull]
        · obtain ⟨hpos, hinside⟩ := not_or.mp hunderrun
          refine (appends_copyMatch (Nat.pos_of_ne_zero hpos) (Nat.not_lt.mp hinside) (show matchLen ≤ size by omega)
            fun more hmore => ⟨rfl, by omega⟩).congr fun room hroom => ?_
          rw [putMatch, if_neg hunderrun, hstop, someOr_some, ofExcept_ok, value_bind, List.length_append, hroom,
            if_neg hfull]

theorem copyBack_appends (hs : Usable s) :
    Appends (copyBack input raw s) front size fun s' more => Usable s' ∧ 0 < more.length := by
  have hlen : (ofExcept (readMatchLen input (raw % 16) s.bitstream)).Ensures fun a => 3 ≤ a.1 ∧ Ready a.2 :=
    ensures_iff.mpr ⟨noFault_ofExcept _, fun a ha => ready_readMatchLen hs.bitstream (ofExcept_eq_value.mp ha)⟩
  refine appends_of_ensures hlen fun matchLen hmatch => ?_
  have hoffset : (readMatchOffset input (raw / 16) matchLen.2).Ensures fun a => Ready a.2 := by
    rw [readMatchOffset_eq hmatch.2]
    exact ensures_iff.mpr ⟨noFault_ofExcept _, fun a ha => ready_readMatchOffset hmatch.2 (ofExcept_eq_value.mp ha)⟩
  refine appends_of_ensures hoffset fun matchOffset hready => ?_
  refine (@putMatch_appends { s with bitstream := matchOffset.2 } front size matchLen.1 matchOffset.1 (by omega)).mono ?_
  rintro s' more - ⟨rfl, hmore⟩
  exact ⟨⟨hs.alphabet, hready⟩, hmore⟩

theorem decompressLoop_appends (hs : Usable s) (hrounds : size ≤ rounds) :
    Appends (decompressLoop input rounds s) front size fun _ _ => True := by
  induction rounds generalizing s front size with
  | zero =>
      refine (appends_pure (b := s) trivial).congr fun room hroom => if_pos ?_
      rw [List.length_append, hroom]
      exact Nat.add_le_add_left hrounds _
  | succ rounds ih =>
      by_cases hdone : size = 0
      · refine (appends_pure (b := s) trivial).congr fun room hroom => if_pos ?_
        rw [List.length_append, hroom, hdone]
        exact Nat.le_refl _
      · have hround : Appends (fun buffer => beginBlock input front.length s >>= fun s =>
            decode s.alphabet s.bitstream.peek >>= fun symbol => consume input s.bitstream symbol.2 >>= fun bitstream =>
              if symbol.1 < endMarker then
                putLiteral (UInt8.ofNat symbol.1) { s with bitstream := bitstream } buffer >>= fun r =>
                  decompressLoop input rounds r.1 r.2
              else if symbol.1 = endMarker ∧ input.length - 1 ≤ bitstream.position then
                pure ({ s with bitstream := bitstream }, buffer)
              else
                copyBack input (symbol.1 - endMarker) { s with bitstream := bitstream } buffer >>= fun r =>
                  decompressLoop input rounds r.1 r.2) front size fun _ _ => True := by
          refine appends_of_ensures (beginBlock_ensures hs) fun s₁ hs₁ => ?_
          have hdecode : (decode s₁.alphabet s₁.bitstream.peek).Ensures fun _ => True := by
            rw [decode_eq hs₁.alphabet]
            exact ensures_iff.mpr ⟨noFault_ofExcept _, fun _ _ => trivial⟩
          refine appends_of_ensures hdecode fun symbol _ => ?_
          have hconsume : (consume input s₁.bitstream symbol.2).Ensures Ready := by
            rw [consume_eq hs₁.bitstream]
            exact ensures_iff.mpr ⟨noFault_ofExcept _, fun _ ha => ready_consume hs₁.bitstream (ofExcept_eq_value.mp ha)⟩
          refine appends_of_ensures hconsume fun bitstream hready => ?_
          have hs₂ : Usable { s₁ with bitstream := bitstream } := ⟨hs₁.alphabet, hready⟩
          refine appends_ite (fun _ => ?_) fun _ => appends_ite (fun _ => appends_pure trivial) fun _ => ?_
          · refine (putLiteral_appends (Nat.pos_of_ne_zero hdone)).bind (f := decompressLoop input rounds) ?_
            rintro s' more - ⟨rfl, hmore⟩
            exact ih hs₂ (by omega)
          · refine (copyBack_appends hs₂).bind (f := decompressLoop input rounds) fun s' more _ h => ?_
            have hmore := h.2
            exact ih h.1 (by omega)
        refine hround.congr fun room hroom => if_neg ?_
        rw [List.length_append, hroom]
        dsimp only
        omega

end rounds

/-- Decompression comes to an end without a fault, whatever the input is. What it puts out, and how much, depends on the
input and the size of the buffer only, and the rest of the buffer stays as it is. -/
theorem decompressXpress_appends (input : List UInt8) (size : Nat) :
    ∃ result : Except XpressDecodeError (List UInt8), (∀ written, result = .ok written → written.length ≤ size) ∧
      ∀ out : List UInt8, out.length = size → decompressXpress input out =
        ofExcept (result.map fun written => (written ++ out.drop written.length, written.length)) := by
  by_cases hempty : size = 0
  · subst hempty
    refine ⟨.ok [], ?_, fun out hout => ?_⟩
    · rintro written hwritten
      cases hwritten
      exact Nat.le_refl _
    · rw [List.length_eq_zero_iff.mp hout]
      rfl
  · obtain ⟨result, hresult, hrun⟩ := @decompressLoop_appends input ⟨0, XpressHuffman.empty, XpressBitstream.empty⟩ [] size
      size ⟨sound_empty, ready_empty⟩ (Nat.le_refl _)
    refine ⟨result.map fun r => r.2, ?_, fun out hout => ?_⟩
    · rintro written hwritten
      cases result with
      | error e => cases hwritten
      | ok r =>
          cases hwritten
          exact (hresult r rfl).1
    · have hloop := hrun out hout
      rw [List.nil_append, List.length_nil] at hloop
      have hne : out ≠ [] := fun hnil => hempty (by rw [← hout, hnil, List.length_nil])
      rw [decompressXpress, if_neg hne, hout, hloop, bind_assoc]
      cases result with
      | error e => rfl
      | ok r => simp [Except.map, pure_eq]

theorem decompressXpress_eq {input out : List UInt8} :
    decompressXpress input out = ofExcept (Xpress.decompressXpress input out) := by
  rw [decompressXpress, Xpress.decompressXpress]
  by_cases hempty : out = []
  · rw [if_pos hempty, hempty]
    rfl
  · rw [if_neg hempty]
    exact @decompressLoop_eq input ⟨out, 0, 0, XpressHuffman.empty, XpressBitstream.empty⟩ out.length
      ⟨sound_empty, ready_empty⟩ (Nat.zero_le _) (by simp)

end NextBoot.Wim.Xpress.Checked

namespace NextBoot.Wim

open Faults Outcome Appending

theorem putMatch_inside {matchLength matchOffset : Nat} {buffer : Buffer UInt8} {s : Lzx.Decoder}
    {r : Lzx.Decoder × Buffer UInt8} (h : Lzx.Decoder.putMatch matchLength matchOffset s buffer = value r) :
    0 < matchOffset ∧ matchOffset ≤ buffer.used := by
  rw [Lzx.Decoder.putMatch] at h
  by_cases hunderrun : matchOffset = 0 ∨ buffer.used < matchOffset
  · rw [if_pos hunderrun] at h
    cases h
  · omega

theorem Xpress.Checked.putMatch_inside {matchLen matchOffset : Nat} {buffer : Buffer UInt8} {s : Xpress.Checked.Reading}
    {r : Xpress.Checked.Reading × Buffer UInt8} (h : Xpress.Checked.putMatch matchLen matchOffset s buffer = value r) :
    0 < matchOffset ∧ matchOffset ≤ buffer.used := by
  rw [Xpress.Checked.putMatch] at h
  by_cases hunderrun : matchOffset = 0 ∨ buffer.used < matchOffset
  · rw [if_pos hunderrun] at h
    cases h
  · omega

/-- Both decompressors come to an end without a fault on any input and any buffer: they fill a front part of the buffer
and nothing behind it, every match begins in what they have written, and what they fill the buffer with does not depend
on what it held. For buffers below 2 GiB this also holds where overflows of signed numbers are faults. -/
theorem decompressors_safe (input : List UInt8) (size : Nat) :
    ((∃ result : Except LzxDecodeError (List UInt8), (∀ written, result = .ok written → written.length ≤ size) ∧
        ∀ out : List UInt8, out.length = size → ∀ overflow, overflow = .wraps ∨ size < 2 ^ 31 →
          Lzx.decompressLzx input overflow out =
            ofExcept (result.map fun written => (written ++ out.drop written.length, written.length))) ∧
      ∀ matchLength matchOffset s buffer r, Lzx.Decoder.putMatch matchLength matchOffset s buffer = value r →
        0 < matchOffset ∧ matchOffset ≤ buffer.used) ∧
    (∃ result : Except XpressDecodeError (List UInt8), (∀ written, result = .ok written → written.length ≤ size) ∧
        ∀ out : List UInt8, out.length = size → Xpress.Checked.decompressXpress input out =
          ofExcept (result.map fun written => (written ++ out.drop written.length, written.length))) ∧
      ∀ matchLen matchOffset s buffer r, Xpress.Checked.putMatch matchLen matchOffset s buffer = value r →
        0 < matchOffset ∧ matchOffset ≤ buffer.used := by
  refine ⟨⟨?_, fun _ _ _ _ _ => putMatch_inside⟩, Xpress.Checked.decompressXpress_appends input size,
    fun _ _ _ _ _ => Xpress.Checked.putMatch_inside⟩
  obtain ⟨result, hresult, hwraps, hpanics⟩ := Lzx.decompressLzx_appends input size
  refine ⟨result, hresult, fun out hout overflow hoverflow => ?_⟩
  cases overflow with
  | wraps => exact hwraps out hout
  | panics =>
      rw [hpanics (hoverflow.resolve_left nofun) out hout]
      exact hwraps out hout

/-- An uncompressed block of five bytes, with a byte of padding behind it. -/
def storedBlock : List UInt8 :=
  [0x00, 0x60, 0x00, 0x50, 1, 0, 0, 0, 1, 0, 0, 0, 1, 0, 0, 0, 0x68, 0x65, 0x6C, 0x6C, 0x6F, 0]

theorem storedBlock_decompressed : ∃ written : List UInt8, written = [0x68, 0x65, 0x6C, 0x6C, 0x6F] ∧
    Lzx.decompressLzx storedBlock .panics (List.replicate 7 9) =
      value (written ++ (List.replicate 7 9).drop written.length, written.length) := by
  obtain ⟨⟨⟨result, -, hrun⟩, -⟩, -⟩ := decompressors_safe storedBlock 7
  have hsafe := hrun (List.replicate 7 9) rfl .panics (.inr (by decide))
  have hvalue : Lzx.decompressLzx storedBlock .panics (List.replicate 7 9) =
      value ([0x68, 0x65, 0x6C, 0x6C, 0x6F, 9, 9], 5) := by decide +kernel
  cases result with
  | error e => cases hvalue.symm.trans hsafe
  | ok written =>
      refine ⟨written, ?_, hsafe⟩
      have heq := value.inj (hvalue.symm.trans hsafe)
      have hlength : written.length = 5 := (congrArg Prod.snd heq).symm
      have hbytes := congrArg (fun r => r.1.take 5) heq
      dsimp only at hbytes
      rw [List.take_left' hlength] at hbytes
      exact hbytes.symm

end NextBoot.Wim
