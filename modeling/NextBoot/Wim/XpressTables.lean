import Mathlib.Tactic.NormNum
import NextBoot.CanonicalCode
import NextBoot.Lzx.Huffman
import NextBoot.Wim.Xpress

namespace NextBoot.Wim.Xpress

open Words Results CanonicalCode

variable {lengths counts : List Nat} {lengthBytes : List UInt8} {k window len : Nat} {a : Assignment}

theorem length_codeLengths : (codeLengths lengthBytes).length = 2 * lengthBytes.length := by
  simp [codeLengths, List.length_flatMap]
  omega

theorem codeLengths_le : ∀ l ∈ codeLengths lengthBytes, l ≤ huffmanBits := by
  intro l hl
  obtain ⟨byte, -, hmem⟩ := List.mem_flatMap.1 hl
  have hbyte := byte.toNat_lt
  simp only [List.mem_cons, List.not_mem_nil, or_false] at hmem
  rw [huffmanBits]
  omega

/-- What the rounds of the assignment have made of the counts up to a length. -/
structure Assigned (lengths : List Nat) (k : Nat) (a : Assignment) : Prop where
  huf_eq : a.huf = firstCode lengths (k + 1)
  huf_le : a.huf ≤ 2 ^ (k + 1)
  cumulative_eq : a.cumulative = firstIndex lengths (k + 1)
  length_starts : a.starts.length = k + 1
  length_firstSymbol : a.firstSymbol.length = k + 1
  starts_eq : ∀ len, 0 < len → len ≤ k → a.starts[len]? = some (shorter huffmanBits lengths len)
  firstSymbol_eq : ∀ len, 0 < len → len ≤ k → a.firstSymbol[len]? = some (firstIndex lengths len)

theorem getElem?_concat {xs : List Nat} {f : Nat → Nat} (hlen : xs.length = k + 1)
    (hxs : ∀ len, 0 < len → len ≤ k → xs[len]? = some (f len)) :
    ∀ len, 0 < len → len ≤ k + 1 → (xs ++ [f (k + 1)])[len]? = some (f len) := by
  intro len hpos hle
  rcases Nat.lt_succ_iff_lt_or_eq.1 (Nat.lt_succ_of_le hle) with hlt | rfl
  · rw [List.getElem?_append_left (by omega), hxs len hpos (Nat.le_of_lt_succ hlt)]
  · rw [← hlen, List.getElem?_concat_length]

theorem assignLength_eq (hcounts : counts[k + 1]? = some (used lengths (k + 1))) (hk : k < huffmanBits)
    (hsmall : lengths.length < 2 ^ 16) (ha : Assigned lengths k a) :
    if firstCode lengths (k + 1) + used lengths (k + 1) ≤ 2 ^ (k + 1) then
      ∃ a', assignLength counts a (k + 1) = .ok a' ∧ Assigned lengths (k + 1) a'
    else assignLength counts a (k + 1) = .error .incompleteHuffmanAlphabet := by
  have hused : used lengths (k + 1) ≤ lengths.length := by
    rw [used, if_neg (Nat.succ_ne_zero k)]
    exact List.count_le_length
  have hcount : counts.getD (k + 1) 0 = used lengths (k + 1) := by
    rw [List.getD_eq_getElem?_getD, hcounts, Option.getD_some]
  have hpow : 2 ^ (k + 1) ≤ 2 ^ 16 := Nat.pow_le_pow_right (by decide) hk
  have hhuf := ha.huf_le
  have hadd : checkedAdd 32 a.huf (used lengths (k + 1)) = some (firstCode lengths (k + 1) + used lengths (k + 1)) := by
    rw [checkedAdd_eq_some, ha.huf_eq]
    rw [ha.huf_eq] at hhuf
    exact ⟨by omega, rfl⟩
  have hstart : a.huf * 2 ^ (huffmanBits - (k + 1)) = shorter huffmanBits lengths (k + 1) := by
    rw [ha.huf_eq, firstCode_mul hk]
  rw [assignLength, hcount, hadd, someOr_some, ok_bind, refuseIf, hstart, ha.cumulative_eq]
  split
  · rename_i hfits
    rw [if_neg (Nat.not_lt.2 hfits)]
    refine ⟨_, rfl, rfl, ?_, rfl, ?_, ?_, ?_, ?_⟩
    · rw [Nat.pow_succ]
      exact Nat.mul_le_mul_right 2 hfits
    · exact List.length_append.trans (congrArg (· + 1) ha.length_starts)
    · exact List.length_append.trans (congrArg (· + 1) ha.length_firstSymbol)
    · exact getElem?_concat ha.length_starts ha.starts_eq
    · exact getElem?_concat ha.length_firstSymbol ha.firstSymbol_eq
  · rename_i hfull
    rw [if_pos (Nat.lt_of_not_le hfull)]
    rfl

theorem assignLength_run (hcounts : ∀ len, 0 < len → len ≤ huffmanBits → counts[len]? = some (used lengths len))
    (hk : k ≤ huffmanBits) (hsmall : lengths.length < 2 ^ 16) :
    (∃ a, (List.range' 1 k).foldlM (assignLength counts) ⟨0, 0, [0], [0]⟩ = .ok a ∧ Assigned lengths k a) ∨
      (List.range' 1 k).foldlM (assignLength counts) ⟨0, 0, [0], [0]⟩ = .error .incompleteHuffmanAlphabet ∧
      ∃ len ≤ huffmanBits, 2 ^ len < firstCode lengths len + used lengths len := by
  induction k with
  | zero =>
      refine .inl ⟨_, rfl, rfl, ?_, rfl, rfl, rfl, ?_, ?_⟩
      · exact Nat.zero_le _
      · intro len hpos hle
        exact absurd hle (Nat.not_le_of_lt hpos)
      · intro len hpos hle
        exact absurd hle (Nat.not_le_of_lt hpos)
  | succ k ih =>
      rw [List.range'_1_concat, List.foldlM_append]
      rcases ih (Nat.le_of_succ_le hk) with ⟨a, hfold, ha⟩ | ⟨herror, hfull⟩
      · have hround := assignLength_eq (hcounts (k + 1) (Nat.succ_pos k) hk) hk hsmall ha
        rw [hfold, ok_bind, List.foldlM_cons, Nat.add_comm 1 k]
        split at hround
        · obtain ⟨a', hvalue, ha'⟩ := hround
          rw [hvalue]
          exact .inl ⟨a', rfl, ha'⟩
        · rename_i hlarge
          rw [hround]
          exact .inr ⟨rfl, k + 1, hk, Nat.lt_of_not_le hlarge⟩
      · rw [herror]
        exact .inr ⟨rfl, hfull⟩

/-- The round of `sortSymbols` for one symbol. -/
def sortSymbol (s : List Nat × List Nat) (p : Nat × Nat) : List Nat × List Nat :=
  if p.1 = 0 then s else (s.1.set p.1 (s.1.getD p.1 0 + 1), s.2.set (s.1.getD p.1 0) p.2)

theorem sortSymbols_run {cursor symbols : List Nat} (hplaced : Placed huffmanBits lengths k cursor symbols)
    (hall : ∀ l ∈ lengths, l ≤ huffmanBits) (hk : k ≤ lengths.length) :
    Placed huffmanBits lengths lengths.length (((lengths.drop k).zipIdx k).foldl sortSymbol (cursor, symbols)).1
      (((lengths.drop k).zipIdx k).foldl sortSymbol (cursor, symbols)).2 := by
  obtain ⟨rest, hrest⟩ : ∃ rest, rest = lengths.drop k := ⟨_, rfl⟩
  induction rest generalizing k cursor symbols with
  | nil =>
      have hend : k = lengths.length := le_antisymm hk (List.drop_eq_nil_iff.1 hrest.symm)
      subst hend
      rw [← hrest]
      exact hplaced
  | cons len rest ih =>
      obtain ⟨hlt, hget, hnext, hsplit⟩ := drop_cons hrest
      rw [hsplit, List.zipIdx_cons, List.foldl_cons, sortSymbol]
      by_cases hzero : len = 0
      · rw [if_pos hzero]
        subst hzero
        exact ih (hplaced.skip hget) hlt hnext
      · obtain ⟨hcursor, hroom, hplaced'⟩ := hplaced.place hget hzero (hall len (List.mem_of_getElem? hget))
        have hplace : cursor.getD len 0 = firstIndex lengths len + (lengths.take k).count len := by
          rw [List.getD_eq_getElem?_getD, hcursor, Option.getD_some]
        rw [if_neg hzero, hplace]
        exact ih hplaced' hlt hnext

theorem getD_of_getElem? {xs : List Nat} {i value : Nat} (h : xs[i]? = some value) : xs.getD i 0 = value := by
  rw [List.getD_eq_getElem?_getD, h, Option.getD_some]

variable {alphabet : XpressHuffman}

/-- The search stops at the length in whose range the window lies. -/
theorem decodeFrom_eq
    (h : Represents huffmanBits lengths alphabet.counts alphabet.starts alphabet.firstSymbol alphabet.symbols)
    {bits : List Nat} (hbits : ∀ b ∈ bits, 0 < b ∧ b ≤ huffmanBits) (hlen : len ∈ bits)
    (hlo : shorter huffmanBits lengths len ≤ window)
    (hhi : window < shorter huffmanBits lengths len + used lengths len * 2 ^ (huffmanBits - len)) :
    decodeFrom alphabet window bits = .ok (alphabet.symbols.getD (firstIndex lengths len +
      (window - shorter huffmanBits lengths len) / 2 ^ (huffmanBits - len)) 0, len) := by
  induction bits with
  | nil => nomatch hlen
  | cons b bits ih =>
      rw [List.forall_mem_cons] at hbits
      obtain ⟨⟨hpos, hle⟩, hrest⟩ := hbits
      rw [decodeFrom, getD_of_getElem? (h.counts_eq b hpos hle), getD_of_getElem? (h.starts_eq b hpos hle),
        getD_of_getElem? (h.firstSymbol_eq b hpos hle)]
      by_cases hin : shorter huffmanBits lengths b ≤ window ∧
          window < shorter huffmanBits lengths b + used lengths b * 2 ^ (huffmanBits - b)
      · have heq : b = len := range_unique shorter_succ hin.1 hin.2 hlo hhi
        subst heq
        rw [if_pos]
        refine ⟨?_, hin⟩
        intro hzero
        rw [hzero] at hhi
        omega
      · rw [if_neg fun h => hin h.2]
        apply ih hrest
        rcases List.mem_cons.1 hlen with rfl | hmem
        · exact absurd ⟨hlo, hhi⟩ hin
        · exact hmem

theorem decode_of_represents {s : Nat}
    (h : Represents huffmanBits lengths alphabet.counts alphabet.starts alphabet.firstSymbol alphabet.symbols)
    (hall : ∀ l ∈ lengths, l ≤ huffmanBits) (hs : BeginsWith huffmanBits lengths window s) :
    alphabet.decode window = .ok (s, lengths.getD s 0) := by
  have hget := getElem?_of_beginsWith hs
  have hle := hall _ (List.mem_of_getElem? hget)
  obtain ⟨-, hlo, hhi, hrank⟩ := range_of_beginsWith hs hget hle
  have hmem : lengths.getD s 0 ∈ List.range' 1 huffmanBits := by
    rw [List.mem_range'_1]
    have hne := hs.1
    omega
  rw [XpressHuffman.decode, decodeFrom_eq h (fun b => mem_lens) hmem hlo hhi, hrank,
    getD_of_getElem? (h.symbols_eq s _ hget hs.1)]

theorem counts_of_lengths : ∀ len, 0 < len → len ≤ huffmanBits →
    ((List.range (huffmanBits + 1)).map fun bits => if bits = 0 then 0 else lengths.count bits)[len]? =
      some (used lengths len) := by
  intro len _ hle
  rw [List.getElem?_map, List.getElem?_range (Nat.lt_succ_of_le hle), Option.map_some, used]

/-- The table of a complete code. -/
theorem fromLengthBytes_of_kraft (hlen : lengthBytes.length = lengthTableSize)
    (hkraft : KraftEquality (codeLengths lengthBytes)) :
    ∃ alphabet, XpressHuffman.fromLengthBytes lengthBytes = .ok alphabet ∧
      Represents huffmanBits (codeLengths lengthBytes) alphabet.counts alphabet.starts alphabet.firstSymbol
        alphabet.symbols := by
  have hmany : (codeLengths lengthBytes).length = codeCount := by
    rw [length_codeLengths, hlen]
    rfl
  have hsmall : (codeLengths lengthBytes).length < 2 ^ 16 := by
    rw [hmany, codeCount]
    omega
  have hlong : (codeLengths lengthBytes).any (huffmanBits < ·) = false := by
    simpa using @codeLengths_le lengthBytes
  have hzero := not_all_zero_of_kraft hkraft
  rw [kraftEquality_iff codeLengths_le] at hkraft
  rcases assignLength_run counts_of_lengths (Nat.le_refl _) hsmall with ⟨a, hrun, ha⟩ | ⟨-, len, hle, hfull⟩
  · have hhuf : a.huf = 2 ^ (huffmanBits + 1) := by
      rw [ha.huf_eq, firstCode_succ_width, hkraft, Nat.pow_succ]
    have hsymbols : (List.replicate codeCount 0).length = (codeLengths lengthBytes).length := by
      rw [List.length_replicate, hmany]
    have hplaced := sortSymbols_run (Placed.zero hsymbols ha.firstSymbol_eq) codeLengths_le (Nat.zero_le _)
    refine ⟨⟨_, a.starts, a.firstSymbol, _⟩, ?_, hplaced.represents counts_of_lengths ha.starts_eq ha.firstSymbol_eq⟩
    rw [XpressHuffman.fromLengthBytes, refuseIf, if_neg (not_not.2 hlen), ok_bind]
    dsimp only
    rw [hlong, hzero, refuseIf, if_neg Bool.false_ne_true, ok_bind, refuseIf, if_neg Bool.false_ne_true, ok_bind, hrun, ok_bind,
      refuseIf, if_neg (not_not.2 hhuf)]
    rfl
  · exact absurd (firstCode_add_used_le hkraft hle) (Nat.not_le_of_lt hfull)

/-- Every other list of lengths is refused. -/
theorem fromLengthBytes_refused (hlen : lengthBytes.length = lengthTableSize)
    (hkraft : ¬ KraftEquality (codeLengths lengthBytes)) :
    XpressHuffman.fromLengthBytes lengthBytes = .error .incompleteHuffmanAlphabet := by
  have hlong : (codeLengths lengthBytes).any (huffmanBits < ·) = false := by
    simpa using @codeLengths_le lengthBytes
  have hsmall : (codeLengths lengthBytes).length < 2 ^ 16 := by
    rw [length_codeLengths, hlen, lengthTableSize, codeCount]
    omega
  rw [XpressHuffman.fromLengthBytes, refuseIf, if_neg (not_not.2 hlen), ok_bind]
  dsimp only
  rw [hlong, refuseIf, if_neg Bool.false_ne_true, ok_bind]
  cases hzero : (codeLengths lengthBytes).all (· = 0) with
  | true => rfl
  | false =>
      rw [refuseIf, if_neg Bool.false_ne_true, ok_bind]
      rcases assignLength_run counts_of_lengths (Nat.le_refl _) hsmall with ⟨a, hrun, ha⟩ | ⟨hrun, -⟩
      · have hhuf : a.huf ≠ 2 ^ (huffmanBits + 1) := by
          rw [ha.huf_eq, firstCode_succ_width, Nat.pow_succ]
          intro heq
          exact hkraft ((kraftEquality_iff codeLengths_le).2 (Nat.eq_of_mul_eq_mul_right (by decide) heq))
        rw [hrun, ok_bind, refuseIf, if_pos hhuf]
        rfl
      · rw [hrun]
        rfl

theorem fromLengthBytes_ok_iff (hlen : lengthBytes.length = lengthTableSize) :
    (∃ alphabet, XpressHuffman.fromLengthBytes lengthBytes = .ok alphabet) ↔ KraftEquality (codeLengths lengthBytes) := by
  constructor
  · rintro ⟨alphabet, halphabet⟩
    by_contra h
    rw [fromLengthBytes_refused hlen h] at halphabet
    nomatch halphabet
  · intro h
    obtain ⟨alphabet, halphabet, -⟩ := fromLengthBytes_of_kraft hlen h
    exact ⟨alphabet, halphabet⟩

theorem decode_fromLengthBytes (hlen : lengthBytes.length = lengthTableSize)
    (halphabet : XpressHuffman.fromLengthBytes lengthBytes = .ok alphabet) (hwindow : window < 2 ^ huffmanBits) :
    (∀ s, BeginsWith huffmanBits (codeLengths lengthBytes) window s →
      alphabet.decode window = .ok (s, (codeLengths lengthBytes).getD s 0)) ∧
    ∃! s, BeginsWith huffmanBits (codeLengths lengthBytes) window s := by
  have hkraft := (fromLengthBytes_ok_iff hlen).1 ⟨alphabet, halphabet⟩
  obtain ⟨alphabet', halphabet', hrepresents⟩ := fromLengthBytes_of_kraft hlen hkraft
  obtain rfl : alphabet' = alphabet := Except.ok.inj (halphabet'.symm.trans halphabet)
  exact ⟨fun s hs => decode_of_represents hrepresents codeLengths_le hs,
    existsUnique_beginsWith codeLengths_le hkraft hwindow⟩

/-- The tables of both decoders are built exactly for complete codes, and without any codeword in the one format that
has that; every window then decodes to the one symbol whose codeword it begins with, in both alike. -/
theorem canonical_tables (lengths : List Nat) (htwo : 2 ≤ lengths.length) (hsmall : lengths.length < 2 ^ 16)
    (lengthBytes : List UInt8) (hbytes : lengthBytes.length = lengthTableSize) :
    (((∃ table, Lzx.LzxHuffman.fromLengths lengths = .value table) ↔
        (∀ l ∈ lengths, l ≤ huffmanBits) ∧ (KraftEquality lengths ∨ ∀ l ∈ lengths, l = 0)) ∧
      ∀ table, Lzx.LzxHuffman.fromLengths lengths = .value table → ∀ window < 2 ^ huffmanBits,
        (∀ s, BeginsWith huffmanBits lengths window s → table.decode window = .value (s, lengths.getD s 0)) ∧
        ((∃! s, BeginsWith huffmanBits lengths window s) ∨
          (∀ l ∈ lengths, l = 0) ∧ table.decode window = .value (0, 1))) ∧
    (((∃ alphabet, XpressHuffman.fromLengthBytes lengthBytes = .ok alphabet) ↔
        KraftEquality (codeLengths lengthBytes)) ∧
      ∀ alphabet, XpressHuffman.fromLengthBytes lengthBytes = .ok alphabet → ∀ window < 2 ^ huffmanBits,
        (∀ s, BeginsWith huffmanBits (codeLengths lengthBytes) window s →
          alphabet.decode window = .ok (s, (codeLengths lengthBytes).getD s 0)) ∧
        ∃! s, BeginsWith huffmanBits (codeLengths lengthBytes) window s) ∧
    ∀ table alphabet, Lzx.LzxHuffman.fromLengths (codeLengths lengthBytes) = .value table →
      XpressHuffman.fromLengthBytes lengthBytes = .ok alphabet → ∀ window < 2 ^ huffmanBits,
        ∃ symbol, table.decode window = .value symbol ∧ alphabet.decode window = .ok symbol := by
  refine ⟨⟨Lzx.LzxHuffman.fromLengths_ok_iff htwo hsmall, fun table htable window hwindow =>
      Lzx.LzxHuffman.decode_fromLengths htwo hsmall htable hwindow⟩,
    ⟨fromLengthBytes_ok_iff hbytes, fun alphabet halphabet window hwindow =>
      decode_fromLengthBytes hbytes halphabet hwindow⟩, ?_⟩
  intro table alphabet htable halphabet window hwindow
  have hmany : (codeLengths lengthBytes).length = codeCount := by
    rw [length_codeLengths, hbytes]
    rfl
  rw [codeCount] at hmany
  obtain ⟨hdecode, s, hs, -⟩ := decode_fromLengthBytes hbytes halphabet hwindow
  obtain ⟨hdecode', -⟩ := Lzx.LzxHuffman.decode_fromLengths (by omega) (by omega) htable hwindow
  exact ⟨_, hdecode' s hs, hdecode s hs⟩

def sampleLengths : List Nat := [2, 1, 0, 3, 3]

/-- Both halves of the windows belong to one symbol each. -/
def sampleLengthBytes : List UInt8 := 0x11 :: List.replicate 255 0

theorem sampleLengths_decode :
    ∃ table, Lzx.LzxHuffman.fromLengths sampleLengths = .value table ∧ table.decode 0xE000 = .value (4, 3) := by
  have h := canonical_tables sampleLengths (by decide) (by decide +kernel) sampleLengthBytes (by decide +kernel)
  obtain ⟨table, htable⟩ := h.1.1.2 ⟨by decide, .inl (by norm_num [KraftEquality, sampleLengths])⟩
  exact ⟨table, htable, ((h.1.2 table htable 0xE000 (by decide)).1 4 ⟨by decide, by decide⟩)⟩

/-- Codewords of up to seventeen bits, for an alphabet as large as the one for the lengths of a block. -/
def deepLengths : List Nat := [1, 2, 3, 4, 5, 6, 7, 8, 9, 10, 11, 12, 13, 14, 15, 16, 17, 17, 0, 0]

theorem deepLengths_refused : ¬ ((∃ table, Lzx.LzxHuffman.fromLengths deepLengths = .value table) ↔
    KraftEquality deepLengths ∨ ∀ l ∈ deepLengths, l = 0) := by
  intro h
  obtain ⟨table, htable⟩ := h.2 (.inl (by norm_num [KraftEquality, deepLengths]))
  have hrefused : Lzx.LzxHuffman.fromLengths deepLengths = .error .invalidHuffmanLength := by decide +kernel
  rw [hrefused] at htable
  cases htable

end NextBoot.Wim.Xpress
