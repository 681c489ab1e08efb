import NextBoot.Lzx.Decoder

namespace NextBoot.Lzx

open Words Bytes Results Faults Outcome Appending CanonicalCode
open Wim (LzxDecodeError)

variable (input : List UInt8)

namespace BitReader

structure Valid (r : BitReader) : Prop where
  accumulator_lt : r.accumulator < 2 ^ 32
  bits_lt : r.bits < 32

/-- The bits that have not been consumed. -/
def remaining (r : BitReader) : Nat := 8 * (input.length - r.inputOffset) + r.bits

/-- What is left behind a step that takes some bits at least. -/
structure After (r : BitReader) (taken : Nat) (r' : BitReader) : Prop where
  valid : r'.Valid
  remaining_le : remaining input r' + taken ≤ remaining input r

end BitReader

/-- A table that can be asked about any bits. -/
def LzxHuffman.Total (table : LzxHuffman) : Prop := ∀ window < 2 ^ huffmanBits, (table.decode window).NoFault

variable {input} {r r' r'' : BitReader} {taken more bits count codes : Nat} {lengths : List Nat} {table : LzxHuffman}

section tables

theorem LzxHuffman.total_empty (n : Nat) : (LzxHuffman.empty n).Total := by
  intro window _
  have hskip : ∀ bits : List Nat, (∀ b ∈ bits, b ≤ huffmanBits) →
      (LzxHuffman.empty n).decodeBits window bits = error .invalidHuffmanCode := by
    intro bits hbits
    induction bits with
    | nil => rfl
    | cons b bits ih =>
        rw [List.forall_mem_cons] at hbits
        have hcount : (LzxHuffman.empty n).counts[b]? = some 0 := by
          rw [LzxHuffman.empty, List.getElem?_replicate, if_pos (Nat.lt_succ_of_le hbits.1)]
        rw [LzxHuffman.decodeBits, hcount, ofOption_some, value_bind, if_pos rfl]
        exact ih hbits.2
  rw [LzxHuffman.decode, hskip _ fun b hb => (mem_lens hb).2]
  trivial

/-- The construction of a table does not fault, and neither does what it constructs. -/
theorem fromLengths_ensures (htwo : 2 ≤ lengths.length) (hsmall : lengths.length < 2 ^ 16) :
    (LzxHuffman.fromLengths lengths).Ensures LzxHuffman.Total := by
  by_cases h : (∀ l ∈ lengths, l ≤ huffmanBits) ∧ (KraftEquality lengths ∨ ∀ l ∈ lengths, l = 0)
  · obtain ⟨table, htable⟩ := (LzxHuffman.fromLengths_ok_iff htwo hsmall).mpr h
    rw [htable]
    intro window hwindow
    obtain ⟨hdecode, ⟨s, hs, -⟩ | ⟨-, hzero⟩⟩ := LzxHuffman.decode_fromLengths htwo hsmall htable hwindow
    · rw [hdecode s hs]
      trivial
    · rw [hzero]
      trivial
  · obtain ⟨e, he⟩ := LzxHuffman.fromLengths_refused h hsmall
    rw [he]
    trivial

theorem setAt_ensures {xs : List Nat} {i : Nat} (value : Nat) (h : i < xs.length) :
    (setAt xs i value).Ensures fun ys => ys.length = xs.length := by
  rw [LzxHuffman.setAt_of_lt value h]
  exact List.length_set

end tables

namespace BitReader

theorem After.refl (h : r.Valid) : After input r 0 r := ⟨h, le_rfl⟩

theorem After.trans (h : After input r taken r') (h' : After input r' more r'') : After input r (taken + more) r'' := by
  have hle := h.remaining_le
  have hle' := h'.remaining_le
  exact ⟨h'.valid, by omega⟩

theorem After.weaken (h : After input r taken r') (hle : more ≤ taken) : After input r more r' := by
  have hremaining := h.remaining_le
  exact ⟨h.valid, by omega⟩

theorem refill_ensures (hr : r.Valid) (hbits : r.bits < 16) : (refill input r).Ensures (After input r 0) := by
  rw [refill, readU16, bind_assoc]
  refine ensures_ofExcept_bind fun word hword => ?_
  have hinside := readLe_inside (someOr_eq_ok.mp hword)
  rw [pure_eq, value_bind]
  refine ensures_ofOption_bind (checkedSub_eq_some.mpr ⟨by omega, rfl⟩) ?_
  refine ensures_ofOption_bind (checkedShl_eq_some.mpr ⟨by omega, rfl⟩) ?_
  refine ensures_ofOption_bind (checkedAdd_eq_some.mpr ⟨by omega, rfl⟩) ?_
  refine ensures_pure ⟨⟨Nat.or_lt_two_pow hr.accumulator_lt (Nat.mod_lt _ (by decide)), ?_⟩, ?_⟩
  · dsimp only
    omega
  · simp only [remaining]
    omega

theorem accumulate_ensures (hr : r.Valid) {needed : Nat} :
    (accumulate input needed r).Ensures fun a => a.1 < 2 ^ 16 ∧ After input r 0 a.2 := by
  rw [accumulate]
  refine ensures_ite (fun _ => ensures_error _) fun hneeded => ?_
  rw [huffmanBits] at hneeded
  have hfilled : (fill input needed r).Ensures (After input r 0) :=
    ensures_ite (fun h => refill_ensures hr (by omega)) fun _ => ensures_pure (After.refl hr)
  refine hfilled.bind fun r' h => ensures_pure ⟨?_, h⟩
  have hlt := h.valid.accumulator_lt
  omega

theorem consume_ensures (hr : r.Valid) : (consume bits r).Ensures (After input r bits) := by
  have hbits := hr.bits_lt
  rw [consume]
  refine ensures_ite (fun _ => ensures_error _) fun hfits => ?_
  refine ensures_ofOption_bind (checkedShl_eq_some.mpr ⟨by omega, rfl⟩) ?_
  refine ensures_pure ⟨⟨Nat.mod_lt _ (by decide), ?_⟩, ?_⟩
  · dsimp only
    omega
  · simp only [remaining]
    omega

theorem getBits_ensures (hr : r.Valid) : (getBits input bits r).Ensures fun a => After input r bits a.2 := by
  rw [getBits]
  by_cases hzero : bits = 0
  · subst hzero
    exact ensures_pure (After.refl hr)
  rw [if_neg hzero]
  by_cases hlarge : huffmanBits < bits
  · rw [accumulate, if_pos hlarge]
    exact ensures_error _
  rw [huffmanBits] at hlarge
  refine (accumulate_ensures hr).bind fun normalized h => ?_
  have hconsume := @consume_ensures input normalized.2 bits h.2.valid
  refine hconsume.bind fun r' h' => ?_
  refine ensures_ofOption_bind (checkedSub_eq_some.mpr ⟨by rw [huffmanBits]; omega, rfl⟩) ?_
  refine ensures_ofOption_bind (checkedShr_eq_some.mpr ⟨by rw [huffmanBits]; omega, rfl⟩) ?_
  exact ensures_pure ((h.2.trans h').weaken (by omega))

theorem alignForBytes_ensures (hr : r.Valid) : (alignForBytes input bits r).Ensures (After input r bits) := by
  refine (getBits_ensures hr).bind fun padding h => ?_
  exact (consume_ensures h.valid).mono fun r' h' => (h.trans h').weaken (by omega)

theorem decodeSymbol_ensures (hr : r.Valid) (htable : table.Total) :
    (decodeSymbol input table r).Ensures fun a => After input r 0 a.2 := by
  refine (accumulate_ensures hr).bind fun huf h => ?_
  have hdecode : (table.decode huf.1).Ensures fun _ => True :=
    ensures_iff.mpr ⟨htable huf.1 h.1, fun _ _ => trivial⟩
  refine hdecode.bind fun symbol _ => ?_
  have hconsume := @consume_ensures input huf.2 symbol.2 h.2.valid
  refine hconsume.bind fun r' h' => ?_
  exact ensures_pure ((h.2.trans h').weaken (by omega))

theorem readRawLengths_ensures (hr : r.Valid) :
    (readRawLengths input bits count r).Ensures fun a => a.1.length = count ∧ After input r 0 a.2 := by
  induction count generalizing r with
  | zero => exact ensures_pure ⟨rfl, After.refl hr⟩
  | succ count ih =>
      refine (getBits_ensures hr).bind fun len h => ?_
      refine (ih h.valid).bind fun rest h' => ?_
      exact ensures_pure ⟨congrArg (· + 1) h'.1, (h.trans h'.2).weaken (by omega)⟩

theorem readRawAlphabet_ensures (hr : r.Valid) (htwo : 2 ≤ codes) (hsmall : codes < 2 ^ 16) :
    (readRawAlphabet input codes bits r).Ensures fun a => a.1.Total ∧ After input r 0 a.2 := by
  refine (readRawLengths_ensures hr).bind fun lengths h => ?_
  refine (fromLengths_ensures (by rw [h.1]; exact htwo) (by rw [h.1]; exact hsmall)).bind fun table htable => ?_
  exact ensures_pure ⟨htable, h.2⟩

theorem pretreeLength_ensures {code previous : Nat} (hr : r.Valid) (htable : table.Total) :
    (pretreeLength input table code previous r).Ensures fun a => After input r 0 a.2.2 := by
  rw [pretreeLength]
  refine ensures_ite (fun hcode => ?_) fun _ => ensures_ite (fun _ => ?_) fun _ => ensures_ite (fun _ => ?_) fun _ =>
    ensures_ite (fun _ => ?_) fun _ => ensures_error _
  · refine ensures_ofOption_bind (checkedSub_eq_some.mpr ⟨by omega, rfl⟩) ?_
    exact ensures_pure (After.refl hr)
  · exact (getBits_ensures hr).bind fun more h => ensures_pure (h.weaken (Nat.zero_le _))
  · exact (getBits_ensures hr).bind fun more h => ensures_pure (h.weaken (Nat.zero_le _))
  · refine (getBits_ensures hr).bind fun more h => ?_
    refine (decodeSymbol_ensures h.valid htable).bind fun code h' => ?_
    refine ensures_ite (fun _ => ensures_error _) fun hcode => ?_
    refine ensures_ofOption_bind (checkedSub_eq_some.mpr ⟨by omega, rfl⟩) ?_
    exact ensures_pure ((h.trans h').weaken (Nat.zero_le _))

theorem pretreeLoop_ensures {index duplicate : Nat} (hr : r.Valid) (htable : table.Total)
    (hcount : index + count = lengths.length) :
    (pretreeLoop input table count index lengths duplicate r).Ensures fun a =>
      a.1.length = lengths.length ∧ After input r 0 a.2 := by
  induction count generalizing index lengths duplicate r with
  | zero => exact ensures_ite (fun _ => ensures_error _) fun _ => ensures_pure ⟨rfl, After.refl hr⟩
  | succ count ih =>
      rw [pretreeLoop]
      refine ensures_ite (fun _ => ?_) fun _ => ?_
      · refine ensures_ite (fun _ => ensures_error _) fun hindex => ?_
        refine ensures_ofOption_bind (List.getElem?_eq_getElem (show index - 1 < lengths.length by omega)) ?_
        refine (setAt_ensures _ (by omega)).bind fun lengths' hlengths => ?_
        rw [← hlengths]
        exact ih hr (by omega)
      · refine (decodeSymbol_ensures hr htable).bind fun code h => ?_
        refine ensures_ofOption_bind (List.getElem?_eq_getElem (show index < lengths.length by omega)) ?_
        refine (pretreeLength_ensures h.valid htable).bind fun length h' => ?_
        refine (setAt_ensures _ (by omega)).bind fun lengths' hlengths => ?_
        rw [← hlengths]
        exact (ih h'.valid (by omega)).mono fun a ha => ⟨ha.1, (h.trans h').trans ha.2⟩

end BitReader

open BitReader

namespace Decoder

/-- What the decoder keeps from block to block. -/
structure Valid (s : Decoder) : Prop where
  reader : s.toBitReader.Valid
  length_repeatedOffset : s.repeatedOffset.length = repeatedOffsets
  alignoffset : s.alignoffset.Total
  main : s.main.Total
  length : s.length.Total
  length_mainLengths : s.mainLengths.length = mainCodes
  length_lengthLengths : s.lengthLengths.length = lengthCodes

/-- A later state of the same block. -/
structure Later (input : List UInt8) (s s' : Decoder) : Prop where
  valid : s'.Valid
  remaining_le : remaining input s'.toBitReader ≤ remaining input s.toBitReader
  blockEnd_eq : s'.blockEnd = s.blockEnd

variable {s s' s'' : Decoder}

theorem Later.trans (h : Later input s s') (h' : Later input s' s'') : Later input s s'' :=
  ⟨h'.valid, h'.remaining_le.trans h.remaining_le, h'.blockEnd_eq.trans h.blockEnd_eq⟩

theorem Valid.later (hs : s.Valid) (h : After input s.toBitReader 0 r) : Later input s { s with toBitReader := r } :=
  ⟨⟨h.valid, hs.length_repeatedOffset, hs.alignoffset, hs.main, hs.length, hs.length_mainLengths, hs.length_lengthLengths⟩,
    h.remaining_le, rfl⟩

theorem valid_new : new.Valid where
  reader := ⟨by decide, by decide⟩
  length_repeatedOffset := rfl
  alignoffset := LzxHuffman.total_empty _
  main := LzxHuffman.total_empty _
  length := LzxHuffman.total_empty _
  length_mainLengths := List.length_replicate
  length_lengthLengths := List.length_replicate

theorem readPretreeLengths_ensures {previous : List Nat} (hs : s.Valid) :
    (readPretreeLengths input previous s).Ensures fun a => a.1.length = previous.length ∧ Later input s a.2 := by
  refine (readRawAlphabet_ensures hs.reader (by decide) (by decide)).bind fun pretree h => ?_
  refine (pretreeLoop_ensures h.2.valid h.1 (Nat.zero_add _)).bind fun lengths h' => ?_
  have hafter := h.2.trans h'.2
  exact ensures_pure ⟨h'.1, ⟨hafter.valid, hs.length_repeatedOffset, hs.alignoffset, hs.main, hs.length,
    hs.length_mainLengths, hs.length_lengthLengths⟩, hafter.remaining_le, rfl⟩

theorem readMainAlphabet_ensures (hs : s.Valid) : (readMainAlphabet input s).Ensures (Later input s) := by
  have hcodes : mainCodes = mainLitCodes + (mainCodes - mainLitCodes) := rfl
  have hlengths := hs.length_mainLengths
  refine ensures_ofOption_bind (slice_eq_some (by omega)) ?_
  refine (readPretreeLengths_ensures hs).bind fun literals h => ?_
  rw [List.length_take, List.drop_zero, hlengths] at h
  have hroom : 0 + literals.1.length ≤ literals.2.mainLengths.length := by
    rw [h.2.valid.length_mainLengths, h.1]
    omega
  refine ensures_ofOption_bind (copyFromSlice_eq_some.mpr ⟨hroom, rfl⟩) ?_
  have hlong := (length_splice _ _ _ hroom).trans h.2.valid.length_mainLengths
  generalize splice literals.2.mainLengths 0 literals.1 = mainLengths at hlong
  refine ensures_ofOption_bind (slice_eq_some (by omega)) ?_
  refine (readPretreeLengths_ensures h.2.valid).bind fun remainder h' => ?_
  rw [List.length_take, List.length_drop, hlong] at h'
  have hrest : mainLitCodes + remainder.1.length ≤ mainLengths.length := by
    rw [h'.1, hlong]
    omega
  refine ensures_ofOption_bind (copyFromSlice_eq_some.mpr ⟨hrest, rfl⟩) ?_
  have hcomplete := (length_splice _ _ _ hrest).trans hlong
  refine (fromLengths_ensures (by rw [hcomplete]; decide) (by rw [hcomplete]; decide)).bind fun main hmain => ?_
  have hlater := h.2.trans h'.2
  have hvalid := hlater.valid
  exact ensures_pure ⟨⟨hvalid.reader, hvalid.length_repeatedOffset, hvalid.alignoffset, hmain, hvalid.length, hcomplete,
    hvalid.length_lengthLengths⟩, hlater.remaining_le, hlater.blockEnd_eq⟩

theorem readLengthAlphabet_ensures (hs : s.Valid) : (readLengthAlphabet input s).Ensures (Later input s) := by
  refine (readPretreeLengths_ensures hs).bind fun lengths h => ?_
  have hcodes := h.1.trans hs.length_lengthLengths
  refine (fromLengths_ensures (by rw [hcodes]; decide) (by rw [hcodes]; decide)).bind fun length hlength => ?_
  have hvalid := h.2.valid
  exact ensures_pure ⟨⟨hvalid.reader, hvalid.length_repeatedOffset, hvalid.alignoffset, hvalid.main, hlength,
    hvalid.length_mainLengths, hcodes⟩, h.2.remaining_le, h.2.blockEnd_eq⟩

theorem readBlockType_ensures (hs : s.Valid) : (readBlockType input s).Ensures fun s' =>
    s'.Valid ∧ remaining input s'.toBitReader + blockTypeBits ≤ remaining input s.toBitReader := by
  refine (getBits_ensures hs.reader).bind fun code h => ?_
  have hkept (blockType : LzxBlockType) : ({ s with toBitReader := code.2, blockType := blockType } : Decoder).Valid :=
    ⟨h.valid, hs.length_repeatedOffset, hs.alignoffset, hs.main, hs.length, hs.length_mainLengths, hs.length_lengthLengths⟩
  split
  · exact ensures_pure ⟨hkept .verbatim, h.remaining_le⟩
  · exact ensures_pure ⟨hkept .alignedOffset, h.remaining_le⟩
  · exact ensures_pure ⟨hkept .uncompressed, h.remaining_le⟩
  · exact ensures_error _

theorem readBlockLen_ensures (hr : r.Valid) : (readBlockLen input r).Ensures fun a => After input r 0 a.2 := by
  refine (getBits_ensures hr).bind fun standard h => ?_
  refine ensures_ite (fun _ => ensures_pure (h.weaken (Nat.zero_le _))) fun _ => ?_
  refine (getBits_ensures h.valid).bind fun high h' => ?_
  refine (getBits_ensures h'.valid).bind fun low h'' => ?_
  exact ensures_pure (((h.trans h').trans h'').weaken (Nat.zero_le _))

theorem readRepeatedOffsets_ensures {index : Nat} (hs : s.Valid) (hindex : index + count = repeatedOffsets) :
    (readRepeatedOffsets input count index s).Ensures (Later input s) := by
  induction count generalizing index s with
  | zero => exact ensures_pure ⟨hs, le_rfl, rfl⟩
  | succ count ih =>
      rw [readRepeatedOffsets, readU32, bind_assoc]
      refine ensures_ofExcept_bind fun word _ => ?_
      rw [pure_eq, value_bind]
      have hlength := hs.length_repeatedOffset
      refine (setAt_ensures _ (by omega)).bind fun repeatedOffset hset => ?_
      have hafter : After input s.toBitReader 0 { s.toBitReader with inputOffset := s.inputOffset + 4 } :=
        ⟨⟨hs.reader.accumulator_lt, hs.reader.bits_lt⟩, by simp only [remaining]; omega⟩
      have hvalid := (hs.later hafter).valid
      refine (ih (s := { s with
        toBitReader := { s.toBitReader with inputOffset := s.inputOffset + 4 }, repeatedOffset := repeatedOffset })
        ⟨hvalid.reader, hset.trans hlength, hs.alignoffset, hs.main, hs.length, hs.length_mainLengths,
          hs.length_lengthLengths⟩ (by omega)).mono fun s' hlater => ?_
      exact ⟨hlater.valid, hlater.remaining_le.trans hafter.remaining_le, hlater.blockEnd_eq⟩

/-- What the header of a block leaves, where some bytes have been written of an output. -/
structure Begun (input : List UInt8) (used outputLen : Nat) (s s' : Decoder) : Prop where
  valid : s'.Valid
  remaining_lt : remaining input s'.toBitReader < remaining input s.toBitReader
  used_le : used ≤ s'.blockEnd
  blockEnd_le : s'.blockEnd ≤ outputLen

theorem readBlockHeader_ensures {used outputLen : Nat} (hs : s.Valid) :
    (readBlockHeader input used outputLen s).Ensures (Begun input used outputLen s) := by
  refine (readBlockType_ensures hs).bind fun s₁ h₁ => ?_
  refine (readBlockLen_ensures h₁.1.reader).bind fun blockLen h₂ => ?_
  refine ensures_ofExcept_bind fun blockEnd hblockEnd => ?_
  obtain ⟨-, rfl⟩ := checkedAdd_eq_some.mp (someOr_eq_ok.mp hblockEnd)
  refine ensures_ite (fun _ => ensures_error _) fun hfits => ?_
  have hremaining := h₂.remaining_le
  have hremaining' := h₁.2
  rw [blockTypeBits] at hremaining'
  have hvalid := (h₁.1.later h₂).valid
  have hbegun {s₂ s₃ : Decoder} (hblockEnd : s₂.blockEnd = used + blockLen.1)
      (hle : remaining input s₂.toBitReader ≤ remaining input blockLen.2) (hlater : Later input s₂ s₃) :
      Begun input used outputLen s s₃ := by
    have hlast := hlater.remaining_le
    exact ⟨hlater.valid, by omega, by rw [hlater.blockEnd_eq, hblockEnd]; omega,
      by rw [hlater.blockEnd_eq, hblockEnd]; omega⟩
  have halphabets {s₂ : Decoder} (hs₂ : s₂.Valid) (hblockEnd : s₂.blockEnd = used + blockLen.1)
      (hle : remaining input s₂.toBitReader ≤ remaining input blockLen.2) :
      (readMainAlphabet input s₂ >>= fun s => readLengthAlphabet input s).Ensures (Begun input used outputLen s) :=
    (readMainAlphabet_ensures hs₂).bind fun s₃ hmain =>
      (readLengthAlphabet_ensures hmain.valid).mono fun s₄ hlength => hbegun hblockEnd hle (hmain.trans hlength)
  dsimp only
  split
  · refine (readRawAlphabet_ensures h₂.valid (by decide) (by decide)).bind fun alignoffset h₃ => ?_
    refine halphabets ⟨h₃.2.valid, hvalid.length_repeatedOffset, h₃.1, hvalid.main, hvalid.length,
      hvalid.length_mainLengths, hvalid.length_lengthLengths⟩ rfl h₃.2.remaining_le
  · exact halphabets ⟨h₂.valid, hvalid.length_repeatedOffset, hvalid.alignoffset, hvalid.main, hvalid.length,
      hvalid.length_mainLengths, hvalid.length_lengthLengths⟩ rfl le_rfl
  · refine (alignForBytes_ensures h₂.valid).bind fun r h₃ => ?_
    have hoffsets (s₂ : Decoder) (hs₂ : s₂.Valid) :=
      @readRepeatedOffsets_ensures input repeatedOffsets s₂ 0 hs₂ (Nat.zero_add _)
    refine (hoffsets { s₁ with toBitReader := r, blockEnd := used + blockLen.1 } ⟨h₃.valid,
      hvalid.length_repeatedOffset, hvalid.alignoffset, hvalid.main, hvalid.length, hvalid.length_mainLengths,
      hvalid.length_lengthLengths⟩).mono fun s₃ hlater => ?_
    exact hbegun rfl (Nat.le_trans (Nat.le_add_right _ 1) h₃.remaining_le) hlater

theorem repeatOffset_ensures {positionSlot : Nat} (hs : s.Valid) (hslot : positionSlot < repeatedOffsets) :
    (repeatOffset positionSlot s).Ensures fun a => Later input s a.2 := by
  have hlength := hs.length_repeatedOffset
  rw [repeatOffset]
  refine ensures_ofOption_bind (List.getElem?_eq_getElem (by omega)) ?_
  refine ensures_ofOption_bind (List.getElem?_eq_getElem (by omega)) ?_
  refine (setAt_ensures _ (by omega)).bind fun offsets h => ?_
  refine (setAt_ensures _ (by omega)).bind fun offsets' h' => ?_
  exact ensures_pure ⟨⟨hs.reader, (h'.trans h).trans hlength, hs.alignoffset, hs.main, hs.length, hs.length_mainLengths,
    hs.length_lengthLengths⟩, le_rfl, rfl⟩

theorem readOffsetBits_ensures {positionSlot : Nat} (hs : s.Valid) :
    (readOffsetBits input positionSlot s).Ensures fun a => After input s.toBitReader 0 a.2.2 := by
  rw [readOffsetBits]
  refine ensures_ite (fun _ => ?_) fun _ => ?_
  · refine (getBits_ensures hs.reader).bind fun verbatim h => ?_
    refine ensures_ofOption_bind (checkedShl_eq_some.mpr ⟨by decide, rfl⟩) ?_
    refine (decodeSymbol_ensures h.valid hs.alignoffset).bind fun aligned h' => ?_
    exact ensures_pure ((h.trans h').weaken (Nat.zero_le _))
  · exact (getBits_ensures hs.reader).bind fun verbatim h => ensures_pure (h.weaken (Nat.zero_le _))

theorem newOffset_ensures {positionSlot : Nat} (hs : s.Valid) :
    (newOffset input positionSlot s).Ensures fun a => Later input s a.2 := by
  have hlength : s.repeatedOffset.length = 3 := hs.length_repeatedOffset
  refine (readOffsetBits_ensures hs).bind fun bits h => ?_
  refine ensures_ofExcept_bind fun offset _ => ?_
  refine ensures_ofOption_bind (List.getElem?_eq_getElem (by omega)) ?_
  refine ensures_ofOption_bind (List.getElem?_eq_getElem (by omega)) ?_
  refine (setAt_ensures _ (by omega)).bind fun offsets h₂ => ?_
  refine (setAt_ensures _ (by omega)).bind fun offsets' h₁ => ?_
  refine (setAt_ensures _ (by omega)).bind fun offsets'' h₀ => ?_
  exact ensures_pure ⟨⟨h.valid, ((h₀.trans h₁).trans h₂).trans hlength, hs.alignoffset, hs.main, hs.length,
    hs.length_mainLengths, hs.length_lengthLengths⟩, h.remaining_le, rfl⟩

theorem readMatch_ensures {main : Nat} (hs : s.Valid) :
    (readMatch input main s).Ensures fun a => 2 ≤ a.1.1 ∧ Later input s a.2 := by
  have hread : (readLength input (main % 8) s).Ensures fun a => After input s.toBitReader 0 a.2 :=
    ensures_ite (fun _ => decodeSymbol_ensures hs.reader hs.length) fun _ => ensures_pure (After.refl hs.reader)
  refine hread.bind fun length h => ?_
  refine ensures_ofExcept_bind fun matchLength hmatch => ?_
  obtain ⟨base, hbase, hmatch⟩ := Option.bind_eq_some_iff.mp (someOr_eq_ok.mp hmatch)
  obtain ⟨-, rfl⟩ := checkedAdd_eq_some.mp hbase
  obtain ⟨-, rfl⟩ := checkedAdd_eq_some.mp hmatch
  have hlater := hs.later h
  refine ensures_ite (fun _ => ensures_error _) fun _ => ?_
  have hoffset : (readOffset input (main / 8) { s with toBitReader := length.2 }).Ensures fun a => Later input s a.2 :=
    ensures_ite (fun hslot => (repeatOffset_ensures hlater.valid hslot).mono fun a ha => hlater.trans ha)
      fun _ => (newOffset_ensures hlater.valid).mono fun a ha => hlater.trans ha
  exact hoffset.bind fun offset ha => ensures_pure ⟨by dsimp only; omega, ha⟩

variable {front : List UInt8} {size fuel : Nat}

theorem putLiteral_appends {byte : UInt8} (hopen : front.length < s.blockEnd) (hroom : s.blockEnd ≤ front.length + size) :
    Appends (putLiteral byte s) front size fun s' more =>
      s' = s ∧ 0 < more.length ∧ front.length + more.length ≤ s.blockEnd := by
  refine (appends_push (a := byte) (by omega) ⟨rfl, Nat.one_pos, hopen⟩).congr fun room hlength => ?_
  have hsmall : ¬ (front ++ room).length ≤ front.length := by
    rw [List.length_append]
    omega
  rw [putLiteral, if_neg hsmall]

/-- A match is only copied where it begins in what has been written. -/
theorem putMatch_appends {matchLength matchOffset : Nat} (hlength : 0 < matchLength) :
    Appends (putMatch matchLength matchOffset s) front size fun s' more =>
      s' = s ∧ 0 < more.length ∧ front.length + more.length ≤ s.blockEnd := by
  by_cases hunderrun : matchOffset = 0 ∨ front.length < matchOffset
  · exact (appends_error .matchUnderrun).congr fun room _ => by rw [putMatch, if_pos hunderrun]
  · cases hstop : checkedAdd 64 front.length matchLength with
    | none =>
        refine (appends_error .outputOverflow).congr fun room _ => ?_
        rw [putMatch, if_neg hunderrun, hstop]
        rfl
    | some stop =>
        obtain ⟨-, rfl⟩ := checkedAdd_eq_some.mp hstop
        by_cases hfull : front.length + size < front.length + matchLength ∨ s.blockEnd < front.length + matchLength
        · refine (appends_error .outputOverflow).congr fun room hroom => ?_
          rw [putMatch, if_neg hunderrun, hstop, someOr_some, ofExcept_ok, value_bind, List.length_append, hroom,
            if_pos hfull]
        · obtain ⟨hpos, hinside⟩ := not_or.mp hunderrun
          refine (appends_copyMatch (Nat.pos_of_ne_zero hpos) (Nat.not_lt.mp hinside) (show matchLength ≤ size by omega)
            fun more hmore => ⟨rfl, by omega, by omega⟩).congr fun room hroom => ?_
          rw [putMatch, if_neg hunderrun, hstop, someOr_some, ofExcept_ok, value_bind, List.length_append, hroom,
            if_neg hfull]

theorem decodeToken_appends (hs : s.Valid) (hopen : front.length < s.blockEnd) (hroom : s.blockEnd ≤ front.length + size) :
    Appends (decodeToken input s) front size fun s' more =>
      Later input s s' ∧ 0 < more.length ∧ front.length + more.length ≤ s.blockEnd := by
  refine appends_of_ensures (decodeSymbol_ensures hs.reader hs.main) fun main h => ?_
  have hlater := hs.later h
  refine appends_ite (fun _ => ?_) fun _ => ?_
  · refine (putLiteral_appends (s := { s with toBitReader := main.2 }) hopen hroom).mono ?_
    rintro s' more - ⟨rfl, hmore⟩
    exact ⟨hlater, hmore⟩
  · generalize main.1 - mainLitCodes = code
    refine appends_of_ensures (readMatch_ensures hlater.valid) fun found hfound => ?_
    have hmatch := @putMatch_appends found.2 front size found.1.1 found.1.2 (by omega)
    refine hmatch.mono ?_
    rintro s' more - ⟨rfl, hmore⟩
    rw [hfound.2.blockEnd_eq] at hmore
    exact ⟨hlater.trans hfound.2, hmore⟩

/-- A block ends, since every token of it puts out a byte at least. -/
theorem tokensLoop_appends (hs : s.Valid) (hroom : s.blockEnd ≤ front.length + size)
    (hfuel : s.blockEnd ≤ front.length + fuel) :
    Appends (tokensLoop input fuel s) front size fun s' _ => Later input s s' := by
  induction fuel generalizing s front size with
  | zero =>
      exact (appends_pure ⟨hs, le_rfl, rfl⟩).congr fun room _ => if_pos hfuel
  | succ fuel ih =>
      by_cases hdone : s.blockEnd ≤ front.length
      · exact (appends_pure ⟨hs, le_rfl, rfl⟩).congr fun room _ => if_pos hdone
      · have hstep := @decodeToken_appends input s front size hs (Nat.lt_of_not_le hdone) hroom
        refine (hstep.bind (Q := fun s' _ => Later input s s') (f := tokensLoop input fuel)
          fun s' more hmore h => ?_).congr fun room _ => if_neg hdone
        have hblock := h.1.blockEnd_eq
        refine (ih h.1.valid ?_ ?_).mono fun s'' _ _ h' => h.1.trans h'
        · rw [hblock, List.length_append]
          omega
        · rw [hblock, List.length_append]
          omega

theorem skipPadding_ensures {len sourceEnd : Nat} : (skipPadding input len sourceEnd).Ensures (sourceEnd ≤ ·) := by
  rw [skipPadding]
  refine ensures_ite (fun _ => ensures_pure (Nat.le_refl _)) fun _ => ensures_ofExcept_bind fun next hnext => ?_
  obtain ⟨-, rfl⟩ := checkedAdd_eq_some.mp (someOr_eq_ok.mp hnext)
  exact ensures_ite (fun _ => ensures_error _) fun _ => ensures_pure (Nat.le_succ _)

theorem copyUncompressedBlock_appends (hs : s.Valid) (hused : front.length ≤ s.blockEnd)
    (hroom : s.blockEnd ≤ front.length + size) :
    Appends (copyUncompressedBlock input s) front size fun s' _ => Later input s s' := by
  have hlen : checkedSub s.blockEnd front.length = some (s.blockEnd - front.length) :=
    checkedSub_eq_some.mpr ⟨hused, rfl⟩
  cases hend : checkedAdd 64 s.inputOffset (s.blockEnd - front.length) with
  | none =>
      refine (appends_error .inputTooShort).congr fun room _ => ?_
      rw [copyUncompressedBlock, hlen, someOr_some, ofExcept_ok, value_bind, hend]
      rfl
  | some sourceEnd =>
      obtain ⟨-, rfl⟩ := checkedAdd_eq_some.mp hend
      cases hsource : slice input s.inputOffset (s.blockEnd - front.length) with
      | none =>
          refine (appends_error .inputTooShort).congr fun room _ => ?_
          rw [copyUncompressedBlock, hlen, someOr_some, ofExcept_ok, value_bind, hend, someOr_some, ofExcept_ok, value_bind,
            hsource]
          rfl
      | some source =>
          have hlength := slice_length hsource
          have hstop : front.length + source.length = s.blockEnd := by omega
          have hcopy : Appends (fun buffer => ofOption (copyFromSlice buffer.bytes buffer.used source) >>= fun bytes =>
              (pure ((), ⟨bytes, buffer.used + source.length⟩) : Outcome LzxDecodeError (Unit × Buffer UInt8)))
              front size fun _ _ => True :=
            appends_copyFromSlice (by omega) trivial
          have hskip := hcopy.bind (Q := fun s' _ => Later input s s') (f := fun _ buffer =>
            skipPadding input (s.blockEnd - front.length) (s.inputOffset + (s.blockEnd - front.length)) >>= fun next =>
              pure ({ s with inputOffset := next }, buffer)) ?_
          · refine hskip.congr fun room _ => ?_
            rw [copyUncompressedBlock, hlen, someOr_some, ofExcept_ok, value_bind, hend, someOr_some, ofExcept_ok, value_bind,
              hsource, someOr_some, ofExcept_ok, value_bind, bind_assoc, ← hstop]
            rfl
          · intro _ more _ _
            refine appends_of_ensures skipPadding_ensures fun next hnext => appends_pure ?_
            exact hs.later ⟨⟨hs.reader.accumulator_lt, hs.reader.bits_lt⟩, by simp only [remaining]; omega⟩

theorem decodeBlock_appends (hs : s.Valid) : Appends (decodeBlock input s) front size fun s' _ =>
    s'.Valid ∧ remaining input s'.toBitReader < remaining input s.toBitReader := by
  have hblock : Appends (fun buffer => readBlockHeader input front.length (front.length + size) s >>= fun s₁ =>
      if s₁.blockType = .uncompressed then copyUncompressedBlock input s₁ buffer
      else tokensLoop input (s₁.blockEnd - front.length) s₁ buffer) front size fun s' _ =>
        s'.Valid ∧ remaining input s'.toBitReader < remaining input s.toBitReader := by
    refine appends_of_ensures (readBlockHeader_ensures hs) fun s₁ h => ?_
    have hlater (s' : Decoder) (h' : Later input s₁ s') :
        s'.Valid ∧ remaining input s'.toBitReader < remaining input s.toBitReader :=
      ⟨h'.valid, Nat.lt_of_le_of_lt h'.remaining_le h.remaining_lt⟩
    have hfuel : s₁.blockEnd ≤ front.length + (s₁.blockEnd - front.length) := by omega
    refine appends_ite (fun _ => ?_) fun _ => ?_
    · exact (copyUncompressedBlock_appends h.valid h.used_le h.blockEnd_le).mono fun s' _ _ => hlater s'
    · exact (tokensLoop_appends h.valid h.blockEnd_le hfuel).mono fun s' _ _ => hlater s'
  refine hblock.congr fun room hroom => ?_
  rw [decodeBlock, List.length_append, hroom]

/-- The blocks end, since the header of each takes bits from the input. -/
theorem blocksLoop_appends (hs : s.Valid) (hfuel : remaining input s.toBitReader ≤ fuel) :
    Appends (blocksLoop input fuel s) front size fun _ _ => True := by
  induction fuel generalizing s front size with
  | zero =>
      refine (appends_pure (b := s) trivial).congr fun room _ => if_neg ?_
      rw [remaining] at hfuel
      omega
  | succ fuel ih =>
      by_cases hinput : s.inputOffset < input.length
      · refine ((@decodeBlock_appends input s front size hs).bind (Q := fun _ _ => True) (f := blocksLoop input fuel)
          fun s' more _ h => ?_).congr fun room _ => if_pos hinput
        have hless := h.2
        exact ih h.1 (by omega)
      · exact (appends_pure (b := s) trivial).congr fun room _ => if_neg hinput

end Decoder

/-- Decompression comes to an end without a fault, whatever the input is. What it puts out, and how much, depends on the
input and the size of the buffer only, and the rest of the buffer stays as it is. -/
theorem decompressLzx_appends (input : List UInt8) (size : Nat) :
    ∃ result : Except LzxDecodeError (List UInt8), (∀ written, result = .ok written → written.length ≤ size) ∧
      (∀ out : List UInt8, out.length = size → decompressLzx input .wraps out =
        ofExcept (result.map fun written => (written ++ out.drop written.length, written.length))) ∧
      (size < 2 ^ 31 → ∀ out : List UInt8, out.length = size →
        decompressLzx input .panics out = decompressLzx input .wraps out) := by
  by_cases hodd : input.length % 2 ≠ 0
  · refine ⟨.error .oddInputLength, nofun, fun out _ => ?_, fun _ out _ => ?_⟩
    · rw [decompressLzx, if_pos hodd]
      rfl
    · rw [decompressLzx, if_pos hodd, decompressLzx, if_pos hodd]
  · obtain ⟨result, hresult, hrun⟩ := @Decoder.blocksLoop_appends input Decoder.new [] size (8 * input.length)
      Decoder.valid_new (by rw [remaining]; exact le_rfl)
    have hblocks (overflow : Overflow) (out : List UInt8) (hout : out.length = size) : decompressLzx input overflow out =
        ofExcept result >>= fun r => translateJumps overflow (r.2 ++ out.drop r.2.length) r.2.length >>= fun output =>
          pure (output, r.2.length) := by
      have hloop := hrun out hout
      rw [List.nil_append, List.length_nil] at hloop
      rw [decompressLzx, if_neg hodd, hloop, bind_assoc]
      simp
    cases result with
    | error e =>
        refine ⟨.error e, nofun, fun out hout => hblocks .wraps out hout, fun _ out hout => ?_⟩
        rw [hblocks .panics out hout, hblocks .wraps out hout]
        rfl
    | ok r =>
        have hlength := (hresult r rfl).1
        refine ⟨.ok (jumpPass wrappedTarget 0 r.2), ?_, fun out hout => ?_, fun hsmall out hout => ?_⟩
        · rintro written hwritten
          cases hwritten
          rwa [length_jumpPass]
        · have htranslate := @translateJumps_of_target LzxDecodeError .wraps wrappedTarget r.2 (out.drop r.2.length)
            fun p _ t _ => translateTarget_wraps
          rw [hblocks .wraps out hout, ofExcept_ok, value_bind, htranslate, value_bind]
          simp [length_jumpPass, Except.map, pure_eq]
        · rw [hblocks .panics out hout, hblocks .wraps out hout, ofExcept_ok, value_bind, value_bind,
            translateJumps_of_target fun p hp t ht => translateTarget_eq (by omega) ht,
            translateJumps_of_target fun p hp t ht => translateTarget_eq (by omega) ht]

end NextBoot.Lzx
