import NextBoot.Wim.XpressEncoder
import NextBoot.Wim.XpressTables

namespace NextBoot.Wim.Xpress

open Words Bytes Results CanonicalCode BitStrings XpressBitstream

section reading

variable {input rest : List UInt8} {stream : XpressBitstream} {bits : List Bool} {r : Reader} {item : Item}
  {items : List Item} {count value : Nat}

/-- A stream of which so many bits and bytes are left to read. -/
structure Reads (input : List UInt8) (stream : XpressBitstream) (bits : List Bool) (r : Reader) (rest : List UInt8) :
    Prop where
  held_le : r.held ≤ 16
  unread_eq : r.unread = bits.drop (16 + r.held)
  extraBits_eq : stream.extraBits = r.held
  accum_eq : stream.accum = front (16 + r.held) bits * 2 ^ (16 - r.held)
  rest_eq : input.drop stream.position = rest
  position_le : stream.position ≤ input.length

theorem Reads.length_eq (h : Reads input stream bits r rest) : input.length = stream.position + rest.length := by
  have hlength := congrArg List.length h.rest_eq
  have hle := h.position_le
  rw [List.length_drop] at hlength
  omega

theorem readU8_reads {b : UInt8} (h : Reads input stream bits r (b :: rest)) :
    ∃ next, XpressBitstream.readU8 input stream = .ok (b.toNat, next) ∧ Reads input next bits r rest := by
  have hlength := h.length_eq
  have hget : input[stream.position]? = some b := by
    rw [← List.head?_drop, h.rest_eq, List.head?_cons]
  refine ⟨{ stream with position := stream.position + 1 }, ?_, ?_⟩
  · rw [XpressBitstream.readU8, hget]
    rfl
  · refine ⟨h.held_le, h.unread_eq, h.extraBits_eq, h.accum_eq, ?_, ?_⟩
    · dsimp only
      rw [← List.drop_drop, h.rest_eq, List.drop_one, List.tail_cons]
    · dsimp only
      rw [List.length_cons] at hlength
      omega

/-- A word at some place of the input. -/
theorem readU16_at {position w : Nat} {accum : Nat} {extraBits : Int} (hle : position ≤ input.length)
    (hrest : input.drop position = toLeBytes 2 w ++ rest) (hw : w < 2 ^ 16) :
    XpressBitstream.readU16 input ⟨position, accum, extraBits⟩ = .ok (w, ⟨position + 2, accum, extraBits⟩) ∧
      input.drop (position + 2) = rest ∧ position + 2 ≤ input.length := by
  have hsplit : input = input.take position ++ (toLeBytes 2 w ++ rest) := by
    rw [← hrest, List.take_append_drop]
  have hfront : (input.take position).length = position := by
    rw [List.length_take, Nat.min_eq_left hle]
  have hread : readLe 2 input position = some w := by
    conv_lhs => rw [hsplit]
    exact readLe_append hfront hw
  have hlength := congrArg List.length hrest
  rw [List.length_drop, List.length_append, length_toLeBytes] at hlength
  refine ⟨?_, ?_, by omega⟩
  · rw [XpressBitstream.readU16, hread]
    rfl
  · rw [← List.drop_drop, hrest]
    exact List.drop_left' (length_toLeBytes 2 w)

theorem readU16_reads {w : Nat} (h : Reads input stream bits r (toLeBytes 2 w ++ rest)) (hw : w < 2 ^ 16) :
    ∃ next, XpressBitstream.readU16 input stream = .ok (w, next) ∧ Reads input next bits r rest := by
  obtain ⟨hread, hdrop, hle⟩ := readU16_at h.position_le h.rest_eq hw
  exact ⟨_, hread, h.held_le, h.unread_eq, h.extraBits_eq, h.accum_eq, hdrop, hle⟩

/-- Shifting takes bits away at the top. -/
theorem shift_accum (h : Reads input stream bits r rest) (hcount : count ≤ 16) : stream.accum * 2 ^ count % 2 ^ 32 =
    front (16 + r.held - count) (bits.drop count) * 2 ^ (16 + count - r.held) := by
  have hheld := h.held_le
  have hsum : 16 + r.held = count + (16 + r.held - count) := by omega
  have hpow : 2 ^ (16 + r.held - count) * 2 ^ (16 + count - r.held) = 2 ^ 32 := by
    rw [← Nat.pow_add]
    congr 1
    omega
  have hsmall : front (16 + r.held - count) (bits.drop count) * 2 ^ (16 + count - r.held) < 2 ^ 32 := by
    rw [← hpow]
    exact Nat.mul_lt_mul_of_pos_right front_lt (Nat.two_pow_pos _)
  have hshift : 2 ^ (16 - r.held) * 2 ^ count = 2 ^ (16 + count - r.held) := by
    rw [← Nat.pow_add]
    congr 1
    omega
  rw [h.accum_eq, Nat.mul_assoc, hshift]
  conv_lhs => rw [hsum]
  rw [front_add, Nat.add_mul, Nat.mul_assoc, hpow, Nat.mul_comm _ (2 ^ 32), Nat.mul_add_mod, Nat.mod_eq_of_lt hsmall]

/-- Taking bits away leaves the others. -/
theorem advance_reads (h : Reads input stream bits r (r.takes (.bits count value) ++ rest)) (hcount : count ≤ 16) :
    ∃ next, XpressBitstream.advance input stream count = .ok next ∧
      Reads input next (bits.drop count) (r.next (.bits count value)) rest := by
  have hheld := h.held_le
  have hshift := shift_accum h hcount
  rw [XpressBitstream.advance, hshift, h.extraBits_eq]
  dsimp only
  by_cases hfew : count ≤ r.held
  · have htakes : r.takes (.bits count value) = [] := if_pos hfew
    have hnext : r.next (.bits count value) = ⟨r.held - count, r.unread⟩ := if_pos hfew
    rw [if_neg (by omega), hnext]
    rw [htakes, List.nil_append] at h
    refine ⟨_, rfl, by dsimp only; omega, ?_, by dsimp only; omega, ?_, h.rest_eq, h.position_le⟩
    · dsimp only
      rw [h.unread_eq, List.drop_drop]
      congr 1
      omega
    · dsimp only
      congr 2 <;> omega
  · have htakes : r.takes (.bits count value) = word r.unread := if_neg hfew
    have hnext : r.next (.bits count value) = ⟨r.held + 16 - count, r.unread.drop 16⟩ := if_neg hfew
    rw [htakes] at h
    obtain ⟨hword, hdrop, hle⟩ := @readU16_at _ _ _ _ (front (16 + r.held - count) (bits.drop count) *
      2 ^ (16 + count - r.held)) (r.held - count) h.position_le h.rest_eq front_lt
    have hor : front (16 + r.held - count) (bits.drop count) * 2 ^ (16 + count - r.held) |||
        front 16 r.unread * 2 ^ (count - r.held) =
        front (16 + (r.held + 16 - count)) (bits.drop count) * 2 ^ (count - r.held) := by
      have hlow : front 16 r.unread * 2 ^ (count - r.held) < 2 ^ (16 + count - r.held) := by
        rw [show 16 + count - r.held = 16 + (count - r.held) by omega, Nat.pow_add]
        exact Nat.mul_lt_mul_of_pos_right front_lt (Nat.two_pow_pos _)
      have hbehind : (bits.drop count).drop (16 + r.held - count) = r.unread := by
        rw [h.unread_eq, List.drop_drop]
        congr 1
        omega
      rw [Nat.mul_comm _ (2 ^ (16 + count - r.held)), ← Nat.two_pow_add_eq_or_of_lt hlow,
        show 16 + (r.held + 16 - count) = (16 + r.held - count) + 16 by omega, front_add, hbehind, Nat.add_mul, Nat.mul_comm,
        Nat.mul_assoc, ← Nat.pow_add, show 16 + (count - r.held) = 16 + count - r.held by omega]
    rw [if_pos (by omega), hword, hnext, ok_bind]
    refine ⟨_, rfl, by dsimp only; omega, ?_, by dsimp only; omega, ?_, hdrop, hle⟩
    · dsimp only
      rw [h.unread_eq, List.drop_drop, List.drop_drop]
      congr 1
      omega
    · dsimp only
      rw [show ((r.held : Int) - count).natAbs = count - r.held by omega, hor]
      congr 2
      omega

theorem peek_reads (h : Reads input stream bits r rest) : stream.peek = front 16 bits := by
  have hsplit : 2 ^ 16 = 2 ^ r.held * 2 ^ (16 - r.held) := by
    rw [← Nat.pow_add, Nat.add_sub_cancel' h.held_le]
  rw [XpressBitstream.peek, h.accum_eq, show 2 ^ (32 - huffmanBits) = 2 ^ 16 from rfl, hsplit,
    Nat.mul_div_mul_right _ _ (Nat.two_pow_pos _), front_add, Nat.add_comm, Nat.mul_comm,
    Nat.add_mul_div_left _ _ (Nat.two_pow_pos _), Nat.div_eq_of_lt front_lt, Nat.zero_add]

theorem new_reads {position : Nat} (hle : position ≤ input.length)
    (h : input.drop position = word bits ++ (word (bits.drop 16) ++ rest)) :
    ∃ stream, XpressBitstream.new input position = .ok stream ∧ Reads input stream bits ⟨16, bits.drop 32⟩ rest := by
  obtain ⟨hhigh, hdrop, hle⟩ := @readU16_at _ _ _ _ 0 16 hle h front_lt
  obtain ⟨hlow, hdrop, hle⟩ := @readU16_at _ _ _ _ 0 16 hle hdrop front_lt
  refine ⟨_, by rw [XpressBitstream.new, hhigh, ok_bind, hlow]; rfl, le_rfl, rfl, rfl, ?_, hdrop, hle⟩
  rw [show 16 + 16 = 16 + 16 from rfl, front_add, Nat.sub_self, Nat.pow_zero, Nat.mul_one]

/-- The upper bits of the accumulator are those that come next. -/
theorem accum_div (h : Reads input stream bits r rest) (hcount : count ≤ 16) :
    stream.accum / 2 ^ (32 - count) = front count bits := by
  have hheld := h.held_le
  have hsplit : 2 ^ (32 - count) = 2 ^ (16 + r.held - count) * 2 ^ (16 - r.held) := by
    rw [← Nat.pow_add]
    congr 1
    omega
  have hfront : front (16 + r.held) bits =
      front count bits * 2 ^ (16 + r.held - count) + front (16 + r.held - count) (bits.drop count) := by
    rw [← front_add]
    congr 1
    omega
  rw [h.accum_eq, hsplit, Nat.mul_div_mul_right _ _ (Nat.two_pow_pos _), hfront, Nat.add_comm, Nat.mul_comm,
    Nat.add_mul_div_left _ _ (Nat.two_pow_pos _), Nat.div_eq_of_lt front_lt, Nat.zero_add]

end reading

section items

variable {input rest later : List UInt8} {stream : XpressBitstream} {r : Reader} {item : Item} {items : List Item}
  {count value : Nat}

/-- A stream that has these items, and what is behind them, still to read. -/
def Holds (input : List UInt8) (stream : XpressBitstream) (r : Reader) (items : List Item) (later : List UInt8) : Prop :=
  Reads input stream (spelled items) r (emit r items ++ later)

theorem spelled_cons : spelled (item :: items) = item.spelled ++ spelled items := List.flatMap_cons

theorem spelled_append {more : List Item} : spelled (items ++ more) = spelled items ++ spelled more := List.flatMap_append

theorem advance_holds (h : Holds input stream r (.bits count value :: items) later) (hcount : count ≤ 16) :
    ∃ next, XpressBitstream.advance input stream count = .ok next ∧
      Holds input next (r.next (.bits count value)) items later := by
  rw [Holds, emit, List.append_assoc] at h
  obtain ⟨next, hadvance, hnext⟩ := advance_reads h hcount
  refine ⟨next, hadvance, ?_⟩
  rwa [spelled_cons, Item.spelled, drop_spell] at hnext

theorem readU8_holds {b : UInt8} (h : Holds input stream r (.byte b :: items) later) :
    ∃ next, XpressBitstream.readU8 input stream = .ok (b.toNat, next) ∧ Holds input next r items later := by
  rw [Holds, emit, List.append_assoc] at h
  exact readU8_reads h

/-- Bytes between the bits are read as they are. -/
theorem emit_bytes {bytes : List UInt8} : emit r (bytes.map .byte ++ items) = bytes ++ emit r items := by
  induction bytes with
  | nil => rfl
  | cons b bytes ih => rw [List.map_cons, List.cons_append, emit, Reader.next, ih]; rfl

theorem spelled_bytes {bytes : List UInt8} : spelled (bytes.map .byte ++ items) = spelled items := by
  induction bytes with
  | nil => rfl
  | cons b bytes ih => rw [List.map_cons, List.cons_append, spelled_cons, Item.spelled, List.nil_append, ih]

theorem readU16_holds {w : Nat} (h : Holds input stream r ((toLeBytes 2 w).map .byte ++ items) later) (hw : w < 2 ^ 16) :
    ∃ next, XpressBitstream.readU16 input stream = .ok (w, next) ∧ Holds input next r items later := by
  rw [Holds, emit_bytes, spelled_bytes, List.append_assoc] at h
  exact readU16_reads h hw

/-- The length of a match is read from the low bits of its symbol and the field behind its codeword. -/
theorem readMatchLen_holds {length : Nat} (h : Holds input stream r ((lengthField length).map .byte ++ items) later)
    (hlow : 3 ≤ length) (hhigh : length - 3 < 2 ^ 16) :
    ∃ next, readMatchLen input (min 15 (length - 3)) stream = .ok (length, next) ∧ Holds input next r items later := by
  rw [lengthField] at h
  split at h
  · next hshort =>
      refine ⟨stream, ?_, h⟩
      rw [readMatchLen, Nat.min_eq_right (by omega), if_pos (by omega), Nat.sub_add_cancel hlow]
      rfl
  · next hlong =>
      rw [readMatchLen, Nat.min_eq_left (by omega), if_neg (by omega)]
      split at h
      · next hbyte =>
          have hvalue : (UInt8.ofNat (length - 18)).toNat = length - 18 := by
            rw [UInt8.toNat_ofNat', Nat.mod_eq_of_lt (by omega)]
          obtain ⟨next, hread, hnext⟩ := readU8_holds h
          refine ⟨next, ?_, hnext⟩
          rw [hread, ok_bind, hvalue, if_neg (by omega), show length - 18 + 0x0f + 3 = length by omega]
          rfl
      · obtain ⟨next, hread, hnext⟩ := readU8_holds h
        obtain ⟨last, hword, hlast⟩ := readU16_holds hnext hhigh
        refine ⟨last, ?_, hlast⟩
        rw [hread, ok_bind, if_pos (by rfl), hword, ok_bind, Nat.sub_add_cancel hlow]
        rfl

theorem holds_noBits (h : Holds input stream r (.bits 0 value :: items) later) :
    Holds input stream (r.next (.bits 0 value)) items later := by
  have hnone : r.takes (.bits 0 value) = [] := by rw [Reader.takes, if_pos (Nat.zero_le r.held)]
  have hstay : r.next (.bits 0 value) = r := by rw [Reader.next, if_pos (Nat.zero_le r.held), Nat.sub_zero]
  rw [Holds, emit, hnone, hstay, List.nil_append] at h
  rw [hstay]
  exact h

theorem readMatchOffset_holds {distance : Nat} (hpos : 0 < distance) (hlt : distance < 2 ^ 16)
    (h : Holds input stream r (.bits (Nat.log2 distance) (distance - 2 ^ Nat.log2 distance) :: items) later) :
    ∃ next, readMatchOffset input (Nat.log2 distance) stream = .ok (distance, next) ∧
      Holds input next (r.next (.bits (Nat.log2 distance) (distance - 2 ^ Nat.log2 distance))) items later := by
  have hself := Nat.log2_self_le hpos.ne'
  have hbits : Nat.log2 distance < 16 := (Nat.log2_lt hpos.ne').mpr hlt
  have hvalue : distance - 2 ^ Nat.log2 distance < 2 ^ Nat.log2 distance := by
    have hup := Nat.lt_log2_self (n := distance)
    rw [Nat.pow_succ] at hup
    omega
  have hfront : front (Nat.log2 distance) (spelled (.bits (Nat.log2 distance) (distance - 2 ^ Nat.log2 distance) :: items)) =
      distance - 2 ^ Nat.log2 distance := front_spell hvalue
  have hread := accum_div h (by omega : Nat.log2 distance ≤ 16)
  obtain ⟨next, hadvance, hnext⟩ := advance_holds h (by omega)
  rw [readMatchOffset]
  split
  · next hzero =>
      have hone : distance = 1 := by
        rw [hzero, Nat.pow_zero] at hvalue hself
        omega
      refine ⟨stream, by rw [hone]; rfl, ?_⟩
      rw [hzero] at h ⊢
      exact holds_noBits h
  · next hsome =>
      refine ⟨next, ?_, hnext⟩
      rw [readOffset, refuseIf, if_neg (by rw [huffmanBits]; omega), ok_bind, hadvance, ok_bind, hread, hfront,
        Nat.sub_add_cancel hself]
      rfl

end items

section codewords

variable {input later lengthBytes : List UInt8} {stream : XpressBitstream} {alphabet : XpressHuffman} {r : Reader}
  {items : List Item} {s : Nat}

/-- A codeword is decoded to its symbol, and the bits behind it come next. -/
theorem codeword_holds (hlen : lengthBytes.length = lengthTableSize)
    (halphabet : XpressHuffman.fromLengthBytes lengthBytes = .ok alphabet) (hs : (codeLengths lengthBytes).getD s 0 ≠ 0)
    (h : Holds input stream r (codeword (codeLengths lengthBytes) s :: items) later) :
    alphabet.decode stream.peek = .ok (s, (codeLengths lengthBytes).getD s 0) ∧
      ∃ next, consume input stream ((codeLengths lengthBytes).getD s 0) = .ok next ∧
        Holds input next (r.next (codeword (codeLengths lengthBytes) s)) items later := by
  have hkraft := (fromLengthBytes_ok_iff hlen).1 ⟨alphabet, halphabet⟩
  have hget : (codeLengths lengthBytes)[s]? = some ((codeLengths lengthBytes).getD s 0) := by
    rw [List.getD_eq_getElem?_getD] at hs ⊢
    cases hsome : (codeLengths lengthBytes)[s]? with
    | none =>
        rw [hsome] at hs
        exact absurd rfl hs
    | some len => rfl
  have hle := codeLengths_le _ (List.mem_of_getElem? hget)
  have hcode := code_lt hget hle hs ((kraftEquality_iff codeLengths_le).1 hkraft)
  have hpeek := peek_reads h
  have hwindow : front 16 (spelled (codeword (codeLengths lengthBytes) s :: items)) /
      2 ^ (huffmanBits - (codeLengths lengthBytes).getD s 0) = code huffmanBits (codeLengths lengthBytes) s := by
    have hsplit : huffmanBits = (codeLengths lengthBytes).getD s 0 + (huffmanBits - (codeLengths lengthBytes).getD s 0) := by
      omega
    rw [show (16 : Nat) = huffmanBits from rfl]
    conv_lhs => rw [hsplit]
    rw [front_add, Nat.add_sub_cancel_left, Nat.add_comm, Nat.mul_comm, Nat.add_mul_div_left _ _ (Nat.two_pow_pos _),
      Nat.div_eq_of_lt front_lt, Nat.zero_add]
    exact front_spell hcode
  refine ⟨?_, ?_⟩
  · rw [hpeek]
    exact (decode_fromLengthBytes hlen halphabet front_lt).1 s ⟨hs, hwindow⟩
  · rw [consume, refuseIf, if_neg (by omega), ok_bind]
    exact advance_holds h hle

end codewords

section copies

variable {out : List UInt8} {outputLen distance count : Nat}

/-- Copying in the buffer continues the bytes that are written. -/
theorem take_copyMatch (hpos : 0 < distance) (hback : distance ≤ outputLen) (hroom : outputLen + count ≤ out.length) :
    (copyMatch out outputLen distance count).take (outputLen + count) = extend distance count (out.take outputLen) := by
  induction count generalizing out outputLen with
  | zero => rfl
  | succ count ih =>
      have hsource : (out.take outputLen).getD ((out.take outputLen).length - distance) 0 = out.getD (outputLen - distance) 0 := by
        rw [List.length_take, Nat.min_eq_left (by omega), List.getD_eq_getElem?_getD, List.getElem?_take_of_lt (by omega),
          ← List.getD_eq_getElem?_getD]
      have hwritten : (out.set outputLen (out.getD (outputLen - distance) 0)).take (outputLen + 1) =
          out.take outputLen ++ [out.getD (outputLen - distance) 0] := by
        rw [List.take_add_one, List.take_set_of_le (Nat.le_refl _), List.getElem?_set_self (by omega), Option.toList_some]
      have hnext := @ih (out.set outputLen (out.getD (outputLen - distance) 0)) (outputLen + 1) (by omega)
        (by rw [List.length_set]; omega)
      rw [copyMatch, extend, hsource, ← hwritten, ← hnext, Nat.add_assoc, Nat.add_comm 1]

theorem length_extend {out : List UInt8} : (extend distance count out).length = out.length + count := by
  induction count generalizing out with
  | zero => rfl
  | succ count ih => rw [extend, ih, List.length_append, List.length_singleton, Nat.add_assoc, Nat.add_comm 1]

theorem Token.length_apply {t : Token} : (t.apply out).length = out.length + t.size := by
  cases t with
  | literal byte => exact List.length_append
  | copy length distance => exact length_extend

theorem Token.size_pos {t : Token} {produced : Nat} (h : t.Valid produced) : 0 < t.size := by
  cases t with
  | literal byte => exact Nat.one_pos
  | copy length distance => exact Nat.lt_of_lt_of_le (by decide) h.1

end copies

section rounds

variable {input later produced : List UInt8} {b : Block} {r : Reader} {items trailer : List Item} {s s' : Decompression}
  {t : Token} {tokens : List Token} {rounds : Nat}

/-- The decompressor in a block of which these items are still to read. -/
structure Inside (input : List UInt8) (b : Block) (produced : List UInt8) (r : Reader) (items : List Item)
    (later : List UInt8) (s : Decompression) : Prop where
  alphabet_eq : XpressHuffman.fromLengthBytes b.lengthBytes = .ok s.alphabet
  holds : Holds input s.bitstream r items later
  take_eq : s.out.take s.outputLen = produced
  length_eq : produced.length = s.outputLen

theorem Inside.outputLen_le (h : Inside input b produced r items later s) : s.outputLen ≤ s.out.length := by
  have hlength := congrArg List.length h.take_eq
  rw [List.length_take, h.length_eq] at hlength
  omega

theorem beginBlock_inside (hfull : s.nextBlockAt ≤ s.outputLen) (hle : s.bitstream.position ≤ input.length)
    (hinput : input.drop s.bitstream.position = b.encode trailer ++ later) (hsmall : s.outputLen + blockSize < 2 ^ 64)
    (htake : s.out.take s.outputLen = produced) (hlength : produced.length = s.outputLen) :
    ∃ s', beginBlock input s = .ok s' ∧
      Inside input b produced (Reader.start (itemsOf b.lengths b.tokens ++ trailer)) (itemsOf b.lengths b.tokens ++ trailer)
        later s' ∧
      s'.out = s.out ∧ s'.nextBlockAt = s.outputLen + blockSize := by
  obtain ⟨alphabet, halphabet, -⟩ := fromLengthBytes_of_kraft b.length_eq b.complete
  rw [Block.encode, List.append_assoc] at hinput
  have hlengths := congrArg List.length hinput
  rw [List.length_drop, List.length_append, b.length_eq] at hlengths
  have hslice : slice input s.bitstream.position lengthTableSize = some b.lengthBytes := by
    refine slice_isSome_iff.mpr ⟨by omega, ?_⟩
    rw [hinput]
    exact List.take_left' b.length_eq
  have hdrop : input.drop (s.bitstream.position + lengthTableSize) =
      encodeItems (itemsOf b.lengths b.tokens ++ trailer) ++ later := by
    rw [← List.drop_drop, hinput]
    exact List.drop_left' b.length_eq
  rw [encodeItems, List.append_assoc, List.append_assoc] at hdrop
  obtain ⟨stream, hstream, hreads⟩ := new_reads (by omega) hdrop
  refine ⟨{ s with alphabet := alphabet, bitstream := stream, nextBlockAt := s.outputLen + blockSize }, ?_,
    ⟨halphabet, hreads, htake, hlength⟩, rfl, rfl⟩
  rw [beginBlock, if_neg (Nat.not_lt.mpr hfull), hslice, someOr_some, ok_bind, halphabet, ok_bind, hstream, ok_bind,
    checkedAdd_eq_some.mpr ⟨hsmall, rfl⟩]
  rfl

/-- The round that begins a block goes on as a round inside it. -/
theorem decompressLoop_begin (hbegin : beginBlock input s = .ok s') (hout : s'.out = s.out)
    (hlen : s'.outputLen = s.outputLen) (hinside : s'.outputLen < s'.nextBlockAt) :
    decompressLoop input (rounds + 1) s = decompressLoop input (rounds + 1) s' := by
  have hstay : beginBlock input s' = .ok s' := if_pos hinside
  rw [decompressLoop, decompressLoop, hbegin, hstay, hout, hlen]

theorem symbol_eq_endMarker {length distance produced : Nat} (h : (Token.copy length distance).Valid produced) :
    (Token.copy length distance).symbol = endMarker ↔ Token.copy length distance = .copy 3 1 := by
  obtain ⟨hlow, -, hpos, -⟩ := h
  rw [Token.symbol, Token.copy.injEq]
  constructor
  · intro heq
    have hzero : Nat.log2 distance = 0 := by omega
    have hlt : distance < 2 ^ 1 := (Nat.log2_lt hpos.ne').mp (by omega)
    exact ⟨by omega, by omega⟩
  · rintro ⟨rfl, rfl⟩
    rfl

theorem copyBack_inside {length distance : Nat} (hvalid : (Token.copy length distance).Valid produced.length)
    (hin : Inside input b produced r (((lengthField length).map .byte ++
      [.bits (Nat.log2 distance) (distance - 2 ^ Nat.log2 distance)]) ++ items) later s)
    (hfits : produced.length + length ≤ s.out.length) (hsmall : s.out.length < 2 ^ 63) :
    ∃ s', copyBack input ((Token.copy length distance).symbol - endMarker) s = .ok s' ∧
      Inside input b (extend distance length produced)
        (r.next (.bits (Nat.log2 distance) (distance - 2 ^ Nat.log2 distance))) items later s' ∧
      s'.out.length = s.out.length ∧ s'.nextBlockAt = s.nextBlockAt := by
  obtain ⟨hlow, hhigh, hpos, hlt, hback⟩ := hvalid
  have hlength := hin.length_eq
  have hholds := hin.holds
  rw [List.append_assoc] at hholds
  obtain ⟨next, hlen, hnext⟩ := readMatchLen_holds hholds hlow hhigh
  obtain ⟨last, hoffset, hlast⟩ := readMatchOffset_holds hpos hlt hnext
  have hraw : (Token.copy length distance).symbol - endMarker = 16 * Nat.log2 distance + min 15 (length - 3) := by
    rw [Token.symbol, Nat.add_sub_cancel_left]
  have hmod : (16 * Nat.log2 distance + min 15 (length - 3)) % 16 = min 15 (length - 3) := by omega
  have hdiv : (16 * Nat.log2 distance + min 15 (length - 3)) / 16 = Nat.log2 distance := by omega
  have hstop : checkedAdd 64 s.outputLen length = some (s.outputLen + length) := checkedAdd_eq_some.mpr ⟨by omega, rfl⟩
  refine ⟨{ s with
    out := copyMatch s.out s.outputLen distance length
    outputLen := s.outputLen + length
    bitstream := last }, ?_, ⟨hin.alphabet_eq, hlast, ?_, ?_⟩, length_copyMatch, rfl⟩
  · rw [copyBack, hraw, hmod, hdiv, hlen, ok_bind, hoffset, ok_bind, refuseIf, if_neg (by omega), ok_bind, hstop, someOr_some,
      ok_bind, refuseIf, if_neg (by omega), ok_bind]
    rfl
  · rw [← hin.take_eq]
    exact take_copyMatch hpos (by omega) (by omega)
  · rw [length_extend, hlength]

/-- A round inside a block writes what its token stands for, unless it takes the token for the end. -/
theorem round_inside (hin : Inside input b produced r (t.items b.lengths ++ items) later s)
    (hvalid : t.Valid produced.length) (hcoded : b.lengths.getD t.symbol 0 ≠ 0) (hinside : s.outputLen < s.nextBlockAt)
    (hfits : produced.length + t.size ≤ s.out.length) (hsmall : s.out.length < 2 ^ 63) :
    (t = .copy 3 1 → 2 ≤ (leftBehind b r t items later).length) ∧
      (∃ s', decompressLoop input (rounds + 1) s = decompressLoop input rounds s' ∧
        Inside input b (t.apply produced) ((t.items b.lengths).foldl Reader.next r) items later s' ∧
        s'.out.length = s.out.length ∧ s'.nextBlockAt = s.nextBlockAt) ∨
    (t = .copy 3 1 ∧ (leftBehind b r t items later).length < 2) ∧
      decompressLoop input (rounds + 1) s = .ok (s.out, s.outputLen) := by
  have hlength := hin.length_eq
  have hsize := Token.size_pos hvalid
  have hstay : beginBlock input s = .ok s := if_pos hinside
  cases t with
  | literal byte =>
      obtain ⟨hdecode, next, hconsume, hnext⟩ := codeword_holds b.length_eq hin.alphabet_eq hcoded hin.holds
      have hsymbol : (Token.literal byte).symbol < endMarker := byte.toNat_lt
      refine .inl ⟨(fun h => by cases h), { s with
        out := s.out.set s.outputLen (UInt8.ofNat (Token.literal byte).symbol)
        outputLen := s.outputLen + 1
        bitstream := next }, ?_, ⟨hin.alphabet_eq, hnext, ?_, ?_⟩, List.length_set, rfl⟩
      · rw [decompressLoop, if_neg (by omega), hstay, ok_bind, hdecode, ok_bind, hconsume, ok_bind]
        exact if_pos hsymbol
      · dsimp only
        rw [Token.symbol, UInt8.ofNat_toNat, List.take_add_one, List.take_set_of_le (Nat.le_refl _),
          List.getElem?_set_self (by omega), hin.take_eq, Option.toList_some]
        rfl
      · rw [Token.length_apply, hlength]
        rfl
  | copy length distance =>
      have hholds := hin.holds
      rw [Token.items, List.cons_append] at hholds
      obtain ⟨hdecode, next, hconsume, hnext⟩ := codeword_holds b.length_eq hin.alphabet_eq hcoded hholds
      have hin' : Inside input b produced (r.next (codeword b.lengths (Token.copy length distance).symbol)) _ later
          { s with bitstream := next } := ⟨hin.alphabet_eq, hnext, hin.take_eq, hlength⟩
      have hbelow : ¬ (Token.copy length distance).symbol < endMarker := by
        rw [Token.symbol]
        omega
      have hleft : (leftBehind b r (.copy length distance) items later).length = input.length - next.position := by
        rw [Reads.length_eq hnext, Nat.add_sub_cancel_left]
        rfl
      have hposition := hnext.position_le
      have hround : decompressLoop input (rounds + 1) s =
          if (Token.copy length distance).symbol = endMarker ∧ input.length - 1 ≤ next.position then .ok (s.out, s.outputLen)
          else (do
            let s ← copyBack input ((Token.copy length distance).symbol - endMarker) { s with bitstream := next }
            decompressLoop input rounds s) := by
        rw [decompressLoop, if_neg (by omega), hstay, ok_bind, hdecode, ok_bind, hconsume, ok_bind, if_neg hbelow]
        rfl
      rw [hround]
      split
      · next hend => exact .inr ⟨⟨(symbol_eq_endMarker hvalid).mp hend.1, by omega⟩, rfl⟩
      · next hgo =>
          obtain ⟨s', hcopy, hinside', hlen, hnextAt⟩ := copyBack_inside hvalid hin' hfits hsmall
          refine .inl ⟨fun h => ?_, s', ?_, ?_, hlen, hnextAt⟩
          · have := not_and.mp hgo ((symbol_eq_endMarker hvalid).mpr h)
            omega
          · rw [hcopy, ok_bind]
          · have hfold : ∀ r : Reader, ((lengthField length).map Item.byte).foldl Reader.next r = r := by
              intro r
              induction lengthField length with
              | nil => rfl
              | cons b bytes ih => exact ih
            rw [Token.items, List.foldl_cons, List.foldl_append, hfold]
            exact hinside'

/-- The tokens of a block are written one after the other, up to the first that is taken for the end. -/
theorem run_tokens (rounds : Nat) {before after : List Token} (hsplit : b.tokens = before ++ after)
    (hin : Inside input b produced ((itemsOf b.lengths before).foldl Reader.next (b.start trailer))
      (itemsOf b.lengths after ++ trailer) later s)
    (hvalid : Valid produced.length after) (hblock : after ≠ [] → produced.length + totalSize after.dropLast < s.nextBlockAt)
    (hfits : produced.length + totalSize after ≤ s.out.length) (hsmall : s.out.length < 2 ^ 63) :
    (∀ left right, after = left ++ .copy 3 1 :: right →
        2 ≤ (b.left trailer later (before ++ left) (.copy 3 1) right).length) ∧
      (∃ s' r', decompressLoop input (after.length + rounds) s = decompressLoop input rounds s' ∧
        Inside input b (apply produced after) r' trailer later s' ∧ s'.out.length = s.out.length ∧
        s'.nextBlockAt = s.nextBlockAt) ∨
    (∃ left right, after = left ++ .copy 3 1 :: right ∧
        (b.left trailer later (before ++ left) (.copy 3 1) right).length < 2) ∧
      ∃ result, decompressLoop input (after.length + rounds) s = .ok result ∧ result.2 < s.out.length := by
  induction after generalizing before produced s with
  | nil =>
      refine .inl ⟨fun left right h => ?_, s, _, ?_, hin, rfl, rfl⟩
      · cases left <;> cases h
      · rw [List.length_nil, Nat.zero_add]
  | cons t after ih =>
      have htotal : totalSize (t :: after) = t.size + totalSize after := List.sum_cons
      have hitems : itemsOf b.lengths (t :: after) ++ trailer = t.items b.lengths ++ (itemsOf b.lengths after ++ trailer) := by
        rw [itemsOf, List.flatMap_cons, List.append_assoc]
        rfl
      have hcoded := b.coded t (hsplit ▸ List.mem_append_right _ List.mem_cons_self)
      have hsize := Token.size_pos hvalid.1
      have hlength := hin.length_eq
      have hstart := hblock (List.cons_ne_nil _ _)
      have hafter : before ++ t :: after = (before ++ [t]) ++ after := by rw [List.append_assoc, List.singleton_append]
      have hleft : b.left trailer later before t after =
          leftBehind b ((itemsOf b.lengths before).foldl Reader.next (b.start trailer)) t (itemsOf b.lengths after ++ trailer)
            later := rfl
      rw [hitems] at hin
      rw [htotal] at hfits
      rw [List.length_cons, Nat.add_right_comm]
      rcases round_inside hin hvalid.1 hcoded (by omega) (by omega) hsmall with
        ⟨hgo, s₁, hround, hinside, hlen, hnext⟩ | ⟨⟨rfl, hend⟩, hround⟩
      · have hfold : (t.items b.lengths).foldl Reader.next
            ((itemsOf b.lengths before).foldl Reader.next (b.start trailer)) =
            (itemsOf b.lengths (before ++ [t])).foldl Reader.next (b.start trailer) := by
          rw [itemsOf, itemsOf, List.flatMap_append, List.foldl_append, List.flatMap_singleton]
        rw [hfold] at hinside
        have hproduced : (t.apply produced).length = produced.length + t.size := Token.length_apply
        have hdrop : after ≠ [] → (t.apply produced).length + totalSize after.dropLast < s₁.nextBlockAt := by
          intro hne
          rw [List.dropLast_cons_of_ne_nil hne] at hstart
          have hsum : totalSize (t :: after.dropLast) = t.size + totalSize after.dropLast := List.sum_cons
          rw [hnext, hproduced]
          omega
        have hrest := ih (hsplit.trans hafter) hinside (hproduced ▸ hvalid.2) hdrop (by rw [hlen, hproduced]; omega)
          (by rw [hlen]; exact hsmall)
        rw [hround]
        rcases hrest with ⟨hall, s₂, r₂, hrun, hdone, hlen₂, hnext₂⟩ | ⟨⟨left, right, rfl, hend⟩, result, hrun, hless⟩
        · refine .inl ⟨fun left right heq => ?_, s₂, r₂, hrun, hdone, hlen₂.trans hlen, hnext₂.trans hnext⟩
          cases left with
          | nil =>
              obtain ⟨rfl, rfl⟩ := List.cons.inj heq
              rw [List.append_nil, hleft]
              exact hgo rfl
          | cons t' left =>
              obtain ⟨rfl, rfl⟩ := List.cons.inj heq
              have hwithin := hall left right rfl
              rwa [List.append_assoc, List.singleton_append] at hwithin
        · refine .inr ⟨⟨t :: left, right, rfl, ?_⟩, result, hrun, by rw [← hlen]; exact hless⟩
          rwa [List.append_assoc, List.singleton_append] at hend
      · refine .inr ⟨⟨[], after, rfl, ?_⟩, _, hround, by dsimp only; omega⟩
        rwa [List.append_nil, hleft]

theorem valid_append {more : List Token} {n : Nat} :
    Valid n (tokens ++ more) ↔ Valid n tokens ∧ Valid (n + totalSize tokens) more := by
  induction tokens generalizing n with
  | nil => simp [Valid, totalSize]
  | cons t tokens ih =>
      have htotal : totalSize (t :: tokens) = t.size + totalSize tokens := List.sum_cons
      rw [List.cons_append, Valid, Valid, ih, htotal, Nat.add_assoc, and_assoc]

theorem length_apply : (apply produced tokens).length = produced.length + totalSize tokens := by
  induction tokens generalizing produced with
  | nil => rfl
  | cons t tokens ih =>
      have htotal : totalSize (t :: tokens) = t.size + totalSize tokens := List.sum_cons
      rw [apply, List.foldl_cons, ← apply, ih, Token.length_apply, htotal, Nat.add_assoc]

theorem decompressLoop_full (h : s.out.length ≤ s.outputLen) : decompressLoop input rounds s = .ok (s.out, s.outputLen) := by
  cases rounds with
  | zero => rfl
  | succ rounds => exact if_pos h

/-- Blocks are written one after the other. -/
theorem run_blocks {ended : Bool} {blocks : List Block} (hfull : blocks ≠ [] → s.nextBlockAt ≤ s.outputLen)
    (hle : s.bitstream.position ≤ input.length) (hinput : input.drop s.bitstream.position = encode ended blocks)
    (htake : s.out.take s.outputLen = produced) (hlength : produced.length = s.outputLen) (hsplit : Split blocks)
    (hvalid : Valid produced.length (tokensOf blocks))
    (htotal : produced.length + totalSize (tokensOf blocks) = s.out.length) (hsmall : s.out.length < 2 ^ 63) :
    Distinct ended blocks ∧ decompressLoop input ((tokensOf blocks).length + rounds) s =
        .ok (apply produced (tokensOf blocks), s.out.length) ∨
      ¬ Distinct ended blocks ∧ ∃ result, decompressLoop input ((tokensOf blocks).length + rounds) s = .ok result ∧
        result.2 < s.out.length := by
  induction blocks generalizing produced s with
  | nil =>
      have hdone : s.outputLen = s.out.length := hlength.symm.trans htotal
      refine .inl ⟨trivial, ?_⟩
      rw [decompressLoop_full hdone.ge, hdone, ← htake, hdone, List.take_length]
      rfl
  | cons b rest ih =>
      obtain ⟨hlast, hmore, hsplit⟩ := hsplit
      have htokens : tokensOf (b :: rest) = b.tokens ++ tokensOf rest := List.flatMap_cons
      have hsum : totalSize (b.tokens ++ tokensOf rest) = totalSize b.tokens + totalSize (tokensOf rest) := by
        rw [totalSize, List.map_append, List.sum_append]
        rfl
      rw [htokens, valid_append] at hvalid
      rw [htokens, hsum] at htotal
      rw [htokens, List.length_append, Nat.add_assoc]
      by_cases hempty : b.tokens = []
      · have hnone : rest = [] := by
          by_contra hne
          have hblock := hmore hne
          rw [hempty] at hblock
          exact absurd hblock (by decide)
        subst hnone
        rw [hempty] at htotal ⊢
        have hdone : s.outputLen = s.out.length := hlength.symm.trans htotal
        refine .inl ⟨⟨fun before after h => ?_, trivial⟩, ?_⟩
        · rw [hempty] at h
          cases before <;> cases h
        · rw [decompressLoop_full hdone.ge, hdone, ← htake, hdone, List.take_length]
          rfl
      · obtain ⟨t, tokens, hcons⟩ := List.exists_cons_of_ne_nil hempty
        have hpos : 0 < totalSize b.tokens := by
          rw [hcons] at hvalid ⊢
          have hsize := Token.size_pos hvalid.1.1
          have : totalSize (t :: tokens) = t.size + totalSize tokens := List.sum_cons
          omega
        have hblockSize : blockSize = 65536 := rfl
        have hstart := hfull (List.cons_ne_nil _ _)
        obtain ⟨s₁, hbegin, hin, hout, hnext⟩ := beginBlock_inside hstart hle hinput (by omega) htake hlength
        have hlen : s₁.outputLen = s.outputLen := hin.length_eq.symm.trans hlength
        have hround : decompressLoop input (b.tokens.length + ((tokensOf rest).length + rounds)) s =
            decompressLoop input (b.tokens.length + ((tokensOf rest).length + rounds)) s₁ := by
          rw [hcons, List.length_cons, Nat.add_right_comm]
          exact decompressLoop_begin hbegin hout hlen (by omega)
        rw [hround]
        have hrun := run_tokens ((tokensOf rest).length + rounds) (List.nil_append _).symm hin hvalid.1 (fun _ => by omega)
          (by rw [hout]; omega) (by rw [hout]; exact hsmall)
        rw [hout] at hrun
        rcases hrun with ⟨hall, s₂, r₂, hrun, hdone, hlen₂, hnext₂⟩ | ⟨⟨left, right, heq, hend⟩, result, hrun, hless⟩
        · have hdistinct : b.Distinct (b.trailer ended rest.isEmpty) (encode ended rest) := hall
          have hproduced : (apply produced b.tokens).length = produced.length + totalSize b.tokens := length_apply
          have happly : apply produced (b.tokens ++ tokensOf rest) = apply (apply produced b.tokens) (tokensOf rest) :=
            List.foldl_append
          have hlength₂ := hdone.length_eq
          rw [hrun, happly, Distinct, and_iff_right hdistinct, ← hlen₂]
          cases rest with
          | nil =>
              have hend : s₂.outputLen = s₂.out.length := by
                rw [hlen₂, ← htotal, ← hlength₂, hproduced]
                rfl
              refine .inl ⟨trivial, ?_⟩
              rw [decompressLoop_full hend.ge, hend, ← hdone.take_eq, hend, List.take_length]
              rfl
          | cons b' rest =>
              have hblock := hmore (List.cons_ne_nil _ _)
              have hnone : b.trailer ended (b' :: rest).isEmpty = [] := by
                rw [Block.trailer, List.isEmpty_cons, Bool.and_false]
                rfl
              rw [hnone] at hdone
              refine ih (fun _ => by omega) hdone.holds.position_le hdone.holds.rest_eq hdone.take_eq hlength₂ hsplit
                (hproduced ▸ hvalid.2) ?_ (by rw [hlen₂]; exact hsmall)
              rw [hproduced, hlen₂]
              omega
        · refine .inr ⟨fun hdistinct => ?_, result, hrun, hless⟩
          have := hdistinct.1 left right heq
          rw [List.nil_append] at hend
          omega

end rounds

/-- What a compressor makes of any tokens, in whatever blocks and with whatever complete codes, is decompressed to the bytes
they stand for, exactly if no match of three bytes and distance one is read with less than two bytes left: its codeword is the
one of the end marker. -/
theorem decompressXpress_encode (ended : Bool) (blocks : List Block) (buffer : List UInt8) (hsplit : Split blocks)
    (hvalid : Valid 0 (tokensOf blocks)) (hbuffer : buffer.length = totalSize (tokensOf blocks))
    (hsmall : buffer.length < 2 ^ 63) :
    decompressXpress (encode ended blocks) buffer = .ok (apply [] (tokensOf blocks), buffer.length) ↔
      Distinct ended blocks := by
  have hcount : ∀ (n : Nat) (tokens : List Token), Valid n tokens → tokens.length ≤ totalSize tokens := by
    intro n tokens hvalid
    induction tokens generalizing n with
    | nil => exact Nat.zero_le _
    | cons t tokens ih =>
        have hrest := ih _ hvalid.2
        have hsize := Token.size_pos hvalid.1
        have htotal : totalSize (t :: tokens) = t.size + totalSize tokens := List.sum_cons
        rw [List.length_cons]
        omega
  have hrounds : buffer.length + 1 = (tokensOf blocks).length + (buffer.length + 1 - (tokensOf blocks).length) := by
    have := hcount 0 _ hvalid
    omega
  rw [decompressXpress, hrounds]
  have hrun := @run_blocks (encode ended blocks) [] ⟨buffer, 0, 0, XpressHuffman.empty, XpressBitstream.empty⟩
    (buffer.length + 1 - (tokensOf blocks).length) ended blocks (fun _ => Nat.le_refl 0) (Nat.zero_le _) List.drop_zero
    List.take_zero rfl hsplit hvalid (by rw [hbuffer]; exact Nat.zero_add _) hsmall
  rcases hrun with ⟨hdistinct, hok⟩ | ⟨hdistinct, result, hok, hless⟩
  · exact iff_of_true hok hdistinct
  · refine iff_of_false (fun h => ?_) hdistinct
    obtain rfl := Except.ok.inj (hok.symm.trans h)
    exact absurd hless (Nat.lt_irrefl _)

/-- The lengths of a code of two symbols: a letter, and a match at distance one. -/
def letterLengths (low : Nat) : List UInt8 :=
  List.replicate 48 0 ++ 0x10 :: (List.replicate (79 + low) 0 ++ 0x01 :: List.replicate (127 - low) 0)

theorem letterLengths_complete {low : Nat} (h : low < 2) : KraftEquality (codeLengths (letterLengths low)) := by
  rw [kraftEquality_iff codeLengths_le]
  obtain rfl | rfl : low = 0 ∨ low = 1 := by omega
  · decide +kernel
  · decide +kernel

/-- A letter and five more. -/
def lettersBlock : Block where
  lengthBytes := letterLengths 1
  tokens := [.literal 0x61, .copy 5 1]
  length_eq := by decide +kernel
  complete := letterLengths_complete Nat.one_lt_two
  coded := by decide +kernel

/-- A letter and three more. -/
def markerBlock : Block where
  lengthBytes := letterLengths 0
  tokens := [.literal 0x61, .copy 3 1]
  length_eq := by decide +kernel
  complete := letterLengths_complete Nat.two_pos
  coded := by decide +kernel

theorem letters_decompress :
    decompressXpress (encode true [lettersBlock]) (List.replicate 6 0) = .ok (List.replicate 6 0x61, 6) ∧
      decompressXpress (encode false [markerBlock]) (List.replicate 4 0) ≠ .ok (List.replicate 4 0x61, 4) := by
  constructor
  · refine (decompressXpress_encode true [lettersBlock] (List.replicate 6 0) ?_ ?_ ?_ ?_).mpr ⟨?_, trivial⟩
    · exact ⟨by decide, fun h => absurd rfl h, trivial⟩
    · exact ⟨trivial, by simp [Token.Valid, Token.size], trivial⟩
    · decide
    · decide
    · intro before after h
      have hmem : Token.copy 3 1 ∈ lettersBlock.tokens := by
        rw [h]
        exact List.mem_append_right _ List.mem_cons_self
      exact absurd hmem (by decide)
  · intro hok
    have hdistinct := (decompressXpress_encode false [markerBlock] (List.replicate 4 0)
      ⟨by decide, fun h => absurd rfl h, trivial⟩ ⟨trivial, by simp [Token.Valid, Token.size], trivial⟩ (by decide) (by decide)).mp hok
    have hleft := hdistinct.1 [.literal 0x61] [] rfl
    revert hleft
    decide +kernel

end NextBoot.Wim.Xpress
