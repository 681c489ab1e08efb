import NextBoot.CanonicalCode
import NextBoot.Faults
import NextBoot.Wim.Format
import NextBoot.Words

namespace NextBoot.Lzx

open Words Faults CanonicalCode
open Wim (LzxDecodeError)

def huffmanBits : Nat := 16

/-- An assignment to a cell of an array; it faults outside. -/
def setAt (xs : List Nat) (i value : Nat) : Outcome LzxDecodeError (List Nat) :=
  if i < xs.length then pure (xs.set i value) else .fault

structure LzxHuffman where
  counts : List Nat
  starts : List Nat
  firstSymbol : List Nat
  symbols : List Nat
deriving DecidableEq, Repr

namespace LzxHuffman

def empty (n : Nat) : LzxHuffman where
  counts := List.replicate (huffmanBits + 1) 0
  starts := List.replicate (huffmanBits + 1) 0
  firstSymbol := List.replicate (huffmanBits + 1) 0
  symbols := List.replicate n 0

/-- The round of the first loop for one length: the counts, and whether all lengths so far are zero. -/
def countLength (s : List Nat × Bool) (len : Nat) : Outcome LzxDecodeError (List Nat × Bool) :=
  if huffmanBits < len then .error .invalidHuffmanLength
  else if len = 0 then pure s
  else do
    let count ← Outcome.ofOption s.1[len]?
    let count ← Outcome.ofOption (checkedAdd 16 count 1)
    let counts ← setAt s.1 len count
    pure (counts, false)

structure Assignment where
  huf : Nat
  cumulative : Nat
  starts : List Nat
  firstSymbol : List Nat

def assignBits (n : Nat) (counts : List Nat) (a : Assignment) (bits : Nat) : Outcome LzxDecodeError Assignment := do
  let count ← Outcome.ofOption counts[bits]?
  let starts ← setAt a.starts bits (a.huf * 2 ^ (huffmanBits - bits) % 2 ^ 32)
  let firstSymbol ← setAt a.firstSymbol bits a.cumulative
  match checkedAdd 32 a.huf count with
  | none => .error .incompleteHuffmanAlphabet
  | some huf =>
      if 2 ^ bits < huf then .error .incompleteHuffmanAlphabet
      else
        match checkedAdd 64 a.cumulative count with
        | none => .error .incompleteHuffmanAlphabet
        | some cumulative =>
            if n < cumulative then .error .incompleteHuffmanAlphabet
            else pure { huf := huf * 2 % 2 ^ 32, cumulative := cumulative, starts := starts, firstSymbol := firstSymbol }

/-- The round of the last loop for one symbol. -/
def placeSymbol (s : List Nat × List Nat) (p : Nat × Nat) : Outcome LzxDecodeError (List Nat × List Nat) :=
  if p.1 = 0 then pure s
  else do
    let index ← Outcome.ofOption s.1[p.1]?
    let symbols ← setAt s.2 index (p.2 % 2 ^ 16)
    let cursor ← setAt s.1 p.1 (index + 1)
    pure (cursor, symbols)

def fromLengths (lengths : List Nat) : Outcome LzxDecodeError LzxHuffman := do
  let counted ← lengths.foldlM countLength (List.replicate (huffmanBits + 1) 0, true)
  let counts := if counted.2 then counted.1.set 1 2 else counted.1
  let a ← (List.range' 1 huffmanBits).foldlM (assignBits lengths.length counts)
    ⟨0, 0, List.replicate (huffmanBits + 1) 0, List.replicate (huffmanBits + 1) 0⟩
  if a.huf ≠ 2 ^ (huffmanBits + 1) then .error .incompleteHuffmanAlphabet
  else if counted.2 then pure ⟨counts, a.starts, a.firstSymbol, List.replicate lengths.length 0⟩
  else do
    let placed ← lengths.zipIdx.foldlM placeSymbol (a.firstSymbol, List.replicate lengths.length 0)
    pure ⟨counts, a.starts, a.firstSymbol, placed.2⟩

variable (table : LzxHuffman)

/-- The loop over the lengths that are left. -/
def decodeBits (huf : Nat) : List Nat → Outcome LzxDecodeError (Nat × Nat)
  | [] => .error .invalidHuffmanCode
  | bits :: rest => do
      let count ← Outcome.ofOption table.counts[bits]?
      if count = 0 then decodeBits huf rest
      else do
        let start ← Outcome.ofOption table.starts[bits]?
        let stop ← Outcome.ofOption (checkedAdd 32 start (count * 2 ^ (huffmanBits - bits) % 2 ^ 32))
        if start ≤ huf ∧ huf < stop then do
          let first ← Outcome.ofOption table.firstSymbol[bits]?
          let symbol ← Outcome.ofOption table.symbols[first + (huf - start) / 2 ^ (huffmanBits - bits)]?
          pure (symbol, bits)
        else decodeBits huf rest

def decode (huf : Nat) : Outcome LzxDecodeError (Nat × Nat) := table.decodeBits huf (List.range' 1 huffmanBits)

end LzxHuffman

variable {lengths : List Nat}

namespace LzxHuffman

theorem setAt_of_lt {xs : List Nat} {i : Nat} (value : Nat) (h : i < xs.length) : setAt xs i value = .value (xs.set i value) :=
  if_pos h

/-- The counts of the first loop, where no length is too long. -/
theorem countLengths_ok {cs : List Nat} {e : Bool} {m : Nat → Nat} (hlen : cs.length = huffmanBits + 1)
    (hall : ∀ l ∈ lengths, l ≤ huffmanBits) (hc : ∀ len, 0 < len → len ≤ huffmanBits → cs[len]? = some (m len))
    (hbound : ∀ len, m len + lengths.length < 2 ^ 16) :
    ∃ cs', lengths.foldlM countLength (cs, e) = .value (cs', e && lengths.all (· = 0)) ∧ cs'.length = huffmanBits + 1 ∧
      ∀ len, 0 < len → len ≤ huffmanBits → cs'[len]? = some (m len + lengths.count len) := by
  induction lengths generalizing cs e m with
  | nil => exact ⟨cs, by rw [List.all_nil, Bool.and_true]; rfl, hlen, hc⟩
  | cons l lengths ih =>
      rw [List.forall_mem_cons] at hall
      rw [List.foldlM_cons, countLength, if_neg (Nat.not_lt.2 hall.1)]
      simp only [List.length_cons] at hbound
      by_cases hzero : l = 0
      · subst hzero
        obtain ⟨cs', hfold, hlen', hc'⟩ := @ih cs e m hlen hall.2 hc fun len => by have := hbound len; omega
        refine ⟨cs', ?_, hlen', fun len hpos hle => ?_⟩
        · rw [if_pos rfl, List.all_cons, decide_eq_true rfl, Bool.true_and]
          exact hfold
        · rw [hc' len hpos hle, List.count_cons_of_ne (Nat.ne_of_lt hpos)]
      · have hget := hc l (Nat.pos_of_ne_zero hzero) hall.1
        have hadd : checkedAdd 16 (m l) 1 = some (m l + 1) := by
          rw [checkedAdd_eq_some]
          exact ⟨by have := hbound l; omega, rfl⟩
        have hlt := (List.getElem?_eq_some_iff.1 hget).1
        obtain ⟨cs', hfold, hlen', hc'⟩ := @ih (cs.set l (m l + 1)) false (Function.update m l (m l + 1))
          (by rw [List.length_set, hlen]) hall.2
          (fun len hpos hle => by
            by_cases hl : l = len
            · subst hl
              rw [List.getElem?_set_self hlt, Function.update_self]
            · rw [List.getElem?_set_ne hl, hc len hpos hle, Function.update_of_ne (Ne.symm hl)])
          (fun len => by
            have hlen := hbound len
            have hl := hbound l
            rw [Function.update_apply]
            split <;> omega)
        refine ⟨cs', ?_, hlen', fun len hpos hle => ?_⟩
        · rw [if_neg hzero, hget, Outcome.ofOption_some, Outcome.value_bind, hadd, Outcome.ofOption_some, Outcome.value_bind,
            setAt_of_lt _ hlt, Outcome.value_bind, List.all_cons, decide_eq_false hzero, Bool.false_and, Bool.and_false]
          exact hfold
        · rw [hc' len hpos hle, List.count_cons, Function.update_apply]
          congr 1
          by_cases hl : len = l
          · subst hl
            rw [if_pos rfl, if_pos (beq_self_eq_true _), Nat.add_right_comm, Nat.add_assoc]
          · rw [if_neg hl, if_neg (by simpa using Ne.symm hl), Nat.add_zero]

/-- A length beyond sixteen bits is refused. -/
theorem countLengths_error {cs : List Nat} {e : Bool} {m : Nat → Nat} (hlen : cs.length = huffmanBits + 1)
    (hall : ∃ l ∈ lengths, huffmanBits < l) (hc : ∀ len, 0 < len → len ≤ huffmanBits → cs[len]? = some (m len))
    (hbound : ∀ len, m len + lengths.length < 2 ^ 16) :
    lengths.foldlM countLength (cs, e) = .error .invalidHuffmanLength := by
  obtain ⟨l, hfind⟩ : ∃ l, lengths.find? (fun l => huffmanBits < l) = some l := by
    rw [← Option.isSome_iff_exists, List.find?_isSome]
    simpa using hall
  obtain ⟨hlong, pre, post, rfl, hpre⟩ := List.find?_eq_some_iff_append.1 hfind
  rw [List.length_append] at hbound
  obtain ⟨cs', hfold, -⟩ := @countLengths_ok pre cs e m hlen (fun l hl => by simpa using hpre l hl) hc
    fun len => by have := hbound len; omega
  rw [List.foldlM_append, hfold, Outcome.value_bind, List.foldlM_cons, countLength, if_pos (by simpa using hlong)]
  rfl

/-- What the rounds of the second loop have made of the counts up to a length. -/
structure Assigned (lengths : List Nat) (k : Nat) (a : Assignment) : Prop where
  huf_eq : a.huf = firstCode lengths (k + 1)
  huf_le : a.huf ≤ 2 ^ (k + 1)
  cumulative_eq : a.cumulative = firstIndex lengths (k + 1)
  length_starts : a.starts.length = huffmanBits + 1
  length_firstSymbol : a.firstSymbol.length = huffmanBits + 1
  starts_eq : ∀ len, 0 < len → len ≤ k → a.starts[len]? = some (shorter huffmanBits lengths len)
  firstSymbol_eq : ∀ len, 0 < len → len ≤ k → a.firstSymbol[len]? = some (firstIndex lengths len)

variable {n k : Nat} {counts : List Nat} {a : Assignment}

/-- A round succeeds where the codewords of its length fit. -/
theorem assignBits_eq (hcounts : counts[k + 1]? = some (used lengths (k + 1))) (hk : k < huffmanBits)
    (hn : lengths.length ≤ n) (hsmall : n < 2 ^ 16) (ha : Assigned lengths k a) :
    if firstCode lengths (k + 1) + used lengths (k + 1) ≤ 2 ^ (k + 1) then
      ∃ a', assignBits n counts a (k + 1) = .value a' ∧ Assigned lengths (k + 1) a'
    else assignBits n counts a (k + 1) = .error .incompleteHuffmanAlphabet := by
  have hused : used lengths (k + 1) ≤ lengths.length := by
    rw [used, if_neg (Nat.succ_ne_zero k)]
    exact List.count_le_length
  have hpow : 2 ^ (k + 1) ≤ 2 ^ 16 := Nat.pow_le_pow_right (by decide) hk
  have hhuf := ha.huf_le
  have hadd : checkedAdd 32 a.huf (used lengths (k + 1)) = some (firstCode lengths (k + 1) + used lengths (k + 1)) := by
    rw [checkedAdd_eq_some, ha.huf_eq]
    rw [ha.huf_eq] at hhuf
    exact ⟨by omega, rfl⟩
  have hindex := @firstIndex_le lengths (k + 1)
  have hindex' := @firstIndex_le lengths (k + 2)
  have hcumulative : checkedAdd 64 a.cumulative (used lengths (k + 1)) = some (firstIndex lengths (k + 2)) := by
    rw [checkedAdd_eq_some, ha.cumulative_eq]
    exact ⟨by omega, rfl⟩
  have hstarts : k + 1 < a.starts.length := by rw [ha.length_starts]; omega
  have hfirst : k + 1 < a.firstSymbol.length := by rw [ha.length_firstSymbol]; omega
  have hstart : a.huf * 2 ^ (huffmanBits - (k + 1)) % 2 ^ 32 = shorter huffmanBits lengths (k + 1) := by
    have hroom : a.huf * 2 ^ (huffmanBits - (k + 1)) ≤ 2 ^ (k + 1) * 2 ^ (huffmanBits - (k + 1)) :=
      Nat.mul_le_mul_right _ hhuf
    rw [← Nat.pow_add, Nat.add_sub_cancel' hk, huffmanBits] at hroom
    rw [Nat.mod_eq_of_lt (by rw [huffmanBits]; omega), ha.huf_eq, firstCode_mul hk]
  rw [assignBits, hcounts, Outcome.ofOption_some, Outcome.value_bind, setAt_of_lt _ hstarts, Outcome.value_bind,
    setAt_of_lt _ hfirst, Outcome.value_bind, hadd]
  dsimp only
  split
  · rename_i hfits
    rw [if_neg (Nat.not_lt.2 hfits), hcumulative]
    dsimp only
    rw [if_neg (by omega), hstart]
    have hnext : (firstCode lengths (k + 1) + used lengths (k + 1)) * 2 % 2 ^ 32 = firstCode lengths (k + 2) :=
      Nat.mod_eq_of_lt (by omega)
    have hpush (xs : List Nat) (f : Nat → Nat) (hlen : k + 1 < xs.length)
        (hxs : ∀ len, 0 < len → len ≤ k → xs[len]? = some (f len)) :
        ∀ len, 0 < len → len ≤ k + 1 → (xs.set (k + 1) (f (k + 1)))[len]? = some (f len) := by
      intro len hpos hle
      rcases Nat.lt_succ_iff_lt_or_eq.1 (Nat.lt_succ_of_le hle) with hlt | rfl
      · rw [List.getElem?_set_ne (Nat.ne_of_gt hlt), hxs len hpos (Nat.le_of_lt_succ hlt)]
      · exact List.getElem?_set_self hlen
    refine ⟨_, rfl, hnext, ?_, rfl, ?_, ?_, hpush _ _ hstarts ha.starts_eq, ?_⟩
    · dsimp only
      rw [hnext, firstCode, Nat.pow_succ]
      exact Nat.mul_le_mul_right 2 hfits
    · exact List.length_set.trans ha.length_starts
    · exact List.length_set.trans ha.length_firstSymbol
    · rw [ha.cumulative_eq]
      exact hpush _ _ hfirst ha.firstSymbol_eq
  · rename_i hfull
    rw [if_pos (Nat.lt_of_not_le hfull)]

/-- The second loop succeeds exactly where the codewords of every length fit, and faults nowhere. -/
theorem assignBits_run (hcounts : ∀ len, 0 < len → len ≤ huffmanBits → counts[len]? = some (used lengths len))
    (hk : k ≤ huffmanBits) (hn : lengths.length ≤ n) (hsmall : n < 2 ^ 16) :
    (∃ a, (List.range' 1 k).foldlM (assignBits n counts)
        ⟨0, 0, List.replicate (huffmanBits + 1) 0, List.replicate (huffmanBits + 1) 0⟩ = .value a ∧ Assigned lengths k a) ∨
      (List.range' 1 k).foldlM (assignBits n counts)
          ⟨0, 0, List.replicate (huffmanBits + 1) 0, List.replicate (huffmanBits + 1) 0⟩ =
        .error .incompleteHuffmanAlphabet ∧
      ∃ len ≤ huffmanBits, 2 ^ len < firstCode lengths len + used lengths len := by
  induction k with
  | zero =>
      refine .inl ⟨_, rfl, rfl, ?_, rfl, List.length_replicate, List.length_replicate, ?_, ?_⟩
      · exact Nat.zero_le _
      · intro len hpos hle
        exact absurd hle (Nat.not_le_of_lt hpos)
      · intro len hpos hle
        exact absurd hle (Nat.not_le_of_lt hpos)
  | succ k ih =>
      rw [List.range'_1_concat, List.foldlM_append]
      rcases ih (Nat.le_of_succ_le hk) with ⟨a, hfold, ha⟩ | ⟨herror, hfull⟩
      · have hround := assignBits_eq (hcounts (k + 1) (Nat.succ_pos k) hk) hk hn hsmall ha
        rw [hfold, Outcome.value_bind, List.foldlM_cons, Nat.add_comm 1 k]
        split at hround
        · obtain ⟨a', hvalue, ha'⟩ := hround
          rw [hvalue]
          exact .inl ⟨a', rfl, ha'⟩
        · rename_i hlarge
          rw [hround]
          exact .inr ⟨rfl, k + 1, hk, Nat.lt_of_not_le hlarge⟩
      · rw [herror]
        exact .inr ⟨rfl, hfull⟩

/-- The last loop puts every symbol at its place. -/
theorem placeSymbols_run {cursor symbols : List Nat} (hplaced : Placed huffmanBits lengths k cursor symbols)
    (hall : ∀ l ∈ lengths, l ≤ huffmanBits) (hsmall : lengths.length < 2 ^ 16) (hk : k ≤ lengths.length) :
    ∃ placed, ((lengths.drop k).zipIdx k).foldlM placeSymbol (cursor, symbols) = .value placed ∧
      Placed huffmanBits lengths lengths.length placed.1 placed.2 := by
  obtain ⟨rest, hrest⟩ : ∃ rest, rest = lengths.drop k := ⟨_, rfl⟩
  induction rest generalizing k cursor symbols with
  | nil =>
      have hend : k = lengths.length := le_antisymm hk (List.drop_eq_nil_iff.1 hrest.symm)
      subst hend
      rw [← hrest]
      exact ⟨(cursor, symbols), rfl, hplaced⟩
  | cons len rest ih =>
      obtain ⟨hlt, hget, hnext, hsplit⟩ := drop_cons hrest
      rw [hsplit, List.zipIdx_cons, List.foldlM_cons, placeSymbol]
      by_cases hzero : len = 0
      · rw [if_pos hzero]
        subst hzero
        exact ih (hplaced.skip hget) hlt hnext
      · obtain ⟨hcursor, hroom, hplaced'⟩ := hplaced.place hget hzero (hall len (List.mem_of_getElem? hget))
        have hmod : k % 2 ^ 16 = k := Nat.mod_eq_of_lt (hlt.trans hsmall)
        rw [if_neg hzero, hcursor, Outcome.ofOption_some, Outcome.value_bind, setAt_of_lt _ hroom, Outcome.value_bind, hmod,
          setAt_of_lt _ (List.getElem?_eq_some_iff.1 hcursor).1, Outcome.value_bind]
        exact ih hplaced' hlt hnext

/-- The first three tables of a code that fills all windows. -/
structure Ranges (lengths : List Nat) (table : LzxHuffman) : Prop where
  kraft : shorter huffmanBits lengths (huffmanBits + 1) = 2 ^ huffmanBits
  counts_eq : ∀ len, 0 < len → len ≤ huffmanBits → table.counts[len]? = some (used lengths len)
  starts_eq : ∀ len, 0 < len → len ≤ huffmanBits → table.starts[len]? = some (shorter huffmanBits lengths len)
  firstSymbol_eq : ∀ len, 0 < len → len ≤ huffmanBits → table.firstSymbol[len]? = some (firstIndex lengths len)

variable {table : LzxHuffman} {window len : Nat}

theorem decodeBits_eq (h : Ranges lengths table) {bits : List Nat} (hbits : ∀ b ∈ bits, 0 < b ∧ b ≤ huffmanBits)
    (hlen : len ∈ bits) (hlo : shorter huffmanBits lengths len ≤ window)
    (hhi : window < shorter huffmanBits lengths len + used lengths len * 2 ^ (huffmanBits - len)) :
    table.decodeBits window bits = (Outcome.ofOption table.symbols[firstIndex lengths len +
      (window - shorter huffmanBits lengths len) / 2 ^ (huffmanBits - len)]?).bind fun symbol => .value (symbol, len) := by
  induction bits with
  | nil => nomatch hlen
  | cons b bits ih =>
      rw [List.forall_mem_cons] at hbits
      obtain ⟨⟨hpos, hle⟩, hrest⟩ := hbits
      rw [decodeBits, h.counts_eq b hpos hle, Outcome.ofOption_some, Outcome.value_bind]
      have hskip := fun hne : b ≠ len => ih hrest ((List.mem_cons.1 hlen).resolve_left (Ne.symm hne))
      by_cases hzero : used lengths b = 0
      · rw [if_pos hzero]
        apply hskip
        rintro rfl
        rw [hzero] at hhi
        omega
      · have hend : shorter huffmanBits lengths b + used lengths b * 2 ^ (huffmanBits - b) ≤ 2 ^ huffmanBits := by
          rw [← shorter_succ, ← h.kraft]
          exact start_mono shorter_succ (Nat.succ_le_succ hle)
        rw [huffmanBits] at hend hlo hhi
        have hmod : used lengths b * 2 ^ (huffmanBits - b) % 2 ^ 32 = used lengths b * 2 ^ (huffmanBits - b) :=
          Nat.mod_eq_of_lt (by rw [huffmanBits]; omega)
        have hadd : checkedAdd 32 (shorter huffmanBits lengths b) (used lengths b * 2 ^ (huffmanBits - b)) =
            some (shorter huffmanBits lengths b + used lengths b * 2 ^ (huffmanBits - b)) := by
          rw [checkedAdd_eq_some, huffmanBits]
          exact ⟨by omega, rfl⟩
        rw [if_neg hzero, h.starts_eq b hpos hle, Outcome.ofOption_some, Outcome.value_bind, hmod, hadd,
          Outcome.ofOption_some, Outcome.value_bind]
        by_cases hin : shorter huffmanBits lengths b ≤ window ∧
            window < shorter huffmanBits lengths b + used lengths b * 2 ^ (huffmanBits - b)
        · have heq : b = len := range_unique shorter_succ hin.1 hin.2 hlo hhi
          subst heq
          rw [if_pos hin, h.firstSymbol_eq b hpos hle, Outcome.ofOption_some, Outcome.value_bind]
          rfl
        · rw [if_neg hin]
          apply hskip
          rintro rfl
          exact hin ⟨hlo, hhi⟩

/-- A table that represents a code decodes every window to the symbol whose codeword it begins with. -/
theorem decode_of_represents {s : Nat} (hkraft : shorter huffmanBits lengths (huffmanBits + 1) = 2 ^ huffmanBits)
    (h : Represents huffmanBits lengths table.counts table.starts table.firstSymbol table.symbols)
    (hall : ∀ l ∈ lengths, l ≤ huffmanBits) (hs : BeginsWith huffmanBits lengths window s) :
    table.decode window = .value (s, lengths.getD s 0) := by
  have hget := getElem?_of_beginsWith hs
  have hle := hall _ (List.mem_of_getElem? hget)
  obtain ⟨-, hlo, hhi, hrank⟩ := range_of_beginsWith hs hget hle
  have hmem : lengths.getD s 0 ∈ List.range' 1 huffmanBits := by
    rw [List.mem_range'_1]
    have hne := hs.1
    omega
  rw [decode, decodeBits_eq ⟨hkraft, h.counts_eq, h.starts_eq, h.firstSymbol_eq⟩ (fun b => mem_lens) hmem hlo hhi, hrank,
    h.symbols_eq s _ hget hs.1]
  rfl

theorem counts_start : ∀ len, 0 < len → len ≤ huffmanBits → (List.replicate (huffmanBits + 1) 0)[len]? = some 0 := by
  intro len _ hle
  rw [List.getElem?_replicate, if_pos (Nat.lt_succ_of_le hle)]

/-- The counts that the rest of the construction sees. -/
theorem countLengths_run (hall : ∀ l ∈ lengths, l ≤ huffmanBits) (hsmall : lengths.length < 2 ^ 16) :
    ∃ counts, lengths.foldlM countLength (List.replicate (huffmanBits + 1) 0, true) =
        .value (counts, lengths.all (· = 0)) ∧ counts.length = huffmanBits + 1 ∧
      ∀ len, 0 < len → len ≤ huffmanBits → counts[len]? = some (used lengths len) := by
  obtain ⟨counts, hfold, hlen, hcounts⟩ := @countLengths_ok lengths _ true (fun _ => 0) List.length_replicate hall counts_start
    (fun len => by rwa [Nat.zero_add])
  refine ⟨counts, hfold, hlen, fun len hpos hle => ?_⟩
  rw [hcounts len hpos hle, Nat.zero_add, used, if_neg (Nat.ne_of_gt hpos)]

/-- The table of a complete code. -/
theorem fromLengths_of_kraft (hall : ∀ l ∈ lengths, l ≤ huffmanBits) (hkraft : KraftEquality lengths)
    (hsmall : lengths.length < 2 ^ 16) :
    ∃ table, fromLengths lengths = .value table ∧
      Represents huffmanBits lengths table.counts table.starts table.firstSymbol table.symbols := by
  obtain ⟨counts, hfold, -, hcounts⟩ := countLengths_run hall hsmall
  have hzero := not_all_zero_of_kraft hkraft
  rw [kraftEquality_iff hall] at hkraft
  rcases assignBits_run hcounts (Nat.le_refl _) (Nat.le_refl _) hsmall with ⟨a, hrun, ha⟩ | ⟨-, len, hlen, hfull⟩
  · have hhuf : a.huf = 2 ^ (huffmanBits + 1) := by
      rw [ha.huf_eq, firstCode_succ_width, hkraft, Nat.pow_succ]
    have hplaced := Placed.zero (List.length_replicate (n := lengths.length) (a := 0)) ha.firstSymbol_eq
    obtain ⟨placed, hplace, hplaced⟩ := placeSymbols_run hplaced hall hsmall (Nat.zero_le _)
    refine ⟨⟨counts, a.starts, a.firstSymbol, placed.2⟩, ?_, hplaced.represents hcounts ha.starts_eq ha.firstSymbol_eq⟩
    rw [List.drop_zero] at hplace
    rw [fromLengths, hfold, Outcome.value_bind]
    dsimp only
    rw [hzero, if_neg Bool.false_ne_true, hrun, Outcome.value_bind, if_neg (not_not.2 hhuf), if_neg Bool.false_ne_true, hplace]
    rfl
  · exact absurd (firstCode_add_used_le hkraft hlen) (Nat.not_le_of_lt hfull)

/-- Without any codeword the tables are those of two codewords of one bit, both for the first symbol. -/
theorem fromLengths_of_zero (hzero : ∀ l ∈ lengths, l = 0) (htwo : 2 ≤ lengths.length) (hsmall : lengths.length < 2 ^ 16) :
    ∃ table, fromLengths lengths = .value table ∧ table.symbols = List.replicate lengths.length 0 ∧
      Ranges [1, 1] table := by
  have hall : ∀ l ∈ lengths, l ≤ huffmanBits := fun l hl => by rw [hzero l hl]; exact Nat.zero_le _
  obtain ⟨counts, hfold, hlen, hcounts⟩ := countLengths_run hall hsmall
  have hkraft : shorter huffmanBits [1, 1] (huffmanBits + 1) = 2 ^ huffmanBits := by decide
  have hpair : ∀ len, 0 < len → len ≤ huffmanBits → (counts.set 1 2)[len]? = some (used [1, 1] len) := by
    intro len hpos hle
    by_cases hone : len = 1
    · subst hone
      rw [List.getElem?_set_self (by rw [hlen, huffmanBits]; omega)]
      rfl
    · have hunused : used lengths len = 0 := by
        rw [used, if_neg (Nat.ne_of_gt hpos), List.count_eq_zero]
        intro hmem
        exact absurd (hzero len hmem) (Nat.ne_of_gt hpos)
      rw [List.getElem?_set_ne (Ne.symm hone), hcounts len hpos hle, hunused, used, if_neg (Nat.ne_of_gt hpos),
        List.count_eq_zero.2 (by simpa using hone)]
  rcases assignBits_run hpair (Nat.le_refl _) htwo hsmall with ⟨a, hrun, ha⟩ | ⟨-, len, hle, hfull⟩
  · have hhuf : a.huf = 2 ^ (huffmanBits + 1) := by
      rw [ha.huf_eq, firstCode_succ_width, hkraft, Nat.pow_succ]
    refine ⟨⟨counts.set 1 2, a.starts, a.firstSymbol, List.replicate lengths.length 0⟩, ?_, rfl,
      ⟨hkraft, hpair, ha.starts_eq, ha.firstSymbol_eq⟩⟩
    rw [fromLengths, hfold, Outcome.value_bind, all_zero_iff.2 hzero]
    dsimp only
    rw [if_pos rfl, hrun, Outcome.value_bind, if_neg (not_not.2 hhuf), if_pos rfl]
    rfl
  · exact absurd (firstCode_add_used_le hkraft hle) (Nat.not_le_of_lt hfull)

theorem decode_of_ranges_pair (hranges : Ranges [1, 1] table) (hsymbols : table.symbols = List.replicate n 0) (htwo : 2 ≤ n)
    (hwindow : window < 2 ^ huffmanBits) : table.decode window = .value (0, 1) := by
  rw [huffmanBits] at hwindow
  have hfirst : firstIndex [1, 1] 1 + (window - shorter huffmanBits [1, 1] 1) / 2 ^ (huffmanBits - 1) < n := by
    have hdiv : window / 2 ^ 15 < 2 := by omega
    exact Nat.lt_of_lt_of_le (by simpa [firstIndex, used, shorter, huffmanBits] using hdiv) htwo
  rw [decode, decodeBits_eq hranges (fun b => mem_lens) (by decide : 1 ∈ List.range' 1 huffmanBits) (Nat.zero_le _)
    (by simpa [used, shorter, huffmanBits] using hwindow), hsymbols, List.getElem?_replicate, if_pos hfirst]
  rfl

/-- Every other list of lengths is refused. -/
theorem fromLengths_refused (h : ¬ ((∀ l ∈ lengths, l ≤ huffmanBits) ∧ (KraftEquality lengths ∨ ∀ l ∈ lengths, l = 0)))
    (hsmall : lengths.length < 2 ^ 16) : ∃ e, fromLengths lengths = .error e := by
  by_cases hall : ∀ l ∈ lengths, l ≤ huffmanBits
  · have hother : ¬ KraftEquality lengths ∧ (lengths.all (· = 0)) = false := by
      rw [Bool.eq_false_iff, ne_eq, all_zero_iff]
      exact ⟨fun hk => h ⟨hall, .inl hk⟩, fun hz => h ⟨hall, .inr hz⟩⟩
    obtain ⟨counts, hfold, -, hcounts⟩ := countLengths_run hall hsmall
    refine ⟨.incompleteHuffmanAlphabet, ?_⟩
    rw [fromLengths, hfold, Outcome.value_bind]
    dsimp only
    rw [hother.2, if_neg Bool.false_ne_true]
    rcases assignBits_run hcounts (Nat.le_refl _) (Nat.le_refl _) hsmall with ⟨a, hrun, ha⟩ | ⟨hrun, -⟩
    · have hhuf : a.huf ≠ 2 ^ (huffmanBits + 1) := by
        rw [ha.huf_eq, firstCode_succ_width, Nat.pow_succ]
        intro heq
        exact hother.1 ((kraftEquality_iff hall).2 (Nat.eq_of_mul_eq_mul_right (by decide) heq))
      rw [hrun, Outcome.value_bind, if_pos hhuf]
    · rw [hrun]
      rfl
  · have hlong : ∃ l ∈ lengths, huffmanBits < l := by simpa using hall
    refine ⟨.invalidHuffmanLength, ?_⟩
    rw [fromLengths, countLengths_error List.length_replicate hlong counts_start fun len => by rwa [Nat.zero_add]]
    rfl

/-- The construction succeeds for complete codes and without any codeword. -/
theorem fromLengths_ok_iff (htwo : 2 ≤ lengths.length) (hsmall : lengths.length < 2 ^ 16) :
    (∃ table, fromLengths lengths = .value table) ↔
      (∀ l ∈ lengths, l ≤ huffmanBits) ∧ (KraftEquality lengths ∨ ∀ l ∈ lengths, l = 0) := by
  constructor
  · rintro ⟨table, htable⟩
    by_contra h
    obtain ⟨e, he⟩ := fromLengths_refused h hsmall
    rw [he] at htable
    nomatch htable
  · rintro ⟨hall, hkraft | hzero⟩
    · obtain ⟨table, htable, -⟩ := fromLengths_of_kraft hall hkraft hsmall
      exact ⟨table, htable⟩
    · obtain ⟨table, htable, -⟩ := fromLengths_of_zero hzero htwo hsmall
      exact ⟨table, htable⟩

/-- What a table of the construction decodes. -/
theorem decode_fromLengths (htwo : 2 ≤ lengths.length) (hsmall : lengths.length < 2 ^ 16)
    (htable : fromLengths lengths = .value table) (hwindow : window < 2 ^ huffmanBits) :
    (∀ s, BeginsWith huffmanBits lengths window s → table.decode window = .value (s, lengths.getD s 0)) ∧
      ((∃! s, BeginsWith huffmanBits lengths window s) ∨
        (∀ l ∈ lengths, l = 0) ∧ table.decode window = .value (0, 1)) := by
  obtain ⟨hall, hkraft | hzero⟩ := (fromLengths_ok_iff htwo hsmall).1 ⟨table, htable⟩
  · obtain ⟨table', htable', hrepresents⟩ := fromLengths_of_kraft hall hkraft hsmall
    obtain rfl : table' = table := Outcome.value.inj (htable'.symm.trans htable)
    exact ⟨fun s hs => decode_of_represents ((kraftEquality_iff hall).1 hkraft) hrepresents hall hs,
      .inl (existsUnique_beginsWith hall hkraft hwindow)⟩
  · obtain ⟨table', htable', hsymbols, hranges⟩ := fromLengths_of_zero hzero htwo hsmall
    obtain rfl : table' = table := Outcome.value.inj (htable'.symm.trans htable)
    refine ⟨fun s hs => ?_, .inr ⟨hzero, decode_of_ranges_pair hranges hsymbols htwo hwindow⟩⟩
    exact absurd (hzero _ (List.mem_of_getElem? (getElem?_of_beginsWith hs))) hs.1

end LzxHuffman

end NextBoot.Lzx
