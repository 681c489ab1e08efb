import Mathlib.Algebra.BigOperators.Group.List.Basic
import Mathlib.Algebra.Order.Field.Rat
import Mathlib.Data.Nat.Cast.Order.Ring
import Mathlib.Tactic.Positivity
import Mathlib.Tactic.Ring

/-!
Canonical prefix codes, given by the length of each symbol's codeword. Codewords are read from windows of `width` bits,
so that a codeword stands for the range of the windows that begin with it.
-/

namespace NextBoot.CanonicalCode

section steps

variable {start size : Nat → Nat} {len len' x : Nat}

/-- Ranges that follow one another begin in order. -/
theorem start_mono (hstep : ∀ n, start (n + 1) = start n + size n) (h : len ≤ len') : start len ≤ start len' := by
  apply monotone_nat_of_le_succ _ h
  intro n
  rw [hstep]
  exact Nat.le_add_right _ _

theorem exists_range (hstep : ∀ n, start (n + 1) = start n + size n) (hzero : start 0 = 0) (hx : x < start len) :
    ∃ k < len, start k ≤ x ∧ x < start k + size k := by
  induction len with
  | zero => omega
  | succ len ih =>
      by_cases hlt : x < start len
      · obtain ⟨k, hk, hrange⟩ := ih hlt
        exact ⟨k, Nat.lt_succ_of_lt hk, hrange⟩
      · rw [hstep] at hx
        exact ⟨len, Nat.lt_succ_self len, Nat.not_lt.1 hlt, hx⟩

theorem range_unique (hstep : ∀ n, start (n + 1) = start n + size n) (hle : start len ≤ x) (hlt : x < start len + size len)
    (hle' : start len' ≤ x) (hlt' : x < start len' + size len') : len = len' := by
  rw [← hstep] at hlt hlt'
  by_contra hne
  rcases Nat.lt_or_gt_of_ne hne with h | h
  · have hmono := start_mono hstep (show len + 1 ≤ len' from h)
    omega
  · have hmono := start_mono hstep (show len' + 1 ≤ len from h)
    omega

end steps

section definitions

variable (width : Nat) (lengths : List Nat)

/-- How many codewords have a length; a symbol of length zero has none. -/
def used (len : Nat) : Nat := if len = 0 then 0 else lengths.count len

/-- The first codeword of a length. -/
def firstCode : Nat → Nat
  | 0 => 0
  | len + 1 => (firstCode len + used lengths len) * 2

/-- How many codewords are shorter. -/
def firstIndex : Nat → Nat
  | 0 => 0
  | len + 1 => firstIndex len + used lengths len

/-- How many windows begin with a shorter codeword. -/
def shorter (len : Nat) : Nat := ((lengths.filter fun l => 0 < l ∧ l < len).map fun l => 2 ^ (width - l)).sum

/-- The position of a symbol among those with codewords of its length. -/
def rank (s : Nat) : Nat := (lengths.take s).count (lengths.getD s 0)

/-- The codeword of a symbol: behind it in the order of the windows come the shorter ones and those of its own length
with lower symbols. -/
def code (s : Nat) : Nat :=
  (shorter width lengths (lengths.getD s 0) + rank lengths s * 2 ^ (width - lengths.getD s 0)) /
    2 ^ (width - lengths.getD s 0)

/-- A window that begins with the codeword of a symbol. -/
def BeginsWith (window s : Nat) : Prop :=
  lengths.getD s 0 ≠ 0 ∧ window / 2 ^ (width - lengths.getD s 0) = code width lengths s

/-- Every window begins with just one codeword, by the sum of their shares. -/
def KraftEquality : Prop := ((lengths.filter fun l => 0 < l).map fun l => (1 / 2 : ℚ) ^ l).sum = 1

end definitions

variable {width : Nat} {lengths : List Nat} {len s s' window : Nat}

theorem shorter_zero : shorter width lengths 0 = 0 := by
  simp [shorter]

theorem shorter_succ (len : Nat) :
    shorter width lengths (len + 1) = shorter width lengths len + used lengths len * 2 ^ (width - len) := by
  induction lengths with
  | nil => simp [shorter, used]
  | cons l lengths ih =>
      simp only [shorter, used] at ih ⊢
      by_cases hl : l = len
      · subst hl
        by_cases hzero : l = 0
        · simp_all
        · simp only [List.count_cons_self, hzero, if_false] at ih ⊢
          rw [List.filter_cons_of_pos (by simp; omega), List.filter_cons_of_neg (by simp), List.map_cons, List.sum_cons, ih,
            Nat.succ_mul]
          omega
      · have hcount : (l :: lengths).count len = lengths.count len := List.count_cons_of_ne hl
        rw [hcount]
        by_cases hlt : 0 < l ∧ l < len
        · rw [List.filter_cons_of_pos (by simp; omega), List.filter_cons_of_pos (by simpa using hlt), List.map_cons,
            List.map_cons, List.sum_cons, List.sum_cons, ih, Nat.add_assoc]
        · rw [List.filter_cons_of_neg (by simp; omega), List.filter_cons_of_neg (by simpa using hlt), ih]

theorem firstCode_mul (h : len ≤ width) : firstCode lengths len * 2 ^ (width - len) = shorter width lengths len := by
  induction len with
  | zero => rw [shorter_zero, firstCode, Nat.zero_mul]
  | succ len ih =>
      have hpow : 2 ^ (width - len) = 2 * 2 ^ (width - (len + 1)) := by
        rw [← Nat.pow_succ']
        congr 1
        omega
      rw [shorter_succ, ← ih (by omega), firstCode, hpow]
      ring

theorem firstCode_succ_width : firstCode lengths (width + 1) = shorter width lengths (width + 1) * 2 := by
  rw [firstCode, shorter_succ, ← firstCode_mul (Nat.le_refl width), Nat.sub_self, Nat.pow_zero, Nat.mul_one, Nat.mul_one]

/-- Kraft's equality in terms of windows. -/
theorem kraftEquality_iff (h : ∀ l ∈ lengths, l ≤ width) :
    KraftEquality lengths ↔ shorter width lengths (width + 1) = 2 ^ width := by
  have hcast : (shorter width lengths (width + 1) : ℚ) =
      2 ^ width * ((lengths.filter fun l => 0 < l).map fun l => (1 / 2 : ℚ) ^ l).sum := by
    induction lengths with
    | nil => simp [shorter]
    | cons l lengths ih =>
        rw [List.forall_mem_cons] at h
        simp only [shorter] at ih ⊢
        by_cases hpos : 0 < l
        · rw [List.filter_cons_of_pos (by simp; omega), List.filter_cons_of_pos (by simpa using hpos), List.map_cons,
            List.map_cons, List.sum_cons, List.sum_cons, Nat.cast_add, ih h.2, mul_add]
          congr 1
          have hpow : (2 : ℚ) ^ width = 2 ^ (width - l) * 2 ^ l := by
            rw [← pow_add, Nat.sub_add_cancel h.1]
          rw [hpow, Nat.cast_pow, Nat.cast_ofNat, one_div, inv_pow, mul_assoc, mul_inv_cancel₀ (by positivity), mul_one]
        · rw [List.filter_cons_of_neg (by simp; omega), List.filter_cons_of_neg (by simpa using hpos), ih h.2]
  have hpos : (0 : ℚ) < 2 ^ width := by positivity
  rw [KraftEquality, ← Nat.cast_inj (R := ℚ), hcast, Nat.cast_pow, Nat.cast_ofNat]
  constructor
  · intro hsum
    rw [hsum, mul_one]
  · intro hsum
    exact mul_left_cancel₀ hpos.ne' (hsum.trans (mul_one _).symm)

theorem mem_lens (h : len ∈ List.range' 1 width) : 0 < len ∧ len ≤ width := by
  rw [List.mem_range'_1] at h
  omega

theorem all_zero_iff : (lengths.all (· = 0)) = true ↔ ∀ l ∈ lengths, l = 0 := by
  simp

theorem not_all_zero_of_kraft (h : KraftEquality lengths) : (lengths.all (· = 0)) = false := by
  rw [Bool.eq_false_iff]
  intro hzero
  rw [all_zero_iff] at hzero
  have hnone : lengths.filter (fun l => 0 < l) = [] := by
    rw [List.filter_eq_nil_iff]
    intro l hl
    simp [hzero l hl]
  rw [KraftEquality, hnone] at h
  exact absurd h (by simp)

theorem countP_succ : (lengths.countP fun l => 0 < l ∧ l < len + 1) =
    (lengths.countP fun l => 0 < l ∧ l < len) + used lengths len := by
  induction lengths with
  | nil => simp [used]
  | cons l lengths ih =>
      rw [List.countP_cons, List.countP_cons, ih, used, used, List.count_cons]
      simp only [decide_eq_true_eq, beq_iff_eq]
      split_ifs <;> omega

theorem firstIndex_eq : firstIndex lengths len = lengths.countP fun l => 0 < l ∧ l < len := by
  induction len with
  | zero => simp [firstIndex]
  | succ len ih => rw [firstIndex, ih, countP_succ]

theorem firstIndex_le : firstIndex lengths len ≤ lengths.length := by
  rw [firstIndex_eq]
  exact List.countP_le_length

/-- The first codewords fit their lengths. -/
theorem firstCode_add_used_le (hkraft : shorter width lengths (width + 1) = 2 ^ width) (h : len ≤ width) :
    firstCode lengths len + used lengths len ≤ 2 ^ len := by
  have hmono : shorter width lengths (len + 1) ≤ shorter width lengths (width + 1) :=
    start_mono shorter_succ (Nat.succ_le_succ h)
  rw [shorter_succ, ← firstCode_mul h, hkraft, ← Nat.add_mul] at hmono
  have hpow : 2 ^ width = 2 ^ len * 2 ^ (width - len) := by
    rw [← Nat.pow_add, Nat.add_sub_cancel' h]
  rw [hpow] at hmono
  exact Nat.le_of_mul_le_mul_right hmono (Nat.two_pow_pos _)

theorem lt_count_of_getElem? (h : lengths[s]? = some len) : (lengths.take s).count len < lengths.count len := by
  obtain ⟨hlt, rfl⟩ := List.getElem?_eq_some_iff.1 h
  have hsplit := congrArg (List.count lengths[s]) (List.take_append_drop s lengths).symm
  rw [List.count_append, List.drop_eq_getElem_cons hlt, List.count_cons_self] at hsplit
  omega

/-- Each position among the codewords of a length belongs to a symbol. -/
theorem exists_symbol {r : Nat} (h : r < lengths.count len) :
    ∃ s, lengths[s]? = some len ∧ (lengths.take s).count len = r := by
  induction lengths generalizing r with
  | nil => exact absurd h (Nat.not_lt_zero r)
  | cons l lengths ih =>
      by_cases hl : l = len
      · subst hl
        cases r with
        | zero => exact ⟨0, rfl, rfl⟩
        | succ r =>
            rw [List.count_cons_self] at h
            obtain ⟨s, hs, hr⟩ := ih (Nat.lt_of_succ_lt_succ h)
            exact ⟨s + 1, hs, by rw [List.take_succ_cons, List.count_cons_self, hr]⟩
      · rw [List.count_cons_of_ne hl] at h
        obtain ⟨s, hs, hr⟩ := ih h
        exact ⟨s + 1, hs, by rw [List.take_succ_cons, List.count_cons_of_ne hl, hr]⟩

/-- A symbol is given by its length and its position among those of that length. -/
theorem symbol_unique (h : lengths[s]? = some len) (h' : lengths[s']? = some len)
    (hrank : (lengths.take s).count len = (lengths.take s').count len) : s = s' := by
  have hlt : ∀ {i j : Nat}, lengths[i]? = some len → i < j → (lengths.take i).count len < (lengths.take j).count len := by
    intro i j hi hij
    have htake : (lengths.take j)[i]? = some len := by
      rw [List.getElem?_take_of_lt hij, hi]
    have hcount := lt_count_of_getElem? htake
    rwa [List.take_take, Nat.min_eq_left (Nat.le_of_lt hij)] at hcount
  by_contra hne
  rcases Nat.lt_or_gt_of_ne hne with hlt' | hgt
  · exact absurd hrank (Nat.ne_of_lt (hlt h hlt'))
  · exact absurd hrank.symm (Nat.ne_of_lt (hlt h' hgt))

theorem rank_of_getElem? (h : lengths[s]? = some len) : rank lengths s = (lengths.take s).count len := by
  rw [rank, List.getD_eq_getElem?_getD, h, Option.getD_some]

theorem code_of_getElem? (h : lengths[s]? = some len) (hle : len ≤ width) :
    code width lengths s = firstCode lengths len + (lengths.take s).count len := by
  have hlen : lengths.getD s 0 = len := by rw [List.getD_eq_getElem?_getD, h, Option.getD_some]
  rw [code, hlen, rank_of_getElem? h, ← firstCode_mul hle, ← Nat.add_mul, Nat.mul_div_cancel _ (Nat.two_pow_pos _)]

/-- A codeword has no more bits than its length. -/
theorem code_lt (h : lengths[s]? = some len) (hle : len ≤ width) (hne : len ≠ 0)
    (hkraft : shorter width lengths (width + 1) = 2 ^ width) : code width lengths s < 2 ^ len := by
  have hlt := lt_count_of_getElem? h
  have hfits := firstCode_add_used_le hkraft hle
  rw [used, if_neg hne] at hfits
  rw [code_of_getElem? h hle]
  omega

/-- The windows that begin with the codeword of a symbol. -/
theorem beginsWith_iff (h : lengths[s]? = some len) (hle : len ≤ width) : BeginsWith width lengths window s ↔
    len ≠ 0 ∧ shorter width lengths len + (lengths.take s).count len * 2 ^ (width - len) ≤ window ∧
      window < shorter width lengths len + ((lengths.take s).count len + 1) * 2 ^ (width - len) := by
  have hlen : lengths.getD s 0 = len := by rw [List.getD_eq_getElem?_getD, h, Option.getD_some]
  have hpos := Nat.two_pow_pos (width - len)
  rw [BeginsWith, hlen, code_of_getElem? h hle, ← firstCode_mul hle, ← Nat.add_mul, ← Nat.add_mul, Nat.div_eq_iff hpos,
    ← Nat.add_assoc, Nat.succ_mul]
  omega

theorem getElem?_of_beginsWith (h : BeginsWith width lengths window s) : lengths[s]? = some (lengths.getD s 0) := by
  rw [List.getD_eq_getElem?_getD]
  cases hs : lengths[s]? with
  | none =>
      exact absurd (by rw [List.getD_eq_getElem?_getD, hs, Option.getD_none]) h.1
  | some len => rfl

/-- The range of a length in which a window lies that begins with a codeword of it, and the position of the codeword
there. -/
theorem range_of_beginsWith (h : BeginsWith width lengths window s) (hs : lengths[s]? = some len) (hle : len ≤ width) :
    used lengths len ≠ 0 ∧ shorter width lengths len ≤ window ∧
      window < shorter width lengths len + used lengths len * 2 ^ (width - len) ∧
      (window - shorter width lengths len) / 2 ^ (width - len) = (lengths.take s).count len := by
  obtain ⟨hne, hlo, hhi⟩ := (beginsWith_iff hs hle).1 h
  have hlt := lt_count_of_getElem? hs
  have hused : used lengths len = lengths.count len := if_neg hne
  have hroom : ((lengths.take s).count len + 1) * 2 ^ (width - len) ≤ used lengths len * 2 ^ (width - len) := by
    rw [hused]
    exact Nat.mul_le_mul_right _ hlt
  refine ⟨by omega, by omega, by omega, ?_⟩
  rw [Nat.succ_mul] at hhi
  rw [Nat.div_eq_iff (Nat.two_pow_pos _)]
  omega

/-- A window in the range of a length begins with one of its codewords. -/
theorem beginsWith_of_range (hle : len ≤ width) (hlo : shorter width lengths len ≤ window)
    (hhi : window < shorter width lengths len + used lengths len * 2 ^ (width - len)) :
    ∃ s, lengths[s]? = some len ∧ BeginsWith width lengths window s := by
  have hne : len ≠ 0 := by
    rintro rfl
    rw [used, if_pos rfl] at hhi
    omega
  have hused : used lengths len = lengths.count len := if_neg hne
  have hr : (window - shorter width lengths len) / 2 ^ (width - len) < lengths.count len := by
    rw [← hused, Nat.div_lt_iff_lt_mul (Nat.two_pow_pos _)]
    omega
  obtain ⟨s, hs, hrank⟩ := exists_symbol hr
  refine ⟨s, hs, (beginsWith_iff hs hle).2 ⟨hne, ?_⟩⟩
  have hdiv := (Nat.div_eq_iff (Nat.two_pow_pos (width - len))).1 hrank.symm
  rw [Nat.succ_mul]
  have hpos := Nat.two_pow_pos (width - len)
  omega

/-- Under Kraft's equality each window begins with the codeword of just one symbol. -/
theorem existsUnique_beginsWith (hall : ∀ l ∈ lengths, l ≤ width) (hkraft : KraftEquality lengths)
    (hwindow : window < 2 ^ width) : ∃! s, BeginsWith width lengths window s := by
  rw [kraftEquality_iff hall] at hkraft
  rw [← hkraft] at hwindow
  obtain ⟨len, hlen, hlo, hhi⟩ := exists_range shorter_succ shorter_zero hwindow
  obtain ⟨s, hs, hstart⟩ := beginsWith_of_range (Nat.le_of_lt_succ hlen) hlo hhi
  refine ⟨s, hstart, ?_⟩
  intro s' hstart'
  have hs' := getElem?_of_beginsWith hstart'
  have hle' := hall _ (List.mem_of_getElem? hs')
  obtain ⟨-, -, -, hrank⟩ := range_of_beginsWith hstart hs (Nat.le_of_lt_succ hlen)
  obtain ⟨-, hlo', hhi', hrank'⟩ := range_of_beginsWith hstart' hs' hle'
  have hlens := range_unique shorter_succ hlo' hhi' hlo hhi
  rw [hlens] at hs' hrank'
  exact symbol_unique hs' hs (hrank'.symm.trans hrank)

theorem drop_cons {k : Nat} {rest : List Nat} (h : len :: rest = lengths.drop k) :
    k < lengths.length ∧ lengths[k]? = some len ∧ rest = lengths.drop (k + 1) ∧
      lengths.drop k = len :: lengths.drop (k + 1) := by
  have hlt : k < lengths.length := by
    by_contra hge
    rw [List.drop_eq_nil_of_le (Nat.le_of_not_lt hge)] at h
    nomatch h
  have hnext : rest = lengths.drop (k + 1) := by
    rw [← List.drop_drop, ← h, List.drop_one, List.tail_cons]
  refine ⟨hlt, ?_, hnext, ?_⟩
  · rw [← List.head?_drop, ← h, List.head?_cons]
  · rw [← h, ← hnext]

/-- Tables of a code: for each length how many codewords it has, the first window of its range and how many codewords are
shorter; and the symbols in the order of their codewords. -/
structure Represents (width : Nat) (lengths counts starts firstSymbol symbols : List Nat) : Prop where
  counts_eq : ∀ len, 0 < len → len ≤ width → counts[len]? = some (used lengths len)
  starts_eq : ∀ len, 0 < len → len ≤ width → starts[len]? = some (shorter width lengths len)
  firstSymbol_eq : ∀ len, 0 < len → len ≤ width → firstSymbol[len]? = some (firstIndex lengths len)
  symbols_eq : ∀ s len, lengths[s]? = some len → len ≠ 0 →
    symbols[firstIndex lengths len + (lengths.take s).count len]? = some s

/-- The symbols below `k` stand at their places, and `cursor` has the next place for each length. -/
structure Placed (width : Nat) (lengths : List Nat) (k : Nat) (cursor symbols : List Nat) : Prop where
  length_eq : symbols.length = lengths.length
  cursor_eq : ∀ len, 0 < len → len ≤ width → cursor[len]? = some (firstIndex lengths len + (lengths.take k).count len)
  symbols_eq : ∀ s len, s < k → lengths[s]? = some len → len ≠ 0 →
    symbols[firstIndex lengths len + (lengths.take s).count len]? = some s

theorem place_lt (h : lengths[s]? = some len) (hne : len ≠ 0) :
    firstIndex lengths len + (lengths.take s).count len < firstIndex lengths (len + 1) := by
  have hlt := lt_count_of_getElem? h
  rw [firstIndex, used, if_neg hne]
  omega

/-- Two symbols have the same place only if they are the same. -/
theorem place_inj {len' : Nat} (h : lengths[s]? = some len) (hne : len ≠ 0) (h' : lengths[s']? = some len') (hne' : len' ≠ 0)
    (hplace : firstIndex lengths len + (lengths.take s).count len = firstIndex lengths len' + (lengths.take s').count len') :
    s = s' := by
  have hstep : ∀ n, firstIndex lengths (n + 1) = firstIndex lengths n + used lengths n := fun _ => rfl
  have hlt := place_lt h hne
  have hlt' := place_lt h' hne'
  have hlens : len = len' := range_unique hstep (Nat.le_add_right _ _) hlt (by omega) (by rw [hplace]; exact hlt')
  subst hlens
  exact symbol_unique h h' (Nat.add_left_cancel hplace)

namespace Placed

variable {k : Nat} {cursor symbols : List Nat}

theorem zero {firstSymbol : List Nat} (hlen : symbols.length = lengths.length)
    (h : ∀ len, 0 < len → len ≤ width → firstSymbol[len]? = some (firstIndex lengths len)) :
    Placed width lengths 0 firstSymbol symbols where
  length_eq := hlen
  cursor_eq len hpos hle := by rw [h len hpos hle, List.take_zero, List.count_nil, Nat.add_zero]
  symbols_eq s len hs := absurd hs (Nat.not_lt_zero s)

theorem take_succ (h : lengths[k]? = some len) : lengths.take (k + 1) = lengths.take k ++ [len] := by
  rw [List.take_add_one, h, Option.toList_some]

/-- A symbol without a codeword is passed over. -/
theorem skip (hplaced : Placed width lengths k cursor symbols) (h : lengths[k]? = some 0) :
    Placed width lengths (k + 1) cursor symbols where
  length_eq := hplaced.length_eq
  cursor_eq len hpos hle := by
    rw [hplaced.cursor_eq len hpos hle, take_succ h, List.count_append, List.count_singleton, if_neg (by simp; omega), Nat.add_zero]
  symbols_eq s len hs hget hne := by
    apply hplaced.symbols_eq s len _ hget hne
    rcases Nat.lt_succ_iff_lt_or_eq.1 hs with hlt | rfl
    · exact hlt
    · rw [h] at hget
      exact absurd (Option.some_inj.1 hget).symm hne

/-- Any other one is put at the next place for its length. -/
theorem place (hplaced : Placed width lengths k cursor symbols) (h : lengths[k]? = some len) (hne : len ≠ 0) (hle : len ≤ width) :
    cursor[len]? = some (firstIndex lengths len + (lengths.take k).count len) ∧
      firstIndex lengths len + (lengths.take k).count len < symbols.length ∧
      Placed width lengths (k + 1) (cursor.set len (firstIndex lengths len + (lengths.take k).count len + 1))
        (symbols.set (firstIndex lengths len + (lengths.take k).count len) k) := by
  have hcursor := hplaced.cursor_eq len (Nat.pos_of_ne_zero hne) hle
  have hroom : firstIndex lengths len + (lengths.take k).count len < symbols.length := by
    rw [hplaced.length_eq]
    exact (place_lt h hne).trans_le firstIndex_le
  refine ⟨hcursor, hroom, ?_, ?_, ?_⟩
  · rw [List.length_set, hplaced.length_eq]
  · intro len' hpos' hle'
    rw [take_succ h, List.count_append, List.count_singleton]
    by_cases heq : len = len'
    · subst heq
      have hlt := (List.getElem?_eq_some_iff.1 hcursor).1
      rw [List.getElem?_set_self hlt, if_pos (beq_self_eq_true len), Nat.add_assoc]
    · rw [List.getElem?_set_ne heq, hplaced.cursor_eq len' hpos' hle', if_neg (by simpa using heq), Nat.add_zero]
  · intro s len' hs hget hne'
    rcases Nat.lt_succ_iff_lt_or_eq.1 hs with hlt | rfl
    · rw [List.getElem?_set_ne]
      · exact hplaced.symbols_eq s len' hlt hget hne'
      · intro hplace
        exact absurd (place_inj h hne hget hne' hplace) (Nat.ne_of_gt hlt)
    · obtain rfl : len' = len := Option.some_inj.1 (hget.symm.trans h)
      exact List.getElem?_set_self hroom

/-- When all symbols are placed, the tables are those of the code. -/
theorem represents {counts starts firstSymbol : List Nat} (hplaced : Placed width lengths lengths.length cursor symbols)
    (hcounts : ∀ len, 0 < len → len ≤ width → counts[len]? = some (used lengths len))
    (hstarts : ∀ len, 0 < len → len ≤ width → starts[len]? = some (shorter width lengths len))
    (hfirst : ∀ len, 0 < len → len ≤ width → firstSymbol[len]? = some (firstIndex lengths len)) :
    Represents width lengths counts starts firstSymbol symbols where
  counts_eq := hcounts
  starts_eq := hstarts
  firstSymbol_eq := hfirst
  symbols_eq s len hget hne := hplaced.symbols_eq s len (List.getElem?_eq_some_iff.1 hget).1 hget hne

end Placed

end NextBoot.CanonicalCode
