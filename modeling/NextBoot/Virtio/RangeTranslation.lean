import NextBoot.Virtio.Optimizing
import NextBoot.Virtio.Translation
import NextBoot.Tiling

namespace NextBoot.Virtio.RangeTranslation

open Words Mapping ByteMappingTable

/-- The physical addresses of the pieces, in their order. -/
def expand (pieces : List Range) : List Nat := pieces.flatMap fun q => (List.range q.2).map (wrappingAdd 64 q.1)

/-- What a translation answers at the addresses from `start` on. -/
def answers (f : Nat → Option Nat) (start count : Nat) : List (Option Nat) :=
  (List.range count).map fun i => f (start + i)

variable {f : Nat → Option Nat} {t : ByteMappingTable} {b : MappingTable} {m : ByteMapping}

theorem answers_add (start count more : Nat) :
    answers f start (count + more) = answers f start count ++ answers f (start + count) more := by
  unfold answers
  rw [List.range_add, List.map_append, List.map_map]
  congr 1
  apply List.map_congr_left
  intro i _
  rw [Function.comp_apply, Nat.add_assoc]

theorem none_mem_answers {start count : Nat} : none ∈ answers f start count ↔ ∃ i < count, f (start + i) = none := by
  simp [answers]

theorem answers_eq {start count physical : Nat} (h : ∀ i < count, f (start + i) = some (wrappingAdd 64 physical i)) :
    answers f start count = (expand [(physical, count)]).map some := by
  unfold answers expand
  rw [List.flatMap_singleton, List.map_map]
  apply List.map_congr_left
  intro i hi
  exact h i (List.mem_range.mp hi)

theorem expand_append (pieces more : List Range) : expand (pieces ++ more) = expand pieces ++ expand more :=
  List.flatMap_append

theorem length_expand_single (q : Range) : (expand [q]).length = q.2 := by
  simp [expand]

theorem expand_pushRange {pieces : List Range} {q : Range} (h : (expand pieces).length + q.2 < 2 ^ 64) :
    expand (pushRange pieces q) = expand pieces ++ expand [q] := by
  fun_induction pushRange pieces q with
  | case1 q => rfl
  | case2 physical count q hmeet =>
      rw [length_expand_single] at h
      simp only [expand, List.flatMap_singleton]
      rw [wrappingAdd_eq h, List.range_add, List.map_append, List.map_map, ← hmeet]
      congr 1
      apply List.map_congr_left
      intro i _
      rw [Function.comp_apply, wrappingAdd_assoc]
  | case3 physical count q hmeet => exact expand_append [(physical, count)] [q]
  | case4 p p' ps q ih =>
      have hcons : ∀ rest, expand (p :: rest) = expand [p] ++ expand rest := fun rest => expand_append [p] rest
      rw [hcons, List.length_append] at h
      rw [hcons, hcons (p' :: ps), ih (by omega), List.append_assoc]

theorem table_translate (hd : DisjointEntries t.mappings) (hw : ∀ m ∈ t.mappings, m.IsWords) (hm : m ∈ t.mappings)
    {v : Nat} (hv : m.contains v = true) :
    t.translate v = some (wrappingAdd 64 m.physicalStart (v - m.virtualStart)) := by
  have hsome := translate_of_contains (hw m hm) hv
  cases ht : t.translate v with
  | none =>
      have hnone := List.findSome?_eq_none_iff.mp ht m hm
      rw [hsome] at hnone
      cases hnone
  | some p =>
      obtain ⟨a, ha, hp⟩ := List.exists_of_findSome?_eq_some ht
      rw [hd.eq ha hm (contains_of_translate hp) hv, hsome] at hp
      exact hp.symm

theorem table_translate_none {v : Nat} (h : ∀ m ∈ t.mappings, ¬ m.contains v = true) : t.translate v = none :=
  List.findSome?_eq_none_iff.mpr fun m hm => translate_of_not_contains (h m hm)

theorem find_answers (hd : DisjointEntries t.mappings) (hw : ∀ m ∈ t.mappings, m.IsWords) {current count : Nat}
    (hf : t.find current = some m) (hc : count ≤ m.virtualEnd - current) :
    answers t.translate current count =
      (expand [(wrappingAdd 64 m.physicalStart (current - m.virtualStart), count)]).map some := by
  obtain ⟨hm, hlo, hhi⟩ := find_contains hf
  apply answers_eq
  intro i hi
  rw [table_translate hd hw hm (contains_iff.mpr ⟨by omega, by omega⟩), wrappingAdd_assoc]
  congr 2
  omega

theorem find_translate (hw : ∀ m ∈ t.mappings, m.IsWords) {current : Nat} (hf : t.find current = some m) :
    m.translate current = some (wrappingAdd 64 m.physicalStart (current - m.virtualStart)) := by
  obtain ⟨hm, hlo, hhi⟩ := find_contains hf
  exact translate_of_contains (hw m hm) (contains_iff.mpr ⟨hlo, hhi⟩)

theorem find_none_translate {v : Nat} (hf : t.find v = none) : t.translate v = none := by
  apply table_translate_none
  intro m hm
  exact List.find?_eq_none.mp hf m hm

/-- The scan of a range answers as the single addresses do, and stops at the first one that is not mapped. -/
theorem rangeLoop_spec (hd : DisjointEntries t.mappings) (hw : ∀ m ∈ t.mappings, m.IsWords) (current remaining : Nat)
    (result : List Range) (hlen : (expand result).length + remaining < 2 ^ 64) :
    (∃ out, rangeLoop t current remaining result = some out ∧
        (expand out).map some = (expand result).map some ++ answers t.translate current remaining) ∨
      rangeLoop t current remaining result = none ∧ none ∈ answers t.translate current remaining := by
  induction remaining using Nat.strong_induction_on generalizing current result with
  | _ remaining ih =>
  rw [rangeLoop]
  by_cases hpos : 0 < remaining
  · rw [dif_pos hpos]
    split
    · next m hf =>
        obtain ⟨hm, hlo, hhi⟩ := find_contains hf
        rw [find_translate hw hf]
        simp only [Option.bind_eq_bind, Option.bind_some]
        generalize hcount : min remaining (m.virtualEnd - current) = count
        have hpiece := @find_answers t m hd hw current count hf (by omega)
        have hsplit : answers t.translate current remaining =
            answers t.translate current count ++ answers t.translate (current + count) (remaining - count) := by
          rw [← answers_add]
          congr 1
          omega
        have hpush := @expand_pushRange result (wrappingAdd 64 m.physicalStart (current - m.virtualStart), count)
          (by simp only; omega)
        have hrest := ih (remaining - count) (by omega) (current + count) _ (by
          rw [hpush, List.length_append, length_expand_single]
          omega)
        rw [hsplit, hpiece]
        obtain ⟨out, hout, hexpand⟩ | ⟨hnone, hmem⟩ := hrest
        · refine .inl ⟨out, hout, ?_⟩
          rw [hexpand, hpush, List.map_append, List.append_assoc]
        · exact .inr ⟨hnone, List.mem_append.mpr (.inr hmem)⟩
    · next hf =>
        exact .inr ⟨rfl, none_mem_answers.mpr ⟨0, hpos, find_none_translate hf⟩⟩
  · have hzero : remaining = 0 := by omega
    rw [dif_neg hpos]
    exact .inl ⟨result, rfl, by simp [hzero, answers]⟩

/-- A mapped block is not the last one that a word can name. -/
theorem block_translate_lt (hw : ∀ m ∈ b.mappings, m.IsWords) {v p : Nat} (h : b.translate v = some p) :
    v < b.totalBlocks ∧ v + 1 < 2 ^ 64 ∧ p < 2 ^ 64 := by
  obtain ⟨m, hm, hp⟩ := List.exists_of_findSome?_eq_some h
  obtain ⟨hlo, hhi⟩ := contains_iff.mp (contains_of_translate hp)
  have hend := (hw m hm).end_lt
  have hle := b.ends_le m hm
  have hsome : ByteMapping.translate m v = some p := hp
  rw [translate_of_contains (hw m hm) (contains_of_translate hp)] at hsome
  refine ⟨by omega, by omega, ?_⟩
  rw [← Option.some.inj hsome]
  exact Nat.mod_lt _ (Nat.two_pow_pos 64)

theorem contiguousLoop_spec (hw : ∀ m ∈ b.mappings, m.IsWords) {current physical remaining count : Nat}
    (hpos : 0 < count) (hle : count ≤ remaining)
    (h : ∀ i < count, b.translate (current + i) = some (wrappingAdd 64 physical i)) :
    b.contiguousLoop current physical remaining count ≤ remaining ∧
      ∀ i < b.contiguousLoop current physical remaining count,
        b.translate (current + i) = some (wrappingAdd 64 physical i) := by
  fun_induction MappingTable.contiguousLoop b current physical remaining count with
  | case1 count hlt hnext => exact ⟨hle, h⟩
  | case2 count hlt hnext ih =>
      apply ih (Nat.succ_pos count) hlt
      intro i hi
      rcases Nat.lt_or_eq_of_le (Nat.le_of_lt_succ hi) with hi | rfl
      · exact h i hi
      · have hlast := (block_translate_lt hw (h (i - 1) (by omega))).2.1
        rw [wrappingAdd_eq (show current + i < 2 ^ 64 by omega)] at hnext
        exact not_not.mp hnext
  | case3 count hge => exact ⟨hle, h⟩

theorem block_rangeLoop_spec (hw : ∀ m ∈ b.mappings, m.IsWords) (current remaining : Nat) (result : List Range) :
    (∃ out, b.rangeLoop current remaining result = some out ∧
        (expand out).map some = (expand result).map some ++ answers b.translate current remaining) ∨
      b.rangeLoop current remaining result = none ∧ none ∈ answers b.translate current remaining := by
  induction remaining using Nat.strong_induction_on generalizing current result with
  | _ remaining ih =>
  rw [MappingTable.rangeLoop]
  by_cases hpos : 0 < remaining
  · rw [dif_pos hpos]
    cases hsome : b.translate current with
    | none =>
        exact .inr ⟨rfl, none_mem_answers.mpr ⟨0, hpos, hsome⟩⟩
    | some physical =>
        have hphysical := (block_translate_lt hw hsome).2.2
        have hfirst : ∀ i < 1, b.translate (current + i) = some (wrappingAdd 64 physical i) := by
          intro i hi
          rw [Nat.lt_one_iff.mp hi, wrappingAdd_eq (by omega)]
          exact hsome
        obtain ⟨hle, hall⟩ := contiguousLoop_spec hw Nat.one_pos hpos hfirst
        have hone := b.le_contiguousLoop current physical remaining 1
        simp only
        generalize b.contiguousLoop current physical remaining 1 = count at *
        have hlast := (block_translate_lt hw (hall (count - 1) (by omega))).2.1
        rw [wrappingAdd_eq (show current + count < 2 ^ 64 by omega)]
        have hsplit : answers b.translate current remaining =
            answers b.translate current count ++ answers b.translate (current + count) (remaining - count) := by
          rw [← answers_add]
          congr 1
          omega
        rw [hsplit, answers_eq hall]
        obtain ⟨out, hout, hexpand⟩ | ⟨hnone, hmem⟩ :=
          ih (remaining - count) (by omega) (current + count) (result ++ [(physical, count)])
        · refine .inl ⟨out, hout, ?_⟩
          rw [hexpand, expand_append, List.map_append, List.append_assoc]
        · exact .inr ⟨hnone, List.mem_append.mpr (.inr hmem)⟩
  · have hzero : remaining = 0 := by omega
    rw [dif_neg hpos]
    exact .inl ⟨result, rfl, by simp [hzero, answers]⟩

/-- Some piece carries the byte at an offset of the range from a physical address. -/
def Gives (pieces : List Piece) (offset p : Nat) : Prop :=
  ∃ q ∈ pieces, q.1 ≤ offset ∧ offset < q.1 + q.2.2 ∧ p = wrappingAdd 64 q.2.1 (offset - q.1)

/-- The pieces follow one another, none of them is empty, and they end before `stop`. -/
structure Placed (pieces : List Piece) (stop : Nat) : Prop where
  ordered : Tiling.Ordered (fun q : Piece => q.1) (fun q => q.2.2) pieces 0
  pos : ∀ q ∈ pieces, 0 < q.2.2
  stop_le : ∀ q ∈ pieces, q.1 + q.2.2 ≤ stop

theorem Placed.mono {pieces : List Piece} {stop stop' : Nat} (h : Placed pieces stop) (hle : stop ≤ stop') :
    Placed pieces stop' :=
  ⟨h.ordered, h.pos, fun q hq => (h.stop_le q hq).trans hle⟩

theorem gives_append {pieces more : List Piece} {offset p : Nat} :
    Gives (pieces ++ more) offset p ↔ Gives pieces offset p ∨ Gives more offset p := by
  simp only [Gives, List.mem_append, or_and_right, exists_or]

theorem gives_single {q : Piece} {offset p : Nat} :
    Gives [q] offset p ↔ q.1 ≤ offset ∧ offset < q.1 + q.2.2 ∧ p = wrappingAdd 64 q.2.1 (offset - q.1) := by
  simp [Gives]

theorem pushPiece_gives {pieces : List Piece} {q : Piece} (hq : q.1 + q.2.2 < 2 ^ 64)
    (hps : ∀ x ∈ pieces, x.1 + x.2.2 ≤ q.1) (offset p : Nat) :
    Gives (pushPiece pieces q) offset p ↔ Gives pieces offset p ∨ Gives [q] offset p := by
  fun_induction pushPiece pieces q with
  | case1 q => simp [Gives]
  | case2 dst physical count q hmeet =>
      have hle := hps (dst, physical, count) (by simp)
      simp only at hle
      obtain ⟨hdst, hphysical⟩ := hmeet
      rw [wrappingAdd_eq (by omega)] at hdst
      rw [wrappingAdd_eq (by omega), gives_single, gives_single, gives_single, ← hphysical, wrappingAdd_assoc]
      simp only
      by_cases hin : offset < dst + count
      · have hno : ¬ q.1 ≤ offset := by omega
        simp only [hin, hno, false_and, or_false, true_and, and_congr_right_iff]
        intro hlo
        simp only [show offset < dst + (count + q.2.2) by omega, true_and]
      · have hoff : count + (offset - q.1) = offset - dst ∨ offset < q.1 := by omega
        constructor
        · rintro ⟨hlo, hhi, rfl⟩
          exact .inr ⟨by omega, by omega, by congr 1; omega⟩
        · rintro (⟨hlo, hhi, -⟩ | ⟨hlo, hhi, rfl⟩)
          · exact absurd hhi hin
          · exact ⟨by omega, by omega, by congr 1; omega⟩
  | case3 dst physical count q hmeet => exact @gives_append [(dst, physical, count)] [q] offset p
  | case4 p' p'' ps q ih =>
      have hcons : ∀ rest, Gives (p' :: rest) offset p ↔ Gives [p'] offset p ∨ Gives rest offset p :=
        fun rest => @gives_append [p'] rest offset p
      rw [hcons, hcons (p'' :: ps), ih hq fun x hx => hps x (List.mem_cons_of_mem p' hx), or_assoc]

theorem pushPiece_placed {pieces : List Piece} {q : Piece} (hpos : 0 < q.2.2) (hq : q.1 + q.2.2 < 2 ^ 64)
    (h : Placed pieces q.1) : Placed (pushPiece pieces q) (q.1 + q.2.2) := by
  have hrun : ∀ lo, lo ≤ q.1 → Tiling.Ordered (fun q : Piece => q.1) (fun q => q.2.2) pieces lo →
      Tiling.Ordered (fun q : Piece => q.1) (fun q => q.2.2) (pushPiece pieces q) lo ∧
        ∀ x ∈ pushPiece pieces q, 0 < x.2.2 ∧ x.1 + x.2.2 ≤ q.1 + q.2.2 := by
    obtain ⟨-, hall, hle⟩ := h
    fun_induction pushPiece pieces q with
    | case1 q =>
        intro lo hlo _
        exact ⟨⟨hlo, trivial⟩, by simpa using hpos⟩
    | case2 dst physical count q hmeet =>
        intro lo _ hordered
        have hend := hle (dst, physical, count) (by simp)
        have hcount := hall (dst, physical, count) (by simp)
        simp only at hend hcount
        obtain ⟨hdst, -⟩ := hmeet
        rw [wrappingAdd_eq (by omega)] at hdst
        rw [wrappingAdd_eq (by omega)]
        refine ⟨⟨hordered.1, trivial⟩, ?_⟩
        rw [List.forall_mem_singleton]
        simp only
        omega
    | case3 dst physical count q hmeet =>
        intro lo _ hordered
        have hend := hle (dst, physical, count) (by simp)
        have hcount := hall (dst, physical, count) (by simp)
        simp only at hend hcount
        refine ⟨⟨hordered.1, hend, trivial⟩, ?_⟩
        rw [List.forall_mem_cons, List.forall_mem_singleton]
        simp only
        omega
    | case4 p' p'' ps q ih =>
        intro lo _ hordered
        have hend := hle p' (by simp)
        obtain ⟨htail, hmem⟩ := ih hpos hq (fun x hx => hall x (List.mem_cons_of_mem p' hx))
          (fun x hx => hle x (List.mem_cons_of_mem p' hx)) _ hend hordered.2
        refine ⟨⟨hordered.1, htail⟩, List.forall_mem_cons.mpr ⟨⟨hall p' (by simp), by omega⟩, hmem⟩⟩
  obtain ⟨hordered, hmem⟩ := hrun 0 (Nat.zero_le _) h.ordered
  exact ⟨hordered, fun x hx => (hmem x hx).1, fun x hx => (hmem x hx).2⟩

/-- The sparse scan: each address of the rest of the range is given by a piece just when it is mapped. -/
theorem sparseLoop_gives (hd : DisjointEntries t.mappings) (hw : ∀ m ∈ t.mappings, m.IsWords) {base stop : Nat}
    (hstop : stop < 2 ^ 64) (current : Nat) (result : List Piece) (hbase : base ≤ current) (hcur : current ≤ stop)
    (hres : Placed result (current - base)) :
    ∃ out, sparseLoop t base stop current result = some out ∧ Placed out (stop - base) ∧
      ∀ offset p, Gives out offset p ↔ Gives result offset p ∨
        (current - base ≤ offset ∧ offset < stop - base ∧ t.translate (base + offset) = some p) := by
  induction hn : stop - current using Nat.strong_induction_on generalizing current result with
  | _ n ih =>
  rw [sparseLoop]
  by_cases hlt : current < stop
  · rw [dif_pos hlt]
    split
    · next m hf =>
        obtain ⟨hm, hlo, hhi⟩ := find_contains hf
        rw [find_translate hw hf]
        simp only [Option.bind_eq_bind, Option.bind_some]
        generalize hcount : min (stop - current) (m.virtualEnd - current) = count
        have hplaced := @pushPiece_placed result
          (current - base, wrappingAdd 64 m.physicalStart (current - m.virtualStart), count) (by simp only; omega)
          (by simp only; omega) hres
        have hgives := @pushPiece_gives result
          (current - base, wrappingAdd 64 m.physicalStart (current - m.virtualStart), count) (by simp only; omega)
          hres.stop_le
        have hnext : current - base + count = current + count - base := by omega
        simp only [hnext] at hplaced
        obtain ⟨out, hout, hplacedOut, hspec⟩ :=
          ih (stop - (current + count)) (by omega) (current + count) _ (by omega) (by omega) hplaced rfl
        refine ⟨out, hout, hplacedOut, fun offset p => ?_⟩
        have hin : ∀ offset, current - base ≤ offset → offset < current + count - base →
            t.translate (base + offset) =
              some (wrappingAdd 64 m.physicalStart (current - m.virtualStart + (offset - (current - base)))) := by
          intro offset hoff hoff'
          rw [table_translate hd hw hm (contains_iff.mpr ⟨by omega, by omega⟩)]
          congr 2
          omega
        rw [hspec, hgives, gives_single, or_assoc, wrappingAdd_assoc, hnext]
        apply or_congr_right
        constructor
        · rintro (⟨hoff, hoff', rfl⟩ | ⟨hoff, hoff', hp⟩)
          · exact ⟨hoff, by omega, hin offset hoff hoff'⟩
          · exact ⟨by omega, hoff', hp⟩
        · rintro ⟨hoff, hoff', hp⟩
          by_cases hbefore : offset < current + count - base
          · rw [hin offset hoff hbefore] at hp
            exact .inl ⟨hoff, hbefore, (Option.some.inj hp).symm⟩
          · exact .inr ⟨by omega, hoff', hp⟩
    · next hf =>
        have hgt := t.nextMappedStart_gt hlt
        obtain ⟨out, hout, hplacedOut, hspec⟩ := ih (stop - min (t.nextMappedStart current stop) stop) (by omega) _ result
          (by omega) (by omega) (hres.mono (by omega)) rfl
        refine ⟨out, hout, hplacedOut, fun offset p => ?_⟩
        rw [hspec]
        apply or_congr_right
        constructor
        · rintro ⟨hoff, hoff', hp⟩
          exact ⟨by omega, hoff', hp⟩
        · rintro ⟨hoff, hoff', hp⟩
          refine ⟨?_, hoff', hp⟩
          by_contra hcon
          have hbefore : base + offset < t.nextMappedStart current stop := by omega
          have hnone : t.translate (base + offset) = none := by
            apply table_translate_none
            intro m hm hv
            obtain ⟨hlo, hhi⟩ := contains_iff.mp hv
            exact Translation.not_maps_of_find_none hf (by omega) hbefore ⟨m, hm, hlo, hhi, rfl⟩
          rw [hnone] at hp
          cases hp
  · rw [dif_neg hlt]
    have hend : current = stop := by omega
    refine ⟨result, rfl, hres.mono (by omega), fun offset p => ?_⟩
    constructor
    · exact .inl
    · rintro (hgives | ⟨hoff, hoff', -⟩)
      · exact hgives
      · omega

theorem none_not_mem_map_some (addresses : List Nat) : none ∉ addresses.map some := by
  simp

/-- A run that answers all addresses of a range, or fails where one of them is not mapped, fails only there. -/
theorem run_eq_none_iff {run : Option (List Range)} {start count : Nat}
    (h : (∃ out, run = some out ∧ (expand out).map some = (expand []).map some ++ answers f start count) ∨
      run = none ∧ none ∈ answers f start count) :
    (run = none ↔ ∃ i < count, f (start + i) = none) ∧
      ∀ pieces, run = some pieces → (expand pieces).map some = answers f start count := by
  obtain ⟨out, rfl, hexpand⟩ | ⟨rfl, hmem⟩ := h
  · have heq : (expand out).map some = answers f start count := hexpand
    have hno : ¬ ∃ i < count, f (start + i) = none := by
      rw [← none_mem_answers, ← heq]
      exact none_not_mem_map_some _
    refine ⟨iff_of_false (by simp) hno, ?_⟩
    rintro pieces ⟨⟩
    exact heq
  · exact ⟨iff_of_true rfl (none_mem_answers.mp hmem), by simp⟩

theorem byteRange_spec (htotal : t.totalBytes < 2 ^ 64) (hd : DisjointEntries t.mappings)
    (hw : ∀ m ∈ t.mappings, m.IsWords) (start count : Nat) :
    (t.translateRange start count = none ↔
        start + count > t.totalBytes ∨ ∃ i < count, t.translate (start + i) = none) ∧
      ∀ pieces, t.translateRange start count = some pieces → (expand pieces).map some = answers t.translate start count := by
  by_cases hin : start + count ≤ t.totalBytes
  · have hrun : t.translateRange start count = rangeLoop t start count [] := by
      rw [translateRange, checkedAdd_eq_some.mpr ⟨by omega, rfl⟩, Option.bind_eq_bind, Option.bind_some,
        if_neg (by omega)]
    obtain ⟨hnone, hsome⟩ := run_eq_none_iff (rangeLoop_spec hd hw start count [] (by
      simp only [expand, List.flatMap_nil, List.length_nil]
      omega))
    rw [hrun, hnone]
    have hno : ¬ start + count > t.totalBytes := by omega
    simp only [hno, false_or, true_and]
    exact hsome
  · have hrun : t.translateRange start count = none := by
      rw [translateRange, Option.bind_eq_bind, Option.bind_eq_none_iff]
      intro stop hstop
      rw [(checkedAdd_eq_some.mp hstop).2]
      exact if_pos (by omega)
    refine ⟨iff_of_true hrun (.inl (by omega)), ?_⟩
    intro pieces h
    rw [hrun] at h
    cases h

theorem sparseRange_spec (htotal : t.totalBytes < 2 ^ 64) (hd : DisjointEntries t.mappings)
    (hw : ∀ m ∈ t.mappings, m.IsWords) (start count : Nat) :
    (t.translateRangeSparse start count = none ↔ start + count > t.totalBytes) ∧
      ∀ pieces, t.translateRangeSparse start count = some pieces → Placed pieces count ∧
        ∀ i p, Gives pieces i p ↔ i < count ∧ t.translate (start + i) = some p := by
  by_cases hin : start + count ≤ t.totalBytes
  · have hrun : t.translateRangeSparse start count = sparseLoop t start (start + count) start [] := by
      rw [translateRangeSparse, checkedAdd_eq_some.mpr ⟨by omega, rfl⟩, Option.bind_eq_bind, Option.bind_some,
        if_neg (by omega)]
    have hempty : Placed [] (start - start) := ⟨trivial, by simp, by simp⟩
    obtain ⟨out, hout, hplaced, hgives⟩ :=
      @sparseLoop_gives t hd hw start (start + count) (by omega) start [] le_rfl (by omega) hempty
    rw [hrun, hout]
    refine ⟨iff_of_false (by simp) (by omega), ?_⟩
    rintro pieces ⟨⟩
    rw [Nat.add_sub_cancel_left] at hplaced hgives
    refine ⟨hplaced, fun i p => ?_⟩
    rw [hgives]
    simp [Gives]
  · have hrun : t.translateRangeSparse start count = none := by
      rw [translateRangeSparse, Option.bind_eq_bind, Option.bind_eq_none_iff]
      intro stop hstop
      rw [(checkedAdd_eq_some.mp hstop).2]
      exact if_pos (by omega)
    refine ⟨iff_of_true hrun (by omega), ?_⟩
    intro pieces h
    rw [hrun] at h
    cases h

theorem blockRange_spec (hw : ∀ m ∈ b.mappings, m.IsWords) (start count : Nat) :
    (b.translateRange start count = none ↔
        0 < count ∧ start + count > b.totalBlocks ∨ ∃ i < count, b.translate (start + i) = none) ∧
      ∀ pieces, b.translateRange start count = some pieces →
        (expand pieces).map some = answers b.translate start count := by
  obtain ⟨hnone, hsome⟩ := run_eq_none_iff (block_rangeLoop_spec hw start count [])
  refine ⟨hnone.trans ⟨.inr, ?_⟩, hsome⟩
  rintro (⟨hpos, hleaves⟩ | hunmapped)
  · refine ⟨count - 1, by omega, ?_⟩
    cases hlast : b.translate (start + (count - 1)) with
    | none => rfl
    | some p =>
        have hlt := (block_translate_lt hw hlast).1
        omega
  · exact hunmapped

/-- A range is translated piece by piece to what its addresses are translated to one by one. -/
theorem translate_range_exact (t : ByteMappingTable) (b : MappingTable) (htotal : t.totalBytes < 2 ^ 64)
    (ht : ∀ m ∈ t.mappings, m.IsWords) (hd : DisjointEntries t.mappings) (hb : ∀ m ∈ b.mappings, m.IsWords)
    (start count : Nat) :
    ((t.translateRange start count = none ↔
          start + count > t.totalBytes ∨ ∃ i < count, t.translate (start + i) = none) ∧
        ∀ pieces, t.translateRange start count = some pieces →
          (expand pieces).map some = answers t.translate start count) ∧
      ((t.translateRangeSparse start count = none ↔ start + count > t.totalBytes) ∧
        ∀ pieces, t.translateRangeSparse start count = some pieces → Placed pieces count ∧
          ∀ i p, Gives pieces i p ↔ i < count ∧ t.translate (start + i) = some p) ∧
      (b.translateRange start count = none ↔
          0 < count ∧ start + count > b.totalBlocks ∨ ∃ i < count, b.translate (start + i) = none) ∧
        ∀ pieces, b.translateRange start count = some pieces →
          (expand pieces).map some = answers b.translate start count :=
  ⟨byteRange_spec htotal hd ht start count, sparseRange_spec htotal hd ht start count, blockRange_spec hb start count⟩

theorem translate_range_exact_two_segments :
    let t := ((ByteMappingTable.empty.addSegment 0 512 4096).addSegment 1024 512 8192)
    let b := MappingTable.withSegments [(0, 50, 1000), (50, 50, 2000)]
    (t.translateRange 0 1536 = none ↔ 0 + 1536 > t.totalBytes ∨ ∃ i < 1536, t.translate (0 + i) = none) ∧
      (∀ pieces, t.translateRangeSparse 0 1536 = some pieces →
        ∀ i p, Gives pieces i p ↔ i < 1536 ∧ t.translate (0 + i) = some p) ∧
      ∀ pieces, b.translateRange 40 20 = some pieces → (expand pieces).map some = answers b.translate 40 20 := by
  intro t b
  have ht : ∀ m ∈ t.mappings, m.IsWords := by decide
  have hd : DisjointEntries t.mappings := disjoint_pair (.inl (by decide))
  have hb : ∀ m ∈ b.mappings, m.IsWords := by decide
  obtain ⟨⟨hnone, -⟩, ⟨-, hsparse⟩, -⟩ := translate_range_exact t b (by decide) ht hd hb 0 1536
  obtain ⟨-, -, -, hblocks⟩ := translate_range_exact t b (by decide) ht hd hb 40 20
  exact ⟨hnone, fun pieces h => (hsparse pieces h).2, hblocks⟩

/-- The tables differ at an empty range beyond their total: the byte table refuses it, the block table translates it. -/
theorem empty_range_beyond_total :
    (5 + 0 > MappingTable.empty.totalBlocks ∧ MappingTable.empty.translateRange 5 0 = some []) ∧
      5 + 0 > ByteMappingTable.empty.totalBytes ∧ ByteMappingTable.empty.translateRange 5 0 = none := by
  refine ⟨⟨by decide, ?_⟩, by decide, by decide⟩
  rw [MappingTable.translateRange, MappingTable.rangeLoop, dif_neg (Nat.lt_irrefl 0)]

end NextBoot.Virtio.RangeTranslation
