import NextBoot.Virtio.Mapping
import Mathlib.Data.List.Pairwise

namespace NextBoot.Virtio.Translation

open Words Mapping

/-- The extents assign physical byte `p` to file byte `v`. -/
def Assigns (physicalBlockSize : Nat) (extents : List Extent) (v p : Nat) : Prop :=
  ∃ e ∈ extents, e.1 * physicalBlockSize ≤ v ∧ v < (e.1 + e.2.2) * physicalBlockSize ∧
    p = e.2.1 * physicalBlockSize + (v - e.1 * physicalBlockSize)

/-- No file block belongs to two extents. -/
def ExtentsDisjoint (extents : List Extent) : Prop :=
  extents.Pairwise fun a b => ∀ block, ¬ ((a.1 ≤ block ∧ block < a.1 + a.2.2) ∧
    (b.1 ≤ block ∧ block < b.1 + b.2.2))

/-- The byte addresses of the extent, its end included, do not overflow in either space. -/
def ExtentFits (physicalBlockSize : Nat) (e : Extent) : Prop :=
  (e.1 + e.2.2) * physicalBlockSize < 2 ^ 64 ∧ (e.2.1 + e.2.2) * physicalBlockSize < 2 ^ 64

instance (physicalBlockSize : Nat) (e : Extent) : Decidable (ExtentFits physicalBlockSize e) :=
  inferInstanceAs (Decidable (_ ∧ _))

def Fits (m : ByteMapping) : Prop :=
  m.virtualStart < m.virtualEnd ∧ m.virtualEnd < 2 ^ 64 ∧
    m.physicalStart + (m.virtualEnd - m.virtualStart) < 2 ^ 64

def Maps (ms : List ByteMapping) (v p : Nat) : Prop :=
  ∃ m ∈ ms, m.virtualStart ≤ v ∧ v < m.virtualEnd ∧ p = m.physicalStart + (v - m.virtualStart)

def Functional (R : Nat → Nat → Prop) : Prop := ∀ v p q, R v p → R v q → p = q

theorem assigns_functional {physicalBlockSize : Nat} (hpos : 0 < physicalBlockSize) {extents : List Extent}
    (hd : ExtentsDisjoint extents) : Functional (Assigns physicalBlockSize extents) := by
  rintro v p q ⟨a, ha, halo, hahi, rfl⟩ ⟨b, hb, hblo, hbhi, rfl⟩
  by_cases hab : a = b
  · rw [hab]
  · have hsym : Std.Symm fun a b : Extent => ∀ block,
        ¬ ((a.1 ≤ block ∧ block < a.1 + a.2.2) ∧ (b.1 ≤ block ∧ block < b.1 + b.2.2)) :=
      ⟨fun x y h block hxy => h block ⟨hxy.2, hxy.1⟩⟩
    have hdis := List.Pairwise.forall hd ha hb hab (v / physicalBlockSize)
    refine absurd ⟨⟨?_, ?_⟩, ⟨?_, ?_⟩⟩ hdis
    · exact (Nat.le_div_iff_mul_le hpos).mpr halo
    · exact (Nat.div_lt_iff_lt_mul hpos).mpr hahi
    · exact (Nat.le_div_iff_mul_le hpos).mpr hblo
    · exact (Nat.div_lt_iff_lt_mul hpos).mpr hbhi

theorem maps_cons {m : ByteMapping} {ms : List ByteMapping} {v p : Nat} :
    Maps (m :: ms) v p ↔
      (m.virtualStart ≤ v ∧ v < m.virtualEnd ∧ p = m.physicalStart + (v - m.virtualStart)) ∨ Maps ms v p := by
  simp [Maps]

theorem maps_append {ms ns : List ByteMapping} {v p : Nat} :
    Maps (ms ++ ns) v p ↔ Maps ms v p ∨ Maps ns v p := by
  simp only [Maps, List.mem_append, or_and_right, exists_or]

theorem maps_perm {ms ns : List ByteMapping} (h : ms.Perm ns) {v p : Nat} : Maps ms v p ↔ Maps ns v p := by
  simp only [Maps, h.mem_iff]

theorem addExtent_spec {physicalBlockSize : Nat} (hpos : 0 < physicalBlockSize) {e : Extent}
    (he : ExtentFits physicalBlockSize e) (t : ByteMappingTable) (ht : ∀ m ∈ t.mappings, Fits m) :
    (∀ m ∈ (t.addExtent physicalBlockSize e).mappings, Fits m) ∧
      ∀ v p, Maps (t.addExtent physicalBlockSize e).mappings v p ↔
        Maps t.mappings v p ∨ Assigns physicalBlockSize [e] v p := by
  obtain ⟨start, lba, count⟩ := e
  obtain ⟨hv, hp⟩ := he
  simp only [Nat.add_mul] at hv hp
  simp only [ByteMappingTable.addExtent]
  rw [wrappingMul_eq (by omega), wrappingMul_eq (by omega), wrappingMul_eq (by omega),
    ByteMappingTable.addSegment]
  by_cases hc : count = 0
  · subst hc
    simp only [Nat.zero_mul, if_true]
    refine ⟨ht, fun v p => ⟨Or.inl, fun h => h.resolve_right ?_⟩⟩
    rintro ⟨_, he, hlo, hhi, _⟩
    obtain rfl := List.mem_singleton.mp he
    simp only [Nat.add_zero] at hlo hhi
    omega
  · have hcount : 0 < count * physicalBlockSize := Nat.mul_pos (Nat.pos_of_ne_zero hc) hpos
    rw [if_neg (by omega)]
    simp only [ByteMapping.new, wrappingAdd_eq hv]
    refine ⟨?_, fun v p => ?_⟩
    · intro m hm
      rcases List.mem_append.mp hm with hm | hm
      · exact ht m hm
      · obtain rfl := List.mem_singleton.mp hm
        simp only [Fits]
        omega
    · rw [maps_append]
      simp only [Maps, Assigns, List.mem_singleton, exists_eq_left, Nat.add_mul]

theorem foldl_addExtent_spec {physicalBlockSize : Nat} (hpos : 0 < physicalBlockSize) (extents : List Extent)
    (he : ∀ e ∈ extents, ExtentFits physicalBlockSize e) (t : ByteMappingTable)
    (ht : ∀ m ∈ t.mappings, Fits m) :
    (∀ m ∈ (extents.foldl (ByteMappingTable.addExtent physicalBlockSize) t).mappings, Fits m) ∧
      ∀ v p, Maps (extents.foldl (ByteMappingTable.addExtent physicalBlockSize) t).mappings v p ↔
        Maps t.mappings v p ∨ Assigns physicalBlockSize extents v p := by
  induction extents generalizing t with
  | nil => exact ⟨ht, fun v p => by simp [Assigns]⟩
  | cons e es ih =>
      obtain ⟨hf, hm⟩ := addExtent_spec hpos (he e (by simp)) t ht
      obtain ⟨hf', hm'⟩ := ih (fun x hx => he x (by simp [hx])) _ hf
      refine ⟨hf', fun v p => ?_⟩
      rw [List.foldl_cons, hm', hm, or_assoc]
      simp [Assigns]

theorem truncate_spec (t : ByteMappingTable) (total : Nat) (ht : ∀ m ∈ t.mappings, Fits m) :
    (∀ m ∈ (t.truncate total).mappings, Fits m) ∧
      ∀ v p, Maps (t.truncate total).mappings v p ↔ v < total ∧ Maps t.mappings v p := by
  simp only [ByteMappingTable.truncate, List.mem_map, List.mem_filter, decide_eq_true_eq, Maps]
  constructor
  · rintro _ ⟨m, ⟨hm, hlt⟩, rfl⟩
    have hf := ht m hm
    split
    · simp only [Fits] at hf ⊢
      omega
    · exact hf
  · intro v p
    constructor
    · rintro ⟨_, ⟨m, ⟨hm, hlt⟩, rfl⟩, h⟩
      split at h
      · exact ⟨by simp only at h; omega, m, hm, by simp only at h; omega⟩
      · exact ⟨by omega, m, hm, h⟩
    · rintro ⟨hv, m, hm, hlo, hhi, rfl⟩
      refine ⟨_, ⟨m, ⟨hm, by omega⟩, rfl⟩, ?_⟩
      split
      · exact ⟨hlo, hv, rfl⟩
      · exact ⟨hlo, hhi, rfl⟩

theorem mergeFrom_spec (c : ByteMapping) (ms : List ByteMapping) (hc : Fits c) (hms : ∀ m ∈ ms, Fits m) :
    (∀ m ∈ ByteMappingTable.mergeFrom c ms, Fits m) ∧
      ∀ v p, Maps (ByteMappingTable.mergeFrom c ms) v p ↔ Maps (c :: ms) v p := by
  induction ms generalizing c with
  | nil => exact ⟨fun m hm => by simp_all [ByteMappingTable.mergeFrom], fun v p => Iff.rfl⟩
  | cons m ms ih =>
      have hm := hms m (by simp)
      have hrest := fun x hx => hms x (List.mem_cons_of_mem m hx)
      rw [ByteMappingTable.mergeFrom]
      split
      · next h =>
          obtain ⟨hv, hp⟩ := h
          have hcount : c.byteCount = c.virtualEnd - c.virtualStart :=
            wrappingSub_eq (Nat.le_of_lt hc.1) hc.2.1
          rw [hcount, wrappingAdd_eq hc.2.2] at hp
          have hmerged : Fits { c with virtualEnd := m.virtualEnd } := by
            simp only [Fits] at hc hm ⊢
            omega
          obtain ⟨hf, hmaps⟩ := ih _ hmerged hrest
          refine ⟨hf, fun v p => ?_⟩
          rw [hmaps, maps_cons, maps_cons, maps_cons, ← or_assoc]
          apply or_congr_left
          simp only [Fits] at hc hm ⊢
          omega
      · obtain ⟨hf, hmaps⟩ := ih m hm hrest
        constructor
        · intro x hx
          rcases List.mem_cons.mp hx with rfl | hx
          · exact hc
          · exact hf x hx
        · intro v p
          rw [maps_cons, hmaps, ← maps_cons]

/-- Sorting and merging neither add nor lose an assigned byte. -/
theorem optimize_spec (t : ByteMappingTable) (ht : ∀ m ∈ t.mappings, Fits m) :
    (∀ m ∈ t.optimize.mappings, Fits m) ∧
      (∀ v p, Maps t.optimize.mappings v p ↔ Maps t.mappings v p) ∧ t.optimize.totalBytes = t.totalBytes := by
  unfold ByteMappingTable.optimize
  split
  · exact ⟨ht, fun _ _ => Iff.rfl, rfl⟩
  · have hperm := List.mergeSort_perm t.mappings fun a b => decide (a.virtualStart ≤ b.virtualStart)
    split
    · exact ⟨ht, fun _ _ => Iff.rfl, rfl⟩
    · next m ms hs =>
        rw [hs] at hperm
        have hfit := fun x hx => ht x (hperm.mem_iff.mp hx)
        obtain ⟨hf, hmaps⟩ := mergeFrom_spec m ms (hfit m (by simp)) (fun x hx => hfit x (by simp [hx]))
        exact ⟨hf, fun v p => (hmaps v p).trans (maps_perm hperm), rfl⟩

theorem fromFileExtents_spec {physicalBlockSize : Nat} (hpos : 0 < physicalBlockSize) (extents : List Extent)
    (he : ∀ e ∈ extents, ExtentFits physicalBlockSize e) (fileSize : Nat) :
    (∀ m ∈ (ByteMappingTable.fromFileExtents extents fileSize physicalBlockSize).optimize.mappings, Fits m) ∧
      (∀ v p, Maps (ByteMappingTable.fromFileExtents extents fileSize physicalBlockSize).optimize.mappings v p ↔
        v < fileSize ∧ Assigns physicalBlockSize extents v p) ∧
      (ByteMappingTable.fromFileExtents extents fileSize physicalBlockSize).optimize.totalBytes = fileSize := by
  obtain ⟨hf, hm⟩ := foldl_addExtent_spec hpos extents he ByteMappingTable.empty (by simp [ByteMappingTable.empty])
  obtain ⟨hf', hm'⟩ := truncate_spec _ fileSize hf
  obtain ⟨hf'', hm'', htotal⟩ := optimize_spec _ hf'
  refine ⟨hf'', fun v p => ?_, htotal⟩
  rw [ByteMappingTable.fromFileExtents, hm'', hm', hm]
  simp [Maps, ByteMappingTable.empty]

open ByteMappingTable

/-- Some piece carries destination offset `off` to physical byte `p`. -/
def Covers (pieces : List Piece) (off p : Nat) : Prop :=
  ∃ q ∈ pieces, q.1 ≤ off ∧ off < q.1 + q.2.2 ∧ p = q.2.1 + (off - q.1)

def PieceFits (bound : Nat) (q : Piece) : Prop :=
  q.1 + q.2.2 ≤ bound ∧ bound < 2 ^ 64 ∧ q.2.1 + q.2.2 < 2 ^ 64

theorem covers_cons {q : Piece} {pieces : List Piece} {off p : Nat} :
    Covers (q :: pieces) off p ↔
      (q.1 ≤ off ∧ off < q.1 + q.2.2 ∧ p = q.2.1 + (off - q.1)) ∨ Covers pieces off p := by
  simp [Covers]

theorem pushPiece_spec (pieces : List Piece) (q : Piece) {bound : Nat} (hq : PieceFits bound q)
    (hps : ∀ x ∈ pieces, PieceFits bound x) :
    (∀ x ∈ pushPiece pieces q, PieceFits bound x) ∧
      ∀ off p, Covers (pushPiece pieces q) off p ↔ Covers pieces off p ∨ Covers [q] off p := by
  fun_induction pushPiece pieces q with
  | case1 q => exact ⟨by simpa using hq, fun off p => by simp [Covers]⟩
  | case2 dst physical count q h =>
      have hx := hps (dst, physical, count) (by simp)
      simp only [PieceFits] at hx hq
      rw [wrappingAdd_eq (by omega), wrappingAdd_eq (by omega)] at h
      rw [wrappingAdd_eq (by omega)]
      refine ⟨?_, fun off p => ?_⟩
      · simp only [List.mem_singleton, forall_eq, PieceFits]
        omega
      · simp only [Covers, List.mem_singleton, exists_eq_left]
        omega
  | case3 dst physical count q h =>
      refine ⟨?_, fun off p => ?_⟩
      · simp only [List.mem_cons, List.not_mem_nil, or_false, forall_eq_or_imp, forall_eq]
        exact ⟨hps _ (by simp), hq⟩
      · simp only [covers_cons]
        simp [Covers]
  | case4 p p' ps q ih =>
      obtain ⟨hf, hcov⟩ := ih hq (fun x hx => hps x (List.mem_cons_of_mem p hx))
      constructor
      · intro x hx
        rcases List.mem_cons.mp hx with rfl | hx
        · exact hps _ (by simp)
        · exact hf x hx
      · intro off y
        rw [covers_cons, hcov, ← or_assoc, ← covers_cons]

theorem translate_eq {m : ByteMapping} (hm : Fits m) {v : Nat} (hlo : m.virtualStart ≤ v) (hhi : v < m.virtualEnd) :
    m.translate v = some (m.physicalStart + (v - m.virtualStart)) := by
  simp only [Fits] at hm
  rw [ByteMapping.translate, if_pos (by simp [ByteMapping.contains, hlo, hhi]),
    wrappingSub_eq hlo (by omega), wrappingAdd_eq (by omega)]

theorem not_maps_of_find_none {t : ByteMappingTable} {current : Nat} (h : t.find current = none) {stop v p : Nat}
    (hlo : current ≤ v) (hhi : v < t.nextMappedStart current stop) : ¬ Maps t.mappings v p := by
  rintro ⟨m, hm, hmlo, hmhi, -⟩
  have hc := List.find?_eq_none.mp h m hm
  simp only [ByteMapping.contains, decide_eq_true_eq] at hc
  have hstart : m.virtualStart > current := by omega
  have hmem : m.virtualStart ∈
      ((t.mappings.filter fun m => m.virtualStart > current).map ByteMapping.virtualStart) :=
    List.mem_map_of_mem (List.mem_filter.mpr ⟨hm, by simpa using hstart⟩)
  unfold nextMappedStart at hhi
  cases hmin : ((t.mappings.filter fun m => m.virtualStart > current).map ByteMapping.virtualStart).min? with
  | none => simp [List.min?_eq_none_iff.mp hmin] at hmem
  | some w =>
      have hw := (List.min?_eq_some_iff.mp hmin).2 _ hmem
      rw [hmin, Option.getD_some] at hhi
      omega

theorem sparseLoop_done (t : ByteMappingTable) (base stop : Nat) (result : List Piece) :
    sparseLoop t base stop stop result = some result := by
  rw [sparseLoop, dif_neg (Nat.lt_irrefl stop)]

theorem sparseLoop_hole (t : ByteMappingTable) {base stop current : Nat} (result : List Piece)
    (hlt : current < stop) (hf : t.find current = none) :
    sparseLoop t base stop current result =
      sparseLoop t base stop (min (t.nextMappedStart current stop) stop) result := by
  rw [sparseLoop, dif_pos hlt]
  split
  · next m hm =>
      rw [hf] at hm
      cases hm
  · rfl

/-- The scan loses no mapped byte of the remaining range and invents none. -/
theorem sparseLoop_spec (t : ByteMappingTable) (ht : ∀ m ∈ t.mappings, Fits m)
    (hfun : Functional (Maps t.mappings)) (base stop : Nat) (hstop : stop < 2 ^ 64) (current : Nat)
    (result : List Piece) (hbase : base ≤ current) (hcur : current ≤ stop)
    (hres : ∀ q ∈ result, PieceFits (stop - base) q) :
    ∃ out, sparseLoop t base stop current result = some out ∧ (∀ q ∈ out, PieceFits (stop - base) q) ∧
      ∀ off p, Covers out off p ↔ Covers result off p ∨
        (current - base ≤ off ∧ off < stop - base ∧ Maps t.mappings (base + off) p) := by
  induction hn : stop - current using Nat.strong_induction_on generalizing current result with
  | _ n ih =>
  rw [sparseLoop]
  by_cases hlt : current < stop
  · rw [dif_pos hlt]
    split
    · next m hf =>
        obtain ⟨hm, hmlo, hmhi⟩ := find_contains hf
        have hfit := ht m hm
        rw [translate_eq hfit hmlo hmhi]
        simp only [Option.bind_eq_bind, Option.bind_some]
        simp only [Fits] at hfit
        have hq : PieceFits (stop - base) (current - base, m.physicalStart + (current - m.virtualStart),
            min (stop - current) (m.virtualEnd - current)) := by
          simp only [PieceFits]
          omega
        obtain ⟨hpush, hcov⟩ := pushPiece_spec result _ hq hres
        obtain ⟨out, hout, hfits, hspec⟩ := ih (stop - (current + min (stop - current) (m.virtualEnd - current)))
          (by omega) _ _ (by omega) (by omega) hpush rfl
        refine ⟨out, hout, hfits, fun off p => ?_⟩
        rw [hspec, hcov, or_assoc]
        apply or_congr_right
        constructor
        · rintro (⟨q, hmem, hlo, hhi, rfl⟩ | ⟨hlo, hhi, hmaps⟩)
          · obtain rfl := List.mem_singleton.mp hmem
            simp only at hlo hhi ⊢
            exact ⟨hlo, by omega, m, hm, by omega, by omega, by omega⟩
          · exact ⟨by omega, hhi, hmaps⟩
        · rintro ⟨hlo, hhi, hmaps⟩
          by_cases hin : off < current - base + min (stop - current) (m.virtualEnd - current)
          · have hp := hfun _ _ _ hmaps ⟨m, hm, by omega, by omega, rfl⟩
            left
            refine ⟨_, List.mem_singleton_self _, hlo, hin, ?_⟩
            simp only
            omega
          · exact .inr ⟨by omega, hhi, hmaps⟩
    · next hf =>
        have hgt := t.nextMappedStart_gt hlt
        obtain ⟨out, hout, hfits, hspec⟩ := ih (stop - min (t.nextMappedStart current stop) stop) (by omega) _ _
          (by omega) (by omega) hres rfl
        refine ⟨out, hout, hfits, fun off p => ?_⟩
        rw [hspec]
        apply or_congr_right
        constructor
        · rintro ⟨hlo, hhi, hmaps⟩
          exact ⟨by omega, hhi, hmaps⟩
        · rintro ⟨hlo, hhi, hmaps⟩
          refine ⟨?_, hhi, hmaps⟩
          by_contra hcon
          have hbefore : base + off < t.nextMappedStart current stop := by omega
          exact not_maps_of_find_none hf (by omega) hbefore hmaps
  · rw [dif_neg hlt]
    exact ⟨result, rfl, hres, fun off p => by constructor <;> [exact .inl; (rintro (h | h); exacts [h, by omega])]⟩

theorem translateRangeSparse_spec (t : ByteMappingTable) (ht : ∀ m ∈ t.mappings, Fits m)
    (hfun : Functional (Maps t.mappings)) (start count : Nat) (hle : start + count ≤ t.totalBytes)
    (htotal : t.totalBytes < 2 ^ 64) :
    ∃ out, t.translateRangeSparse start count = some out ∧ (∀ q ∈ out, PieceFits count q) ∧
      ∀ off p, Covers out off p ↔ off < count ∧ Maps t.mappings (start + off) p := by
  obtain ⟨out, hout, hfits, hspec⟩ := sparseLoop_spec t ht hfun start (start + count) (by omega) start []
    le_rfl (by omega) (by simp)
  rw [Nat.add_sub_cancel_left] at hfits hspec
  refine ⟨out, ?_, hfits, fun off p => ?_⟩
  · rw [translateRangeSparse, checkedAdd_eq_some.mpr ⟨by omega, rfl⟩]
    simp only [Option.bind_eq_bind, Option.bind_some]
    rw [if_neg (by omega), hout]
  · rw [hspec]
    simp [Covers]

end NextBoot.Virtio.Translation
