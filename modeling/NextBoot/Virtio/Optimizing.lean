import NextBoot.Virtio.BlockMapping

namespace NextBoot.Virtio.Mapping

open Words Coalescing

/-- The fields are 64-bit words. -/
structure ByteMapping.IsWords (m : ByteMapping) : Prop where
  start_lt : m.virtualStart < 2 ^ 64
  end_lt : m.virtualEnd < 2 ^ 64
  physical_lt : m.physicalStart < 2 ^ 64

instance (m : ByteMapping) : Decidable m.IsWords :=
  decidable_of_iff (m.virtualStart < 2 ^ 64 ∧ m.virtualEnd < 2 ^ 64 ∧ m.physicalStart < 2 ^ 64)
    ⟨fun h => ⟨h.1, h.2.1, h.2.2⟩, fun h => ⟨h.1, h.2, h.3⟩⟩

/-- No virtual address belongs to two entries. -/
def DisjointEntries (ms : List ByteMapping) : Prop :=
  ms.Pairwise fun a b => ∀ v, ¬ (a.contains v = true ∧ b.contains v = true)

/-- The address range of the entry did not overflow when the entry was made. -/
def ByteMapping.Proper (m : ByteMapping) : Prop := m.virtualStart ≤ m.virtualEnd

instance (m : ByteMapping) : Decidable m.Proper := inferInstanceAs (Decidable (_ ≤ _))

theorem contains_iff {m : ByteMapping} {v : Nat} : m.contains v = true ↔ m.virtualStart ≤ v ∧ v < m.virtualEnd := by
  simp [ByteMapping.contains]

theorem translate_of_contains {m : ByteMapping} (hw : m.IsWords) {v : Nat} (h : m.contains v = true) :
    m.translate v = some (wrappingAdd 64 m.physicalStart (v - m.virtualStart)) := by
  obtain ⟨hlo, hhi⟩ := contains_iff.mp h
  rw [ByteMapping.translate, if_pos h, wrappingSub_eq hlo (hhi.trans hw.end_lt)]

theorem translate_of_not_contains {m : ByteMapping} {v : Nat} (h : ¬ m.contains v = true) : m.translate v = none := if_neg h

theorem contains_of_translate {m : ByteMapping} {v p : Nat} (h : m.translate v = some p) : m.contains v = true := by
  by_contra hno
  rw [translate_of_not_contains hno] at h
  cases h

theorem DisjointEntries.eq {ms : List ByteMapping} (hd : DisjointEntries ms) {a b : ByteMapping} (ha : a ∈ ms)
    (hb : b ∈ ms) {v : Nat} (hav : a.contains v = true) (hbv : b.contains v = true) : a = b := by
  have hsym : Std.Symm fun a b : ByteMapping => ∀ v, ¬ (a.contains v = true ∧ b.contains v = true) :=
    ⟨fun x y h v hxy => h v ⟨hxy.2, hxy.1⟩⟩
  by_contra hne
  exact List.Pairwise.forall hd ha hb hne v ⟨hav, hbv⟩

theorem wrappingAdd_assoc (a b c : Nat) : wrappingAdd 64 (wrappingAdd 64 a b) c = wrappingAdd 64 a (b + c) := by
  unfold wrappingAdd
  rw [Nat.mod_add_mod, Nat.add_assoc]

theorem joined_proper {a b : ByteMapping} (ha : a.Proper) (hb : b.Proper) (h : a.Mergeable b) :
    ({ a with virtualEnd := b.virtualEnd } : ByteMapping).Proper := by
  have hle : a.virtualEnd ≤ b.virtualEnd := h.1 ▸ hb
  exact ha.trans hle

/-- A merged entry translates what its parts do. -/
theorem joined_translate {a b : ByteMapping} (hwa : a.IsWords) (hwb : b.IsWords) (ha : a.Proper) (hb : b.Proper)
    (h : a.Mergeable b) (v : Nat) :
    ({ a with virtualEnd := b.virtualEnd } : ByteMapping).translate v = (a.translate v).or (b.translate v) := by
  obtain ⟨hmeet, hphysical⟩ := h
  have hcount : a.byteCount = a.virtualEnd - a.virtualStart := wrappingSub_eq ha hwa.end_lt
  have hwords : ({ a with virtualEnd := b.virtualEnd } : ByteMapping).IsWords := ⟨hwa.start_lt, hwb.end_lt, hwa.physical_lt⟩
  unfold ByteMapping.Proper at ha hb
  by_cases hin : a.contains v = true
  · have hjoined : ({ a with virtualEnd := b.virtualEnd } : ByteMapping).contains v = true := by
      rw [contains_iff] at hin ⊢
      exact ⟨hin.1, by simp only; omega⟩
    rw [translate_of_contains hwords hjoined, translate_of_contains hwa hin]
    rfl
  · rw [translate_of_not_contains hin, Option.none_or]
    by_cases hin' : b.contains v = true
    · have hjoined : ({ a with virtualEnd := b.virtualEnd } : ByteMapping).contains v = true := by
        rw [contains_iff] at hin' ⊢
        exact ⟨by simp only; omega, hin'.2⟩
      rw [translate_of_contains hwords hjoined, translate_of_contains hwb hin', ← hphysical, hcount, wrappingAdd_assoc]
      have hoff := (contains_iff.mp hin').1
      congr 2
      simp only
      omega
    · have hjoined : ¬ ({ a with virtualEnd := b.virtualEnd } : ByteMapping).contains v = true := by
        rw [contains_iff] at hin hin' ⊢
        simp only
        omega
      rw [translate_of_not_contains hin', translate_of_not_contains hjoined]

theorem joinEntries_keepsLeft : KeepsLeft joinEntries := by
  intro a b joined hsome x
  obtain ⟨-, rfl⟩ := joinEntries_eq_some.mp hsome
  rw [joinEntries_eq_none, joinEntries_eq_none]
  exact Iff.rfl

/-- The entries stand in the order of their starts. -/
def SortedEntries (ms : List ByteMapping) : Prop := ms.Pairwise fun a b => a.virtualStart ≤ b.virtualStart

/-- No entry can be merged into the one before it. -/
def Unmergeable (ms : List ByteMapping) : Prop := ms.IsChain fun a b => ¬ a.Mergeable b

theorem unmergeable_iff {ms : List ByteMapping} : Unmergeable ms ↔ Unjoinable joinEntries ms := by
  unfold Unmergeable Unjoinable
  simp only [joinEntries_eq_none]

variable (t : ByteMappingTable)

theorem optimize_short (h : t.mappings.length ≤ 1) : t.optimize = t := if_pos h

theorem optimize_cases : t.mappings.length ≤ 1 ∧ t.optimize = t ∨
    ∃ m ms, (m :: ms).Perm t.mappings ∧ SortedEntries (m :: ms) ∧
      t.mappings.mergeSort (fun a b => a.virtualStart ≤ b.virtualStart) = m :: ms ∧
      t.optimize = { t with mappings := coalesce joinEntries m ms } := by
  by_cases hlen : t.mappings.length ≤ 1
  · exact .inl ⟨hlen, optimize_short t hlen⟩
  · right
    have hperm := List.mergeSort_perm t.mappings fun a b => decide (a.virtualStart ≤ b.virtualStart)
    have hsorted := @List.pairwise_mergeSort _ (fun a b : ByteMapping => decide (a.virtualStart ≤ b.virtualStart))
      (by intro a b c hab hbc; simp only [decide_eq_true_eq] at *; omega)
      (by intro a b; simp only [Bool.or_eq_true, decide_eq_true_eq]; omega) t.mappings
    unfold ByteMappingTable.optimize
    rw [if_neg hlen]
    cases hs : t.mappings.mergeSort (fun a b => a.virtualStart ≤ b.virtualStart) with
    | nil =>
        rw [hs] at hperm
        have hnil := hperm.nil_eq
        rw [← hnil] at hlen
        exact absurd (Nat.zero_le 1) hlen
    | cons m ms =>
        rw [hs] at hperm hsorted
        refine ⟨m, ms, hperm, hsorted.imp (by simp), rfl, ?_⟩
        simp only [mergeFrom_eq]

theorem optimize_sorted : SortedEntries t.optimize.mappings := by
  obtain ⟨hlen, he⟩ | ⟨m, ms, -, hsorted, -, he⟩ := optimize_cases t
  · rw [he]
    match h : t.mappings, hlen with
    | [], _ => exact List.Pairwise.nil
    | [m], _ => exact List.pairwise_singleton _ m
  · rw [he]
    have hkeys := @coalesce_keys _ _ joinEntries m ms ByteMapping.virtualStart (by
      intro a b joined hsome
      rw [(joinEntries_eq_some.mp hsome).2])
    have hmap : ((m :: ms).map ByteMapping.virtualStart).Pairwise (· ≤ ·) := List.pairwise_map.mpr hsorted
    exact List.pairwise_map.mp (hmap.sublist hkeys)

theorem optimize_unmergeable : Unmergeable t.optimize.mappings := by
  obtain ⟨hlen, he⟩ | ⟨m, ms, -, -, -, he⟩ := optimize_cases t
  · rw [he]
    match h : t.mappings, hlen with
    | [], _ => exact List.isChain_nil
    | [m], _ => exact List.isChain_singleton m
  · rw [he]
    exact unmergeable_iff.mpr (coalesce_unjoinable joinEntries_keepsLeft)

theorem optimize_of_sorted (hsorted : SortedEntries t.mappings) (hchain : Unmergeable t.mappings) : t.optimize = t := by
  obtain ⟨-, he⟩ | ⟨m, ms, -, -, hs, he⟩ := optimize_cases t
  · exact he
  · rw [List.mergeSort_of_pairwise (hsorted.imp (by simp))] at hs
    rw [hs] at hchain
    rw [he, coalesce_of_unjoinable (unmergeable_iff.mp hchain), ← hs]

theorem totalBytes_optimize : t.optimize.totalBytes = t.totalBytes := by
  obtain ⟨-, he⟩ | ⟨m, ms, -, -, -, he⟩ := optimize_cases t <;> rw [he]

theorem optimize_idempotent : t.optimize.optimize = t.optimize :=
  optimize_of_sorted _ (optimize_sorted t) (optimize_unmergeable t)

theorem optimize_translate (hw : ∀ m ∈ t.mappings, m.IsWords) (hp : ∀ m ∈ t.mappings, m.Proper)
    (hd : DisjointEntries t.mappings) (v : Nat) : t.optimize.translate v = t.translate v := by
  obtain ⟨-, he⟩ | ⟨m, ms, hperm, -, -, he⟩ := optimize_cases t
  · rw [he]
  · rw [he]
    have hgood : ∀ a ∈ m :: ms, a.IsWords ∧ a.Proper := fun a ha =>
      ⟨hw a (hperm.mem_iff.mp ha), hp a (hperm.mem_iff.mp ha)⟩
    calc (coalesce joinEntries m ms).findSome? (fun a => a.translate v) = (m :: ms).findSome? fun a => a.translate v := by
          apply coalesce_findSome? ?_ hgood
          intro a b joined ha hb hsome
          obtain ⟨hmerge, rfl⟩ := joinEntries_eq_some.mp hsome
          exact ⟨⟨⟨ha.1.start_lt, hb.1.end_lt, ha.1.physical_lt⟩, joined_proper ha.2 hb.2 hmerge⟩,
            joined_translate ha.1 hb.1 ha.2 hb.2 hmerge v⟩
      _ = t.mappings.findSome? fun a => a.translate v := by
          apply findSome?_perm hperm
          intro a ha b hb x y hx hy
          have hab := hd.eq (hperm.mem_iff.mp ha) (hperm.mem_iff.mp hb) (contains_of_translate hx)
            (contains_of_translate hy)
          rw [hab, hy] at hx
          exact (Option.some.inj hx).symm

/-- The entries of a table that was built without overflow and maps no address twice. -/
structure Regular (ms : List ByteMapping) : Prop where
  words : ∀ m ∈ ms, m.IsWords
  proper : ∀ m ∈ ms, m.Proper
  disjoint : DisjointEntries ms

theorem mappingTable_ext {b c : MappingTable} (hms : b.mappings = c.mappings) (htotal : b.totalBlocks = c.totalBlocks) :
    b = c := by
  cases b
  cases c
  cases hms
  cases htotal
  rfl

/-- Merging the neighbours of a table changes no translation, and once is enough. -/
theorem optimize_canonical (t : ByteMappingTable) (b : MappingTable) :
    ((Regular t.mappings → ∀ v, t.optimize.translate v = t.translate v) ∧ SortedEntries t.optimize.mappings ∧
        Unmergeable t.optimize.mappings ∧ t.optimize.optimize = t.optimize) ∧
      (Regular b.mappings → ∀ v, b.optimize.translate v = b.translate v) ∧ SortedEntries b.optimize.mappings ∧
        Unmergeable b.optimize.mappings ∧ b.optimize.optimize = b.optimize := by
  refine ⟨⟨?_, optimize_sorted t, optimize_unmergeable t, optimize_idempotent t⟩, ?_, optimize_sorted _,
    optimize_unmergeable _, ?_⟩
  · intro ht
    exact optimize_translate t ht.words ht.proper ht.disjoint
  · intro hb
    exact optimize_translate ⟨b.mappings, b.totalBlocks⟩ hb.words hb.proper hb.disjoint
  · apply mappingTable_ext
    · have hsame : (⟨b.optimize.mappings, b.totalBlocks⟩ : ByteMappingTable) =
          ByteMappingTable.optimize ⟨b.mappings, b.totalBlocks⟩ :=
        congrArg (ByteMappingTable.mk b.optimize.mappings) (totalBytes_optimize ⟨b.mappings, b.totalBlocks⟩).symm
      exact congrArg ByteMappingTable.mappings ((congrArg _ hsame).trans (optimize_idempotent _))
    · rfl

theorem disjoint_pair {a b : ByteMapping} (h : a.virtualEnd ≤ b.virtualStart ∨ b.virtualEnd ≤ a.virtualStart) :
    DisjointEntries [a, b] := by
  apply List.pairwise_pair.mpr
  rintro v ⟨ha, hb⟩
  rw [contains_iff] at ha hb
  omega

theorem optimize_canonical_two_segments :
    let t := (ByteMappingTable.empty.addSegment 512 512 4608).addSegment 0 512 4096
    let b := MappingTable.withSegments [(0, 50, 1000), (50, 50, 1050)]
    t.optimize.translate 600 = some 4696 ∧ Unmergeable t.optimize.mappings ∧ b.optimize.translate 60 = some 1060 ∧
      b.optimize.optimize = b.optimize := by
  intro t b
  have ht : Regular t.mappings :=
    ⟨by decide, by decide, disjoint_pair (.inr (by decide))⟩
  have hb : Regular b.mappings :=
    ⟨by decide, by decide, disjoint_pair (.inl (by decide))⟩
  obtain ⟨⟨htranslate, -, hchain, -⟩, hblocks, -, -, honce⟩ := optimize_canonical t b
  exact ⟨htranslate ht 600, hchain, hblocks hb 60, honce⟩

/-- The range of an entry that wraps around is empty: merged to the entry before it, it takes away that entry's bytes. -/
theorem optimize_loses_wrapped :
    let t := (ByteMappingTable.empty.addSegment 5 5 100).addSegment 10 (2 ^ 64 - 5) 105
    (∀ m ∈ t.mappings, m.IsWords) ∧ DisjointEntries t.mappings ∧ t.translate 5 = some 100 ∧
      t.optimize.translate 5 = none := by
  intro t
  have hsort : t.mappings.mergeSort (fun a b => a.virtualStart ≤ b.virtualStart) = [⟨5, 10, 100⟩, ⟨10, 5, 105⟩] :=
    List.mergeSort_of_pairwise (by decide)
  refine ⟨by decide, ?_, by decide, ?_⟩
  · exact disjoint_pair (.inr (by decide))
  · unfold ByteMappingTable.optimize
    rw [if_neg (by decide), hsort]
    decide

end NextBoot.Virtio.Mapping
