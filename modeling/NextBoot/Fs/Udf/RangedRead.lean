import NextBoot.Fs.Udf.Storage

namespace NextBoot.Fs.Udf

open Words BlockStore Bytes Results

variable {β γ : Type}

/-- The cells that the allocation descriptors denote, one after the other; an extent that is not recorded is `zero`. -/
def contents (cell : Nat → β) (zero : β) (blockSize : Nat) (extents : List NodeExtent) : List β :=
  extents.flatMap fun e =>
    if e.extentType = 0 then window cell (e.physicalLba * blockSize) e.length else List.replicate e.length zero

def totalLength (extents : List NodeExtent) : Nat := (extents.map NodeExtent.length).sum

/-- How far into its extent a position of the file lies. -/
def withinExtent : List NodeExtent → Nat → Nat
  | [], _ => 0
  | e :: extents, i => if i < e.length then i else withinExtent extents (i - e.length)

variable {readBlock : Nat → Except FsError (List β)} {blockSize totalBlocks offset readable copied fuel : Nat}
variable {lba within remaining lbaOffset inBlock cursor : Nat} {e : NodeExtent} {extents : List NodeExtent}

theorem map_window (f : β → γ) (cell : Nat → β) (start len : Nat) :
    (window cell start len).map f = window (fun i => f (cell i)) start len := by
  simp [window, Function.comp_def]

theorem contents_map (f : β → γ) (cell : Nat → β) (zero : β) :
    (contents cell zero blockSize extents).map f = contents (fun i => f (cell i)) (f zero) blockSize extents := by
  induction extents with
  | nil => rfl
  | cons e extents ih =>
      simp only [contents, List.flatMap_cons, List.map_append] at ih ⊢
      rw [ih]
      split <;> simp [map_window]

/-- The copying loop does not look at the cells it copies. -/
theorem copyBlocks_map (f : β → γ) :
    copyBlocks (fun lba => (readBlock lba).map (List.map f)) readable lbaOffset inBlock fuel copied lba remaining =
      (copyBlocks readBlock readable lbaOffset inBlock fuel copied lba remaining).map (List.map f) := by
  induction fuel generalizing copied lba remaining with
  | zero => rfl
  | succ fuel ih =>
      rw [copyBlocks, copyBlocks]
      split
      · rw [map_bind, bind_map]
        refine bind_congr_ok fun block _ => ?_
        dsimp only
        rw [List.length_map, ih, bind_map, map_bind]
        refine bind_congr_ok fun rest _ => ?_
        simp [pure, Except.pure, Except.map, List.map_drop, List.map_take]
      · rfl

theorem walkExtents_map (f : β → γ) :
    walkExtents (fun lba => (readBlock lba).map (List.map f)) blockSize offset readable extents copied cursor =
      (walkExtents readBlock blockSize offset readable extents copied cursor).map (List.map f) := by
  induction extents generalizing copied cursor with
  | nil => rfl
  | cons e extents ih =>
      rw [walkExtents, walkExtents]
      split
      · exact ih
      · split
        · exact ih
        · rw [copyExtent, copyBlocks_map, bind_map, map_bind]
          refine bind_congr_ok fun cells _ => ?_
          rw [List.length_map]
          split
          · rfl
          · rw [ih, bind_map, map_bind]
            refine bind_congr_ok fun rest _ => ?_
            simp [pure, Except.pure, Except.map]

/-- What holds of every cell of the blocks that are read holds of the cells that are copied. -/
theorem copyBlocks_forall {P : β → Prop} (hread : ∀ lba block, readBlock lba = .ok block → ∀ a ∈ block, P a)
    {cells : List β} (h : copyBlocks readBlock readable lbaOffset inBlock fuel copied lba remaining = .ok cells) :
    ∀ a ∈ cells, P a := by
  induction fuel generalizing copied lba remaining cells with
  | zero =>
      rw [copyBlocks, pure_eq_ok] at h
      rw [← h]
      simp
  | succ fuel ih =>
      rw [copyBlocks] at h
      split at h
      · simp only [bind_eq_ok, pure_eq_ok] at h
        obtain ⟨block, hblock, rest, hrest, rfl⟩ := h
        intro a ha
        rcases List.mem_append.mp ha with ha | ha
        · exact hread lba block hblock a (List.mem_of_mem_drop (List.mem_of_mem_take ha))
        · exact ih hrest a ha
      · rw [pure_eq_ok] at h
        rw [← h]
        simp

theorem walkExtents_forall {P : β → Prop} (hread : ∀ lba block, readBlock lba = .ok block → ∀ a ∈ block, P a)
    {cells : List β} (h : walkExtents readBlock blockSize offset readable extents copied cursor = .ok cells) :
    ∀ a ∈ cells, P a := by
  induction extents generalizing copied cursor cells with
  | nil =>
      rw [walkExtents, pure_eq_ok] at h
      rw [← h]
      simp
  | cons e extents ih =>
      rw [walkExtents] at h
      split at h
      · exact ih h
      · split at h
        · exact ih h
        · obtain ⟨piece, hpiece, h⟩ := bind_eq_ok.mp h
          have hall := copyBlocks_forall hread hpiece
          split at h
          · rw [pure_eq_ok] at h
            rwa [← h]
          · obtain ⟨rest, hrest, h⟩ := bind_eq_ok.mp h
            rw [pure_eq_ok] at h
            rw [← h]
            intro a ha
            rcases List.mem_append.mp ha with ha | ha
            · exact hall a ha
            · exact ih hrest a ha

/-- The device as a source of addresses: a block is the list of where its bytes are. -/
def readAddresses (blockSize totalBlocks lba : Nat) : Except FsError (List (Option Nat)) :=
  if lba < totalBlocks then .ok (window some (lba * blockSize) blockSize) else .error .readError

/-- From a block on whose first cell is wanted, the loop copies the cells in their order. -/
theorem copyBlocks_aligned (hbs : 0 < blockSize) (hsource : inBlock = 0 ∨ lbaOffset ≠ 0 ∨ copied ≠ 0)
    (hfuel : readable - copied ≤ fuel) (hlba : lba + remaining < 2 ^ 64)
    (hdevice : ∀ i < min remaining (readable - copied), lba + i / blockSize < totalBlocks) :
    copyBlocks (readAddresses blockSize totalBlocks) readable lbaOffset inBlock fuel copied lba remaining =
      .ok (window some (lba * blockSize) (min remaining (readable - copied))) := by
  induction fuel generalizing copied lba remaining with
  | zero =>
      rw [show min remaining (readable - copied) = 0 by omega]
      rfl
  | succ fuel ih =>
      rw [copyBlocks]
      split
      · next hmore =>
          have hblock : readAddresses blockSize totalBlocks lba = .ok (window some (lba * blockSize) blockSize) := by
            have hlt := hdevice 0 (by omega)
            rw [Nat.zero_div] at hlt
            exact if_pos hlt
          have hzero : (if lbaOffset = 0 ∧ copied = 0 then inBlock else 0) = 0 := by
            split <;> omega
          rw [hblock, hzero]
          dsimp only [bind, Except.bind]
          rw [length_window, Nat.sub_zero, List.drop_zero]
          generalize hcopy : min (min blockSize remaining) (readable - copied) = toCopy
          have hsat : saturatingAdd 64 lba 1 = lba + 1 := Nat.min_eq_left (by omega)
          have htake : (window some (lba * blockSize) blockSize).take toCopy = window some (lba * blockSize) toCopy := by
            have h := (slice_isSome_iff.mp (slice_window some (lba * blockSize) (show 0 + toCopy ≤ blockSize by omega))).2
            rwa [List.drop_zero, Nat.add_zero] at h
          rw [hsat, ih (by omega) (by omega) (by omega) fun i hi => ?_]
          · have hcut := @window_cut _ some (lba * blockSize) (lba * blockSize + min remaining (readable - copied))
              (lba * blockSize + blockSize) (by omega)
            rw [show min (lba * blockSize + min remaining (readable - copied)) (lba * blockSize + blockSize) -
                lba * blockSize = toCopy by omega,
              show lba * blockSize + min remaining (readable - copied) - (lba * blockSize + blockSize) =
                min (remaining - toCopy) (readable - (copied + toCopy)) by omega, Nat.add_sub_cancel_left] at hcut
            dsimp only [pure, Except.pure]
            rw [htake, Nat.succ_mul, hcut]
          · have hlt := hdevice (i + blockSize) (by omega)
            rw [Nat.add_div_right _ hbs] at hlt
            omega
      · next hdone =>
          rw [show min remaining (readable - copied) = 0 by omega]
          rfl

theorem readAddresses_ok (h : lba < totalBlocks) :
    readAddresses blockSize totalBlocks lba = .ok (window some (lba * blockSize) blockSize) := if_pos h

/-- The first round when the range starts inside the first block of the extent. -/
theorem copyBlocks_first (hbs : 0 < blockSize) (hin : inBlock < blockSize) (hremaining : 0 < remaining)
    (hreadable : 0 < readable) (hlba : lba + remaining < 2 ^ 64)
    (hdevice : ∀ i < min remaining readable, lba + (inBlock + i) / blockSize < totalBlocks) :
    copyBlocks (readAddresses blockSize totalBlocks) readable 0 inBlock readable 0 lba remaining =
      .ok (window some (lba * blockSize + inBlock) (min remaining readable)) := by
  obtain ⟨fuel, rfl⟩ : ∃ fuel, readable = fuel + 1 := ⟨readable - 1, by omega⟩
  rw [copyBlocks, if_pos (by omega), if_pos ⟨rfl, rfl⟩]
  have hlt := hdevice 0 (by omega)
  rw [Nat.add_zero, Nat.div_eq_of_lt hin, Nat.add_zero] at hlt
  rw [readAddresses_ok hlt]
  dsimp only [bind, Except.bind]
  rw [length_window]
  generalize hcopy : min (min (blockSize - inBlock) remaining) (fuel + 1 - 0) = toCopy
  rw [show saturatingAdd 64 lba 1 = lba + 1 from Nat.min_eq_left (by omega),
    copyBlocks_aligned hbs (by omega) (by omega) (by omega) fun i hi => ?_,
    (slice_isSome_iff.mp (slice_window some _ (show inBlock + toCopy ≤ blockSize by omega))).2]
  · have hcut := @window_cut _ some (lba * blockSize + inBlock) (lba * blockSize + inBlock + min remaining (fuel + 1))
      (lba * blockSize + blockSize) (by omega)
    rw [show min (lba * blockSize + inBlock + min remaining (fuel + 1)) (lba * blockSize + blockSize) -
        (lba * blockSize + inBlock) = toCopy by omega,
      show lba * blockSize + inBlock + min remaining (fuel + 1) - (lba * blockSize + blockSize) =
        min (remaining - toCopy) (fuel + 1 - (0 + toCopy)) by omega, Nat.add_sub_cancel_left] at hcut
    dsimp only [pure, Except.pure]
    rw [Nat.succ_mul, hcut]
  · have hlt := hdevice (i + blockSize - inBlock) (by omega)
    rw [show inBlock + (i + blockSize - inBlock) = i + blockSize by omega, Nat.add_div_right _ hbs] at hlt
    omega

/-- An extent is copied rightly from a position in its first block, or at the start of a block. -/
theorem copyExtent_ok (hbs : 0 < blockSize) (hwithin : within < e.length) (hcopied : copied < readable)
    (hlater : copied ≠ 0 → within = 0) (hsource : within < blockSize ∨ within % blockSize = 0)
    (hdevice : ∀ i < min (e.length - within) (readable - copied),
      e.physicalLba + (within + i) / blockSize < totalBlocks) :
    copyExtent (readAddresses blockSize totalBlocks) blockSize readable e within copied =
      .ok (window some (e.physicalLba * blockSize + within) (min (e.length - within) (readable - copied))) := by
  have hlength := e.length_lt
  have hphysical := e.physicalLba_lt
  have hdiv := Nat.div_le_self within blockSize
  rw [copyExtent, show saturatingAdd 64 e.physicalLba (within / blockSize) = e.physicalLba + within / blockSize from
    Nat.min_eq_left (by omega)]
  by_cases haligned : within % blockSize = 0
  · have hsplit : (e.physicalLba + within / blockSize) * blockSize = e.physicalLba * blockSize + within := by
      have hmul := Nat.div_mul_cancel (Nat.dvd_of_mod_eq_zero haligned)
      rw [Nat.add_mul, hmul]
    rw [copyBlocks_aligned hbs (.inl haligned) (by omega) (by omega) fun i hi => ?_, hsplit]
    have hdivAdd : (within + i) / blockSize = within / blockSize + i / blockSize := by
      have hmul := Nat.mul_div_cancel' (Nat.dvd_of_mod_eq_zero haligned)
      conv_lhs => rw [← hmul, Nat.mul_add_div hbs]
    have hlt := hdevice i hi
    omega
  · have hfirst : within < blockSize := hsource.resolve_right haligned
    obtain rfl : copied = 0 := by
      by_contra hne
      rw [hlater hne, Nat.zero_mod] at haligned
      exact haligned rfl
    rw [Nat.div_eq_of_lt hfirst, Nat.mod_eq_of_lt hfirst, Nat.add_zero]
    exact copyBlocks_first hbs hfirst (by omega) hcopied (by omega) hdevice

theorem contents_cons {cell : Nat → β} {zero : β} : contents cell zero blockSize (e :: extents) =
    (if e.extentType = 0 then window cell (e.physicalLba * blockSize) e.length else List.replicate e.length zero) ++
      contents cell zero blockSize extents := List.flatMap_cons

theorem drop_contents_past {cell : Nat → β} {zero : β} {n : Nat} (h : e.length ≤ n) :
    (contents cell zero blockSize (e :: extents)).drop n = (contents cell zero blockSize extents).drop (n - e.length) := by
  rw [contents_cons, List.drop_append, List.drop_eq_nil_of_le, List.nil_append]
  · split <;> simp
  · split <;> simpa using h

theorem drop_contents_recorded {n : Nat} (hrecorded : e.extentType = 0) (h : n ≤ e.length) :
    (contents some none blockSize (e :: extents)).drop n =
      window some (e.physicalLba * blockSize + n) (e.length - n) ++ contents some none blockSize extents := by
  rw [contents_cons, if_pos hrecorded, List.drop_append_of_le_length (by simpa using h),
    ← window_split some h, List.drop_append_of_le_length (by simp), List.drop_eq_nil_of_le (by simp), List.nil_append]

theorem totalLength_cons : totalLength (e :: extents) = e.length + totalLength extents := List.sum_cons

theorem withinExtent_zero : withinExtent extents 0 = 0 := by
  cases extents with
  | nil => rfl
  | cons e extents => exact if_pos e.length_pos

theorem none_mem_wanted {n m : Nat} (hunrecorded : e.extentType ≠ 0) (hn : n < e.length) (hm : 0 < m) :
    none ∈ ((contents (some : Nat → Option Nat) none blockSize (e :: extents)).drop n).take m := by
  rw [List.mem_iff_getElem?]
  refine ⟨0, ?_⟩
  rw [List.getElem?_take_of_lt hm, List.getElem?_drop, contents_cons, if_neg hunrecorded,
    List.getElem?_append_left (by simpa using hn), List.getElem?_replicate, if_pos (by simpa using hn)]

/-- Where the wanted cells are all recorded, in blocks of the device, and the range starts in the first block of its
extent or at the start of a block, the walk returns them. -/
theorem walkExtents_ok (hbs : 0 < blockSize) (hbound : cursor + totalLength extents < 2 ^ 64)
    (hcopied : copied = cursor - offset) (hreadable : copied < readable)
    (hrecorded : ∀ a ∈ ((contents some none blockSize extents).drop (offset - cursor)).take (readable - copied),
      ∃ x, a = some x ∧ x / blockSize < totalBlocks)
    (hsource : withinExtent extents (offset - cursor) < blockSize ∨
      withinExtent extents (offset - cursor) % blockSize = 0) :
    walkExtents (readAddresses blockSize totalBlocks) blockSize offset readable extents copied cursor =
      .ok (((contents some none blockSize extents).drop (offset - cursor)).take (readable - copied)) := by
  induction extents generalizing copied cursor with
  | nil =>
      rw [walkExtents, contents, List.flatMap_nil, List.drop_nil, List.take_nil]
      rfl
  | cons e extents ih =>
      have hpos := e.length_pos
      rw [totalLength_cons] at hbound
      rw [walkExtents, show saturatingAdd 64 cursor e.length = cursor + e.length from Nat.min_eq_left (by omega)]
      have hskip : cursor + e.length ≤ offset → walkExtents (readAddresses blockSize totalBlocks) blockSize offset
          readable extents copied (cursor + e.length) =
            .ok (((contents some none blockSize (e :: extents)).drop (offset - cursor)).take (readable - copied)) := by
        intro hpast
        rw [drop_contents_past (by omega), show offset - cursor - e.length = offset - (cursor + e.length) by omega]
          at hrecorded ⊢
        rw [withinExtent, if_neg (by omega), show offset - cursor - e.length = offset - (cursor + e.length) by omega]
          at hsource
        exact ih (by omega) (by omega) hreadable hrecorded hsource
      split
      · next hunrecorded =>
          refine hskip ?_
          by_contra hinside
          -- the first wanted cell would be in a hole
          obtain ⟨x, hx, -⟩ := hrecorded none (none_mem_wanted hunrecorded (by omega) (by omega))
          cases hx
      · next htype =>
          rw [not_not] at htype
          split
          · next hpast => exact hskip hpast
          · next hinside =>
              rw [withinExtent, if_pos (by omega)] at hsource
              rw [drop_contents_recorded htype (by omega), List.take_append, length_window, take_window,
                Nat.min_comm] at hrecorded ⊢
              rw [copyExtent_ok hbs (by omega) hreadable (by omega) hsource fun i hi => ?_]
              · dsimp only [bind, Except.bind]
                rw [length_window]
                split
                · next hfull =>
                    rw [show readable - copied - (e.length - (offset - cursor)) = 0 by omega, List.take_zero,
                      List.append_nil]
                    rfl
                · next hpart =>
                    have hmin : min (e.length - (offset - cursor)) (readable - copied) = e.length - (offset - cursor) := by
                      omega
                    have hrest := @ih (copied + (e.length - (offset - cursor))) (cursor + e.length)
                    rw [show offset - (cursor + e.length) = 0 by omega, List.drop_zero, withinExtent_zero,
                      show readable - (copied + (e.length - (offset - cursor))) =
                        readable - copied - (e.length - (offset - cursor)) by omega] at hrest
                    rw [hmin, hrest (by omega) (by omega) (by omega)
                      (fun a ha => hrecorded a (List.mem_append_right _ ha)) (.inl hbs)]
                    rfl
              · obtain ⟨x, hx, hlt⟩ := hrecorded (some (e.physicalLba * blockSize + (offset - cursor) + i))
                  (List.mem_append_left _ (mem_window.mpr ⟨i, hi, rfl⟩))
                rw [← Option.some.inj hx, Nat.add_assoc, Nat.add_comm, Nat.add_mul_div_right _ _ hbs] at hlt
                omega

theorem copyExtent_head (hbs : 0 < blockSize) (hwithin : within < e.length) (hreadable : 0 < readable)
    {cells : List (Option Nat)}
    (h : copyExtent (readAddresses blockSize totalBlocks) blockSize readable e within 0 = .ok cells) :
    cells.head? = some (some ((e.physicalLba + within / blockSize) * blockSize +
      if within / blockSize = 0 then within % blockSize else 0)) := by
  have hlength := e.length_lt
  have hphysical := e.physicalLba_lt
  have hdiv := Nat.div_le_self within blockSize
  have hmod := Nat.mod_lt within hbs
  obtain ⟨fuel, rfl⟩ : ∃ fuel, readable = fuel + 1 := ⟨readable - 1, by omega⟩
  rw [copyExtent, show saturatingAdd 64 e.physicalLba (within / blockSize) = e.physicalLba + within / blockSize from
    Nat.min_eq_left (by omega), copyBlocks, if_pos (by omega), readAddresses] at h
  generalize hlba : e.physicalLba + within / blockSize = lba at h ⊢
  split at h
  · dsimp only [bind, Except.bind] at h
    split at h
    · cases h
    · rw [pure_eq_ok] at h
      rw [← h, length_window]
      generalize hsource : (if within / blockSize = 0 ∧ 0 = 0 then within % blockSize else 0) = source at h ⊢
      rw [show (if within / blockSize = 0 then within % blockSize else 0) = source by simpa using hsource]
      have hlt : source < blockSize := by
        rw [← hsource]
        split <;> omega
      rw [List.head?_append, List.head?_eq_getElem?, List.getElem?_take_of_lt (by omega), List.getElem?_drop,
        Nat.add_zero, getElem?_window some _ hlt, Option.some_or]
  · cases h

/-- Where the walk returns the wanted cells, its first cell is the right one, so the range starts in the first block of
its extent or at the start of a block. -/
theorem source_of_walkExtents (hbs : 0 < blockSize) (hbound : cursor + totalLength extents < 2 ^ 64)
    (hcursor : cursor ≤ offset) (hreadable : 0 < readable)
    (h : walkExtents (readAddresses blockSize totalBlocks) blockSize offset readable extents 0 cursor =
      .ok (((contents some none blockSize extents).drop (offset - cursor)).take readable))
    (hrecorded : none ∉ ((contents (some : Nat → Option Nat) none blockSize extents).drop (offset - cursor)).take readable) :
    withinExtent extents (offset - cursor) < blockSize ∨ withinExtent extents (offset - cursor) % blockSize = 0 := by
  induction extents generalizing cursor with
  | nil => exact .inl hbs
  | cons e extents ih =>
      rw [totalLength_cons] at hbound
      rw [walkExtents, show saturatingAdd 64 cursor e.length = cursor + e.length from Nat.min_eq_left (by omega)] at h
      by_cases hpast : cursor + e.length ≤ offset
      · rw [if_pos hpast, ite_self] at h
        rw [drop_contents_past (by omega), show offset - cursor - e.length = offset - (cursor + e.length) by omega]
          at h hrecorded
        rw [withinExtent, if_neg (by omega), show offset - cursor - e.length = offset - (cursor + e.length) by omega]
        exact ih (by omega) hpast h hrecorded
      · have htype : e.extentType = 0 := by
          by_contra hunrecorded
          exact hrecorded (none_mem_wanted hunrecorded (by omega) hreadable)
        rw [if_neg (not_not.mpr htype), if_neg hpast] at h
        rw [withinExtent, if_pos (by omega)]
        obtain ⟨cells, hcells, h⟩ := bind_eq_ok.mp h
        have hhead := copyExtent_head hbs (by omega) hreadable hcells
        have hwanted : (((contents some none blockSize (e :: extents)).drop (offset - cursor)).take readable).head? =
            cells.head? := by
          split at h
          · rw [pure_eq_ok] at h
            rw [h]
          · obtain ⟨rest, -, h⟩ := bind_eq_ok.mp h
            rw [pure_eq_ok] at h
            rw [← h, List.head?_append, hhead, Option.some_or]
        rw [hhead, drop_contents_recorded htype (by omega), List.head?_eq_getElem?, List.getElem?_take_of_lt hreadable,
          List.getElem?_append_left (by rw [length_window]; omega), getElem?_window some _ (by omega)] at hwanted
        simp only [Option.some.injEq] at hwanted
        have hsplit := Nat.div_add_mod (offset - cursor) blockSize
        rw [Nat.add_mul, Nat.mul_comm (_ / _)] at hwanted
        split at hwanted
        · next hzero => exact .inl ((Nat.div_eq_zero_iff_lt hbs).mp hzero)
        · exact .inr (by omega)

end NextBoot.Fs.Udf
