import NextBoot.Loops
import NextBoot.MediaGrow.FreeClusters

namespace NextBoot.MediaGrow

open Results Words Bytes BlockStore Loops

variable {m : Media} {data : PartitionInfo} {g : VolumeGeometry} {geo : BitmapGeometry}

/-- One round of the loop of `exfat_chain_length`, from the length counted so far and the current cluster. -/
def chainRound (m : Media) (data : PartitionInfo) (fatOffset clusterCount : Nat) (s : Nat × Nat) :
    Except GrowError (Nat ⊕ Nat × Nat) := do
  let length ← okOr (checkedAdd 64 s.1 1) "exFAT bitmap chain overflows"
  rejectIf (length > clusterCount) "invalid exFAT allocation bitmap chain"
  let next ← exfatFatEntry m data fatOffset s.2
  if next = exfatClusterEoc then return .inl length
  else
    rejectIf (outsideClusters clusterCount next ∨ next ≤ s.2) "invalid exFAT allocation bitmap chain"
    return .inr (length, next)

def exfatChainLengthWithin (fuel : Nat) (m : Media) (data : PartitionInfo) (fatOffset firstCluster clusterCount : Nat) :
    Bounded GrowError Nat := do
  rejectIf (outsideClusters clusterCount firstCluster) "invalid exFAT allocation bitmap cluster"
  loop (fun s => Loops.ofExcept (chainRound m data fatOffset clusterCount s)) fuel (0, firstCluster)

def growBitmapEntryWithin (fuel : Nat) (m : Media) (data : PartitionInfo) (geo : BitmapGeometry) (directory : List UInt8)
    (offset : Nat) : Bounded GrowError (List UInt8) := do
  let bitmapCluster ← okOr (readLeU32 directory (offset + 20)) "truncated exFAT allocation bitmap"
  let bitmapLength ← okOr (readLeU64 directory (offset + 24)) "truncated exFAT allocation bitmap"
  let bitmapClusters ← exfatChainLengthWithin fuel m data geo.fatOffset bitmapCluster geo.oldClusterCount
  let rounded ← okOr (checkedAdd 64 bitmapLength (geo.clusterBytes - 1)) "exFAT bitmap length overflows"
  rejectIf (bitmapClusters ≠ rounded / geo.clusterBytes ∨ bitmapClusters ≠ geo.requiredBitmapClusters)
    "exFAT allocation bitmap chain cannot cover expanded volume"
  writeLeU64 directory (offset + 24) geo.requiredBitmapBytes

/-- One round of the walk over the root directory, from the steps counted so far and the current cluster. -/
def rootRound (fuel : Nat) (m : Media) (data : PartitionInfo) (geo : BitmapGeometry) (s : Nat × Nat) :
    Bounded GrowError ((Nat × List UInt8) ⊕ Nat × Nat) := do
  let rootSteps ← okOr (checkedAdd 32 s.1 1) "exFAT root chain overflows"
  rejectIf (rootSteps > geo.oldClusterCount) "invalid exFAT root directory chain"
  let lba ← clusterLba data geo s.2
  let directory ← readBlocks m lba geo.perCluster
  match ← findBitmapEntry directory (entryOffsets directory) with
  | some offset =>
      let directory ← growBitmapEntryWithin fuel m data geo directory offset
      return .inl (lba, directory)
  | none =>
      let next ← exfatFatEntry m data geo.fatOffset s.2
      if next = exfatClusterEoc then throw (.invalid "missing exFAT allocation bitmap")
      else
        rejectIf (outsideClusters geo.oldClusterCount next) "invalid exFAT root directory chain"
        return .inr (rootSteps, next)

/-- `update_allocation_bitmap_length` with each of its loops left after `fuel` rounds. -/
def updateBitmapWithin (fuel : Nat) (data : PartitionInfo) (boot : List UInt8) (newClusterCount : Nat) (dev : Device) :
    Option (Except GrowError Unit × Device) := do
  let planned ← ExceptT.run (do
    let geo ← bitmapGeometry dev.media.blockSize boot newClusterCount
    loop (rootRound fuel dev.media data geo) fuel (0, geo.rootCluster) : Bounded GrowError (Nat × List UInt8))
  match planned with
  | .error e => return (.error e, dev)
  | .ok (lba, directory) => return eval (writeBlocks lba directory "failed to update exFAT allocation bitmap") dev

theorem chainLoop_round {fatOffset clusterCount length : Nat} (hcount : clusterCount < 2 ^ 32) (hlength : length ≤ clusterCount)
    (current : Nat) :
    chainLoop m data fatOffset clusterCount (clusterCount - length) length current =
      chainRound m data fatOffset clusterCount (length, current) >>=
        after fun s => chainLoop m data fatOffset clusterCount (clusterCount - s.1) s.1 s.2 := by
  have hadd : checkedAdd 64 length 1 = some (length + 1) := if_pos (by omega)
  by_cases hlast : length = clusterCount
  · subst hlast
    simp only [chainRound, hadd, Nat.sub_self, chainLoop, okOr, rejectIf, ok_bind]
    rw [if_pos (by omega)]
    rfl
  · obtain ⟨remaining, hrem⟩ : ∃ remaining, clusterCount - length = remaining + 1 := ⟨clusterCount - length - 1, by omega⟩
    simp only [chainRound, hadd, okOr, rejectIf, ok_bind, hrem, chainLoop]
    rw [if_neg (by omega), ok_bind, bind_assoc]
    apply bind_congr
    intro next
    by_cases hend : next = exfatClusterEoc
    · rw [if_pos hend, if_pos hend]
      rfl
    · rw [if_neg hend, if_neg hend, bind_assoc]
      apply bind_congr
      intro _
      have hnext : remaining = clusterCount - (length + 1) := by omega
      rw [hnext]
      rfl

theorem chainRound_ends {fatOffset clusterCount : Nat} (hcount : clusterCount < 2 ^ 32) {fuel length current : Nat}
    (hlength : length ≤ clusterCount) (hfuel : clusterCount - length < fuel) :
    loop (fun s => Loops.ofExcept (chainRound m data fatOffset clusterCount s)) fuel (length, current) =
      Loops.ofExcept (chainLoop m data fatOffset clusterCount (clusterCount - length) length current) := by
  refine loop_eq (fun s : Nat × Nat => chainLoop m data fatOffset clusterCount (clusterCount - s.1) s.1 s.2)
    (fun s => s.1 ≤ clusterCount) (fun s => clusterCount - s.1) ?_ hlength hfuel
  rintro ⟨length, current⟩ hs
  refine ⟨_, rfl, chainLoop_round hcount hs current, ?_⟩
  rintro s' hround
  obtain ⟨next, hadd, hround⟩ := bind_eq_ok.mp hround
  obtain ⟨_, hle, hround⟩ := bind_eq_ok.mp hround
  obtain ⟨next, _, hround⟩ := bind_eq_ok.mp hround
  have hlt := rejectIf_eq_ok.mp hle
  have hnext := (checkedAdd_eq_some.mp (okOr_eq_ok.mp hadd)).2
  split at hround
  · cases hround
  · obtain ⟨_, _, hround⟩ := bind_eq_ok.mp hround
    cases hround
    dsimp only
    omega

theorem exfatChainLengthWithin_eq {fatOffset firstCluster clusterCount fuel : Nat} (hcount : clusterCount < 2 ^ 32)
    (hfuel : clusterCount < fuel) : exfatChainLengthWithin fuel m data fatOffset firstCluster clusterCount =
      Loops.ofExcept (exfatChainLength m data fatOffset firstCluster clusterCount) := by
  apply ofExcept_bind_congr
  intro _ _
  exact chainRound_ends hcount (Nat.zero_le _) (by omega)

theorem growBitmapEntryWithin_eq {fuel offset : Nat} {directory : List UInt8} (hcount : geo.oldClusterCount < 2 ^ 32)
    (hfuel : geo.oldClusterCount < fuel) : growBitmapEntryWithin fuel m data geo directory offset =
      Loops.ofExcept (growBitmapEntry m data geo directory offset) := by
  apply ofExcept_bind_congr
  intro cluster _
  apply ofExcept_bind_congr
  intro length _
  rw [exfatChainLengthWithin_eq hcount hfuel]
  apply ofExcept_bind_congr
  intro clusters _
  apply ofExcept_bind_congr
  intro rounded _
  apply ofExcept_bind_congr
  intro _ _
  rfl

/-- The round of the walk over the root directory without the bound on the walk over the bitmap. -/
def rootStep (m : Media) (data : PartitionInfo) (geo : BitmapGeometry) (s : Nat × Nat) :
    Except GrowError ((Nat × List UInt8) ⊕ Nat × Nat) := do
  let rootSteps ← okOr (checkedAdd 32 s.1 1) "exFAT root chain overflows"
  rejectIf (rootSteps > geo.oldClusterCount) "invalid exFAT root directory chain"
  let lba ← clusterLba data geo s.2
  let directory ← readBlocks m lba geo.perCluster
  match ← findBitmapEntry directory (entryOffsets directory) with
  | some offset =>
      let directory ← growBitmapEntry m data geo directory offset
      return .inl (lba, directory)
  | none =>
      let next ← exfatFatEntry m data geo.fatOffset s.2
      if next = exfatClusterEoc then throw (.invalid "missing exFAT allocation bitmap")
      else
        rejectIf (outsideClusters geo.oldClusterCount next) "invalid exFAT root directory chain"
        return .inr (rootSteps, next)

theorem rootRound_eq {fuel : Nat} (hcount : geo.oldClusterCount < 2 ^ 32) (hfuel : geo.oldClusterCount < fuel)
    (s : Nat × Nat) : rootRound fuel m data geo s = Loops.ofExcept (rootStep m data geo s) := by
  apply ofExcept_bind_congr
  intro steps _
  apply ofExcept_bind_congr
  intro _ _
  apply ofExcept_bind_congr
  intro lba _
  apply ofExcept_bind_congr
  intro directory _
  apply ofExcept_bind_congr
  intro found _
  cases found with
  | some offset =>
      dsimp only
      rw [growBitmapEntryWithin_eq hcount hfuel]
      apply ofExcept_bind_congr
      intro _ _
      rfl
  | none =>
      apply ofExcept_bind_congr
      intro next _
      by_cases hend : next = exfatClusterEoc
      · rw [if_pos hend, if_pos hend]
        rfl
      · rw [if_neg hend, if_neg hend]
        apply ofExcept_bind_congr
        intro _ _
        rfl

theorem rootLoop_step {steps : Nat} (hcount : geo.oldClusterCount < 2 ^ 32) (hsteps : steps ≤ geo.oldClusterCount)
    (current : Nat) :
    rootLoop m data geo (geo.oldClusterCount - steps) current =
      rootStep m data geo (steps, current) >>= after fun s => rootLoop m data geo (geo.oldClusterCount - s.1) s.2 := by
  by_cases hlast : steps = geo.oldClusterCount
  · rw [hlast, Nat.sub_self, rootLoop, rootStep]
    by_cases hfull : geo.oldClusterCount = 2 ^ 32 - 1
    · have hadd : checkedAdd 32 geo.oldClusterCount 1 = none := if_neg (by omega)
      rw [if_pos hfull, hadd]
      rfl
    · have hadd : checkedAdd 32 geo.oldClusterCount 1 = some (geo.oldClusterCount + 1) := if_pos (by omega)
      simp only [if_neg hfull, hadd, okOr, rejectIf, ok_bind]
      rw [if_pos (by omega)]
      rfl
  · obtain ⟨remaining, hrem⟩ : ∃ remaining, geo.oldClusterCount - steps = remaining + 1 :=
      ⟨geo.oldClusterCount - steps - 1, by omega⟩
    have hadd : checkedAdd 32 steps 1 = some (steps + 1) := if_pos (by omega)
    have hle : ¬ steps + 1 > geo.oldClusterCount := by omega
    have hnext : remaining = geo.oldClusterCount - (steps + 1) := by omega
    have hok : rejectIf (steps + 1 > geo.oldClusterCount) "invalid exFAT root directory chain" = .ok () := if_neg hle
    simp only [rootStep, hadd, okOr, hok, ok_bind, hrem, rootLoop, bind_assoc]
    apply bind_congr
    intro lba
    apply bind_congr
    intro directory
    apply bind_congr
    intro found
    cases found with
    | some offset =>
        dsimp only
        rw [bind_assoc]
        rfl
    | none =>
        dsimp only
        rw [bind_assoc]
        apply bind_congr
        intro next
        by_cases hend : next = exfatClusterEoc
        · rw [if_pos hend, if_pos hend]
          rfl
        · rw [if_neg hend, if_neg hend, bind_assoc]
          apply bind_congr
          intro _
          rw [hnext]
          rfl

theorem rootStep_lowers {s s' : Nat × Nat} (h : rootStep m data geo s = .ok (.inr s')) :
    s.1 < s'.1 ∧ s'.1 ≤ geo.oldClusterCount := by
  obtain ⟨steps, hadd, h⟩ := bind_eq_ok.mp h
  obtain ⟨_, hle, h⟩ := bind_eq_ok.mp h
  obtain ⟨lba, _, h⟩ := bind_eq_ok.mp h
  obtain ⟨directory, _, h⟩ := bind_eq_ok.mp h
  obtain ⟨found, _, h⟩ := bind_eq_ok.mp h
  have hsteps := (checkedAdd_eq_some.mp (okOr_eq_ok.mp hadd)).2
  have hbound := rejectIf_eq_ok.mp hle
  cases found with
  | some offset =>
      obtain ⟨_, _, h⟩ := bind_eq_ok.mp h
      cases h
  | none =>
      obtain ⟨next, _, h⟩ := bind_eq_ok.mp h
      split at h
      · cases h
      · obtain ⟨_, _, h⟩ := bind_eq_ok.mp h
        cases h
        dsimp only
        omega

theorem rootRound_ends {fuel steps current : Nat} (hcount : geo.oldClusterCount < 2 ^ 32)
    (hfuel : geo.oldClusterCount < fuel) (hsteps : steps ≤ geo.oldClusterCount) :
    loop (rootRound fuel m data geo) fuel (steps, current) =
      Loops.ofExcept (rootLoop m data geo (geo.oldClusterCount - steps) current) := by
  refine loop_eq (fun s : Nat × Nat => rootLoop m data geo (geo.oldClusterCount - s.1) s.2)
    (fun s => s.1 ≤ geo.oldClusterCount) (fun s => geo.oldClusterCount - s.1) ?_ hsteps (by omega)
  rintro ⟨steps, current⟩ hs
  refine ⟨_, rootRound_eq hcount hfuel _, rootLoop_step hcount hs current, ?_⟩
  intro s' hnext
  obtain ⟨hlt, hle⟩ := rootStep_lowers hnext
  dsimp only at hlt ⊢
  omega

/-- Whatever is on the media, both walks of the update come to an end, and within as many rounds as there are clusters
in the boot region's count. -/
theorem updateBitmapWithin_eq {fuel newClusterCount : Nat} {boot : List UInt8} (dev : Device) (hfuel : 2 ^ 32 ≤ fuel) :
    updateBitmapWithin fuel data boot newClusterCount dev =
      some (eval (updateAllocationBitmapLength data boot newClusterCount) dev) := by
  have hplan : (do
      let geo ← bitmapGeometry dev.media.blockSize boot newClusterCount
      loop (rootRound fuel dev.media data geo) fuel (0, geo.rootCluster) : Bounded GrowError (Nat × List UInt8)) =
      Loops.ofExcept (planBitmapLength dev.media data boot newClusterCount) := by
    apply ofExcept_bind_congr
    intro geo hgeo
    have hcount : geo.oldClusterCount < 2 ^ 32 := readLe_lt (bitmapGeometry_eq_ok.mp hgeo).count
    exact rootRound_ends hcount (by omega) (Nat.zero_le _)
  rw [updateBitmapWithin, hplan, updateAllocationBitmapLength, eval_bind, eval_get]
  dsimp only
  rw [eval_bind, eval_lift]
  cases planBitmapLength dev.media data boot newClusterCount <;> rfl

/-- A step along the FAT from a cluster to the one that follows it. -/
def LinksTo (m : Media) (data : PartitionInfo) (g : VolumeGeometry) (cluster following : Nat) : Prop :=
  exfatFatEntry m data g.fatOffset cluster = .ok following ∧ following ≠ exfatClusterEoc ∧
    ¬ outsideClusters g.clusterCount following

theorem FindsBitmap.head_inside {current cluster offset : Nat} (h : FindsBitmap m data g current cluster offset) :
    ¬ outsideClusters g.clusterCount current := by
  cases h with
  | here inside _ => exact inside
  | next inside _ _ _ _ => exact inside

theorem FindsBitmap.linked {current cluster offset : Nat} (h : FindsBitmap m data g current cluster offset) :
    Relation.ReflTransGen (LinksTo m data g) current cluster := by
  induction h with
  | here => exact .refl
  | next _ _ link more finds ih => exact ih.head ⟨link, more, finds.head_inside⟩

/-- The walk over the bitmap only goes to clusters behind the ones it has seen. -/
theorem chainLoop_ascending (hg : SameGeometry geo g) {remaining length current n : Nat} {clusters : List Nat}
    (h : chainLoop m data geo.fatOffset geo.oldClusterCount remaining length current = .ok n)
    (hchain : FatChain m data g current clusters) :
    clusters.Pairwise (· < ·) ∧ ∀ c ∈ clusters, current ≤ c := by
  induction hchain generalizing remaining length with
  | last => simp
  | @next cluster following rest inside link more chain ih =>
      cases remaining with
      | zero => cases h
      | succ remaining =>
          obtain ⟨entry, hentry, h⟩ := bind_eq_ok.mp h
          rw [hg.fatOffset] at hentry
          cases Except.ok.inj (hentry.symm.trans link)
          rw [if_neg more] at h
          obtain ⟨_, hok, h⟩ := bind_eq_ok.mp h
          have hless := rejectIf_eq_ok.mp hok
          obtain ⟨hpair, hlow⟩ := ih h
          have hbehind : ∀ c ∈ rest, cluster < c := by
            intro c hc
            have := hlow c hc
            omega
          refine ⟨List.pairwise_cons.mpr ⟨hbehind, hpair⟩, ?_⟩
          simp only [List.mem_cons, forall_eq_or_imp]
          exact ⟨Nat.le_refl _, fun c hc => (hbehind c hc).le⟩

/-- Where the first byte of a cluster is on the media. -/
def clusterStart (m : Media) (data : PartitionInfo) (g : VolumeGeometry) (cluster : Nat) : Nat :=
  (data.startLba + g.heapOffset + (cluster - 2) * g.perCluster) * m.blockSize

/-- The media after the update of the bitmap entry at an offset of a directory cluster: the length field of the entry is
all that was written, and the clusters of the bitmap have room for what it says. -/
structure BitmapUpdated (m m' : Media) (data : PartitionInfo) (g : VolumeGeometry) (newClusterCount cluster offset first : Nat)
    (clusters : List Nat) : Prop where
  inRoot : Relation.ReflTransGen (LinksTo m data g) g.rootCluster cluster
  aligned : offset % 32 = 0
  insideCluster : offset + 32 ≤ g.perCluster * m.blockSize
  entryType : m.content (clusterStart m data g cluster + offset) = exfatAllocationBitmapEntry
  firstCluster : readLeU32 (clusterBytes m data g cluster) (offset + 20) = some first
  recorded : readLeU64 (clusterBytes m' data g cluster) (offset + 24) = some ((newClusterCount + 7) / 8)
  others : ∀ x, x < clusterStart m data g cluster + offset + 24 ∨ clusterStart m data g cluster + offset + 32 ≤ x →
    m'.content x = m.content x
  sameMedia : m' = { m with content := m'.content }
  chain : FatChain m data g first clusters
  distinct : clusters.Nodup
  counted : ∀ c ∈ clusters, 2 ≤ c ∧ c < g.clusterCount + 2
  room : (newClusterCount + 7) / 8 ≤ clusters.length * (g.perCluster * m.blockSize)

theorem eval_updateAllocationBitmapLength {boot : List UInt8} {newClusterCount : Nat} (dev : Device) :
    eval (updateAllocationBitmapLength data boot newClusterCount) dev =
      match planBitmapLength dev.media data boot newClusterCount with
      | .ok (lba, directory) => (.ok (), dev.push (blockWrite dev.media.blockSize lba directory))
      | .error e => (.error e, dev) := by
  rw [updateAllocationBitmapLength, eval_bind, eval_get]
  dsimp only
  rw [eval_bind, eval_lift]
  cases hplan : planBitmapLength dev.media data boot newClusterCount with
  | error e => rfl
  | ok planned => exact eval_writeBlocks _ (planBitmapLength_inside hplan)

/-- The boot region as a reader of the volume takes it, from what the update accepts. -/
theorem GeometryAccepted.describes {boot : List UInt8} {blockSize newClusterCount : Nat}
    (h : GeometryAccepted blockSize boot newClusterCount geo) : ∃ g, BootDescribes boot g ∧ SameGeometry geo g := by
  obtain ⟨fatLength, hlength, _, hinside⟩ := h.fatLength
  refine ⟨⟨geo.perCluster, geo.fatOffset, fatLength, geo.clusterHeapOffset, geo.oldClusterCount, geo.rootCluster⟩, ?_,
    ⟨rfl, rfl, rfl, rfl, rfl⟩⟩
  exact ⟨h.perCluster, h.fatOffset, hlength, h.heap, h.count, h.root, h.fatBehindBoot, hinside⟩

theorem planBitmapLength_updates {boot out : List UInt8} {newClusterCount lba : Nat}
    (h : planBitmapLength m data boot newClusterCount = .ok (lba, out)) (hn : newClusterCount < 2 ^ 32) :
    ∃ g cluster offset first clusters, BootDescribes boot g ∧
      BitmapUpdated m (m.apply [blockWrite m.blockSize lba out]) data g newClusterCount cluster offset first clusters := by
  obtain ⟨geo, hgeo, hloop⟩ := bind_eq_ok.mp h
  have hacc := bitmapGeometry_eq_ok.mp hgeo
  obtain ⟨g, hboot, hg⟩ := hacc.describes
  have hroot : ¬ outsideClusters geo.oldClusterCount geo.rootCluster := by
    have := hacc.rootInside
    unfold outsideClusters
    omega
  obtain ⟨cluster, offset, hfinds, hfound⟩ := rootLoop_findsBitmap hg hroot hloop
  rw [hg.rootCluster] at hfinds
  obtain ⟨first, length, n, hfirst, hlength, hwalk, -, -, hreq, hfit, hout⟩ := growBitmapEntry_eq_ok.mp hfound.grown
  obtain ⟨_, hinside, hwalk⟩ := bind_eq_ok.mp hwalk
  obtain ⟨clusters, hchain, hcount⟩ := chainLoop_fatChain hg (rejectIf_eq_ok.mp hinside) hwalk
  obtain ⟨hmod, hentry, -, -⟩ := hfound.out_eq
  have htype := (findBitmapEntry_some hfound.entry).2
  have hlba := (clusterLba_eq_ok.mp hfound.located).2
  rw [hg.heapOffset, hg.perCluster] at hlba
  have hlen : (clusterBytes m data g cluster).length = g.perCluster * m.blockSize := Media.length_blocks m _ _
  have hcontent : (m.apply [blockWrite m.blockSize lba out]).content =
      write m.content ⟨clusterStart m data g cluster + (offset + 24), toLeBytes 8 ((newClusterCount + 7) / 8)⟩ := by
    rw [Media.apply_content, applyWrites_cons, applyWrites_nil, hout, hlba, ← hacc.required]
    exact write_splice_window m.content _ (by rw [length_toLeBytes, ← hlen]; exact hfit)
  refine ⟨g, cluster, offset, first, clusters, hboot, hfinds.linked, hmod, hlen ▸ hentry, ?_, hfirst, ?_, ?_, rfl, hchain,
    ?_, ?_, ?_⟩
  · have hget := getElem?_window m.content (clusterStart m data g cluster)
      (show offset < g.perCluster * m.blockSize by omega)
    exact Option.some.inj (hget.symm.trans htype)
  · have hwritten : clusterBytes (m.apply [blockWrite m.blockSize lba out]) data g cluster = out := by
      rw [clusterBytes, hlba]
      apply Media.blocks_apply_self
      rw [hfound.out_eq.2.2.2, hlen]
    rw [hwritten, hout, hacc.required]
    exact readLe_splice_self hfit (by omega)
  · intro x hx
    rw [hcontent, write_frame]
    simp only [Write.covers, Write.stop, length_toLeBytes]
    omega
  · exact (chainLoop_ascending hg hwalk hchain).1.imp fun hlt => hlt.ne
  · intro c hc
    have hin := hchain.inside c hc
    have hle : saturatingAdd 32 g.clusterCount 1 ≤ g.clusterCount + 1 := Nat.min_le_left _ _
    unfold outsideClusters at hin
    omega
  · have hbytes : geo.clusterBytes = g.perCluster * m.blockSize := by rw [hacc.clusterBytes, hg.perCluster]
    have hpos : 0 < geo.clusterBytes := by omega
    have hround := Nat.lt_div_mul_add hpos (a := geo.requiredBitmapBytes + (geo.clusterBytes - 1))
    have hclusters : n = clusters.length := by rw [hcount, Nat.zero_add]
    rw [← hacc.clusters, ← hreq, hclusters, hacc.required, hbytes] at hround
    omega

theorem updateAllocationBitmapLength_effect (m : Media) (data : PartitionInfo) (boot : List UInt8) (newClusterCount : UInt32) :
    ∃ result dev,
      (∀ fuel, 2 ^ 32 ≤ fuel →
        updateBitmapWithin fuel data boot newClusterCount.toNat ⟨m, []⟩ = some (result, dev)) ∧
      (∀ reason, result = .error (.invalid reason) → dev = ⟨m, []⟩) ∧
      (result = .ok () → ∃ g cluster offset first clusters, BootDescribes boot g ∧
        BitmapUpdated m dev.media data g newClusterCount.toNat cluster offset first clusters) := by
  refine ⟨(eval (updateAllocationBitmapLength data boot newClusterCount.toNat) ⟨m, []⟩).1,
    (eval (updateAllocationBitmapLength data boot newClusterCount.toNat) ⟨m, []⟩).2,
    fun fuel hfuel => updateBitmapWithin_eq _ hfuel, ?_⟩
  rw [eval_updateAllocationBitmapLength]
  cases hplan : planBitmapLength m data boot newClusterCount.toNat with
  | error e =>
      exact ⟨fun _ _ => rfl, fun hok => nomatch hok⟩
  | ok planned =>
      refine ⟨fun reason herr => (nomatch herr), fun _ => ?_⟩
      exact planBitmapLength_updates hplan newClusterCount.toNat_lt

theorem enlargedRelease_bitmap_updated :
    ∃ dev g cluster offset first clusters,
      updateBitmapWithin (2 ^ 32) ⟨0, 3, 43⟩ (enlargedRelease.media.blocks 3 12) 31 ⟨enlargedRelease.media, []⟩ =
        some (.ok (), dev) ∧
      BitmapUpdated enlargedRelease.media dev.media ⟨0, 3, 43⟩ g 31 cluster offset first clusters := by
  obtain ⟨result, dev, hrun, -, hok⟩ :=
    updateAllocationBitmapLength_effect enlargedRelease.media ⟨0, 3, 43⟩ (enlargedRelease.media.blocks 3 12) 31
  have hfirst := hrun (2 ^ 32) (Nat.le_refl _)
  have hplan : (planBitmapLength enlargedRelease.media ⟨0, 3, 43⟩ (enlargedRelease.media.blocks 3 12) 31).toOption.isSome =
      true := by decide +kernel
  have hresult : result = .ok () := by
    rw [updateBitmapWithin_eq _ (Nat.le_refl _), eval_updateAllocationBitmapLength] at hfirst
    cases hplanned : planBitmapLength enlargedRelease.media ⟨0, 3, 43⟩ (enlargedRelease.media.blocks 3 12) 31 with
    | error e =>
        rw [hplanned] at hplan
        cases hplan
    | ok planned =>
        obtain ⟨lba, directory⟩ := planned
        have hcount : (31 : UInt32).toNat = 31 := rfl
        simp only [hcount, hplanned, Option.some.injEq, Prod.mk.injEq] at hfirst
        exact hfirst.1.symm
  obtain ⟨g, cluster, offset, first, clusters, -, hupdated⟩ := hok hresult
  exact ⟨dev, g, cluster, offset, first, clusters, hresult ▸ hfirst, hupdated⟩

end NextBoot.MediaGrow
