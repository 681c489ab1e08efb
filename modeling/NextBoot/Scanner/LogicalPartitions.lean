import Mathlib.Data.List.Chain
import NextBoot.Bytes
import NextBoot.Words

namespace NextBoot.Scanner

open Words Bytes

def mbrPartitionTableOffset : Nat := 0x1be

def mbrPartitionEntrySize : Nat := 16

def mbrPrimaryPartitionCount : Nat := 4

def mbrLogicalPartitionNumberBase : Nat := 5

def mbrMaxLogicalPartitions : Nat := 128

inductive PartitionFormat where
  | mbr
  | gpt
deriving DecidableEq, Repr

structure PartitionCandidate where
  number : Nat
  startLba : Nat
  blockCount : Nat
  format : PartitionFormat
deriving DecidableEq, Repr

structure PartitionRange where
  startLba : Nat
  blockCount : Nat
deriving DecidableEq, Repr

structure MbrPartitionEntry where
  partitionType : UInt8
  startLba : Nat
  totalSectors : Nat
deriving DecidableEq, Repr

/-- A disk as its block protocol shows it: the blocks that can be read, also of those that it has. -/
structure Disk where
  totalBlocks : Nat
  block : Nat → Option (List UInt8)

/-- Whether a list of some length can be made to hold one item more. -/
structure Memory where
  extended : Nat → Bool
  visited : Nat → Bool
  out : Nat → Bool

def hasMbrSignature (block : List UInt8) : Bool := block[510]? = some 0x55 ∧ block[511]? = some 0xaa

def isExtendedMbrPartition (partitionType : UInt8) : Bool := partitionType = 0x05 ∨ partitionType = 0x0f ∨ partitionType = 0x85

def rangeContainsLba (range : PartitionRange) (lba : Nat) : Bool :=
  range.blockCount ≠ 0 ∧ range.startLba ≤ lba ∧ lba - range.startLba < range.blockCount

def rangeContainsExtent (range : PartitionRange) (startLba blockCount : Nat) : Bool :=
  if blockCount = 0 ∨ startLba < range.startLba then false
  else
    match checkedAdd 64 startLba blockCount, checkedAdd 64 range.startLba range.blockCount with
    | some endLba, some rangeEndLba => endLba ≤ rangeEndLba
    | _, _ => false

def rangeFitsDisk (startLba blockCount totalBlocks : Nat) : Bool :=
  blockCount ≠ 0 ∧ (checkedAdd 64 startLba blockCount).any (· ≤ totalBlocks)

def readOneBlock (disk : Disk) (lba : Nat) : Option (List UInt8) := if disk.totalBlocks ≤ lba then none else disk.block lba

def parseMbrPartition (block : List UInt8) (index : Nat) : Option MbrPartitionEntry :=
  if mbrPrimaryPartitionCount ≤ index ∨ hasMbrSignature block = false then none
  else do
    let offset := mbrPartitionTableOffset + index * mbrPartitionEntrySize
    let partitionType ← block[offset + 4]?
    if partitionType = 0 then none
    else do
      let startLba ← readLe 4 block (offset + 8)
      let totalSectors ← readLe 4 block (offset + 12)
      pure ⟨partitionType, startLba, totalSectors⟩

def mbrEntries (block : List UInt8) : List MbrPartitionEntry :=
  (List.range mbrPrimaryPartitionCount).filterMap (parseMbrPartition block)

def findLogicalMbrPartition (block : List UInt8) : Option MbrPartitionEntry :=
  (mbrEntries block).find? fun partition =>
    partition.partitionType ≠ 0xee ∧ isExtendedMbrPartition partition.partitionType = false ∧ partition.startLba ≠ 0 ∧
      partition.totalSectors ≠ 0

/-- The first link of a block that leads on; a sum that overflows ends the search. -/
def findNextEbrLba (block : List UInt8) (extended : PartitionRange) (currentEbrLba totalBlocks : Nat) : Option Nat :=
  search (mbrEntries block)
where
  search : List MbrPartitionEntry → Option Nat
  | [] => none
  | partition :: partitions =>
      if isExtendedMbrPartition partition.partitionType = false ∨ partition.startLba = 0 ∨ partition.totalSectors = 0 then
        search partitions
      else do
        let nextEbrLba ← checkedAdd 64 extended.startLba partition.startLba
        if nextEbrLba = currentEbrLba ∨ totalBlocks ≤ nextEbrLba ∨ rangeContainsLba extended nextEbrLba = false then
          search partitions
        else some nextEbrLba

section Model

variable (disk : Disk) (memory : Memory) (extended : PartitionRange)

/-- The place of the logical partition of a block, where it is one that is reported. -/
def logicalPlace (currentEbrLba : Nat) (ebr : List UInt8) : Option PartitionRange := do
  let logical ← findLogicalMbrPartition ebr
  let startLba ← checkedAdd 64 currentEbrLba logical.startLba
  if rangeContainsExtent extended startLba logical.totalSectors ∧
      rangeFitsDisk startLba logical.totalSectors disk.totalBlocks then
    some ⟨startLba, logical.totalSectors⟩
  else none

/-- What a walk along a chain of blocks has visited, read and reported, and the next number to give. -/
structure EbrWalk where
  visited : List Nat
  reads : List Nat
  out : List PartitionCandidate
  number : Nat

/-- One round of the loop, and the block that the next one is to visit. -/
def ebrRound (w : EbrWalk) (currentEbrLba : Nat) : EbrWalk × Option Nat :=
  if disk.totalBlocks ≤ currentEbrLba ∨ rangeContainsLba extended currentEbrLba = false ∨ currentEbrLba ∈ w.visited then
    (w, none)
  else if memory.visited w.visited.length = false then (w, none)
  else
    let w := { w with visited := w.visited ++ [currentEbrLba], reads := w.reads ++ [currentEbrLba] }
    match readOneBlock disk currentEbrLba with
    | none => (w, none)
    | some ebr =>
        if hasMbrSignature ebr = false then (w, none)
        else
          let next := findNextEbrLba ebr extended currentEbrLba disk.totalBlocks
          match logicalPlace disk extended currentEbrLba ebr with
          | none => (w, next)
          | some place =>
              if memory.out w.out.length = false then (w, none)
              else
                ({ w with
                  out := w.out ++ [⟨w.number, place.startLba, place.blockCount, .mbr⟩]
                  number := saturatingAdd 32 w.number 1 }, next)

def ebrLoop : Nat → EbrWalk → Nat → EbrWalk
  | 0, w, _ => w
  | rounds + 1, w, currentEbrLba =>
      match ebrRound disk memory extended w currentEbrLba with
      | (w, some next) => ebrLoop rounds w next
      | (w, none) => w

def discoverMbrLogicalPartitions (out : List PartitionCandidate) (number : Nat) : EbrWalk :=
  if extended.blockCount = 0 ∨ rangeContainsLba extended extended.startLba = false then ⟨[], [], out, number⟩
  else ebrLoop disk memory extended mbrMaxLogicalPartitions ⟨[], [], out, number⟩ extended.startLba

/-- The primary partitions and the ranges of the extended ones. -/
def primaryLoop (first : List UInt8) : List Nat → List PartitionCandidate → List PartitionRange →
    List PartitionCandidate × List PartitionRange
  | [], out, ranges => (out, ranges)
  | index :: indices, out, ranges =>
      match parseMbrPartition first index with
      | none => primaryLoop first indices out ranges
      | some partition =>
          if partition.partitionType = 0xee ∨ partition.startLba = 0 ∨ partition.totalSectors = 0 then
            primaryLoop first indices out ranges
          else if isExtendedMbrPartition partition.partitionType then
            if memory.extended ranges.length = false then primaryLoop first indices out ranges
            else primaryLoop first indices out (ranges ++ [⟨partition.startLba, partition.totalSectors⟩])
          else if memory.out out.length = false then (out, ranges)
          else primaryLoop first indices (out ++ [⟨index + 1, partition.startLba, partition.totalSectors, .mbr⟩]) ranges

def logicalLoop : List PartitionRange → List PartitionCandidate → Nat → List PartitionCandidate
  | [], out, _ => out
  | extended :: ranges, out, number =>
      let w := discoverMbrLogicalPartitions disk memory extended out number
      logicalLoop ranges w.out w.number

def discoverMbrPartitions (first : List UInt8) : List PartitionCandidate :=
  if hasMbrSignature first = false then []
  else
    let (out, ranges) := primaryLoop memory first (List.range mbrPrimaryPartitionCount) [] []
    logicalLoop disk memory ranges out mbrLogicalPartitionNumberBase

end Model

variable {disk : Disk} {memory : Memory} {extended : PartitionRange}

def PartitionCandidate.place (p : PartitionCandidate) : PartitionRange := ⟨p.startLba, p.blockCount⟩

/-- The place of the logical partition that a block of the chain describes. -/
def placeAt (disk : Disk) (extended : PartitionRange) (lba : Nat) : Option PartitionRange := do
  let ebr ← readOneBlock disk lba
  if hasMbrSignature ebr = false then none else logicalPlace disk extended lba ebr

/-- The chain goes on from a block to another one. -/
def Follows (disk : Disk) (extended : PartitionRange) (lba next : Nat) : Prop :=
  ∃ ebr, readOneBlock disk lba = some ebr ∧ hasMbrSignature ebr = true ∧
    findNextEbrLba ebr extended lba disk.totalBlocks = some next

/-- The place is in the range and on the disk. -/
structure Within (disk : Disk) (extended place : PartitionRange) : Prop where
  nonempty : 0 < place.blockCount
  low : extended.startLba ≤ place.startLba
  high : place.startLba + place.blockCount ≤ extended.startLba + extended.blockCount
  onDisk : place.startLba + place.blockCount ≤ disk.totalBlocks

theorem logicalPlace_within {lba : Nat} {ebr : List UInt8} {place : PartitionRange}
    (h : logicalPlace disk extended lba ebr = some place) : Within disk extended place := by
  obtain ⟨logical, -, h⟩ := Option.bind_eq_some_iff.mp h
  obtain ⟨startLba, -, h⟩ := Option.bind_eq_some_iff.mp h
  split at h
  · next hplace =>
      cases h
      obtain ⟨hrange, hfits⟩ := hplace
      simp only [rangeFitsDisk, decide_eq_true_eq, Option.any_eq_true] at hfits
      obtain ⟨hpos, endLba, hend, hdisk⟩ := hfits
      obtain ⟨-, rfl⟩ := checkedAdd_eq_some.mp hend
      rw [rangeContainsExtent] at hrange
      split at hrange
      · cases hrange
      · next hlow =>
          split at hrange
          · next endLba rangeEndLba hend hrangeEnd =>
              obtain ⟨-, rfl⟩ := checkedAdd_eq_some.mp hend
              obtain ⟨-, rfl⟩ := checkedAdd_eq_some.mp hrangeEnd
              have hhigh := of_decide_eq_true hrange
              exact ⟨by dsimp only; omega, by dsimp only; omega, hhigh, hdisk⟩
          · cases hrange
  · cases h

/-- The blocks read are those of the chain, in their order, and none is read twice. -/
structure ChainRead (disk : Disk) (extended : PartitionRange) (reads : List Nat) : Prop where
  distinct : reads.Nodup
  starts : ∀ lba ∈ reads.head?, lba = extended.startLba
  chain : reads.IsChain (Follows disk extended)
  onDisk : ∀ lba ∈ reads, lba < disk.totalBlocks ∧ extended.startLba ≤ lba ∧
    lba < extended.startLba + extended.blockCount

/-- A walk that starts from some candidates and a number: it reads the chain, and the partitions found in the blocks of the
chain have numbers one after the other, in that order. -/
structure WalkSound (disk : Disk) (memory : Memory) (extended : PartitionRange) (out : List PartitionCandidate)
    (number : Nat) (w : EbrWalk) (found : List PartitionCandidate) : Prop where
  out_eq : w.out = out ++ found
  numbered : found.map (·.number) = List.range' number found.length
  nextNumber : w.number = number + found.length
  inOrder : found.map (·.place) <+: w.reads.filterMap (placeAt disk extended)
  complete : (∀ n, memory.out n = true) → found.map (·.place) = w.reads.filterMap (placeAt disk extended)
  read : ChainRead disk extended w.reads

/-- A walk so far: what it has found is all there is in the blocks it has read. -/
structure Walked (disk : Disk) (extended : PartitionRange) (out : List PartitionCandidate) (number : Nat) (w : EbrWalk)
    (found : List PartitionCandidate) : Prop where
  out_eq : w.out = out ++ found
  numbered : found.map (·.number) = List.range' number found.length
  nextNumber : w.number = number + found.length
  places : found.map (·.place) = w.reads.filterMap (placeAt disk extended)
  visited : w.visited = w.reads
  read : ChainRead disk extended w.reads

/-- The block is the next one of the chain. -/
def Leads (disk : Disk) (extended : PartitionRange) (reads : List Nat) (current : Nat) : Prop :=
  (∀ lba ∈ (reads ++ [current]).head?, lba = extended.startLba) ∧ (reads ++ [current]).IsChain (Follows disk extended)

variable {out found : List PartitionCandidate} {number current following : Nat} {w : EbrWalk} {place : PartitionRange}
  {reads : List Nat}

theorem Walked.sound (h : Walked disk extended out number w found) : WalkSound disk memory extended out number w found :=
  ⟨h.out_eq, h.numbered, h.nextNumber, h.places ▸ List.prefix_refl _, fun _ => h.places, h.read⟩

theorem Leads.next (h : Leads disk extended reads current) (hfollows : Follows disk extended current following) :
    Leads disk extended (reads ++ [current]) following := by
  constructor
  · intro lba hlba
    apply h.1
    cases reads <;> exact hlba
  · rw [List.append_assoc]
    exact List.isChain_append_cons_cons.mpr ⟨h.2, hfollows, List.isChain_singleton following⟩

theorem ChainRead.visit (h : ChainRead disk extended reads) (hleads : Leads disk extended reads current)
    (hdisk : current < disk.totalBlocks) (hrange : rangeContainsLba extended current = true) (hnew : current ∉ reads) :
    ChainRead disk extended (reads ++ [current]) := by
  refine ⟨?_, hleads.1, hleads.2, ?_⟩
  · rw [List.nodup_append]
    refine ⟨h.distinct, by simp, ?_⟩
    rintro a ha b hb rfl
    exact hnew (List.mem_singleton.mp hb ▸ ha)
  · intro lba hlba
    rcases List.mem_append.mp hlba with hlba | hlba
    · exact h.onDisk lba hlba
    · rw [List.mem_singleton.mp hlba]
      simp only [rangeContainsLba, decide_eq_true_eq] at hrange
      omega

theorem Walked.length_found (h : Walked disk extended out number w found) : found.length ≤ w.reads.length := by
  have hlen := congrArg List.length h.places
  rw [List.length_map] at hlen
  rw [hlen]
  exact List.length_filterMap_le _ _

/-- A block is visited of which no partition is reported. -/
theorem Walked.visit (h : Walked disk extended out number w found)
    (hread : ChainRead disk extended (w.reads ++ [current])) (hplace : placeAt disk extended current = none) :
    Walked disk extended out number { w with visited := w.visited ++ [current], reads := w.reads ++ [current] } found := by
  refine ⟨h.out_eq, h.numbered, h.nextNumber, ?_, by rw [h.visited], hread⟩
  rw [h.places, List.filterMap_append, List.filterMap_cons, hplace, List.filterMap_nil, List.append_nil]

/-- A block is visited and its partition is reported. -/
theorem Walked.report (h : Walked disk extended out number w found)
    (hread : ChainRead disk extended (w.reads ++ [current])) (hplace : placeAt disk extended current = some place)
    (hnumber : w.number + 1 < 2 ^ 32) :
    Walked disk extended out number
      ⟨w.visited ++ [current], w.reads ++ [current], w.out ++ [⟨w.number, place.startLba, place.blockCount, .mbr⟩],
        saturatingAdd 32 w.number 1⟩ (found ++ [⟨w.number, place.startLba, place.blockCount, .mbr⟩]) := by
  refine ⟨?_, ?_, ?_, ?_, by rw [h.visited], hread⟩
  · rw [h.out_eq, List.append_assoc]
  · rw [List.map_append, h.numbered, List.length_append, List.length_singleton, List.range'_concat, h.nextNumber,
      Nat.one_mul]
    rfl
  · have hadd : saturatingAdd 32 w.number 1 = w.number + 1 := Nat.min_eq_left (by omega)
    rw [List.length_append, List.length_singleton, ← Nat.add_assoc, ← h.nextNumber]
    exact hadd
  · rw [List.map_append, h.places, List.filterMap_append, List.filterMap_cons, hplace, List.filterMap_nil]
    rfl

/-- A block is visited and there is no memory left to report its partition. -/
theorem Walked.giveUp (h : Walked disk extended out number w found)
    (hread : ChainRead disk extended (w.reads ++ [current])) (hmemory : memory.out w.out.length = false) :
    WalkSound disk memory extended out number
      { w with visited := w.visited ++ [current], reads := w.reads ++ [current] } found := by
  refine ⟨h.out_eq, h.numbered, h.nextNumber, ?_, ?_, hread⟩
  · rw [h.places, List.filterMap_append]
    exact List.prefix_append _ _
  · intro hall
    rw [hall] at hmemory
    cases hmemory

theorem Walked.round (h : Walked disk extended out number w found) (hleads : Leads disk extended w.reads current)
    (hnumber : w.number + 1 < 2 ^ 32) :
    ∃ found', WalkSound disk memory extended out number (ebrRound disk memory extended w current).1 found' ∧
      (ebrRound disk memory extended w current).1.reads.length ≤ w.reads.length + 1 ∧
      ∀ following, (ebrRound disk memory extended w current).2 = some following →
        Walked disk extended out number (ebrRound disk memory extended w current).1 found' ∧
          Leads disk extended (ebrRound disk memory extended w current).1.reads following := by
  rw [ebrRound]
  split
  · exact ⟨found, h.sound, Nat.le_succ _, fun _ hnext => nomatch hnext⟩
  · next hvisit =>
      simp only [not_or, Nat.not_le, Bool.not_eq_false] at hvisit
      obtain ⟨hdisk, hrange, hnew⟩ := hvisit
      rw [h.visited] at hnew
      have hread := h.read.visit hleads hdisk hrange hnew
      have hlength : (w.reads ++ [current]).length ≤ w.reads.length + 1 := by rw [List.length_append, List.length_singleton]
      split
      · exact ⟨found, h.sound, Nat.le_succ _, fun _ hnext => nomatch hnext⟩
      · dsimp only
        cases hblock : readOneBlock disk current with
        | none =>
            have hplace : placeAt disk extended current = none := by rw [placeAt, hblock]; rfl
            exact ⟨found, (h.visit hread hplace).sound, hlength, fun _ hnext => nomatch hnext⟩
        | some ebr =>
            dsimp only
            have hat : placeAt disk extended current =
                if hasMbrSignature ebr = false then none else logicalPlace disk extended current ebr := by
              rw [placeAt, hblock]
              rfl
            split
            · next hsignature =>
                rw [if_pos hsignature] at hat
                exact ⟨found, (h.visit hread hat).sound, hlength, fun _ hnext => nomatch hnext⟩
            · next hsignature =>
                rw [if_neg hsignature] at hat
                have hfollow : ∀ following, findNextEbrLba ebr extended current disk.totalBlocks = some following →
                    Leads disk extended (w.reads ++ [current]) following :=
                  fun following hnext => hleads.next ⟨ebr, hblock, Bool.not_eq_false _ ▸ hsignature, hnext⟩
                cases hplace : logicalPlace disk extended current ebr with
                | none =>
                    rw [hplace] at hat
                    have hvisited := h.visit hread hat
                    exact ⟨found, hvisited.sound, hlength, fun _ hnext => ⟨hvisited, hfollow _ hnext⟩⟩
                | some place =>
                    rw [hplace] at hat
                    dsimp only
                    split
                    · next hmemory => exact ⟨found, h.giveUp hread hmemory, hlength, fun _ hnext => nomatch hnext⟩
                    · have hreported := h.report hread hat hnumber
                      exact ⟨_, hreported.sound, hlength, fun _ hnext => ⟨hreported, hfollow _ hnext⟩⟩

theorem Walked.loop (h : Walked disk extended out number w found) (hleads : Leads disk extended w.reads current)
    {rounds : Nat} (hnumber : number + w.reads.length + rounds < 2 ^ 32) :
    ∃ found', WalkSound disk memory extended out number (ebrLoop disk memory extended rounds w current) found' ∧
      (ebrLoop disk memory extended rounds w current).reads.length ≤ w.reads.length + rounds := by
  induction rounds generalizing w found current with
  | zero => exact ⟨found, h.sound, Nat.le_refl _⟩
  | succ rounds ih =>
      have hfound := h.length_found
      have hnow := h.nextNumber
      obtain ⟨found', hsound, hlength, hnext⟩ := @Walked.round disk memory extended out found number current w h hleads
        (by omega)
      rw [ebrLoop]
      cases hround : ebrRound disk memory extended w current with
      | mk w' following =>
          rw [hround] at hsound hlength hnext
          dsimp only at hsound hlength hnext
          cases following with
          | none => exact ⟨found', hsound, hlength.trans (by omega)⟩
          | some following =>
              obtain ⟨hwalked, hleads'⟩ := hnext following rfl
              obtain ⟨all, hall, hend⟩ := ih hwalked hleads' (by omega)
              exact ⟨all, hall, hend.trans (by omega)⟩

theorem discoverMbrLogicalPartitions_walk (disk : Disk) (memory : Memory) (extended : PartitionRange)
    (out : List PartitionCandidate) {number : Nat} (hnumber : number + mbrMaxLogicalPartitions < 2 ^ 32) :
    ∃ found, WalkSound disk memory extended out number (discoverMbrLogicalPartitions disk memory extended out number) found ∧
      (discoverMbrLogicalPartitions disk memory extended out number).reads.length ≤ mbrMaxLogicalPartitions := by
  have hstart : Walked disk extended out number ⟨[], [], out, number⟩ [] :=
    ⟨(List.append_nil out).symm, rfl, rfl, rfl, rfl, List.nodup_nil, fun _ h => (nomatch h), List.isChain_nil,
      fun _ h => (nomatch h)⟩
  rw [discoverMbrLogicalPartitions]
  split
  · exact ⟨[], hstart.sound, Nat.zero_le _⟩
  · have hleads : Leads disk extended [] extended.startLba :=
      ⟨fun lba hlba => (Option.some.inj hlba).symm, List.isChain_singleton _⟩
    have hloop := @Walked.loop disk memory extended out [] number extended.startLba _ hstart hleads
      mbrMaxLogicalPartitions (by simpa using hnumber)
    rwa [List.length_nil, Nat.zero_add] at hloop

theorem WalkSound.within (h : WalkSound disk memory extended out number w found) :
    ∀ p ∈ found, Within disk extended p.place := by
  intro p hp
  obtain ⟨lba, -, hplace⟩ := List.mem_filterMap.mp (h.inOrder.subset (List.mem_map_of_mem hp))
  obtain ⟨ebr, -, hplace⟩ := Option.bind_eq_some_iff.mp hplace
  split at hplace
  · cases hplace
  · exact logicalPlace_within hplace

theorem logicalLoop_spec {ranges : List PartitionRange} (hnumber : number + mbrMaxLogicalPartitions * ranges.length < 2 ^ 32) :
    ∃ found, logicalLoop disk memory ranges out number = out ++ found ∧
      found.map (·.number) = List.range' number found.length ∧
      ∀ p ∈ found, ∃ extended ∈ ranges, Within disk extended p.place := by
  induction ranges generalizing out number with
  | nil => exact ⟨[], (List.append_nil out).symm, rfl, fun _ h => (nomatch h)⟩
  | cons extended ranges ih =>
      rw [List.length_cons, Nat.mul_succ] at hnumber
      obtain ⟨found, hwalk, hlength⟩ := @discoverMbrLogicalPartitions_walk disk memory extended out number (by omega)
      have hfound : found.length ≤ mbrMaxLogicalPartitions := by
        have hplaces := hwalk.inOrder.length_le
        rw [List.length_map] at hplaces
        exact hplaces.trans ((List.length_filterMap_le _ _).trans hlength)
      obtain ⟨more, hmore, hnumbers, hwithin⟩ := @ih (discoverMbrLogicalPartitions disk memory extended out number).out
        (discoverMbrLogicalPartitions disk memory extended out number).number (by rw [hwalk.nextNumber]; omega)
      refine ⟨found ++ more, ?_, ?_, ?_⟩
      · rw [logicalLoop, hmore, hwalk.out_eq, List.append_assoc]
      · rw [List.map_append, hwalk.numbered, hnumbers, hwalk.nextNumber, List.length_append, ← List.range'_append_1]
      · intro p hp
        rcases List.mem_append.mp hp with hp | hp
        · exact ⟨extended, List.mem_cons_self, hwalk.within p hp⟩
        · obtain ⟨range, hrange, hplace⟩ := hwithin p hp
          exact ⟨range, List.mem_cons_of_mem _ hrange, hplace⟩

theorem primaryLoop_spec {first : List UInt8} {indices : List Nat} {ranges : List PartitionRange}
    (hindices : ∀ index ∈ indices, index < mbrPrimaryPartitionCount)
    (hout : ∀ p ∈ out, p.number < mbrLogicalPartitionNumberBase) :
    (∀ p ∈ (primaryLoop memory first indices out ranges).1, p.number < mbrLogicalPartitionNumberBase) ∧
      (primaryLoop memory first indices out ranges).2.length ≤ ranges.length + indices.length := by
  induction indices generalizing out ranges with
  | nil => exact ⟨hout, Nat.le_refl _⟩
  | cons index indices ih =>
      rw [List.forall_mem_cons] at hindices
      have hskip : ∀ ranges' : List PartitionRange, ranges'.length ≤ ranges.length + 1 →
          (∀ p ∈ (primaryLoop memory first indices out ranges').1, p.number < mbrLogicalPartitionNumberBase) ∧
            (primaryLoop memory first indices out ranges').2.length ≤ ranges.length + (index :: indices).length := by
        intro ranges' hle
        obtain ⟨hnumbers, hlength⟩ := @ih out ranges' hindices.2 hout
        rw [List.length_cons]
        exact ⟨hnumbers, by omega⟩
      rw [primaryLoop]
      cases parseMbrPartition first index with
      | none => exact hskip ranges (Nat.le_succ _)
      | some partition =>
          dsimp only
          split
          · exact hskip ranges (Nat.le_succ _)
          · split
            · split
              · exact hskip ranges (Nat.le_succ _)
              · exact hskip _ (by rw [List.length_append, List.length_singleton])
            · split
              · exact ⟨hout, Nat.le_add_right _ _⟩
              · have hnumber : index + 1 < mbrLogicalPartitionNumberBase := Nat.succ_lt_succ hindices.1
                have hout' : ∀ p ∈ out ++ [⟨index + 1, partition.startLba, partition.totalSectors, .mbr⟩],
                    p.number < mbrLogicalPartitionNumberBase := by
                  intro p hp
                  rcases List.mem_append.mp hp with hp | hp
                  · exact hout p hp
                  · rw [List.mem_singleton.mp hp]
                    exact hnumber
                obtain ⟨hnumbers, hlength⟩ := @ih _ ranges hindices.2 hout'
                rw [List.length_cons]
                exact ⟨hnumbers, by omega⟩

/-- The ranges of the extended partitions of a disk's first block. -/
def extendedRanges (memory : Memory) (first : List UInt8) : List PartitionRange :=
  (primaryLoop memory first (List.range mbrPrimaryPartitionCount) [] []).2

theorem discoverMbrPartitions_spec (disk : Disk) (memory : Memory) (first : List UInt8) :
    ∃ primaries logicals, discoverMbrPartitions disk memory first = primaries ++ logicals ∧
      (∀ p ∈ primaries, p.number < mbrLogicalPartitionNumberBase) ∧
      logicals.map (·.number) = List.range' mbrLogicalPartitionNumberBase logicals.length ∧
      ∀ p ∈ logicals, ∃ extended ∈ extendedRanges memory first, Within disk extended p.place := by
  rw [discoverMbrPartitions]
  split
  · exact ⟨[], [], rfl, fun _ h => (nomatch h), rfl, fun _ h => (nomatch h)⟩
  · obtain ⟨hprimaries, hlength⟩ := @primaryLoop_spec memory [] first (List.range mbrPrimaryPartitionCount) []
      (fun _ hindex => List.mem_range.mp hindex) (fun _ h => nomatch h)
    rw [List.length_nil, List.length_range, Nat.zero_add] at hlength
    have hbound : mbrLogicalPartitionNumberBase + mbrMaxLogicalPartitions * mbrPrimaryPartitionCount < 2 ^ 32 := by decide
    have hmul := Nat.mul_le_mul_left mbrMaxLogicalPartitions hlength
    obtain ⟨found, hfound, hnumbers, hwithin⟩ := @logicalLoop_spec disk memory
      (primaryLoop memory first (List.range mbrPrimaryPartitionCount) [] []).1 mbrLogicalPartitionNumberBase
      (extendedRanges memory first) (lt_of_le_of_lt (Nat.add_le_add_left hmul _) hbound)
    exact ⟨_, found, hfound, hprimaries, hnumbers, hwithin⟩

/-- The walk along any chain, whatever is on the disk, and the numbers over the chains of all extended partitions. -/
theorem discoverMbrLogicalPartitions_sound (disk : Disk) (memory : Memory) :
    (∀ extended out number, number + mbrMaxLogicalPartitions < 2 ^ 32 →
      ∃ found, WalkSound disk memory extended out number (discoverMbrLogicalPartitions disk memory extended out number) found ∧
        (discoverMbrLogicalPartitions disk memory extended out number).reads.length ≤ mbrMaxLogicalPartitions ∧
        ∀ p ∈ found, Within disk extended p.place) ∧
      ∀ first, ∃ primaries logicals, discoverMbrPartitions disk memory first = primaries ++ logicals ∧
        (∀ p ∈ primaries, p.number < mbrLogicalPartitionNumberBase) ∧
        logicals.map (·.number) = List.range' mbrLogicalPartitionNumberBase logicals.length ∧
        ∀ p ∈ logicals, ∃ extended ∈ extendedRanges memory first, Within disk extended p.place := by
  refine ⟨fun extended out number hnumber => ?_, discoverMbrPartitions_spec disk memory⟩
  obtain ⟨found, hwalk, hlength⟩ := discoverMbrLogicalPartitions_walk disk memory extended out hnumber
  exact ⟨found, hwalk, hlength, hwalk.within⟩

section Chain

def mbrEntryBytes (partitionType : UInt8) (startLba totalSectors : Nat) : List UInt8 :=
  [0, 0, 0, 0, partitionType, 0, 0, 0] ++ toLeBytes 4 startLba ++ toLeBytes 4 totalSectors

def ebrBlock (logical next : List UInt8) : List UInt8 :=
  splice (splice (List.replicate 512 0) mbrPartitionTableOffset (logical ++ next)) 510 [0x55, 0xaa]

/-- A chain of two blocks, of which the second one leads back to the first. -/
def chainDisk : Disk where
  totalBlocks := 100000
  block := fun lba =>
    if lba = 10000 then some (ebrBlock (mbrEntryBytes 0x07 63 1000) (mbrEntryBytes 0x05 2000 8000))
    else if lba = 12000 then some (ebrBlock (mbrEntryBytes 0x83 128 500) (mbrEntryBytes 0x05 0 2000))
    else none

def chainRange : PartitionRange := ⟨10000, 10000⟩

def plentiful : Memory := ⟨fun _ => true, fun _ => true, fun _ => true⟩

theorem chainDisk_walked :
    (discoverMbrLogicalPartitions chainDisk plentiful chainRange [] 5).out =
        [⟨5, 10063, 1000, .mbr⟩, ⟨6, 12128, 500, .mbr⟩] ∧
      ∃ found, WalkSound chainDisk plentiful chainRange [] 5
        (discoverMbrLogicalPartitions chainDisk plentiful chainRange [] 5) found := by
  constructor
  · decide +kernel
  · obtain ⟨found, hwalk, -⟩ := (discoverMbrLogicalPartitions_sound chainDisk plentiful).1 chainRange [] 5 (by decide)
    exact ⟨found, hwalk⟩

end Chain

end NextBoot.Scanner
