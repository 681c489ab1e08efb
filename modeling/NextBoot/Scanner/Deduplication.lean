import NextBoot.Dedup
import NextBoot.Strings
import Mathlib.Data.List.Sort
import Mathlib.Data.Char
import Mathlib.Data.List.Lex
import Mathlib.Data.Prod.Lex

namespace NextBoot.Scanner

open Strings

/-- An image on a volume; `δ` is what the scan knows of it besides its place. -/
structure IsoFile (δ : Type) where
  path : Text
  volumeIndex : Nat
  details : δ
deriving DecidableEq

variable {δ : Type}

/-- The file name, which follows the last slash. -/
def fileName (path : Text) : Text := ((split '/' path).getLast?).getD path

/-- The order before the duplicates are removed: volume, path in lower case, path. -/
def pathKey (toLowercase : Text → Text) (f : IsoFile δ) : Nat ×ₗ (Text ×ₗ Text) :=
  toLex (f.volumeIndex, toLex (toLowercase f.path, f.path))

/-- The order of the list that a scan returns: name, volume, path. -/
def nameKey (f : IsoFile δ) : Text ×ₗ (Nat ×ₗ Text) := toLex (fileName f.path, toLex (f.volumeIndex, f.path))

/-- Two entries that stand for one file of a volume. -/
abbrev SameFile (a b : IsoFile δ) : Prop := a.volumeIndex = b.volumeIndex ∧ eqIgnoreAsciiCase a.path b.path

def sortByPath (toLowercase : Text → Text) (files : List (IsoFile δ)) : List (IsoFile δ) :=
  files.insertionSort fun a b => pathKey toLowercase a ≤ pathKey toLowercase b

def sortByName (files : List (IsoFile δ)) : List (IsoFile δ) := files.insertionSort fun a b => nameKey a ≤ nameKey b

/-- What `scan` makes of the entries it has collected; `toLowercase` is the lowercase mapping of Unicode. -/
def deduplicate (toLowercase : Text → Text) (files : List (IsoFile δ)) : List (IsoFile δ) :=
  sortByName (Dedup.dedup SameFile (sortByPath toLowercase files))

variable {toLowercase : Text → Text} {files : List (IsoFile δ)}

theorem sameFile_equivalence : Equivalence (@SameFile δ) := by
  constructor
  · intro a
    simp [SameFile, eqIgnoreAsciiCase]
  · intro a b h
    simp_all [SameFile, eqIgnoreAsciiCase]
  · intro a b c h h'
    simp_all [SameFile, eqIgnoreAsciiCase]

theorem sameFile_of_pathKey {a b : IsoFile δ} (h : pathKey toLowercase a = pathKey toLowercase b) : SameFile a b := by
  have hpair := toLex.injective h
  obtain ⟨hvolume, hpath⟩ := Prod.mk.inj hpair
  have hpath := (Prod.mk.inj (toLex.injective hpath)).2
  exact ⟨hvolume, by rw [hpath]; exact (sameFile_equivalence.refl b).2⟩

theorem sortByPath_sorted (files : List (IsoFile δ)) :
    (sortByPath toLowercase files).Pairwise fun a b => pathKey toLowercase a ≤ pathKey toLowercase b := by
  have htotal : Std.Total fun a b : IsoFile δ => pathKey toLowercase a ≤ pathKey toLowercase b := ⟨fun a b => le_total _ _⟩
  have htrans : IsTrans (IsoFile δ) fun a b => pathKey toLowercase a ≤ pathKey toLowercase b := ⟨fun a b c => le_trans⟩
  exact List.pairwise_insertionSort _ files

theorem sortByPath_perm (files : List (IsoFile δ)) : (sortByPath toLowercase files).Perm files :=
  List.perm_insertionSort _ files

theorem deduplicate_perm (files : List (IsoFile δ)) :
    (deduplicate toLowercase files).Perm (Dedup.dedup SameFile (sortByPath toLowercase files)) :=
  List.perm_insertionSort _ _

theorem mem_of_mem_deduplicate {f : IsoFile δ} (h : f ∈ deduplicate toLowercase files) : f ∈ files := by
  have hmem := (deduplicate_perm files).mem_iff.1 h
  exact (sortByPath_perm files).mem_iff.1 ((List.destutter_sublist _ _).subset hmem)

/-- Sorting by name keeps what the pass over the neighbours left. -/
theorem deduplicate_pairwise :
    (deduplicate toLowercase files).Pairwise (fun a b => ¬ SameFile a b) ↔
      (Dedup.dedup SameFile (sortByPath toLowercase files)).Pairwise fun a b => ¬ SameFile a b := by
  apply (deduplicate_perm files).pairwise_iff
  exact fun hxy hyx => hxy (sameFile_equivalence.symm hyx)

/-- The final list has one entry of each file collected, and only collected ones, exactly when the order by path keeps
the spellings of a path that differ only in ASCII case together. -/
theorem scan_dedup (toLowercase : Text → Text) (files : List (IsoFile δ)) :
    ((deduplicate toLowercase files).Pairwise (fun a b => ¬ SameFile a b) ∧
        (∀ f ∈ files, (deduplicate toLowercase files).countP (fun r => SameFile r f) = 1) ∧
        ∀ r ∈ deduplicate toLowercase files, r ∈ files) ↔
      ∀ a ∈ files, ∀ b ∈ files, ∀ c ∈ files, SameFile a b → pathKey toLowercase a ≤ pathKey toLowercase c →
        pathKey toLowercase c ≤ pathKey toLowercase b → SameFile c a := by
  have hkey : ∀ a b : IsoFile δ, pathKey toLowercase a = pathKey toLowercase b → SameFile a b :=
    fun a b h => sameFile_of_pathKey h
  have hiff := Dedup.pairwise_dedup_iff sameFile_equivalence hkey (sortByPath_sorted files)
  have hrep := Dedup.represents sameFile_equivalence hkey (@sortByPath_sorted _ toLowercase files)
  simp only [(sortByPath_perm files).mem_iff] at hiff hrep
  rw [← hiff, deduplicate_pairwise]
  constructor
  · rintro ⟨hpair, -, -⟩
    exact ⟨hpair, hrep⟩
  · rintro ⟨hpair, hall⟩
    refine ⟨hpair, fun f hf => ?_, fun r => mem_of_mem_deduplicate⟩
    rw [(deduplicate_perm files).countP_eq]
    exact Dedup.countP_eq_one sameFile_equivalence hpair (hall f hf)

/-- The lowercase mapping on the letters of Latin-1. -/
def latinLowercase (text : Text) : Text := text.map fun c =>
  if 0x41 ≤ c.toNat ∧ c.toNat ≤ 0x5A ∨ 0xC0 ≤ c.toNat ∧ c.toNat ≤ 0xDE ∧ c.toNat ≠ 0xD7 then Char.ofNat (c.toNat + 0x20)
  else c

def isoAt (path : Text) : IsoFile Unit := ⟨path, 0, ()⟩

/-- Two files of a directory that is scanned under two spellings: each of them stands between the spellings of the
other. -/
theorem spellings_apart : ¬ (deduplicate latinLowercase [isoAt "/ISO/Ä.iso".toList, isoAt "/ISO/ä.iso".toList,
    isoAt "/iso/Ä.iso".toList, isoAt "/iso/ä.iso".toList]).Pairwise (fun a b => ¬ SameFile a b) := by
  decide +kernel

end NextBoot.Scanner
