import Mathlib.Data.List.Permutation
import NextBoot.Results
import NextBoot.Linux.Parser

namespace NextBoot.Linux.LabelOrder

open Strings Linux.Parser

/-- What a line of an isolinux configuration says, whatever stands before it. -/
inductive Command where
  | label
  | kernel (path : Option Text)
  | initrd (paths : List Text)
  | append (cmdline : Text) (embedded : List Text)
  | other
deriving DecidableEq

namespace Command

def ofTokens : List Text → Command
  | [] => other
  | command :: parts =>
      if eqIgnoreAsciiCase command labelWord then label
      else if eqIgnoreAsciiCase command kernelWord ∨ eqIgnoreAsciiCase command linuxWord then
        kernel (parts.head? >>= normalizeConfigPathTokenWithVars [])
      else if eqIgnoreAsciiCase command initrdWord then initrd (normalizedConfigPaths [] parts)
      else if eqIgnoreAsciiCase command appendWord then
        append (stripCmdlineInitrdTokens parts) (extractInitrdsFromCmdlineTokens [] parts)
      else other

def ofLine (line : Text) : Command :=
  match cleanConfigLine line with
  | none => other
  | some line => ofTokens (configTokens line)

def isKernel : Command → Bool
  | kernel _ => true
  | _ => false

def isInitrd : Command → Bool
  | initrd _ => true
  | _ => false

def isAppend : Command → Bool
  | append _ _ => true
  | _ => false

end Command

open Command

def execute (s : Pending) : Command → Except LinuxBootEntry Pending
  | label => .ok .start
  | kernel path => Pending.orReturn { s with kernel := path }
  | initrd paths => Pending.orReturn { s with initrds := paths }
  | append cmdline embedded =>
      Pending.orReturn { s with append := cmdline, initrds := if s.initrds = [] then embedded else s.initrds }
  | other => .ok s

variable {s s' : Pending} {line : Text} {c : Command} {cs before block after : List Command}

theorem isolinuxLine_eq : isolinuxLine s line = execute s (ofLine line) := by
  rw [isolinuxLine, ofLine]
  cases cleanConfigLine line with
  | none => rfl
  | some line =>
      dsimp only
      cases configTokens line with
      | nil => rfl
      | cons command parts =>
          dsimp only
          rw [ofTokens]
          split_ifs <;> simp [execute, *]

def outcome : Except LinuxBootEntry Pending → Option LinuxBootEntry
  | .error entry => some entry
  | .ok s => s.complete

/-- The entry of a list of commands. -/
def entryOf (cs : List Command) : Option LinuxBootEntry := outcome (cs.foldlM execute .start)

theorem parseIsolinuxLines_eq (ls : List Text) : parseIsolinuxLines ls = entryOf (ls.map ofLine) := by
  have hfold : ls.foldlM isolinuxLine Pending.start = (ls.map ofLine).foldlM execute .start := by
    rw [List.foldlM_map]
    congr
    funext s line
    exact isolinuxLine_eq
  rw [parseIsolinuxLines, hfold, entryOf]
  cases (ls.map ofLine).foldlM execute .start <;> rfl

@[simp] theorem complete_no_initrds (kernel : Option Text) (cmdline : Text) :
    Pending.complete ⟨kernel, [], cmdline⟩ = none := by
  cases kernel <;> rfl

@[simp] theorem complete_no_kernel (initrds : List Text) (cmdline : Text) :
    Pending.complete ⟨none, initrds, cmdline⟩ = none := rfl

@[simp] theorem complete_both (path initrd : Text) (initrds : List Text) (cmdline : Text) :
    Pending.complete ⟨some path, initrd :: initrds, cmdline⟩ = some ⟨path, initrd :: initrds, cmdline⟩ := rfl

theorem orReturn_eq_ok : s.orReturn = .ok s' ↔ s.complete = none ∧ s = s' := by
  rw [Pending.orReturn]
  cases s.complete <;> simp

/-- As long as the parse goes on, what it has is not complete. -/
theorem execute_pending (h : execute s c = .ok s') (hs : s.complete = none) : s'.complete = none := by
  cases c with
  | label =>
      obtain rfl := Except.ok.inj h
      rfl
  | other =>
      obtain rfl := Except.ok.inj h
      exact hs
  | kernel path =>
      obtain ⟨hnone, rfl⟩ := orReturn_eq_ok.mp h
      exact hnone
  | initrd paths =>
      obtain ⟨hnone, rfl⟩ := orReturn_eq_ok.mp h
      exact hnone
  | append cmdline embedded =>
      obtain ⟨hnone, rfl⟩ := orReturn_eq_ok.mp h
      exact hnone

theorem foldlM_pending (h : cs.foldlM execute s = .ok s') (hs : s.complete = none) : s'.complete = none :=
  Results.foldlM_ok_invariant (P := fun s => s.complete = none) (fun _ _ _ _ hstep => execute_pending hstep) h hs

/-- A label block gives the entry unless it is not complete or one before it is. -/
theorem entryOf_block (hafter : after = [] ∨ after.head? = some label) :
    entryOf (before ++ label :: (block ++ after)) =
      match before.foldlM execute .start with
      | .error entry => some entry
      | .ok _ => (entryOf block).or (entryOf after) := by
  rw [entryOf, List.foldlM_append]
  cases before.foldlM execute .start with
  | error entry => rfl
  | ok s =>
      show outcome ((block ++ after).foldlM execute .start) = (outcome (block.foldlM execute .start)).or (entryOf after)
      rw [List.foldlM_append]
      cases hblock : block.foldlM execute .start with
      | error entry => rfl
      | ok s' =>
          have hnone : outcome (.ok s') = none := foldlM_pending hblock rfl
          rw [hnone, Option.none_or]
          rcases hafter with rfl | hhead
          · exact hnone
          · cases after with
            | nil => cases hhead
            | cons c after =>
                obtain rfl := Option.some.inj hhead
                rfl

theorem entryOf_filter : entryOf (cs.filter (· ≠ other)) = entryOf cs := by
  have hfold : ∀ s, (cs.filter (· ≠ other)).foldlM execute s = cs.foldlM execute s := by
    induction cs with
    | nil => exact fun _ => rfl
    | cons c cs ih =>
        intro s
        by_cases hc : c = other
        · rw [List.filter_cons_of_neg (by simpa using hc), ih, hc]
          rfl
        · rw [List.filter_cons_of_pos (by simpa using hc), List.foldlM_cons, List.foldlM_cons]
          exact congrArg _ (funext ih)
  rw [entryOf, hfold, ← entryOf]

/-- The commands of a label block, in the order kernel, initrd, append. -/
def arranged (k : Option (Option Text)) (r : Option (List Text)) (a : Option (Text × List Text)) : List Command :=
  k.toList.map kernel ++ (r.toList.map initrd ++ a.toList.map fun a => append a.1 a.2)

theorem exists_arranged (hkinds : ∀ c ∈ cs, c ≠ label ∧ c ≠ other) (hkernel : cs.countP isKernel ≤ 1)
    (hinitrd : cs.countP isInitrd ≤ 1) (happend : cs.countP isAppend ≤ 1) : ∃ k r a, cs.Perm (arranged k r a) := by
  induction cs with
  | nil => exact ⟨none, none, none, .refl _⟩
  | cons c cs ih =>
      rw [List.countP_cons] at hkernel hinitrd happend
      rw [List.forall_mem_cons] at hkinds
      obtain ⟨k, r, a, hperm⟩ := ih hkinds.2 (by omega) (by omega) (by omega)
      rw [hperm.countP_eq] at hkernel hinitrd happend
      have hcons := hperm.cons c
      cases c with
      | label => exact absurd rfl hkinds.1.1
      | other => exact absurd rfl hkinds.1.2
      | kernel path =>
          cases k with
          | some p => simp [arranged, isKernel] at hkernel
          | none => exact ⟨some path, r, a, hcons⟩
      | initrd paths =>
          cases r with
          | some p => simp [arranged, isInitrd, List.countP_append] at hinitrd
          | none => exact ⟨k, some paths, a, hcons.trans List.perm_middle.symm⟩
      | append cmdline embedded =>
          cases a with
          | some p => simp [arranged, isAppend, List.countP_append] at happend
          | none =>
              refine ⟨k, r, some (cmdline, embedded), hcons.trans ?_⟩
              simp only [arranged, Option.toList_none, List.map_nil, List.append_nil, Option.toList_some, List.map_cons]
              rw [← List.append_assoc]
              exact (List.perm_append_singleton _ _).symm

/-- Where the order of the three lines cannot matter: without a kernel path or one of the lines, where the append line
adds nothing to the initrds named before it, or where there is no initrd at all. -/
def OrderFree (k : Option (Option Text)) (r : Option (List Text)) (a : Option (Text × List Text)) : Prop :=
  ∀ path paths cmdline embedded, k = some (some path) → r = some paths → a = some (cmdline, embedded) →
    (paths ≠ [] ∧ cmdline = [] ∧ (embedded = [] ∨ embedded = paths)) ∨ (paths = [] ∧ embedded = [])

theorem foldlM_no_path (h : ∀ path, kernel (some path) ∉ cs) (hs : s.kernel = none) : outcome (cs.foldlM execute s) = none := by
  induction cs generalizing s with
  | nil =>
      obtain ⟨k, initrds, cmdline⟩ := s
      obtain rfl : k = none := hs
      rfl
  | cons c cs ih =>
      simp only [List.mem_cons, not_or] at h
      obtain ⟨k, initrds, cmdline⟩ := s
      obtain rfl : k = none := hs
      cases c with
      | kernel path =>
          cases path with
          | none => exact ih (fun path => (h path).2) rfl
          | some path => exact absurd rfl (h path).1
      | _ => exact ih (fun path => (h path).2) rfl

theorem entryOf_kernel_append {path cmdline : Text} {embedded : List Text}
    (h : cs.Perm [kernel (some path), append cmdline embedded]) :
    entryOf cs = Pending.complete ⟨some path, embedded, cmdline⟩ := by
  rw [← List.mem_permutations'] at h
  simp only [List.permutations', List.permutations'Aux, List.flatMap_cons, List.flatMap_nil, List.map_cons, List.map_nil,
    List.append_nil, List.mem_cons, List.not_mem_nil, or_false] at h
  rcases h with rfl | rfl <;> cases embedded <;> rfl

theorem entryOf_kernel_initrd {path : Text} {paths : List Text} (h : cs.Perm [kernel (some path), initrd paths]) :
    entryOf cs = Pending.complete ⟨some path, paths, []⟩ := by
  rw [← List.mem_permutations'] at h
  simp only [List.permutations', List.permutations'Aux, List.flatMap_cons, List.flatMap_nil, List.map_cons, List.map_nil,
    List.append_nil, List.mem_cons, List.not_mem_nil, or_false] at h
  rcases h with rfl | rfl <;> cases paths <;> rfl

/-- With all three lines, the order is free if the append line brings nothing new. -/
theorem entryOf_three {path cmdline : Text} {paths embedded : List Text}
    (h : cs.Perm [kernel (some path), initrd paths, append cmdline embedded])
    (hfree : (paths ≠ [] ∧ cmdline = [] ∧ (embedded = [] ∨ embedded = paths)) ∨ (paths = [] ∧ embedded = [])) :
    entryOf cs = Pending.complete ⟨some path, paths, []⟩ := by
  rw [← List.mem_permutations'] at h
  simp only [List.permutations', List.permutations'Aux, List.flatMap_cons, List.flatMap_nil, List.map_cons, List.map_nil,
    List.append_nil, List.cons_append, List.nil_append, List.mem_cons, List.not_mem_nil, or_false] at h
  rcases hfree with ⟨hpaths, rfl, hembedded⟩ | ⟨rfl, rfl⟩
  · obtain ⟨p, ps, rfl⟩ := List.exists_cons_of_ne_nil hpaths
    rcases hembedded with rfl | rfl <;> rcases h with rfl | rfl | rfl | rfl | rfl | rfl <;> rfl
  · rcases h with rfl | rfl | rfl | rfl | rfl | rfl <;> rfl

theorem entryOf_perm {k : Option (Option Text)} {r : Option (List Text)} {a : Option (Text × List Text)}
    {cs' : List Command} (hfree : OrderFree k r a) (h : cs.Perm (arranged k r a)) (h' : cs'.Perm (arranged k r a)) :
    entryOf cs = entryOf cs' := by
  by_cases hpath : ∃ path, k = some (some path)
  · obtain ⟨path, rfl⟩ := hpath
    cases r with
    | none =>
        cases a with
        | none => rw [List.perm_singleton.mp h, List.perm_singleton.mp h']
        | some a => rw [entryOf_kernel_append h, entryOf_kernel_append h']
    | some paths =>
        cases a with
        | none => rw [entryOf_kernel_initrd h, entryOf_kernel_initrd h']
        | some a =>
            have hnothing := hfree path paths a.1 a.2 rfl rfl rfl
            rw [entryOf_three h hnothing, entryOf_three h' hnothing]
  · have hnone : ∀ path, kernel (some path) ∉ arranged k r a := by
      intro path hmem
      refine hpath ⟨path, ?_⟩
      simpa [arranged] using hmem
    rw [entryOf, entryOf, foldlM_no_path (fun path hmem => hnone path (h.mem_iff.mp hmem)) rfl,
      foldlM_no_path (fun path hmem => hnone path (h'.mem_iff.mp hmem)) rfl]

/-- A label block: lines of which none starts a label, with at most one line of each of the three kinds. -/
structure LabelBlock where
  body : List Text
  no_label : ∀ line ∈ body, ofLine line ≠ label
  one_kernel : (body.map ofLine).countP isKernel ≤ 1
  one_initrd : (body.map ofLine).countP isInitrd ≤ 1
  one_append : (body.map ofLine).countP isAppend ≤ 1

namespace LabelBlock

/-- Configurations that differ in the order of the block's lines only give the same entry. -/
def OrderIrrelevant (block : LabelBlock) : Prop :=
  ∀ cfg cfg' before labelLine after block', ofLine labelLine = label →
    (after = [] ∨ after.head?.map ofLine = some label) → block'.Perm block.body →
      lines cfg = before ++ labelLine :: (block.body ++ after) →
      lines cfg' = before ++ labelLine :: (block' ++ after) →
        parseIsolinuxBootEntry cfg' = parseIsolinuxBootEntry cfg

/-- The append line brings nothing that depends on where it stands: either there is an initrd line with paths, and the
append line has no arguments and no other initrds, or neither line has any initrd. -/
def Unaffected (block : LabelBlock) : Prop :=
  ∀ path paths cmdline embedded, kernel (some path) ∈ block.body.map ofLine → initrd paths ∈ block.body.map ofLine →
    append cmdline embedded ∈ block.body.map ofLine →
      (paths ≠ [] ∧ cmdline = [] ∧ (embedded = [] ∨ embedded = paths)) ∨ (paths = [] ∧ embedded = [])

variable {block : LabelBlock}

/-- What the block says, without the lines that say nothing. -/
def commands (block : LabelBlock) : List Command := (block.body.map ofLine).filter (· ≠ other)

theorem exists_arranged_commands (block : LabelBlock) : ∃ k r a, block.commands.Perm (arranged k r a) := by
  refine exists_arranged ?_ ((List.filter_sublist.countP_le).trans block.one_kernel)
    ((List.filter_sublist.countP_le).trans block.one_initrd) ((List.filter_sublist.countP_le).trans block.one_append)
  intro c hc
  obtain ⟨hmem, hother⟩ := List.mem_filter.mp hc
  obtain ⟨line, hline, rfl⟩ := List.mem_map.mp hmem
  exact ⟨block.no_label line hline, by simpa using hother⟩

theorem parse_eq {cfg : Text} {before after block' : List Text} {labelLine : Text} (hlabel : ofLine labelLine = label)
    (hafter : after = [] ∨ after.head?.map ofLine = some label)
    (h : lines cfg = before ++ labelLine :: (block' ++ after)) :
    parseIsolinuxBootEntry cfg =
      match (before.map ofLine).foldlM execute .start with
      | .error entry => some entry
      | .ok _ => (entryOf (block'.map ofLine)).or (entryOf (after.map ofLine)) := by
  rw [parseIsolinuxBootEntry, parseIsolinuxLines_eq, h, List.map_append, List.map_cons, List.map_append, hlabel,
    entryOf_block]
  rcases hafter with rfl | hhead
  · exact .inl rfl
  · exact .inr (by rwa [List.head?_map])

theorem Unaffected.orderIrrelevant (h : block.Unaffected) : block.OrderIrrelevant := by
  intro cfg cfg' before labelLine after block' hlabel hafter hperm hcfg hcfg'
  obtain ⟨k, r, a, harranged⟩ := block.exists_arranged_commands
  have hfree : OrderFree k r a := by
    have hmem : ∀ c ∈ arranged k r a, c ∈ block.body.map ofLine := fun c hc =>
      (List.mem_filter.mp (harranged.mem_iff.mpr hc)).1
    rintro path paths cmdline embedded rfl rfl rfl
    exact h path paths cmdline embedded (hmem _ (by simp [arranged])) (hmem _ (by simp [arranged]))
      (hmem _ (by simp [arranged]))
  have hsame : entryOf (block'.map ofLine) = entryOf (block.body.map ofLine) := by
    rw [← entryOf_filter, ← @entryOf_filter (block.body.map ofLine)]
    exact entryOf_perm hfree (((hperm.map ofLine).filter _).trans harranged) harranged
  rw [parse_eq hlabel hafter hcfg, parse_eq hlabel hafter hcfg', hsame]

theorem perm_three {kernelLine initrdLine appendLine : Text} {path : Option Text} {paths embedded : List Text}
    {cmdline : Text} (hkernel : kernelLine ∈ block.body) (hinitrd : initrdLine ∈ block.body)
    (happend : appendLine ∈ block.body) (hk : ofLine kernelLine = kernel path) (hr : ofLine initrdLine = initrd paths)
    (ha : ofLine appendLine = append cmdline embedded) :
    ∃ rest, block.body.Perm ([kernelLine, initrdLine, appendLine] ++ rest) ∧ ∀ line ∈ rest, ofLine line = other := by
  have hkr : initrdLine ≠ kernelLine := fun heq => by rw [heq, hk] at hr; cases hr
  have hka : appendLine ≠ kernelLine := fun heq => by rw [heq, hk] at ha; cases ha
  have hra : appendLine ≠ initrdLine := fun heq => by rw [heq, hr] at ha; cases ha
  have hperm : block.body.Perm ([kernelLine, initrdLine, appendLine] ++
      ((block.body.erase kernelLine).erase initrdLine).erase appendLine) := by
    refine (List.perm_cons_erase hkernel).trans (.cons _ ?_)
    refine (List.perm_cons_erase ((List.mem_erase_of_ne hkr).mpr hinitrd)).trans (.cons _ ?_)
    exact List.perm_cons_erase ((List.mem_erase_of_ne hra).mpr ((List.mem_erase_of_ne hka).mpr happend))
  refine ⟨_, hperm, fun line hline => ?_⟩
  have hmapped := hperm.map ofLine
  have hmem := List.mem_map_of_mem (f := ofLine) hline
  have h₁ := block.one_kernel
  have h₂ := block.one_initrd
  have h₃ := block.one_append
  rw [hmapped.countP_eq, List.map_append, List.countP_append] at h₁ h₂ h₃
  simp only [List.map_cons, List.map_nil, hk, hr, ha] at h₁ h₂ h₃
  cases hc : ofLine line with
  | label => exact absurd hc (block.no_label line (hperm.mem_iff.mpr (List.mem_append_right _ hline)))
  | kernel path =>
      rw [hc] at hmem
      have hpos := List.countP_pos_iff.mpr ⟨_, hmem, show isKernel (kernel path) = true from rfl⟩
      rw [show List.countP isKernel [kernel _, initrd paths, append cmdline embedded] = 1 from rfl] at h₁
      omega
  | initrd paths =>
      rw [hc] at hmem
      have hpos := List.countP_pos_iff.mpr ⟨_, hmem, show isInitrd (initrd paths) = true from rfl⟩
      rw [show List.countP isInitrd [kernel _, initrd _, append cmdline embedded] = 1 from rfl] at h₂
      omega
  | append cmdline embedded =>
      rw [hc] at hmem
      have hpos := List.countP_pos_iff.mpr ⟨_, hmem, show isAppend (append cmdline embedded) = true from rfl⟩
      rw [show List.countP isAppend [kernel _, initrd _, append _ _] = 1 from rfl] at h₃
      omega
  | other => rfl

/-- Where only the order is irrelevant, a configuration of this block alone gives one entry in every order. -/
theorem OrderIrrelevant.entryOf_eq (h : block.OrderIrrelevant) (hlines : ∀ line ∈ block.body, IsLine line)
    {front rest front' : List Text} (hperm : block.body.Perm (front ++ rest)) (hothers : ∀ line ∈ rest, ofLine line = other)
    (hfront : front'.Perm front) : entryOf (front'.map ofLine) = entryOf (block.body.map ofLine) := by
  have hlabel : ofLine labelWord = label := by decide +kernel
  have hisLine : IsLine labelWord := ⟨by decide, by decide⟩
  have hblock' : (front' ++ rest).Perm block.body := (hfront.append_right rest).trans hperm.symm
  have hcfg : ∀ body : List Text, body.Perm block.body →
      lines (unlines (labelWord :: body)) = [] ++ labelWord :: (body ++ []) := by
    intro body hbody
    rw [List.append_nil, lines_unlines fun line hline => ?_]
    · rfl
    · rcases List.mem_cons.mp hline with rfl | hline
      · exact hisLine
      · exact hlines line (hbody.mem_iff.mp hline)
  have hparse := h _ _ [] labelWord [] (front' ++ rest) hlabel (.inl rfl) hblock' (hcfg _ (.refl _)) (hcfg _ hblock')
  rw [parse_eq hlabel (.inl rfl) (hcfg _ (.refl _)), parse_eq hlabel (.inl rfl) (hcfg _ hblock')] at hparse
  have hnothing : entryOf (([] : List Text).map ofLine) = none := rfl
  simp only [hnothing, Option.or_none] at hparse
  have hsilent : (rest.map ofLine).filter (· ≠ other) = [] := by
    rw [List.filter_eq_nil_iff]
    intro c hc
    obtain ⟨line, hline, rfl⟩ := List.mem_map.mp hc
    simp [hothers line hline]
  have hdrop : entryOf ((front' ++ rest).map ofLine) = entryOf (front'.map ofLine) := by
    rw [← entryOf_filter, ← @entryOf_filter (front'.map ofLine), List.map_append, List.filter_append, hsilent,
      List.append_nil]
  rw [← hdrop]
  exact hparse

theorem OrderIrrelevant.unaffected (h : block.OrderIrrelevant) (hlines : ∀ line ∈ block.body, IsLine line) :
    block.Unaffected := by
  intro path paths cmdline embedded hkernel hinitrd happend
  obtain ⟨k, hkmem, hk⟩ := List.mem_map.mp hkernel
  obtain ⟨r, hrmem, hr⟩ := List.mem_map.mp hinitrd
  obtain ⟨a, hamem, ha⟩ := List.mem_map.mp happend
  obtain ⟨rest, hperm, hothers⟩ := perm_three hkmem hrmem hamem hk hr ha
  have hsame : ∀ front : List Text, front.Perm [k, r, a] → entryOf (front.map ofLine) = entryOf (block.body.map ofLine) :=
    fun front hfront => h.entryOf_eq hlines hperm hothers hfront
  have hkra := hsame [k, r, a] (.refl _)
  have hrak := hsame [r, a, k] (@List.perm_append_comm _ [r, a] [k])
  have hkar := hsame [k, a, r] (.cons _ (.swap _ _ _))
  have hark := hsame [a, r, k] (List.reverse_perm [k, r, a])
  rw [← hkra] at hrak hkar hark
  simp only [List.map_cons, List.map_nil, hk, hr, ha] at hrak hkar hark
  cases paths with
  | nil =>
      refine .inr ⟨rfl, ?_⟩
      cases embedded with
      | nil => rfl
      | cons e es => cases hark
  | cons p ps =>
      obtain rfl : cmdline = [] := (LinuxBootEntry.mk.inj (Option.some.inj hrak)).2.2
      refine .inl ⟨List.cons_ne_nil _ _, rfl, ?_⟩
      cases embedded with
      | nil => exact .inl rfl
      | cons e es => exact .inr (LinuxBootEntry.mk.inj (Option.some.inj hkar)).2.1

/-- The order of a label's lines is irrelevant exactly when the append line brings nothing new. -/
theorem label_order (block : LabelBlock) :
    (block.Unaffected → block.OrderIrrelevant) ∧
      ((∀ line ∈ block.body, IsLine line) → block.OrderIrrelevant → block.Unaffected) :=
  ⟨Unaffected.orderIrrelevant, fun hlines h => h.unaffected hlines⟩

def liveBlock : LabelBlock where
  body := ["menu default".toList, "kernel /vmlinuz".toList, "append initrd=/initrd.img quiet".toList]
  no_label := by decide +kernel
  one_kernel := by decide +kernel
  one_initrd := by decide +kernel
  one_append := by decide +kernel

theorem liveBlock_orderIrrelevant : liveBlock.OrderIrrelevant :=
  (label_order liveBlock).1 fun path paths cmdline embedded _ hinitrd _ => by
    have hnone : (liveBlock.body.map ofLine).countP isInitrd = 0 := by decide +kernel
    exact absurd rfl (List.countP_eq_zero.mp hnone _ hinitrd)

/-- The usual block, with its initrd on a line of its own. -/
def quietBlock : LabelBlock where
  body := ["kernel /vmlinuz".toList, "append quiet".toList, "initrd /initrd.img".toList]
  no_label := by decide +kernel
  one_kernel := by decide +kernel
  one_initrd := by decide +kernel
  one_append := by decide +kernel

/-- When its append line comes last, the command line is lost. -/
theorem quietBlock_append_lost : ¬ quietBlock.OrderIrrelevant := by
  intro h
  have hparse := h "label live\nkernel /vmlinuz\nappend quiet\ninitrd /initrd.img\n".toList
    "label live\nkernel /vmlinuz\ninitrd /initrd.img\nappend quiet\n".toList [] "label live".toList []
    ["kernel /vmlinuz".toList, "initrd /initrd.img".toList, "append quiet".toList] (by decide +kernel) (.inl rfl)
    (.cons _ (.swap _ _ _)) (by decide +kernel) (by decide +kernel)
  revert hparse
  decide +kernel

end LabelBlock

end NextBoot.Linux.LabelOrder
