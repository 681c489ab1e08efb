import NextBoot.Linux.Grub

namespace NextBoot.Linux.MenuEntries

open Strings Linux.Parser Linux.Grub Command

section Block

variable (options : Text) (vars : GrubVars) (cs : List Command)

def varsAfter : GrubVars := cs.foldl assign vars

/-- The commands ahead of the first one of a kind. -/
def ahead (kind : Command → Bool) : List Command := cs.takeWhile fun c => !kind c

/-- What stands behind the word of the first command of a kind. -/
def partsOf (kind : Command → Bool) : Option (List Text) := (cs.find? kind).map parts

/-- The variables that the first command of a kind is read with. -/
def varsAt (kind : Command → Bool) : GrubVars := varsAfter vars (ahead cs kind)

/-- The usable kernel of a menu entry. -/
def kernelPath : Option Text :=
  partsOf cs isLinux >>= fun parts => parts.head? >>= normalizeConfigPathTokenWithVars (varsAt vars cs isLinux)

def linuxArguments : Text := stripCmdlineInitrdTokens ((partsOf cs isLinux).getD []).tail

def argumentInitrds : List Text :=
  extractInitrdsFromCmdlineTokens (varsAt vars cs isLinux) ((partsOf cs isLinux).getD []).tail

def lineInitrds : List Text := normalizedConfigPaths (varsAt vars cs isInitrd) ((partsOf cs isInitrd).getD [])

def ownOptions : Text := stripCmdlineInitrdTokens ((partsOf cs isOptions).getD [])

/-- What a menu entry boots by its own lines. -/
def entryOf : Option LinuxBootEntry :=
  completeLinuxEntry (kernelPath vars cs) (if lineInitrds vars cs = [] then argumentInitrds vars cs else lineInitrds vars cs)
    (if linuxArguments cs = [] then ownOptions cs else linuxArguments cs)

/-- The text of the last options line, which a new menu entry does not take back. -/
def optionsAfter : Text := ((partsOf cs isOptions).map stripCmdlineInitrdTokens).getD options

/-- No initrd line stands ahead of the linux line. -/
def LinuxFirst : Prop := ∀ c ∈ ahead cs isLinux, ¬ isInitrd c

instance : Decidable (LinuxFirst cs) := inferInstanceAs (Decidable (∀ c ∈ _, _))

/-- The arguments that the linux line ends up with. -/
def argumentsRead : Text := if linuxArguments cs = [] then optionsAfter options (ahead cs isLinux) else linuxArguments cs

/-- What is returned of a menu entry: it takes a linux line and behind it an initrd line with a path. -/
def readEntry : Option LinuxBootEntry :=
  if LinuxFirst cs then completeLinuxEntry (kernelPath vars cs) (lineInitrds vars cs) (argumentsRead options cs) else none

end Block

/-- The lines of a menu entry with at most one line of each of the three kinds. -/
structure Flat (cs : List Command) : Prop where
  no_reset : reset ∉ cs
  one_linux : cs.countP isLinux ≤ 1
  one_initrd : cs.countP isInitrd ≤ 1
  one_options : cs.countP isOptions ≤ 1

variable {options : Text} {vars : GrubVars} {cs : List Command} {c : Command} {s : MenuState} {kind : Command → Bool}

theorem Flat.tail (h : Flat (c :: cs)) : Flat cs := by
  obtain ⟨hreset, hlinux, hinitrd, hoptions⟩ := h
  rw [List.countP_cons] at hlinux hinitrd hoptions
  exact ⟨fun hmem => hreset (List.mem_cons_of_mem c hmem), by omega, by omega, by omega⟩

theorem none_behind (h : (c :: cs).countP kind ≤ 1) (hc : kind c = true) : cs.countP kind = 0 := by
  rw [List.countP_cons, if_pos hc] at h
  omega

@[simp] theorem varsAfter_cons : varsAfter vars (c :: cs) = varsAfter (assign vars c) cs := rfl

theorem ahead_cons_pos (h : kind c = true) : ahead (c :: cs) kind = [] := by
  rw [ahead, List.takeWhile_cons, h]
  rfl

theorem ahead_cons_neg (h : kind c = false) : ahead (c :: cs) kind = c :: ahead cs kind := by
  rw [ahead, List.takeWhile_cons, h]
  rfl

theorem partsOf_cons_pos (h : kind c = true) : partsOf (c :: cs) kind = some c.parts := by
  rw [partsOf, List.find?_cons_of_pos h]
  rfl

theorem partsOf_cons_neg (h : kind c = false) : partsOf (c :: cs) kind = partsOf cs kind := by
  rw [partsOf, List.find?_cons_of_neg (by simp [h])]
  rfl

theorem partsOf_eq_none (h : cs.countP kind = 0) : partsOf cs kind = none := by
  rw [partsOf, List.find?_eq_none.mpr fun c hc => List.countP_eq_zero.mp h c hc]
  rfl

theorem varsAt_cons_neg (h : kind c = false) : varsAt vars (c :: cs) kind = varsAt (assign vars c) cs kind := by
  rw [varsAt, ahead_cons_neg h]
  rfl

theorem varsAt_cons_pos (h : kind c = true) : varsAt vars (c :: cs) kind = vars := by
  rw [varsAt, ahead_cons_pos h]
  rfl

/-- A run over some lines returns the entry, if there is one, and else goes on with these options and variables. -/
def Ends (result : Except LinuxBootEntry MenuState) (entry : Option LinuxBootEntry) (options : Text) (vars : GrubVars) : Prop :=
  match entry with
  | some entry => result = .error entry
  | none => ∃ s, result = .ok s ∧ s.options = options ∧ s.vars = vars

theorem completeLinuxEntry_nil (kernel : Option Text) (cmdline : Text) : completeLinuxEntry kernel [] cmdline = none := by
  cases kernel <;> rfl

theorem lineInitrds_cons_neg (h : isInitrd c = false) : lineInitrds vars (c :: cs) = lineInitrds (assign vars c) cs := by
  rw [lineInitrds, partsOf_cons_neg h, varsAt_cons_neg h]
  rfl

theorem lineInitrds_eq_nil (h : cs.countP isInitrd = 0) : lineInitrds vars cs = [] := by
  rw [lineInitrds, partsOf_eq_none h]
  rfl

theorem optionsAfter_cons_neg (h : isOptions c = false) : optionsAfter options (c :: cs) = optionsAfter options cs := by
  rw [optionsAfter, partsOf_cons_neg h]
  rfl

theorem optionsAfter_eq (h : cs.countP isOptions = 0) : optionsAfter options cs = options := by
  rw [optionsAfter, partsOf_eq_none h]
  rfl

/-- Behind the linux line, only an initrd line with a path makes an entry. -/
theorem execute_behind_linux (hflat : Flat cs) (hlinux : cs.countP isLinux = 0) :
    Ends (cs.foldlM execute s) (completeLinuxEntry s.kernel (lineInitrds s.vars cs) s.cmdline) (optionsAfter s.options cs)
      (varsAfter s.vars cs) := by
  induction cs generalizing s with
  | nil =>
      have hnone : lineInitrds s.vars [] = [] := rfl
      rw [hnone, completeLinuxEntry_nil]
      exact ⟨s, rfl, rfl, rfl⟩
  | cons c cs ih =>
      have hrest : cs.countP isLinux = 0 := by
        rw [List.countP_cons] at hlinux
        omega
      rw [List.foldlM_cons]
      cases c with
      | reset => exact absurd List.mem_cons_self hflat.no_reset
      | linux parts => exact absurd rfl (List.countP_eq_zero.mp hlinux _ List.mem_cons_self)
      | initrd parts =>
          have hnone := none_behind hflat.one_initrd rfl
          have hpaths : lineInitrds s.vars (initrd parts :: cs) = normalizedConfigPaths s.vars parts := by
            rw [lineInitrds, partsOf_cons_pos rfl, varsAt_cons_pos rfl]
            rfl
          rw [hpaths, optionsAfter_cons_neg rfl, execute, MenuState.orReturn, MenuState.complete]
          cases hentry : completeLinuxEntry s.kernel (normalizedConfigPaths s.vars parts) s.cmdline with
          | some entry => rfl
          | none =>
              have hend := @ih { s with initrds := normalizedConfigPaths s.vars parts } hflat.tail hrest
              rw [lineInitrds_eq_nil hnone, completeLinuxEntry_nil] at hend
              exact hend
      | options parts =>
          have hnone := none_behind hflat.one_options rfl
          have hend := @ih { s with options := stripCmdlineInitrdTokens parts } hflat.tail hrest
          rw [optionsAfter_eq hnone] at hend
          rw [lineInitrds_cons_neg rfl, optionsAfter, partsOf_cons_pos rfl]
          exact hend
      | set parts =>
          rw [lineInitrds_cons_neg rfl, optionsAfter_cons_neg rfl]
          exact @ih { s with vars := assign s.vars (.set parts) } hflat.tail hrest
      | module parts =>
          rw [lineInitrds_cons_neg rfl, optionsAfter_cons_neg rfl]
          exact ih hflat.tail hrest
      | other =>
          rw [lineInitrds_cons_neg rfl, optionsAfter_cons_neg rfl]
          exact ih hflat.tail hrest

theorem linuxFirst_cons_neg (hlinux : isLinux c = false) : LinuxFirst (c :: cs) ↔ isInitrd c = false ∧ LinuxFirst cs := by
  rw [LinuxFirst, ahead_cons_neg hlinux, List.forall_mem_cons, Bool.not_eq_true]
  rfl

theorem linuxFirst_cons_pos (hlinux : isLinux c = true) : LinuxFirst (c :: cs) := by
  rw [LinuxFirst, ahead_cons_pos hlinux]
  exact fun _ h => nomatch h

theorem kernelPath_cons_neg (h : isLinux c = false) : kernelPath vars (c :: cs) = kernelPath (assign vars c) cs := by
  rw [kernelPath, partsOf_cons_neg h, varsAt_cons_neg h]
  rfl

theorem argumentsRead_cons_neg (h : isLinux c = false) :
    argumentsRead options (c :: cs) =
      if linuxArguments cs = [] then optionsAfter options (c :: ahead cs isLinux) else linuxArguments cs := by
  rw [argumentsRead, ahead_cons_neg h, linuxArguments, partsOf_cons_neg h]
  rfl

/-- A line that is none of the three kinds only changes the variables. -/
theorem readEntry_cons_other (hlinux : isLinux c = false) (hinitrd : isInitrd c = false) (hoptions : isOptions c = false) :
    readEntry options vars (c :: cs) = readEntry options (assign vars c) cs := by
  have hfirst : LinuxFirst (c :: cs) ↔ LinuxFirst cs := by
    rw [linuxFirst_cons_neg hlinux]
    exact and_iff_right hinitrd
  simp only [readEntry, hfirst]
  rw [kernelPath_cons_neg hlinux, lineInitrds_cons_neg hinitrd, argumentsRead_cons_neg hlinux, optionsAfter_cons_neg hoptions]
  rfl

theorem readEntry_cons_options {parts : List Text} (h : cs.countP isOptions = 0) :
    readEntry options vars (.options parts :: cs) = readEntry (stripCmdlineInitrdTokens parts) vars cs := by
  have hahead : (ahead cs isLinux).countP isOptions = 0 := by
    have hle : (ahead cs isLinux).countP isOptions ≤ cs.countP isOptions :=
      (List.takeWhile_sublist fun c => !isLinux c).countP_le
    omega
  have hfirst : LinuxFirst (.options parts :: cs) ↔ LinuxFirst cs := by
    rw [linuxFirst_cons_neg rfl]
    exact and_iff_right rfl
  have hread : argumentsRead options (.options parts :: cs) = argumentsRead (stripCmdlineInitrdTokens parts) cs := by
    rw [argumentsRead_cons_neg rfl, argumentsRead, optionsAfter_eq hahead, optionsAfter, partsOf_cons_pos rfl]
    rfl
  simp only [readEntry, hfirst]
  rw [kernelPath_cons_neg rfl, lineInitrds_cons_neg rfl, hread]
  rfl

theorem readEntry_eq_none (h : cs.countP isInitrd = 0) : readEntry options vars cs = none := by
  rw [readEntry, lineInitrds_eq_nil h, completeLinuxEntry_nil]
  split <;> rfl

theorem readEntry_cons_initrd {parts : List Text} : readEntry options vars (initrd parts :: cs) = none := by
  rw [readEntry, if_neg]
  rw [linuxFirst_cons_neg rfl]
  exact fun h => nomatch h.1

theorem readEntry_cons_linux {parts : List Text} : readEntry options vars (linux parts :: cs) =
    completeLinuxEntry (parts.head? >>= normalizeConfigPathTokenWithVars vars) (lineInitrds vars cs)
      (if stripCmdlineInitrdTokens parts.tail = [] then options else stripCmdlineInitrdTokens parts.tail) := by
  rw [readEntry, if_pos (linuxFirst_cons_pos rfl), kernelPath, partsOf_cons_pos rfl, varsAt_cons_pos rfl,
    lineInitrds_cons_neg rfl, argumentsRead, ahead_cons_pos rfl, linuxArguments, partsOf_cons_pos rfl]
  rfl

/-- A menu entry is read by its linux line and the initrd line behind it. -/
theorem execute_entry (hflat : Flat cs) (hkernel : s.kernel = none) :
    Ends (cs.foldlM execute s) (readEntry s.options s.vars cs) (optionsAfter s.options cs) (varsAfter s.vars cs) := by
  induction cs generalizing s with
  | nil => exact ⟨s, rfl, rfl, rfl⟩
  | cons c cs ih =>
      have hrest := hflat.tail
      rw [List.foldlM_cons]
      cases c with
      | reset => exact absurd List.mem_cons_self hflat.no_reset
      | linux parts =>
          have hnone := none_behind hflat.one_linux rfl
          rw [readEntry_cons_linux, optionsAfter_cons_neg rfl]
          cases hpath : parts.head? >>= normalizeConfigPathTokenWithVars s.vars with
          | none =>
              have hend := @execute_behind_linux cs s hrest hnone
              rw [hkernel] at hend
              have hsame : execute s (linux parts) = .ok s := by rw [execute, readLinux, hpath]
              rw [hsame]
              exact hend
          | some path =>
              have hend := @execute_behind_linux cs (readLinux s parts) hrest hnone
              have hstate : (readLinux s parts).kernel = some path ∧
                  (readLinux s parts).cmdline =
                    (if stripCmdlineInitrdTokens parts.tail = [] then s.options else stripCmdlineInitrdTokens parts.tail) ∧
                  (readLinux s parts).options = s.options ∧ (readLinux s parts).vars = s.vars := by
                rw [readLinux, hpath]
                refine ⟨rfl, ?_, rfl, rfl⟩
                dsimp only
                split_ifs <;> simp_all
              rw [hstate.1, hstate.2.1, hstate.2.2.1, hstate.2.2.2] at hend
              exact hend
      | initrd parts =>
          have hnone := none_behind hflat.one_initrd rfl
          have hend := @ih { s with initrds := normalizedConfigPaths s.vars parts } hrest hkernel
          rw [readEntry_eq_none hnone] at hend
          have hsame : execute s (initrd parts) = .ok { s with initrds := normalizedConfigPaths s.vars parts } := by
            rw [execute, MenuState.orReturn, MenuState.complete, hkernel]
            rfl
          rw [readEntry_cons_initrd, optionsAfter_cons_neg rfl, hsame]
          exact hend
      | options parts =>
          have hnone := none_behind hflat.one_options rfl
          have hend := @ih { s with options := stripCmdlineInitrdTokens parts } hrest hkernel
          rw [optionsAfter_eq hnone] at hend
          rw [readEntry_cons_options hnone, optionsAfter, partsOf_cons_pos rfl]
          exact hend
      | set parts =>
          rw [readEntry_cons_other rfl rfl rfl, optionsAfter_cons_neg rfl]
          exact @ih { s with vars := assign s.vars (.set parts) } hrest hkernel
      | module parts =>
          rw [readEntry_cons_other rfl rfl rfl, optionsAfter_cons_neg rfl]
          exact ih hrest hkernel
      | other =>
          rw [readEntry_cons_other rfl rfl rfl, optionsAfter_cons_neg rfl]
          exact ih hrest hkernel

def firstToken (line : Text) : Option Text := cleanConfigLine line >>= fun line => (configTokens line).head?

/-- A flat menu entry: the line that opens it, the lines in it and the line with the brace that closes it. -/
structure MenuEntry where
  header : Text
  body : List Text
  close : Text
  opens : ∃ command, firstToken header = some command ∧ menuentryWord.isPrefixOf command = true
  closes : firstToken close = some [closeBrace]
  flat : Flat (body.map ofLine)

namespace MenuEntry

def lines (entry : MenuEntry) : List Text := entry.header :: (entry.body ++ [entry.close])

def commands (entry : MenuEntry) : List Command := entry.body.map ofLine

end MenuEntry

/-- What the first menu entry with a usable kernel and a usable initrd boots. -/
def firstEntry (vars : GrubVars) : List MenuEntry → Option LinuxBootEntry
  | [] => none
  | entry :: entries => (entryOf vars entry.commands).or (firstEntry (varsAfter vars entry.commands) entries)

def firstRead (options : Text) (vars : GrubVars) : List MenuEntry → Option LinuxBootEntry
  | [] => none
  | entry :: entries =>
      (readEntry options vars entry.commands).or
        (firstRead (optionsAfter options entry.commands) (varsAfter vars entry.commands) entries)

theorem ofLine_eq_reset {line command : Text} (h : firstToken line = some command)
    (hreset : command = [closeBrace] ∨ menuentryWord.isPrefixOf command = true) : ofLine line = reset := by
  rw [firstToken] at h
  rw [ofLine]
  cases hclean : cleanConfigLine line with
  | none =>
      rw [hclean] at h
      cases h
  | some cleaned =>
      rw [hclean] at h
      dsimp only
      cases htokens : configTokens cleaned with
      | nil =>
          rw [Option.bind_eq_bind, Option.bind_some, htokens] at h
          cases h
      | cons token parts =>
          rw [Option.bind_eq_bind, Option.bind_some, htokens] at h
          cases h
          rw [ofTokens, if_pos hreset]

theorem MenuEntry.map_lines (entry : MenuEntry) :
    entry.lines.map ofLine = reset :: (entry.commands ++ [reset]) := by
  obtain ⟨command, htoken, hopens⟩ := entry.opens
  rw [MenuEntry.lines, List.map_cons, List.map_append, ofLine_eq_reset htoken (.inr hopens), List.map_cons,
    ofLine_eq_reset entry.closes (.inl rfl)]
  rfl

theorem execute_entries {entries : List MenuEntry} (hkernel : s.kernel = none) :
    outcome (((entries.flatMap MenuEntry.lines).map ofLine).foldlM execute s) = firstRead s.options s.vars entries := by
  induction entries generalizing s with
  | nil =>
      show s.complete = none
      rw [MenuState.complete, hkernel]
      rfl
  | cons entry entries ih =>
      have hread := @execute_entry entry.commands { s with kernel := none, initrds := [], cmdline := [] } entry.flat rfl
      dsimp only at hread
      rw [List.flatMap_cons, List.map_append, entry.map_lines, List.cons_append, List.append_assoc, List.foldlM_cons, execute,
        Results.ok_bind, List.foldlM_append, firstRead]
      cases hentry : readEntry s.options s.vars entry.commands with
      | some found =>
          rw [hentry] at hread
          have hreturn : entry.commands.foldlM execute { s with kernel := none, initrds := [], cmdline := [] } =
            .error found := hread
          rw [hreturn]
          rfl
      | none =>
          rw [hentry] at hread
          obtain ⟨s', hrun, hoptions, hvars⟩ := hread
          rw [hrun, ← hoptions, ← hvars, Option.none_or]
          exact @ih { s' with kernel := none, initrds := [], cmdline := [] } rfl

section Conditions

variable (options : Text) (vars : GrubVars) (cs : List Command)

/-- The linux line has a usable path, and the initrd line behind it one too. -/
def Readable : Prop := LinuxFirst cs ∧ kernelPath vars cs ≠ none ∧ lineInitrds vars cs ≠ []

instance : Decidable (Readable vars cs) := inferInstanceAs (Decidable (_ ∧ _ ∧ _))

/-- A linux line without arguments has the entry's own options line ahead of it, or another one with the same text. -/
def OwnOptions : Prop := linuxArguments cs = [] → optionsAfter options (ahead cs isLinux) = ownOptions cs

end Conditions

/-- Of these entries, the first one whose lines are in order happens to boot the same. -/
def BootsSame (entry : LinuxBootEntry) (options : Text) (vars : GrubVars) : List MenuEntry → Prop
  | [] => False
  | later :: entries =>
      if Readable vars later.commands then
        kernelPath vars later.commands = some entry.kernelPath ∧ lineInitrds vars later.commands = entry.initrdPaths ∧
          argumentsRead options later.commands = entry.cmdline
      else BootsSame entry (optionsAfter options later.commands) (varsAfter vars later.commands) entries

/-- The first menu entry with a usable kernel and a usable initrd has its lines in order: the initrd is named behind the
linux line on a line of its own, and the options, if the linux line needs them, are the entry's own. -/
def InOrder (options : Text) (vars : GrubVars) : List MenuEntry → Prop
  | [] => True
  | entry :: entries =>
      match entryOf vars entry.commands with
      | none => InOrder (optionsAfter options entry.commands) (varsAfter vars entry.commands) entries
      | some found =>
          if Readable vars entry.commands then OwnOptions options entry.commands
          else BootsSame found (optionsAfter options entry.commands) (varsAfter vars entry.commands) entries

theorem completeLinuxEntry_eq_some {kernel : Option Text} {initrds : List Text} {cmdline : Text} {entry : LinuxBootEntry} :
    completeLinuxEntry kernel initrds cmdline = some entry ↔
      initrds ≠ [] ∧ kernel = some entry.kernelPath ∧ initrds = entry.initrdPaths ∧ cmdline = entry.cmdline := by
  obtain ⟨path, paths, line⟩ := entry
  cases kernel with
  | none => simp [completeLinuxEntry]
  | some kernelPath =>
      by_cases hnone : initrds = []
      · simp [completeLinuxEntry, hnone]
      · simp [completeLinuxEntry, hnone]

theorem readEntry_eq_some (h : Readable vars cs) {entry : LinuxBootEntry} : readEntry options vars cs = some entry ↔
    kernelPath vars cs = some entry.kernelPath ∧ lineInitrds vars cs = entry.initrdPaths ∧
      argumentsRead options cs = entry.cmdline := by
  rw [readEntry, if_pos h.1, completeLinuxEntry_eq_some]
  exact and_iff_right h.2.2

theorem readEntry_of_not_readable (h : ¬ Readable vars cs) : readEntry options vars cs = none := by
  rw [readEntry]
  split_ifs with hfirst
  · by_contra hsome
    obtain ⟨entry, hentry⟩ := Option.ne_none_iff_exists'.mp hsome
    obtain ⟨hinitrds, hkernel, -⟩ := completeLinuxEntry_eq_some.mp hentry
    exact h ⟨hfirst, by rw [hkernel]; exact Option.some_ne_none _, hinitrds⟩
  · rfl

theorem exists_readEntry (options : Text) (h : Readable vars cs) : ∃ entry, readEntry options vars cs = some entry := by
  obtain ⟨path, hpath⟩ := Option.ne_none_iff_exists'.mp h.2.1
  exact ⟨⟨path, lineInitrds vars cs, argumentsRead options cs⟩, (readEntry_eq_some h).mpr ⟨hpath, rfl, rfl⟩⟩

/-- An entry whose lines are in order is usable. -/
theorem not_readable (h : entryOf vars cs = none) : ¬ Readable vars cs := by
  rintro ⟨-, hkernel, hinitrds⟩
  obtain ⟨path, hpath⟩ := Option.ne_none_iff_exists'.mp hkernel
  have hentry : entryOf vars cs = some ⟨path, lineInitrds vars cs,
      if linuxArguments cs = [] then ownOptions cs else linuxArguments cs⟩ := by
    rw [entryOf, if_neg hinitrds, completeLinuxEntry_eq_some]
    exact ⟨hinitrds, hpath, rfl, rfl⟩
  rw [h] at hentry
  cases hentry

theorem firstRead_eq_some {entries : List MenuEntry} {entry : LinuxBootEntry} :
    firstRead options vars entries = some entry ↔ BootsSame entry options vars entries := by
  induction entries generalizing options vars with
  | nil => simp [firstRead, BootsSame]
  | cons later entries ih =>
      rw [firstRead, BootsSame]
      by_cases hread : Readable vars later.commands
      · obtain ⟨found, hfound⟩ := exists_readEntry options hread
        rw [if_pos hread, ← readEntry_eq_some hread, hfound, Option.some_or]
      · rw [if_neg hread, readEntry_of_not_readable hread, Option.none_or, ih]

theorem firstRead_eq_iff {entries : List MenuEntry} :
    firstRead options vars entries = firstEntry vars entries ↔ InOrder options vars entries := by
  induction entries generalizing options vars with
  | nil => simp [firstRead, firstEntry, InOrder]
  | cons entry entries ih =>
      rw [firstRead, firstEntry, InOrder]
      cases hentry : entryOf vars entry.commands with
      | none =>
          dsimp only
          rw [readEntry_of_not_readable (not_readable hentry), Option.none_or, Option.none_or, ih]
      | some found =>
          dsimp only
          rw [Option.some_or]
          by_cases hread : Readable vars entry.commands
          · obtain ⟨hfirst, hkernel, hinitrds⟩ := hread
            rw [entryOf, if_neg hinitrds, completeLinuxEntry_eq_some] at hentry
            obtain ⟨-, hpath, hpaths, hcmdline⟩ := hentry
            obtain ⟨other, hother⟩ := exists_readEntry options ⟨hfirst, hkernel, hinitrds⟩
            rw [if_pos ⟨hfirst, hkernel, hinitrds⟩, hother, Option.some_or, ← hother,
              readEntry_eq_some ⟨hfirst, hkernel, hinitrds⟩, ← hcmdline, argumentsRead, OwnOptions]
            split_ifs with hnone
            · simp [hpath, hpaths, hnone]
            · simp [hpath, hpaths, hnone]
          · rw [if_neg hread, readEntry_of_not_readable hread, Option.none_or, firstRead_eq_some]

/-- Of a configuration of flat menu entries, the entry returned is that of the first usable one exactly when the lines of
that one are in order. -/
theorem parseGrubBootEntry_eq_iff {cfg : Text} {entries : List MenuEntry}
    (h : Strings.lines cfg = entries.flatMap MenuEntry.lines) :
    parseGrubBootEntry cfg = firstEntry [] entries ↔ InOrder [] [] entries := by
  rw [parseGrubBootEntry, h, parseGrubLines_eq, execute_entries rfl]
  exact firstRead_eq_iff

def menuEntry (body : List Text) (flat : Flat (body.map ofLine)) : MenuEntry where
  header := "menuentry x \x7b".toList
  body := body
  close := "\x7d".toList
  opens := ⟨"menuentry".toList, by decide +kernel⟩
  closes := by decide +kernel
  flat := flat

def bareEntry : MenuEntry :=
  menuEntry ["linux /a".toList] ⟨by decide +kernel, by decide +kernel, by decide +kernel, by decide +kernel⟩

def quietEntry : MenuEntry :=
  menuEntry ["options quiet".toList, "linux /k".toList, "initrd /i".toList]
    ⟨by decide +kernel, by decide +kernel, by decide +kernel, by decide +kernel⟩

theorem twoEntries_inOrder : InOrder [] [] [bareEntry, quietEntry] := by
  have hfirst : entryOf [] bareEntry.commands = none := by decide +kernel
  have hvars : varsAfter [] bareEntry.commands = [] := by decide +kernel
  have hsecond : entryOf [] quietEntry.commands = some ⟨"/k".toList, ["/i".toList], "quiet".toList⟩ := by decide +kernel
  have hread : Readable [] quietEntry.commands := by decide +kernel
  have hoptions : optionsAfter (optionsAfter [] bareEntry.commands) (ahead quietEntry.commands isLinux) =
      ownOptions quietEntry.commands := by decide +kernel
  rw [InOrder, hfirst]
  dsimp only
  rw [InOrder, hvars, hsecond]
  dsimp only
  rw [if_pos hread]
  exact fun _ => hoptions

theorem twoEntries_parsed :
    parseGrubBootEntry "menuentry x \x7b\nlinux /a\n\x7d\nmenuentry x \x7b\noptions quiet\nlinux /k\ninitrd /i\n\x7d\n".toList =
      firstEntry [] [bareEntry, quietEntry] :=
  (parseGrubBootEntry_eq_iff (by decide +kernel)).mpr twoEntries_inOrder

/-- With its initrd named ahead of the linux line, a menu entry is passed over. -/
theorem initrd_first_passed_over :
    ∃ entries : List MenuEntry,
      Strings.lines "menuentry x \x7b\ninitrd /i\nlinux /k quiet\n\x7d\n".toList = entries.flatMap MenuEntry.lines ∧
      firstEntry [] entries = some ⟨"/k".toList, ["/i".toList], "quiet".toList⟩ ∧
      parseGrubBootEntry "menuentry x \x7b\ninitrd /i\nlinux /k quiet\n\x7d\n".toList = none := by
  refine ⟨[menuEntry ["initrd /i".toList, "linux /k quiet".toList]
    ⟨by decide +kernel, by decide +kernel, by decide +kernel, by decide +kernel⟩], ?_, ?_, ?_⟩
  · decide +kernel
  · decide +kernel
  · decide +kernel

end NextBoot.Linux.MenuEntries
