import NextBoot.Results
import NextBoot.Linux.Parser

namespace NextBoot.Linux.Grub

open Strings Linux.Parser

def setWord : Text := ['s', 'e', 't']

def optionsWord : Text := ['o', 'p', 't', 'i', 'o', 'n', 's']

def menuentryWord : Text := ['m', 'e', 'n', 'u', 'e', 'n', 't', 'r', 'y']

def linuxWords : List Text :=
  [['l', 'i', 'n', 'u', 'x'], ['l', 'i', 'n', 'u', 'x', '1', '6'], ['l', 'i', 'n', 'u', 'x', 'e', 'f', 'i']]

def initrdWords : List Text :=
  [['i', 'n', 'i', 't', 'r', 'd'], ['i', 'n', 'i', 't', 'r', 'd', '1', '6'], ['i', 'n', 'i', 't', 'r', 'd', 'e', 'f', 'i']]

def moduleWords : List Text :=
  [['m', 'o', 'd', 'u', 'l', 'e'], ['m', 'o', 'd', 'u', 'l', 'e', '2'],
    ['m', 'o', 'd', 'u', 'l', 'e', '2', 'e', 'f', 'i']]

/-- The command is one of the words, in any case. -/
def isOneOf (words : List Text) (command : Text) : Bool := words.any (eqIgnoreAsciiCase command)

/-- Only the first token is looked at. -/
def parseGrubSet : List Text → Option (Text × Text)
  | [] => none
  | token :: _ => do
      let (name, value) ← splitOnce '=' token
      if name = [] ∨ ¬ name.all isVariableChar then none
      else if stripQuotes value = [] then none
      else some (name, stripQuotes value)

def setGrubVar (name value : Text) : GrubVars → GrubVars
  | [] => [(name, value)]
  | (existing, existingValue) :: vars =>
      if existing = name then (existing, value) :: vars else (existing, existingValue) :: setGrubVar name value vars

/-- What the lines read so far have left. -/
structure MenuState where
  kernel : Option Text
  initrds : List Text
  cmdline : Text
  options : Text
  vars : GrubVars
deriving DecidableEq, Repr

namespace MenuState

def start : MenuState := ⟨none, [], [], [], []⟩

def complete (s : MenuState) : Option LinuxBootEntry := completeLinuxEntry s.kernel s.initrds s.cmdline

/-- The early return of an initrd line. -/
def orReturn (s : MenuState) : Except LinuxBootEntry MenuState :=
  match s.complete with
  | some entry => .error entry
  | none => .ok s

end MenuState

/-- A linux line without a usable path is passed over. -/
def readLinux (s : MenuState) (parts : List Text) : MenuState :=
  match parts.head? >>= normalizeConfigPathTokenWithVars s.vars with
  | none => s
  | some path =>
      let args := parts.tail
      let cmdline := stripCmdlineInitrdTokens args
      { s with
        kernel := some path
        initrds := if s.initrds = [] then extractInitrdsFromCmdlineTokens s.vars args else s.initrds
        cmdline := if cmdline = [] ∧ s.options ≠ [] then s.options else cmdline }

def grubLine (s : MenuState) (line : Text) : Except LinuxBootEntry MenuState :=
  match cleanConfigLine line with
  | none => .ok s
  | some line =>
      match configTokens line with
      | [] => .ok s
      | command :: parts =>
          if command = [closeBrace] ∨ menuentryWord.isPrefixOf command then
            .ok { s with kernel := none, initrds := [], cmdline := [] }
          else if eqIgnoreAsciiCase command setWord then
            match parseGrubSet parts with
            | some (name, value) => .ok { s with vars := setGrubVar name value s.vars }
            | none => .ok s
          else if eqIgnoreAsciiCase command optionsWord then .ok { s with options := stripCmdlineInitrdTokens parts }
          else if isOneOf linuxWords command then .ok (readLinux s parts)
          else if isOneOf initrdWords command then
            MenuState.orReturn { s with initrds := normalizedConfigPaths s.vars parts }
          else if isOneOf moduleWords command then
            .ok { s with initrds := if s.initrds = [] then normalizedConfigPaths s.vars parts else s.initrds }
          else .ok s

def parseGrubLines (ls : List Text) : Option LinuxBootEntry :=
  match ls.foldlM grubLine .start with
  | .error entry => some entry
  | .ok s => s.complete

def parseGrubBootEntry (cfg : Text) : Option LinuxBootEntry := parseGrubLines (lines cfg)

/-- What a line says, whatever stands before it. -/
inductive Command where
  | reset
  | set (parts : List Text)
  | options (parts : List Text)
  | linux (parts : List Text)
  | initrd (parts : List Text)
  | module (parts : List Text)
  | other
deriving DecidableEq

namespace Command

def ofTokens : List Text → Command
  | [] => other
  | command :: parts =>
      if command = [closeBrace] ∨ menuentryWord.isPrefixOf command then reset
      else if eqIgnoreAsciiCase command setWord then set parts
      else if eqIgnoreAsciiCase command optionsWord then options parts
      else if isOneOf linuxWords command then linux parts
      else if isOneOf initrdWords command then initrd parts
      else if isOneOf moduleWords command then module parts
      else other

def ofLine (line : Text) : Command :=
  match cleanConfigLine line with
  | none => other
  | some line => ofTokens (configTokens line)

def isLinux : Command → Bool
  | linux _ => true
  | _ => false

def isInitrd : Command → Bool
  | initrd _ => true
  | _ => false

def isOptions : Command → Bool
  | options _ => true
  | _ => false

def parts : Command → List Text
  | set parts | options parts | linux parts | initrd parts | module parts => parts
  | _ => []

end Command

open Command

/-- The variables behind a line. -/
def assign (vars : GrubVars) : Command → GrubVars
  | .set parts =>
      match parseGrubSet parts with
      | some (name, value) => setGrubVar name value vars
      | none => vars
  | _ => vars

def execute (s : MenuState) : Command → Except LinuxBootEntry MenuState
  | reset => .ok { s with kernel := none, initrds := [], cmdline := [] }
  | .set parts => .ok { s with vars := assign s.vars (.set parts) }
  | options parts => .ok { s with options := stripCmdlineInitrdTokens parts }
  | linux parts => .ok (readLinux s parts)
  | initrd parts => MenuState.orReturn { s with initrds := normalizedConfigPaths s.vars parts }
  | module parts => .ok { s with initrds := if s.initrds = [] then normalizedConfigPaths s.vars parts else s.initrds }
  | other => .ok s

theorem grubLine_eq (s : MenuState) (line : Text) : grubLine s line = execute s (ofLine line) := by
  rw [grubLine, ofLine]
  cases cleanConfigLine line with
  | none => rfl
  | some line =>
      dsimp only
      cases configTokens line with
      | nil => rfl
      | cons command parts =>
          dsimp only
          rw [ofTokens]
          split_ifs
          · rfl
          · simp only [execute, assign]
            cases parseGrubSet parts <;> rfl
          all_goals simp [execute, *]

def outcome : Except LinuxBootEntry MenuState → Option LinuxBootEntry
  | .error entry => some entry
  | .ok s => s.complete

theorem parseGrubLines_eq (ls : List Text) : parseGrubLines ls = outcome ((ls.map ofLine).foldlM execute .start) := by
  have hfold : ls.foldlM grubLine MenuState.start = (ls.map ofLine).foldlM execute .start := by
    rw [List.foldlM_map]
    congr
    funext s line
    exact grubLine_eq s line
  rw [parseGrubLines, hfold]
  cases (ls.map ofLine).foldlM execute .start <;> rfl

end NextBoot.Linux.Grub
