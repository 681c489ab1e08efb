import NextBoot.Strings

namespace NextBoot.Linux.Parser

open Strings

structure LinuxBootEntry where
  kernelPath : Text
  initrdPaths : List Text
  cmdline : Text
deriving DecidableEq, Repr

def cleanConfigLine (line : Text) : Option Text :=
  let trimmed := trim line
  if trimmed = [] ∨ trimmed.head? = some '#' then none else some trimmed

def quoteMark : Char := Char.ofNat 0x22

def apostrophe : Char := Char.ofNat 0x27

def backslash : Char := Char.ofNat 0x5C

/-- The tokens from a position of the line on, behind the part of a token that has been read. -/
def tokensFrom (current : Text) (quote : Option Char) (escaped : Bool) : Text → List Text
  | [] => if current = [] then [] else [current]
  | ch :: rest =>
      if escaped then tokensFrom (current ++ [ch]) quote false rest
      else if ch = backslash then tokensFrom current quote true rest
      else if quote.isNone ∧ ch = '#' then if current = [] then [] else [current]
      else if ch = quoteMark ∨ ch = apostrophe then
        match quote with
        | some active =>
            if active = ch then tokensFrom current none false rest
            else tokensFrom (current ++ [ch]) quote false rest
        | none => tokensFrom current (some ch) false rest
      else if quote.isNone ∧ isWhitespace ch then
        if current = [] then tokensFrom [] quote false rest else current :: tokensFrom [] quote false rest
      else tokensFrom (current ++ [ch]) quote false rest

def configTokens (line : Text) : List Text := tokensFrom [] none false line

def stripQuotes (value : Text) : Text := trimMatches apostrophe (trimMatches quoteMark (trim value))

abbrev GrubVars := List (Text × Text)

def findGrubVar (vars : GrubVars) (name : Text) : Option Text := (vars.find? fun v => v.1 = name).map Prod.snd

def isVariableChar (ch : Char) : Bool := ch = '_' ∨ ch = '-' ∨ isAsciiAlphanumeric ch

def openBrace : Char := Char.ofNat 0x7B

def closeBrace : Char := Char.ofNat 0x7D

def expandGrubVariables (vars : GrubVars) (token : Text) : Option Text :=
  match token with
  | [] => some []
  | ch :: rest =>
      if ch ≠ '$' then (expandGrubVariables vars rest).map (ch :: ·)
      else if rest.head? = some openBrace then
        match _h : splitOnce closeBrace rest.tail with
        | none => none
        | some (name, after) => do
            let value ← findGrubVar vars name
            let expanded ← expandGrubVariables vars after
            pure (value ++ expanded)
      else if rest.takeWhile isVariableChar = [] then none
      else do
        let value ← findGrubVar vars (rest.takeWhile isVariableChar)
        let expanded ← expandGrubVariables vars (rest.dropWhile isVariableChar)
        pure (value ++ expanded)
termination_by token.length
decreasing_by
  · simp
  · have hlength := congrArg List.length (splitOnce_eq_some _h)
    rw [List.length_tail, List.length_append, List.length_cons] at hlength
    simp only [List.length_cons]
    omega
  · have hle := (List.dropWhile_sublist isVariableChar (l := rest)).length_le
    simp only [List.length_cons]
    omega

def initrdPrefix : Text := ['i', 'n', 'i', 't', 'r', 'd', '=']

def schemeMark : Text := [':', '/', '/']

def noneWord : Text := ['n', 'o', 'n', 'e']

/-- What stands behind a parenthesised device, which has to be closed. -/
def stripDevice (token : Text) : Option Text :=
  if token.head? = some '(' then (splitOnce ')' token).map Prod.snd else some token

def stripCurrentDir : Text → Text
  | '.' :: '/' :: rest => stripCurrentDir rest
  | token => token

def normalizeConfigPathTokenWithVars (vars : GrubVars) (token : Text) : Option Text := do
  let token := stripQuotes (trim token)
  let token := (stripPrefix initrdPrefix token).getD token
  let token := ((splitOnce ',' token).map Prod.fst).getD token
  let token ← stripDevice token
  let token ← if token.contains '$' then expandGrubVariables vars token >>= stripDevice else some token
  let token := trim (stripCurrentDir token)
  if token = [] ∨ token.contains '$' ∨ containsText schemeMark token ∨ eqIgnoreAsciiCase token noneWord then none
  else some (token.map fun ch => if ch = backslash then '/' else ch)

def normalizedConfigPaths (vars : GrubVars) (tokens : List Text) : List Text :=
  tokens.filterMap (normalizeConfigPathTokenWithVars vars)

def extractInitrdsFromCmdlineTokens (vars : GrubVars) (tokens : List Text) : List Text :=
  tokens.flatMap fun token =>
    match stripPrefix initrdPrefix token with
    | none => []
    | some value => (split ',' value).filterMap (normalizeConfigPathTokenWithVars vars)

def stripCmdlineInitrdTokens (tokens : List Text) : Text :=
  (tokens.filter fun token => (stripPrefix initrdPrefix token).isNone).foldl
    (fun out token => if out = [] then out ++ token else out ++ [' '] ++ token) []

def completeLinuxEntry (kernel : Option Text) (initrds : List Text) (cmdline : Text) : Option LinuxBootEntry := do
  let kernelPath ← kernel
  if initrds = [] then none else some ⟨kernelPath, initrds, cmdline⟩

/-- What the lines of a label have given so far. -/
structure Pending where
  kernel : Option Text
  initrds : List Text
  append : Text
deriving DecidableEq, Repr

namespace Pending

def start : Pending := ⟨none, [], []⟩

def complete (s : Pending) : Option LinuxBootEntry := completeLinuxEntry s.kernel s.initrds s.append

/-- The early return: an entry that is complete ends the parse. -/
def orReturn (s : Pending) : Except LinuxBootEntry Pending :=
  match s.complete with
  | some entry => .error entry
  | none => .ok s

end Pending

def labelWord : Text := ['l', 'a', 'b', 'e', 'l']

def kernelWord : Text := ['k', 'e', 'r', 'n', 'e', 'l']

def linuxWord : Text := ['l', 'i', 'n', 'u', 'x']

def initrdWord : Text := ['i', 'n', 'i', 't', 'r', 'd']

def appendWord : Text := ['a', 'p', 'p', 'e', 'n', 'd']

def isolinuxLine (s : Pending) (line : Text) : Except LinuxBootEntry Pending :=
  match cleanConfigLine line with
  | none => .ok s
  | some line =>
      match configTokens line with
      | [] => .ok s
      | command :: parts =>
          if eqIgnoreAsciiCase command labelWord then .ok .start
          else if eqIgnoreAsciiCase command kernelWord ∨ eqIgnoreAsciiCase command linuxWord then
            Pending.orReturn { s with kernel := parts.head? >>= normalizeConfigPathTokenWithVars [] }
          else if eqIgnoreAsciiCase command initrdWord then
            Pending.orReturn { s with initrds := normalizedConfigPaths [] parts }
          else if eqIgnoreAsciiCase command appendWord then
            Pending.orReturn { s with
              append := stripCmdlineInitrdTokens parts
              initrds := if s.initrds = [] then extractInitrdsFromCmdlineTokens [] parts else s.initrds }
          else .ok s

def parseIsolinuxLines (ls : List Text) : Option LinuxBootEntry :=
  match ls.foldlM isolinuxLine .start with
  | .error entry => some entry
  | .ok s => s.complete

def parseIsolinuxBootEntry (cfg : Text) : Option LinuxBootEntry := parseIsolinuxLines (lines cfg)

end NextBoot.Linux.Parser
