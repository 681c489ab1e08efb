import NextBoot.Wim.Resource

namespace NextBoot.Wim.Xpress

open Words Bytes Results

def codeCount : Nat := 512

def lengthTableSize : Nat := codeCount / 2

def endMarker : Nat := 256

def blockSize : Nat := 64 * 1024

def huffmanBits : Nat := 16

/-- A canonical code: for each length how many codewords there are, the first of them behind each other in the order of
the lengths, and the symbols in that order. -/
structure XpressHuffman where
  counts : List Nat
  starts : List Nat
  firstSymbol : List Nat
  symbols : List Nat
deriving DecidableEq, Repr

def XpressHuffman.empty : XpressHuffman where
  counts := List.replicate (huffmanBits + 1) 0
  starts := List.replicate (huffmanBits + 1) 0
  firstSymbol := List.replicate (huffmanBits + 1) 0
  symbols := List.replicate codeCount 0

/-- The codeword lengths of the symbols, two in a byte. -/
def codeLengths (lengthBytes : List UInt8) : List Nat :=
  lengthBytes.flatMap fun byte => [byte.toNat % 16, byte.toNat / 16]

/-- The assignment of codewords after some lengths: the next codeword, and how many symbols have one. -/
structure Assignment where
  huf : Nat
  cumulative : Nat
  starts : List Nat
  firstSymbol : List Nat

def assignLength (counts : List Nat) (a : Assignment) (bits : Nat) : Except XpressDecodeError Assignment := do
  let huf ← someOr (checkedAdd 32 a.huf (counts.getD bits 0)) .incompleteHuffmanAlphabet
  refuseIf (2 ^ bits < huf) .incompleteHuffmanAlphabet
  pure {
    huf := huf * 2
    cumulative := a.cumulative + counts.getD bits 0
    starts := a.starts ++ [a.huf * 2 ^ (huffmanBits - bits)]
    firstSymbol := a.firstSymbol ++ [a.cumulative] }

/-- The symbols by their codewords; `cursor` is where the next symbol of a length goes. -/
def sortSymbols (lengths : List Nat) (cursor symbols : List Nat) : List Nat :=
  (lengths.zipIdx.foldl (fun (s : List Nat × List Nat) (p : Nat × Nat) =>
    if p.1 = 0 then s
    else (s.1.set p.1 (s.1.getD p.1 0 + 1), s.2.set (s.1.getD p.1 0) p.2)) (cursor, symbols)).2

def XpressHuffman.fromLengthBytes (lengthBytes : List UInt8) : Except XpressDecodeError XpressHuffman := do
  refuseIf (lengthBytes.length ≠ lengthTableSize) .inputTooShort
  let lengths := codeLengths lengthBytes
  refuseIf (lengths.any (huffmanBits < ·)) .invalidHuffmanLength
  refuseIf (lengths.all (· = 0)) .incompleteHuffmanAlphabet
  let counts := (List.range (huffmanBits + 1)).map fun bits => if bits = 0 then 0 else lengths.count bits
  let a ← (List.range' 1 huffmanBits).foldlM (assignLength counts) ⟨0, 0, [0], [0]⟩
  refuseIf (a.huf ≠ 2 ^ (huffmanBits + 1)) .incompleteHuffmanAlphabet
  pure {
    counts := counts
    starts := a.starts
    firstSymbol := a.firstSymbol
    symbols := sortSymbols lengths a.firstSymbol (List.replicate codeCount 0) }

/-- The symbol whose codeword some bits begin with, among the lengths that are left, and its length. -/
def decodeFrom (alphabet : XpressHuffman) (huf : Nat) : List Nat → Except XpressDecodeError (Nat × Nat)
  | [] => .error .invalidHuffmanCode
  | bits :: rest =>
      let count := alphabet.counts.getD bits 0
      let shift := huffmanBits - bits
      let start := alphabet.starts.getD bits 0
      if count ≠ 0 ∧ start ≤ huf ∧ huf < start + count * 2 ^ shift then
        .ok (alphabet.symbols.getD (alphabet.firstSymbol.getD bits 0 + (huf - start) / 2 ^ shift) 0, bits)
      else decodeFrom alphabet huf rest

def XpressHuffman.decode (alphabet : XpressHuffman) (huf : Nat) : Except XpressDecodeError (Nat × Nat) :=
  decodeFrom alphabet huf (List.range' 1 huffmanBits)

/-- The bits at hand are the upper ones of `accum`; `extraBits` counts those behind the first 16. -/
structure XpressBitstream where
  position : Nat
  accum : Nat
  extraBits : Int
deriving DecidableEq, Repr

variable (input : List UInt8)

namespace XpressBitstream

def empty : XpressBitstream := ⟨0, 0, 0⟩

def readU8 (stream : XpressBitstream) : Except XpressDecodeError (Nat × XpressBitstream) := do
  let byte : UInt8 ← someOr input[stream.position]? .inputTooShort
  pure (byte.toNat, { stream with position := stream.position + 1 })

def readU16 (stream : XpressBitstream) : Except XpressDecodeError (Nat × XpressBitstream) := do
  let word ← someOr (readLe 2 input stream.position) .inputTooShort
  pure (word, { stream with position := stream.position + 2 })

def new (position : Nat) : Except XpressDecodeError XpressBitstream := do
  let high ← readU16 input ⟨position, 0, 16⟩
  let low ← readU16 input high.2
  pure { low.2 with accum := high.1 * 2 ^ 16 + low.1 }

def peek (stream : XpressBitstream) : Nat := stream.accum / 2 ^ (32 - huffmanBits)

/-- Taking bits away, and a word from the input when fewer than 16 are left. -/
def advance (stream : XpressBitstream) (bits : Nat) : Except XpressDecodeError XpressBitstream := do
  let accum := stream.accum * 2 ^ bits % 2 ^ 32
  let extraBits := stream.extraBits - bits
  if extraBits < 0 then do
    let word ← readU16 input { stream with accum := accum, extraBits := extraBits }
    pure { word.2 with accum := accum ||| word.1 * 2 ^ extraBits.natAbs, extraBits := extraBits + 16 }
  else pure { stream with accum := accum, extraBits := extraBits }

def consume (stream : XpressBitstream) (bits : Nat) : Except XpressDecodeError XpressBitstream := do
  refuseIf (bits = 0 ∨ huffmanBits < bits) .invalidHuffmanCode
  advance input stream bits

def readOffset (stream : XpressBitstream) (bits : Nat) : Except XpressDecodeError (Nat × XpressBitstream) := do
  refuseIf (bits = 0 ∨ huffmanBits < bits) .invalidHuffmanCode
  let next ← advance input stream bits
  pure (stream.accum / 2 ^ (32 - bits) + 2 ^ bits, next)

end XpressBitstream

open XpressBitstream

structure Decompression where
  out : List UInt8
  outputLen : Nat
  nextBlockAt : Nat
  alphabet : XpressHuffman
  bitstream : XpressBitstream

/-- Where a block of output is full, the next one begins with a table of codeword lengths. -/
def beginBlock (s : Decompression) : Except XpressDecodeError Decompression :=
  if s.outputLen < s.nextBlockAt then pure s
  else do
    let lengthBytes ← someOr (slice input s.bitstream.position lengthTableSize) .inputTooShort
    let alphabet ← XpressHuffman.fromLengthBytes lengthBytes
    let bitstream ← XpressBitstream.new input (s.bitstream.position + lengthTableSize)
    let nextBlockAt ← someOr (checkedAdd 64 s.outputLen blockSize) .outputOverflow
    pure { s with alphabet := alphabet, bitstream := bitstream, nextBlockAt := nextBlockAt }

/-- The length of a match, of which the symbol has the lowest four bits; long ones stand in the input. -/
def readMatchLen (low : Nat) (stream : XpressBitstream) : Except XpressDecodeError (Nat × XpressBitstream) :=
  if low ≠ 0x0f then pure (low + 3, stream)
  else do
    let byte ← readU8 input stream
    if byte.1 = 0xff then do
      let word ← readU16 input byte.2
      pure (word.1 + 3, word.2)
    else pure (byte.1 + 0x0f + 3, byte.2)

def readMatchOffset (bits : Nat) (stream : XpressBitstream) : Except XpressDecodeError (Nat × XpressBitstream) :=
  if bits = 0 then pure (1, stream) else readOffset input stream bits

/-- A match is copied byte by byte, so that it may overlap what it writes. -/
def copyMatch (out : List UInt8) (outputLen matchOffset : Nat) : Nat → List UInt8
  | 0 => out
  | count + 1 => copyMatch (out.set outputLen (out.getD (outputLen - matchOffset) 0)) (outputLen + 1) matchOffset count

def copyBack (raw : Nat) (s : Decompression) : Except XpressDecodeError Decompression := do
  let matchLen ← readMatchLen input (raw % 16) s.bitstream
  let matchOffset ← readMatchOffset input (raw / 16) matchLen.2
  refuseIf (matchOffset.1 = 0 ∨ s.outputLen < matchOffset.1) .invalidMatchOffset
  let stop ← someOr (checkedAdd 64 s.outputLen matchLen.1) .outputOverflow
  refuseIf (s.out.length < stop) .outputOverflow
  pure { s with
    out := copyMatch s.out s.outputLen matchOffset.1 matchLen.1
    outputLen := stop
    bitstream := matchOffset.2 }

/-- The rounds of the decompressor. Each writes at least one byte, so one round more than the output has bytes is
enough. -/
def decompressLoop : Nat → Decompression → Except XpressDecodeError (List UInt8 × Nat)
  | 0, s => pure (s.out, s.outputLen)
  | rounds + 1, s =>
      if s.out.length ≤ s.outputLen then pure (s.out, s.outputLen)
      else do
        let s ← beginBlock input s
        let symbol ← s.alphabet.decode s.bitstream.peek
        let bitstream ← consume input s.bitstream symbol.2
        if symbol.1 < endMarker then
          decompressLoop rounds { s with
            out := s.out.set s.outputLen (UInt8.ofNat symbol.1)
            outputLen := s.outputLen + 1
            bitstream := bitstream }
        else if symbol.1 = endMarker ∧ input.length - 1 ≤ bitstream.position then pure (s.out, s.outputLen)
        else do
          let s ← copyBack input (symbol.1 - endMarker) { s with bitstream := bitstream }
          decompressLoop rounds s

def decompressXpress (out : List UInt8) : Except XpressDecodeError (List UInt8 × Nat) :=
  decompressLoop input (out.length + 1) ⟨out, 0, 0, XpressHuffman.empty, XpressBitstream.empty⟩

variable {input : List UInt8} {s : Decompression} {result : List UInt8 × Nat}

theorem length_copyMatch {out : List UInt8} {outputLen matchOffset count : Nat} :
    (copyMatch out outputLen matchOffset count).length = out.length := by
  induction count generalizing out outputLen with
  | zero => rfl
  | succ count ih => rw [copyMatch, ih, List.length_set]

theorem beginBlock_out {s' : Decompression} (h : beginBlock input s = .ok s') : s'.out = s.out := by
  rw [beginBlock] at h
  split at h
  · cases h
    rfl
  · obtain ⟨_, -, h⟩ := bind_eq_ok.mp h
    obtain ⟨_, -, h⟩ := bind_eq_ok.mp h
    obtain ⟨_, -, h⟩ := bind_eq_ok.mp h
    obtain ⟨_, -, h⟩ := bind_eq_ok.mp h
    cases h
    rfl

theorem length_copyBack {raw : Nat} {s' : Decompression} (h : copyBack input raw s = .ok s') :
    s'.out.length = s.out.length := by
  obtain ⟨_, -, h⟩ := bind_eq_ok.mp h
  obtain ⟨_, -, h⟩ := bind_eq_ok.mp h
  obtain ⟨_, -, h⟩ := bind_eq_ok.mp h
  obtain ⟨_, -, h⟩ := bind_eq_ok.mp h
  obtain ⟨_, -, h⟩ := bind_eq_ok.mp h
  cases h
  exact length_copyMatch

theorem length_decompressLoop {rounds : Nat} (h : decompressLoop input rounds s = .ok result) :
    result.1.length = s.out.length := by
  induction rounds generalizing s with
  | zero =>
      cases h
      rfl
  | succ rounds ih =>
      rw [decompressLoop] at h
      split at h
      · cases h
        rfl
      · obtain ⟨s', hbegin, h⟩ := bind_eq_ok.mp h
        obtain ⟨symbol, -, h⟩ := bind_eq_ok.mp h
        obtain ⟨bitstream, -, h⟩ := bind_eq_ok.mp h
        rw [← beginBlock_out hbegin]
        split at h
        · rw [ih h, List.length_set]
        · split at h
          · cases h
            rfl
          · obtain ⟨s'', hcopy, h⟩ := bind_eq_ok.mp h
            rw [ih h, length_copyBack hcopy]

/-- The decompressor, as the reading of resources uses it. -/
def decoder : Decoder XpressDecodeError where
  run := decompressXpress
  length_run h := length_decompressLoop h

end NextBoot.Wim.Xpress
