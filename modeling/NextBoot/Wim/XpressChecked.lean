import NextBoot.Appending
import NextBoot.Wim.Xpress

/-!
The decompressor with its indices, shifts and additions checked, and its output written in place.
-/

namespace NextBoot.Wim.Xpress.Checked

open Words Bytes Results Faults Outcome Appending

def setAt (xs : List Nat) (i value : Nat) : Outcome XpressDecodeError (List Nat) :=
  if i < xs.length then pure (xs.set i value) else fault

/-- The lengths read so far, how many symbols have each, and whether any symbol has a codeword. -/
structure Counted where
  lengths : List Nat
  counts : List Nat
  nonEmpty : Bool
deriving DecidableEq, Repr

def countLength (len : Nat) (c : Counted) : Outcome XpressDecodeError Counted :=
  if len = 0 then pure c
  else do
    let count ← ofOption c.counts[len]?
    let count ← ofOption (checkedAdd 16 count 1)
    let counts ← setAt c.counts len count
    pure ⟨c.lengths, counts, true⟩

def countSymbol (lengthBytes : List UInt8) (c : Counted) (symbol : Nat) : Outcome XpressDecodeError Counted := do
  let byte : UInt8 ← ofOption lengthBytes[symbol / 2]?
  let len := if symbol % 2 = 0 then byte.toNat % 16 else byte.toNat / 16
  if huffmanBits < len then error .invalidHuffmanLength
  else do
    let lengths ← setAt c.lengths symbol len
    countLength len { c with lengths := lengths }

def assignBits (counts : List Nat) (a : Assignment) (bits : Nat) : Outcome XpressDecodeError Assignment := do
  let start ← ofOption (checkedShl 32 a.huf (huffmanBits - bits))
  let starts ← setAt a.starts bits start
  let firstSymbol ← setAt a.firstSymbol bits a.cumulative
  let count ← ofOption counts[bits]?
  let huf ← ofExcept (someOr (checkedAdd 32 a.huf count) .incompleteHuffmanAlphabet)
  if 2 ^ bits < huf then error .incompleteHuffmanAlphabet
  else do
    let huf ← ofOption (checkedShl 32 huf 1)
    let cumulative ← ofExcept (someOr (checkedAdd 64 a.cumulative count) .incompleteHuffmanAlphabet)
    pure ⟨huf, cumulative, starts, firstSymbol⟩

def placeSymbol (s : List Nat × List Nat) (p : Nat × Nat) : Outcome XpressDecodeError (List Nat × List Nat) :=
  if p.1 = 0 then pure s
  else do
    let index ← ofOption s.1[p.1]?
    let symbols ← setAt s.2 index p.2
    let cursor ← setAt s.1 p.1 (index + 1)
    pure (cursor, symbols)

def fromLengthBytes (lengthBytes : List UInt8) : Outcome XpressDecodeError XpressHuffman :=
  if lengthBytes.length ≠ lengthTableSize then error .inputTooShort
  else do
    let c ← (List.range codeCount).foldlM (countSymbol lengthBytes)
      ⟨List.replicate codeCount 0, List.replicate (huffmanBits + 1) 0, false⟩
    if c.nonEmpty = false then error .incompleteHuffmanAlphabet
    else do
      let a ← (List.range' 1 huffmanBits).foldlM (assignBits c.counts)
        ⟨0, 0, List.replicate (huffmanBits + 1) 0, List.replicate (huffmanBits + 1) 0⟩
      if a.huf ≠ 2 ^ (huffmanBits + 1) then error .incompleteHuffmanAlphabet
      else do
        let placed ← c.lengths.zipIdx.foldlM placeSymbol (a.firstSymbol, List.replicate codeCount 0)
        pure ⟨c.counts, a.starts, a.firstSymbol, placed.2⟩

def decodeFrom (alphabet : XpressHuffman) (huf : Nat) : List Nat → Outcome XpressDecodeError (Nat × Nat)
  | [] => error .invalidHuffmanCode
  | bits :: rest => do
      let count ← ofOption alphabet.counts[bits]?
      if count = 0 then decodeFrom alphabet huf rest
      else do
        let start ← ofOption alphabet.starts[bits]?
        let size ← ofOption (checkedShl 32 count (huffmanBits - bits))
        let stop ← ofOption (checkedAdd 32 start size)
        if start ≤ huf ∧ huf < stop then do
          let first ← ofOption alphabet.firstSymbol[bits]?
          let symbol ← ofOption alphabet.symbols[first + (huf - start) / 2 ^ (huffmanBits - bits)]?
          pure (symbol, bits)
        else decodeFrom alphabet huf rest

def decode (alphabet : XpressHuffman) (huf : Nat) : Outcome XpressDecodeError (Nat × Nat) :=
  decodeFrom alphabet huf (List.range' 1 huffmanBits)

variable (input : List UInt8)

def advance (stream : XpressBitstream) (bits : Nat) : Outcome XpressDecodeError XpressBitstream := do
  let accum ← ofOption (checkedShl 32 stream.accum bits)
  let extraBits := stream.extraBits - bits
  if extraBits < 0 then do
    let word ← ofExcept (XpressBitstream.readU16 input { stream with accum := accum, extraBits := extraBits })
    let shifted ← ofOption (checkedShl 32 word.1 extraBits.natAbs)
    pure { word.2 with accum := accum ||| shifted, extraBits := extraBits + 16 }
  else pure { stream with accum := accum, extraBits := extraBits }

def consume (stream : XpressBitstream) (bits : Nat) : Outcome XpressDecodeError XpressBitstream :=
  if bits = 0 ∨ huffmanBits < bits then error .invalidHuffmanCode else advance input stream bits

def readOffset (stream : XpressBitstream) (bits : Nat) : Outcome XpressDecodeError (Nat × XpressBitstream) :=
  if bits = 0 ∨ huffmanBits < bits then error .invalidHuffmanCode
  else do
    let shift ← ofOption (checkedSub 32 bits)
    let high ← ofOption (checkedShr 32 stream.accum shift)
    let base ← ofOption (checkedShl 32 1 bits)
    let value ← ofOption (checkedAdd 32 high base)
    let next ← advance input stream bits
    pure (value, next)

/-- What the decompressor keeps besides its output. -/
structure Reading where
  nextBlockAt : Nat
  alphabet : XpressHuffman
  bitstream : XpressBitstream
deriving DecidableEq, Repr

def beginBlock (outputLen : Nat) (s : Reading) : Outcome XpressDecodeError Reading :=
  if outputLen < s.nextBlockAt then pure s
  else do
    let lengthBytes ← ofExcept (someOr (slice input s.bitstream.position lengthTableSize) .inputTooShort)
    let alphabet ← fromLengthBytes lengthBytes
    let bitstream ← ofExcept (XpressBitstream.new input (s.bitstream.position + lengthTableSize))
    let nextBlockAt ← ofExcept (someOr (checkedAdd 64 outputLen blockSize) .outputOverflow)
    pure ⟨nextBlockAt, alphabet, bitstream⟩

def readMatchOffset (bits : Nat) (stream : XpressBitstream) : Outcome XpressDecodeError (Nat × XpressBitstream) :=
  if bits = 0 then pure (1, stream) else readOffset input stream bits

def putLiteral (byte : UInt8) (s : Reading) (buffer : Buffer UInt8) : Outcome XpressDecodeError (Reading × Buffer UInt8) :=
  if buffer.bytes.length ≤ buffer.used then error .outputOverflow
  else do
    let buffer ← buffer.push byte
    pure (s, buffer)

def putMatch (matchLen matchOffset : Nat) (s : Reading) (buffer : Buffer UInt8) :
    Outcome XpressDecodeError (Reading × Buffer UInt8) :=
  if matchOffset = 0 ∨ buffer.used < matchOffset then error .invalidMatchOffset
  else do
    let stop ← ofExcept (someOr (checkedAdd 64 buffer.used matchLen) .outputOverflow)
    if buffer.bytes.length < stop then error .outputOverflow
    else do
      let buffer ← buffer.copyMatch matchOffset matchLen
      pure (s, buffer)

def copyBack (raw : Nat) (s : Reading) (buffer : Buffer UInt8) : Outcome XpressDecodeError (Reading × Buffer UInt8) := do
  let matchLen ← ofExcept (readMatchLen input (raw % 16) s.bitstream)
  let matchOffset ← readMatchOffset input (raw / 16) matchLen.2
  putMatch matchLen.1 matchOffset.1 { s with bitstream := matchOffset.2 } buffer

/-- The rounds of the decompressor, of which `rounds` may still begin. -/
def decompressLoop : Nat → Reading → Buffer UInt8 → Outcome XpressDecodeError (Reading × Buffer UInt8)
  | 0, s, buffer => if buffer.bytes.length ≤ buffer.used then pure (s, buffer) else fault
  | rounds + 1, s, buffer =>
      if buffer.bytes.length ≤ buffer.used then pure (s, buffer)
      else do
        let s ← beginBlock input buffer.used s
        let symbol ← decode s.alphabet s.bitstream.peek
        let bitstream ← consume input s.bitstream symbol.2
        let s : Reading := { s with bitstream := bitstream }
        if symbol.1 < endMarker then do
          let r ← putLiteral (UInt8.ofNat symbol.1) s buffer
          decompressLoop rounds r.1 r.2
        else if symbol.1 = endMarker ∧ input.length - 1 ≤ bitstream.position then pure (s, buffer)
        else do
          let r ← copyBack input (symbol.1 - endMarker) s buffer
          decompressLoop rounds r.1 r.2

def decompressXpress (out : List UInt8) : Outcome XpressDecodeError (List UInt8 × Nat) :=
  if out = [] then pure (out, 0)
  else do
    let r ← decompressLoop input out.length ⟨0, XpressHuffman.empty, XpressBitstream.empty⟩ ⟨out, 0⟩
    pure (r.2.bytes, r.2.used)

end NextBoot.Wim.Xpress.Checked
