import NextBoot.Appending
import NextBoot.Lzx.Huffman
import NextBoot.Lzx.Jumps

namespace NextBoot.Lzx

open Words Bytes Results Faults Outcome Appending
open Wim (LzxDecodeError)

def alignoffsetCodes : Nat := 8

def alignoffsetBits : Nat := 3

def pretreeCodes : Nat := 20

def pretreeBits : Nat := 4

def mainLitCodes : Nat := 256

def positionSlots : Nat := 30

def mainCodes : Nat := mainLitCodes + 8 * positionSlots

def lengthCodes : Nat := 249

def blockTypeBits : Nat := 3

def defaultBlockLen : Nat := 32 * 1024

def repeatedOffsets : Nat := 3

def footerBits (positionSlot : Nat) : Nat :=
  if positionSlot < 2 then 0 else if positionSlot < 38 then positionSlot / 2 - 1 else 17

/-- The entry of `LZX_POSITION_BASE` for a slot. -/
def positionBase : Nat → Nat
  | 0 => 0
  | slot + 1 => positionBase slot + 2 ^ footerBits slot

inductive LzxBlockType where
  | verbatim
  | alignedOffset
  | uncompressed
deriving DecidableEq, Repr

/-- The input as it is read: `accumulator` has the next bits on top, and `bits` is how many of them it has. -/
structure BitReader where
  inputOffset : Nat
  accumulator : Nat
  bits : Nat
deriving DecidableEq, Repr

/-- The decoder, apart from its output. -/
structure Decoder extends BitReader where
  blockEnd : Nat
  blockType : LzxBlockType
  repeatedOffset : List Nat
  alignoffset : LzxHuffman
  pretree : LzxHuffman
  main : LzxHuffman
  length : LzxHuffman
  mainLengths : List Nat
  lengthLengths : List Nat
deriving DecidableEq, Repr

variable (input : List UInt8)

namespace BitReader

def readU16 (r : BitReader) : Outcome LzxDecodeError (Nat × BitReader) := do
  let word ← ofExcept (someOr (readLe 2 input r.inputOffset) .inputTooShort)
  pure (word, { r with inputOffset := r.inputOffset + 2 })

def readU32 (r : BitReader) : Outcome LzxDecodeError (Nat × BitReader) := do
  let word ← ofExcept (someOr (readLe 4 input r.inputOffset) .inputTooShort)
  pure (word, { r with inputOffset := r.inputOffset + 4 })

/-- The part of `accumulate` that takes another word from the input, and when it does so. -/
def refill (r : BitReader) : Outcome LzxDecodeError BitReader := do
  let word ← readU16 input r
  let shift ← ofOption (checkedSub 16 r.bits)
  let shifted ← ofOption (checkedShl 32 word.1 shift)
  let bits ← ofOption (checkedAdd 8 r.bits 16)
  pure { word.2 with accumulator := r.accumulator ||| shifted, bits := bits }

def fill (needed : Nat) (r : BitReader) : Outcome LzxDecodeError BitReader :=
  if r.bits < needed ∧ r.inputOffset < input.length then refill input r else pure r

def accumulate (needed : Nat) (r : BitReader) : Outcome LzxDecodeError (Nat × BitReader) :=
  if huffmanBits < needed then error .invalidHuffmanCode
  else do
    let r ← fill input needed r
    pure (r.accumulator / 2 ^ 16, r)

def consume (bits : Nat) (r : BitReader) : Outcome LzxDecodeError BitReader :=
  if r.bits < bits then error .inputTooShort
  else do
    let accumulator ← ofOption (checkedShl 32 r.accumulator bits)
    pure { r with accumulator := accumulator, bits := r.bits - bits }

def getBits (bits : Nat) (r : BitReader) : Outcome LzxDecodeError (Nat × BitReader) :=
  if bits = 0 then pure (0, r)
  else do
    let normalized ← accumulate input bits r
    let r ← consume bits normalized.2
    let shift ← ofOption (checkedSub huffmanBits bits)
    let value ← ofOption (checkedShr 32 normalized.1 shift)
    pure (value, r)

def alignForBytes (paddingBits : Nat) (r : BitReader) : Outcome LzxDecodeError BitReader := do
  let padding ← getBits input paddingBits r
  consume padding.2.bits padding.2

/-- A symbol of one of the alphabets. -/
def decodeSymbol (table : LzxHuffman) (r : BitReader) : Outcome LzxDecodeError (Nat × BitReader) := do
  let huf ← accumulate input huffmanBits r
  let symbol ← table.decode huf.1
  let r ← consume symbol.2 huf.2
  pure (symbol.1, r)

/-- The lengths of `read_raw_alphabet`, of which `count` are left. -/
def readRawLengths (bits : Nat) : Nat → BitReader → Outcome LzxDecodeError (List Nat × BitReader)
  | 0, r => pure ([], r)
  | count + 1, r => do
      let len ← getBits input bits r
      let rest ← readRawLengths bits count len.2
      pure (len.1 % 2 ^ 8 :: rest.1, rest.2)

def readRawAlphabet (codes bits : Nat) (r : BitReader) : Outcome LzxDecodeError (LzxHuffman × BitReader) := do
  let lengths ← readRawLengths input bits codes r
  let table ← LzxHuffman.fromLengths lengths.1
  pure (table, lengths.2)

/-- The length that a symbol of the pretree stands for where another length stood before, and how often it is repeated. -/
def pretreeLength (pretree : LzxHuffman) (code previous : Nat) (r : BitReader) :
    Outcome LzxDecodeError (Nat × Nat × BitReader) :=
  if code ≤ 16 then do
    let length ← ofOption (checkedSub (previous + 17) code)
    pure (length % 17, 0, r)
  else if code = 17 then do
    let more ← getBits input 4 r
    pure (0, more.1 + 3, more.2)
  else if code = 18 then do
    let more ← getBits input 5 r
    pure (0, more.1 + 19, more.2)
  else if code = 19 then do
    let more ← getBits input 1 r
    let code ← decodeSymbol input pretree more.2
    if 16 < code.1 then error .invalidPretreeRepeat
    else do
      let length ← ofOption (checkedSub (previous + 17) code.1)
      pure (length % 17, more.1 + 3, code.2)
  else error .invalidPretreeRepeat

/-- The loop of `read_pretree_lengths`, with `count` lengths left. -/
def pretreeLoop (pretree : LzxHuffman) : Nat → Nat → List Nat → Nat → BitReader →
    Outcome LzxDecodeError (List Nat × BitReader)
  | 0, _, lengths, duplicate, r => if duplicate ≠ 0 then error .invalidPretreeRepeat else pure (lengths, r)
  | count + 1, index, lengths, duplicate, r =>
      if duplicate ≠ 0 then
        if index = 0 then error .invalidPretreeRepeat
        else do
          let before ← ofOption lengths[index - 1]?
          let lengths ← setAt lengths index before
          pretreeLoop pretree count (index + 1) lengths (duplicate - 1) r
      else do
        let code ← decodeSymbol input pretree r
        let previous ← ofOption lengths[index]?
        let length ← pretreeLength input pretree code.1 previous code.2
        let lengths ← setAt lengths index (length.1 % 2 ^ 8)
        pretreeLoop pretree count (index + 1) lengths length.2.1 length.2.2

end BitReader

open BitReader

namespace Decoder

def new : Decoder where
  inputOffset := 0
  accumulator := 0
  bits := 0
  blockEnd := 0
  blockType := .verbatim
  repeatedOffset := List.replicate repeatedOffsets 1
  alignoffset := LzxHuffman.empty alignoffsetCodes
  pretree := LzxHuffman.empty pretreeCodes
  main := LzxHuffman.empty mainCodes
  length := LzxHuffman.empty lengthCodes
  mainLengths := List.replicate mainCodes 0
  lengthLengths := List.replicate lengthCodes 0

def readPretreeLengths (previous : List Nat) (s : Decoder) : Outcome LzxDecodeError (List Nat × Decoder) := do
  let pretree ← readRawAlphabet input pretreeCodes pretreeBits s.toBitReader
  let lengths ← pretreeLoop input pretree.1 previous.length 0 previous 0 pretree.2
  pure (lengths.1, { s with toBitReader := lengths.2, pretree := pretree.1 })

def readMainAlphabet (s : Decoder) : Outcome LzxDecodeError Decoder := do
  let literalPrevious ← ofOption (slice s.mainLengths 0 mainLitCodes)
  let literals ← readPretreeLengths input literalPrevious s
  let mainLengths ← ofOption (copyFromSlice literals.2.mainLengths 0 literals.1)
  let remainderPrevious ← ofOption (slice mainLengths mainLitCodes (mainCodes - mainLitCodes))
  let remainder ← readPretreeLengths input remainderPrevious literals.2
  let mainLengths ← ofOption (copyFromSlice mainLengths mainLitCodes remainder.1)
  let main ← LzxHuffman.fromLengths mainLengths
  pure { remainder.2 with mainLengths := mainLengths, main := main }

def readLengthAlphabet (s : Decoder) : Outcome LzxDecodeError Decoder := do
  let lengths ← readPretreeLengths input s.lengthLengths s
  let length ← LzxHuffman.fromLengths lengths.1
  pure { lengths.2 with lengthLengths := lengths.1, length := length }

def readBlockType (s : Decoder) : Outcome LzxDecodeError Decoder := do
  let code ← getBits input blockTypeBits s.toBitReader
  match code.1 with
  | 1 => pure { s with toBitReader := code.2, blockType := .verbatim }
  | 2 => pure { s with toBitReader := code.2, blockType := .alignedOffset }
  | 3 => pure { s with toBitReader := code.2, blockType := .uncompressed }
  | _ => error .invalidBlockType

def readBlockLen (r : BitReader) : Outcome LzxDecodeError (Nat × BitReader) := do
  let standard ← getBits input 1 r
  if standard.1 ≠ 0 then pure (defaultBlockLen, standard.2)
  else do
    let high ← getBits input 8 standard.2
    let low ← getBits input 8 high.2
    pure (high.1 * 2 ^ 8 ||| low.1, low.2)

/-- The offsets that an uncompressed block brings along, from an index on. -/
def readRepeatedOffsets : Nat → Nat → Decoder → Outcome LzxDecodeError Decoder
  | 0, _, s => pure s
  | count + 1, index, s => do
      let offset ← readU32 input s.toBitReader
      let repeatedOffset ← setAt s.repeatedOffset index offset.1
      readRepeatedOffsets count (index + 1) { s with toBitReader := offset.2, repeatedOffset := repeatedOffset }

/-- The header of a block, where `used` bytes of an output of `outputLen` have been written. -/
def readBlockHeader (used outputLen : Nat) (s : Decoder) : Outcome LzxDecodeError Decoder := do
  let s ← readBlockType input s
  let blockLen ← readBlockLen input s.toBitReader
  let blockEnd ← ofExcept (someOr (checkedAdd 64 used blockLen.1) .outputOverflow)
  if outputLen < blockEnd then error .outputOverflow
  else
    let s : Decoder := { s with toBitReader := blockLen.2, blockEnd := blockEnd }
    match s.blockType with
    | .alignedOffset => do
        let alignoffset ← readRawAlphabet input alignoffsetCodes alignoffsetBits s.toBitReader
        let s ← readMainAlphabet input { s with toBitReader := alignoffset.2, alignoffset := alignoffset.1 }
        readLengthAlphabet input s
    | .verbatim => do
        let s ← readMainAlphabet input s
        readLengthAlphabet input s
    | .uncompressed => do
        let r ← alignForBytes input 1 s.toBitReader
        readRepeatedOffsets input repeatedOffsets 0 { s with toBitReader := r }

/-- Behind an uncompressed block of an odd length the input goes on at the next word. -/
def skipPadding (len sourceEnd : Nat) : Outcome LzxDecodeError Nat :=
  if len % 2 = 0 then pure sourceEnd
  else do
    let next ← ofExcept (someOr (checkedAdd 64 sourceEnd 1) .inputTooShort)
    if input.length < next then error .inputTooShort else pure next

def copyUncompressedBlock (s : Decoder) (buffer : Buffer UInt8) : Outcome LzxDecodeError (Decoder × Buffer UInt8) := do
  let len ← ofExcept (someOr (checkedSub s.blockEnd buffer.used) .outputOverflow)
  let sourceEnd ← ofExcept (someOr (checkedAdd 64 s.inputOffset len) .inputTooShort)
  let source ← ofExcept (someOr (slice input s.inputOffset len) .inputTooShort)
  let bytes ← ofOption (copyFromSlice buffer.bytes buffer.used source)
  let next ← skipPadding input len sourceEnd
  pure ({ s with inputOffset := next }, ⟨bytes, s.blockEnd⟩)

/-- The offset of a match that is one of the last offsets; it trades places with the first. -/
def repeatOffset (positionSlot : Nat) (s : Decoder) : Outcome LzxDecodeError (Nat × Decoder) := do
  let offset ← ofOption s.repeatedOffset[positionSlot]?
  let first ← ofOption s.repeatedOffset[0]?
  let offsets ← setAt s.repeatedOffset positionSlot first
  let offsets ← setAt offsets 0 offset
  pure (offset, { s with repeatedOffset := offsets })

/-- The bits of an offset behind its slot: those that stand as they are, and those coded apart. -/
def readOffsetBits (positionSlot : Nat) (s : Decoder) : Outcome LzxDecodeError (Nat × Nat × BitReader) :=
  if s.blockType = .alignedOffset ∧ 3 ≤ footerBits positionSlot then do
    let verbatim ← getBits input (footerBits positionSlot - 3) s.toBitReader
    let shifted ← ofOption (checkedShl 64 verbatim.1 3)
    let aligned ← decodeSymbol input s.alignoffset verbatim.2
    pure (shifted, aligned.1, aligned.2)
  else do
    let verbatim ← getBits input (footerBits positionSlot) s.toBitReader
    pure (verbatim.1, 0, verbatim.2)

/-- An offset that is new becomes the first of the last ones. -/
def newOffset (positionSlot : Nat) (s : Decoder) : Outcome LzxDecodeError (Nat × Decoder) := do
  let bits ← readOffsetBits input positionSlot s
  let offset ← ofExcept (someOr (((checkedAdd 64 (positionBase positionSlot) bits.1).bind fun value =>
    checkedAdd 64 value bits.2.1).bind fun value => checkedSub value 2) .matchUnderrun)
  let first ← ofOption s.repeatedOffset[0]?
  let second ← ofOption s.repeatedOffset[1]?
  let offsets ← setAt s.repeatedOffset 2 second
  let offsets ← setAt offsets 1 first
  let offsets ← setAt offsets 0 offset
  pure (offset, { s with toBitReader := bits.2.2, repeatedOffset := offsets })

def readLength (lengthHeader : Nat) (s : Decoder) : Outcome LzxDecodeError (Nat × BitReader) :=
  if lengthHeader = 7 then decodeSymbol input s.length s.toBitReader else pure (0, s.toBitReader)

def readOffset (positionSlot : Nat) (s : Decoder) : Outcome LzxDecodeError (Nat × Decoder) :=
  if positionSlot < repeatedOffsets then repeatOffset positionSlot s else newOffset input positionSlot s

/-- The length and the offset of a match, from its main symbol without the literals. -/
def readMatch (main : Nat) (s : Decoder) : Outcome LzxDecodeError ((Nat × Nat) × Decoder) := do
  let length ← readLength input (main % 8) s
  let matchLength ← ofExcept (someOr ((checkedAdd 64 (main % 8) 2).bind fun value => checkedAdd 64 value length.1)
    .outputOverflow)
  let s : Decoder := { s with toBitReader := length.2 }
  if positionSlots ≤ main / 8 then error .invalidHuffmanCode
  else do
    let offset ← readOffset input (main / 8) s
    pure ((matchLength, offset.1), offset.2)

def putLiteral (byte : UInt8) (s : Decoder) (buffer : Buffer UInt8) : Outcome LzxDecodeError (Decoder × Buffer UInt8) :=
  if buffer.bytes.length ≤ buffer.used then error .outputOverflow
  else do
    let buffer ← buffer.push byte
    pure (s, buffer)

def putMatch (matchLength matchOffset : Nat) (s : Decoder) (buffer : Buffer UInt8) :
    Outcome LzxDecodeError (Decoder × Buffer UInt8) :=
  if matchOffset = 0 ∨ buffer.used < matchOffset then error .matchUnderrun
  else do
    let stop ← ofExcept (someOr (checkedAdd 64 buffer.used matchLength) .outputOverflow)
    if buffer.bytes.length < stop ∨ s.blockEnd < stop then error .outputOverflow
    else do
      let buffer ← buffer.copyMatch matchOffset matchLength
      pure (s, buffer)

def decodeToken (s : Decoder) (buffer : Buffer UInt8) : Outcome LzxDecodeError (Decoder × Buffer UInt8) := do
  let main ← decodeSymbol input s.main s.toBitReader
  let s : Decoder := { s with toBitReader := main.2 }
  if main.1 < mainLitCodes then putLiteral (UInt8.ofNat main.1) s buffer
  else do
    let found ← readMatch input (main.1 - mainLitCodes) s
    putMatch found.1.1 found.1.2 found.2 buffer

/-- The tokens of a block, where no more than `fuel` of them are left. -/
def tokensLoop : Nat → Decoder → Buffer UInt8 → Outcome LzxDecodeError (Decoder × Buffer UInt8)
  | 0, s, buffer => if s.blockEnd ≤ buffer.used then pure (s, buffer) else fault
  | fuel + 1, s, buffer =>
      if s.blockEnd ≤ buffer.used then pure (s, buffer)
      else do
        let r ← decodeToken input s buffer
        tokensLoop fuel r.1 r.2

def decodeBlock (s : Decoder) (buffer : Buffer UInt8) : Outcome LzxDecodeError (Decoder × Buffer UInt8) := do
  let s ← readBlockHeader input buffer.used buffer.bytes.length s
  if s.blockType = .uncompressed then copyUncompressedBlock input s buffer
  else tokensLoop input (s.blockEnd - buffer.used) s buffer

def blocksLoop : Nat → Decoder → Buffer UInt8 → Outcome LzxDecodeError (Decoder × Buffer UInt8)
  | 0, s, buffer => if s.inputOffset < input.length then fault else pure (s, buffer)
  | fuel + 1, s, buffer =>
      if s.inputOffset < input.length then do
        let r ← decodeBlock input s buffer
        blocksLoop fuel r.1 r.2
      else pure (s, buffer)

end Decoder

/-- `decompress_lzx`: the output buffer behind it, and how much of it has been filled. A block takes at least three bits
from the input, so there are fewer blocks than bits. -/
def decompressLzx (overflow : Overflow) (out : List UInt8) : Outcome LzxDecodeError (List UInt8 × Nat) :=
  if input.length % 2 ≠ 0 then error .oddInputLength
  else do
    let r ← Decoder.blocksLoop input (8 * input.length) Decoder.new ⟨out, 0⟩
    let output ← translateJumps overflow r.2.bytes r.2.used
    pure (output, r.2.used)

end NextBoot.Lzx
