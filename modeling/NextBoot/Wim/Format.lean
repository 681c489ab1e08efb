import NextBoot.Bytes
import NextBoot.Words
import NextBoot.Results

namespace NextBoot.Wim

inductive WimCompression where
  | none
  | xpress
  | lzx
  | lzms
deriving DecidableEq, Repr

structure WimResourceHeader where
  compressedSize : Nat
  flags : UInt8
  offset : Nat
  uncompressedSize : Nat
  compressedSize_lt : compressedSize < 2 ^ 64
  offset_lt : offset < 2 ^ 64
  uncompressedSize_lt : uncompressedSize < 2 ^ 64
deriving DecidableEq, Repr

def reshdrCompressed : UInt8 := 0x04

def reshdrPackedStreams : UInt8 := 0x10

namespace WimResourceHeader

def isCompressed (resource : WimResourceHeader) : Bool := resource.flags &&& reshdrCompressed ≠ 0

def usesPackedStreams (resource : WimResourceHeader) : Bool := resource.flags &&& reshdrPackedStreams ≠ 0

end WimResourceHeader

/-- What the header of a file says of its chunks. -/
structure WimMetadata where
  compression : WimCompression
  chunkLen : Nat
  chunkLen_lt : chunkLen < 2 ^ 32
deriving DecidableEq, Repr

inductive XpressDecodeError where
  | inputTooShort
  | invalidHuffmanLength
  | incompleteHuffmanAlphabet
  | invalidHuffmanCode
  | outputOverflow
  | invalidMatchOffset
deriving DecidableEq, Repr

inductive LzxDecodeError where
  | oddInputLength
  | inputTooShort
  | invalidHuffmanLength
  | incompleteHuffmanAlphabet
  | invalidHuffmanCode
  | invalidBlockType
  | invalidPretreeRepeat
  | outputOverflow
  | matchUnderrun
deriving DecidableEq, Repr

inductive WimReadError where
  | invalidChunkLength
  | invalidRange
  | invalidChunkTable
  | resourceOutOfBounds
  | outputReserveFailed
  | xpressDecodeFailed (error : XpressDecodeError)
  | lzxDecodeFailed (error : LzxDecodeError)
  | unsupportedCompressedChunk (chunkIndex compressedSize uncompressedSize : Nat)
deriving DecidableEq, Repr

end NextBoot.Wim
