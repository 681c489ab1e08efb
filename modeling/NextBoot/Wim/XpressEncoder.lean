import NextBoot.BitStrings
import NextBoot.CanonicalCode
import NextBoot.Wim.Xpress

namespace NextBoot.Wim.Xpress

open Words Bytes Results CanonicalCode BitStrings

/-- What a compressor makes of its input: bytes as they are, and copies of bytes that stand before. -/
inductive Token
  | literal (byte : UInt8)
  | copy (length distance : Nat)
deriving DecidableEq, Repr

/-- Output with so many bytes more, each the one that stands a distance before it. -/
def extend (distance : Nat) : Nat → List UInt8 → List UInt8
  | 0, out => out
  | count + 1, out => extend distance count (out ++ [out.getD (out.length - distance) 0])

namespace Token

def size : Token → Nat
  | literal _ => 1
  | copy length _ => length

def apply (out : List UInt8) : Token → List UInt8
  | literal byte => out ++ [byte]
  | copy length distance => extend distance length out

/-- A match has three bytes at least, not more than a length field can say, and copies what is there. -/
def Valid (produced : Nat) : Token → Prop
  | literal _ => True
  | copy length distance => 3 ≤ length ∧ length - 3 < 2 ^ 16 ∧ 0 < distance ∧ distance < 2 ^ 16 ∧ distance ≤ produced

def symbol : Token → Nat
  | literal byte => byte.toNat
  | copy length distance => endMarker + (16 * Nat.log2 distance + min 15 (length - 3))

end Token

/-- The bytes that tokens stand for, behind those that are there. -/
def apply (out : List UInt8) (tokens : List Token) : List UInt8 := tokens.foldl Token.apply out

def totalSize (tokens : List Token) : Nat := (tokens.map Token.size).sum

def Valid : Nat → List Token → Prop
  | _, [] => True
  | produced, t :: tokens => t.Valid produced ∧ Valid (produced + t.size) tokens

/-- What is put into a block: bits, which go to its words, and whole bytes between them. -/
inductive Item
  | bits (count value : Nat)
  | byte (b : UInt8)

def Item.spelled : Item → List Bool
  | bits count value => spell count value
  | byte _ => []

/-- Where the reader of a block is: how many bits it holds besides 16, and the bits of the words that it has not read. -/
structure Reader where
  held : Nat
  unread : List Bool

def word (bits : List Bool) : List UInt8 := toLeBytes 2 (front 16 bits)

/-- The bytes that the reader takes for an item: a byte itself, and a word where fewer than 16 bits are left. -/
def Reader.takes (r : Reader) : Item → List UInt8
  | .bits count _ => if count ≤ r.held then [] else word r.unread
  | .byte b => [b]

def Reader.next (r : Reader) : Item → Reader
  | .bits count _ => if count ≤ r.held then ⟨r.held - count, r.unread⟩ else ⟨r.held + 16 - count, r.unread.drop 16⟩
  | .byte _ => r

/-- The bytes of items, each where the reader comes to it. -/
def emit : Reader → List Item → List UInt8
  | _, [] => []
  | r, item :: items => r.takes item ++ emit (r.next item) items

def spelled (items : List Item) : List Bool := items.flatMap Item.spelled

/-- The reader of a block starts with two words. -/
def Reader.start (items : List Item) : Reader := ⟨16, (spelled items).drop 32⟩

def encodeItems (items : List Item) : List UInt8 :=
  word (spelled items) ++ (word ((spelled items).drop 16) ++ emit (Reader.start items) items)

/-- The length of a match that its symbol has no room for. -/
def lengthField (length : Nat) : List UInt8 :=
  if length < 18 then []
  else if length < 273 then [UInt8.ofNat (length - 18)]
  else 255 :: toLeBytes 2 (length - 3)

def codeword (lengths : List Nat) (s : Nat) : Item := .bits (lengths.getD s 0) (code huffmanBits lengths s)

def Token.items (lengths : List Nat) : Token → List Item
  | literal byte => [codeword lengths (literal byte).symbol]
  | copy length distance => codeword lengths (copy length distance).symbol ::
      ((lengthField length).map .byte ++ [.bits (Nat.log2 distance) (distance - 2 ^ Nat.log2 distance)])

/-- A block of output: the codeword lengths, two in a byte, and the tokens. -/
structure Block where
  lengthBytes : List UInt8
  tokens : List Token
  length_eq : lengthBytes.length = lengthTableSize
  complete : KraftEquality (codeLengths lengthBytes)
  coded : ∀ t ∈ tokens, (codeLengths lengthBytes).getD t.symbol 0 ≠ 0

def Block.lengths (b : Block) : List Nat := codeLengths b.lengthBytes

def itemsOf (lengths : List Nat) (tokens : List Token) : List Item := tokens.flatMap (Token.items lengths)

def Block.encode (b : Block) (trailer : List Item) : List UInt8 :=
  b.lengthBytes ++ encodeItems (itemsOf b.lengths b.tokens ++ trailer)

/-- What stands behind the tokens of a block: in the last one there may be an end marker. -/
def Block.trailer (b : Block) (ended last : Bool) : List Item :=
  if ended && last then [codeword b.lengths endMarker] else []

/-- Blocks one after the other. -/
def encode (ended : Bool) : List Block → List UInt8
  | [] => []
  | b :: rest => b.encode (b.trailer ended rest.isEmpty) ++ encode ended rest

/-- Each block goes on until its output is full, and no token begins behind that. -/
def Split : List Block → Prop
  | [] => True
  | b :: rest => totalSize b.tokens.dropLast < blockSize ∧ (rest ≠ [] → blockSize ≤ totalSize b.tokens) ∧ Split rest

def tokensOf (blocks : List Block) : List Token := blocks.flatMap Block.tokens

/-- What is left to read when the codeword of a token has been read. -/
def leftBehind (b : Block) (r : Reader) (t : Token) (items : List Item) (later : List UInt8) : List UInt8 :=
  emit (r.next (codeword b.lengths t.symbol)) ((t.items b.lengths).tail ++ items) ++ later

def Block.start (b : Block) (trailer : List Item) : Reader := Reader.start (itemsOf b.lengths b.tokens ++ trailer)

/-- The bytes that are left to read of a block and those behind it, when the codeword of one of its tokens has been read. -/
def Block.left (b : Block) (trailer : List Item) (later : List UInt8) (before : List Token) (t : Token)
    (after : List Token) : List UInt8 :=
  leftBehind b ((itemsOf b.lengths before).foldl Reader.next (b.start trailer)) t (itemsOf b.lengths after ++ trailer) later

/-- Behind the codeword of every match of three bytes and distance one there are two bytes at least to read. -/
def Block.Distinct (b : Block) (trailer : List Item) (later : List UInt8) : Prop :=
  ∀ before after, b.tokens = before ++ .copy 3 1 :: after → 2 ≤ (b.left trailer later before (.copy 3 1) after).length

def Distinct (ended : Bool) : List Block → Prop
  | [] => True
  | b :: rest => b.Distinct (b.trailer ended rest.isEmpty) (encode ended rest) ∧ Distinct ended rest

end NextBoot.Wim.Xpress
