/-
Fixed-width sets of bits.

Bit `i` of a bitfield stands for the tag numbered `i`.  The bits are packed into
words of sixty-four, low bit first, and the padding of the last word is kept
clear: equality, inclusion and counting look at whole words and are right only
because of that.  In bytes, bit `i` is bit `i % 8` of byte `i / 8`.
-/

namespace TagGrammar

/-- A word of packed bits. -/
abbrev Word := BitVec 64

/-- A set of bits of a fixed width. -/
structure Bitfield where
  width : Nat := 0
  words : List Word := []
deriving DecidableEq

namespace Bitfield

/-- The number of words that hold a width. -/
def wordCount (width : Nat) : Nat := (width + 63) / 64

/-- The number of bytes that hold a width. -/
def byteCount (width : Nat) : Nat := (width + 7) / 8

/-- The word with its low `n` bits set. -/
def lowBits (n : Nat) : Word := BitVec.ofNat 64 (1 <<< n - 1)

/-- Clear what the mask does not cover in the last word. -/
def maskLast (mask : Word) : List Word → List Word
  | [] => []
  | [w] => [w &&& mask]
  | w :: rest => w :: maskLast mask rest

/-- Words whose bits beyond the width are cleared.  A width that fills its last
word has no padding. -/
def clearPadding (width : Nat) (words : List Word) : List Word :=
  if width % 64 = 0 then words else maskLast (lowBits (width % 64)) words

/-- All bits cleared. -/
def new (width : Nat) : Bitfield := ⟨width, List.replicate (wordCount width) 0⟩

/-- All bits set. -/
def filled (width : Nat) : Bitfield :=
  ⟨width, clearPadding width (List.replicate (wordCount width) (BitVec.allOnes 64))⟩

/-- The words of a given width, if there are as many as it takes. -/
def ofWords? (width : Nat) (words : List Word) : Option Bitfield :=
  if words.length = wordCount width then some ⟨width, clearPadding width words⟩ else none

def isEmpty (b : Bitfield) : Bool := b.width == 0

/-- The bit at an index.  Bits beyond the width read as cleared. -/
def get (b : Bitfield) (i : Nat) : Bool :=
  if i < b.width then (b.words.getD (i / 64) 0).getLsbD (i % 64) else false

/-- The word that has one bit set. -/
def oneBit (i : Nat) : Word := 1#64 <<< i

/-- Set or clear one bit of a word. -/
def setBit (w : Word) (i : Nat) (value : Bool) : Word :=
  if value then w ||| oneBit i else w &&& ~~~ oneBit i

/-- Set or clear the bit at an index.  An index beyond the width changes nothing. -/
def set (b : Bitfield) (i : Nat) (value : Bool) : Bitfield :=
  if i < b.width then
    ⟨b.width, b.words.modify (i / 64) fun w => setBit w (i % 64) value⟩
  else b

/-- Set or clear the bit at an index, which must lie within the width. -/
def set? (b : Bitfield) (i : Nat) (value : Bool) : Option Bitfield :=
  if i < b.width then some (b.set i value) else none

/-- The bits set in both of two bitfields of one width. -/
def intersect (a b : Bitfield) : Bitfield := ⟨a.width, a.words.zipWith (· &&& ·) b.words⟩

/-- Two bitfields of one width, every bit of the first set in the second. -/
def isSubsetOf (a b : Bitfield) : Bool :=
  a.width == b.width && (a.words.zip b.words).all fun p => p.1 &&& p.2 == p.1

/-- The indexes of the set bits, in increasing order. -/
def ones (b : Bitfield) : List Nat := (List.range b.width).filter b.get

/-- The number of set bits of a word. -/
def wordOnes (w : Word) : Nat := (List.range 64).countP fun i => w.getLsbD i

/-- The number of set bits. -/
def countOnes (b : Bitfield) : Nat := b.words.foldr (fun w n => wordOnes w + n) 0

/-- The bits packed into bytes.  The last byte is padded with zeros. -/
def toBytes (b : Bitfield) : List (BitVec 8) :=
  (List.range (byteCount b.width)).map fun k =>
    (b.words.getD (k * 8 / 64) 0 >>> (k * 8 % 64)).setWidth 8

/-- Bytes packed into one word, the first byte lowest. -/
def wordOfBytes : List (BitVec 8) → Word
  | [] => 0
  | b :: rest => b.setWidth 64 ||| (wordOfBytes rest <<< 8)

/-- The bitfield of a width that is packed into some bytes.  Missing bytes read as
zero and bits beyond the width are ignored. -/
def fromBytes (width : Nat) (bytes : List (BitVec 8)) : Bitfield :=
  ⟨width, clearPadding width <| (List.range (wordCount width)).map fun k =>
    wordOfBytes ((bytes.drop (k * 8)).take 8)⟩

theorem length_maskLast (mask : Word) (words : List Word) :
    (maskLast mask words).length = words.length := by
  induction words with
  | nil => rfl
  | cons w rest ih =>
    cases rest with
    | nil => rfl
    | cons w' rest => simp only [maskLast, List.length_cons] at ih ⊢; omega

theorem length_clearPadding (width : Nat) (words : List Word) :
    (clearPadding width words).length = words.length := by
  unfold clearPadding
  split
  · rfl
  · exact length_maskLast _ _

theorem get_of_width_le (b : Bitfield) {i : Nat} (h : b.width ≤ i) : b.get i = false := by
  simp [get, Nat.not_lt.mpr h]

end Bitfield
end TagGrammar
