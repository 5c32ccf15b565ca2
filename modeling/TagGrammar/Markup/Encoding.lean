/-
Bytes as text.

The encoding of a template is found from its first bytes: from a mark or a pattern
of zeros, which tell how wide characters are, and from a declaration written in
ASCII in what follows.  Decoding is strict, so malformed bytes are a failure.  A byte
order mark settles the encoding of the text itself and is dropped.  Whatever reads bytes
takes a `Decoder`; the one here knows four encodings.
-/
import TagGrammar.Text.Ascii

namespace TagGrammar
namespace Markup

/-- A way to read bytes as text: which encoding they are found to have, and strict decoding in
each one. -/
structure Decoder (ε : Type) where
  detect : List UInt8 → ε
  decode : ε → List UInt8 → Option (List Char)
  name : ε → String

/-- The encodings of templates. -/
inductive Encoding where
  | utf8
  | utf16le
  | utf16be
  | windows1252
deriving DecidableEq

namespace Encoding

def name : Encoding → String
  | utf8 => "UTF-8"
  | utf16le => "UTF-16LE"
  | utf16be => "UTF-16BE"
  | windows1252 => "windows-1252"

/-! ## Decoding -/

/-- A character with a code point, if it is one and not below a bound. -/
def charFrom (least n : Nat) : Option Char :=
  if least ≤ n ∧ n.isValidChar then some (Char.ofNat n) else none

/-- The low six bits of a byte that continues a character. -/
def continuation? (b : UInt8) : Option Nat :=
  if 0x80 ≤ b ∧ b < 0xC0 then some (b.toNat - 0x80) else none

/-- The character of a lead byte and the bytes that continue it, and the bytes after
it.  A character must be written in the fewest bytes. -/
def charUtf8 (a : UInt8) (rest : List UInt8) : Option (Char × List UInt8) :=
  if a < 0x80 then some (Char.ofNat a.toNat, rest)
  else if a < 0xE0 then
    match rest with
    | b :: rest => do
      let b ← continuation? b
      let c ← if 0xC0 ≤ a then charFrom 0x80 ((a.toNat - 0xC0) * 0x40 + b) else none
      some (c, rest)
    | _ => none
  else if a < 0xF0 then
    match rest with
    | b :: c :: rest => do
      let b ← continuation? b
      let c ← continuation? c
      let c ← charFrom 0x800 ((a.toNat - 0xE0) * 0x1000 + b * 0x40 + c)
      some (c, rest)
    | _ => none
  else if a < 0xF8 then
    match rest with
    | b :: c :: d :: rest => do
      let b ← continuation? b
      let c ← continuation? c
      let d ← continuation? d
      let c ← charFrom 0x10000 ((a.toNat - 0xF0) * 0x40000 + b * 0x1000 + c * 0x40 + d)
      some (c, rest)
    | _ => none
  else none

/-- Characters of one to four bytes.  The number of bytes bounds theirs. -/
def decodeUtf8 : Nat → List UInt8 → Option (List Char)
  | _, [] => some []
  | 0, _ => none
  | fuel + 1, a :: rest => do
    let (c, rest) ← charUtf8 a rest
    let cs ← decodeUtf8 fuel rest
    some (c :: cs)

/-- Pairs of bytes as units of sixteen bits, if there is no odd byte. -/
def units? (big : Bool) : List UInt8 → Option (List Nat)
  | [] => some []
  | [_] => none
  | a :: b :: rest => do
    let (high, low) := if big then (a, b) else (b, a)
    let us ← units? big rest
    some ((high.toNat * 0x100 + low.toNat) :: us)

/-- Units of sixteen bits, where a high and a low surrogate make one character. -/
def decodeUnits : List Nat → Option (List Char)
  | [] => some []
  | u :: rest =>
    if 0xD800 ≤ u ∧ u < 0xDC00 then
      match rest with
      | v :: rest =>
        if 0xDC00 ≤ v ∧ v < 0xE000 then
          (decodeUnits rest).map
            (Char.ofNat (0x10000 + (u - 0xD800) * 0x400 + (v - 0xDC00)) :: ·)
        else none
      | [] => none
    else if 0xDC00 ≤ u ∧ u < 0xE000 then none
    else (decodeUnits rest).map (Char.ofNat u :: ·)

/-- The code points of the bytes from 80 to 9F, which stand for themselves where
nothing else was assigned. -/
def windows1252High : List Nat :=
  [0x20AC, 0x81, 0x201A, 0x0192, 0x201E, 0x2026, 0x2020, 0x2021,
   0x02C6, 0x2030, 0x0160, 0x2039, 0x0152, 0x8D, 0x017D, 0x8F,
   0x90, 0x2018, 0x2019, 0x201C, 0x201D, 0x2022, 0x2013, 0x2014,
   0x02DC, 0x2122, 0x0161, 0x203A, 0x0153, 0x9D, 0x017E, 0x0178]

/-- The character of a byte. -/
def charWindows1252 (b : UInt8) : Char :=
  Char.ofNat (if 0x80 ≤ b ∧ b < 0xA0 then windows1252High.getD (b.toNat - 0x80) 0 else b.toNat)

/-- The text of some bytes without regard to a byte order mark. -/
def decodePlain (e : Encoding) (bytes : List UInt8) : Option (List Char) :=
  match e with
  | utf8 => decodeUtf8 bytes.length bytes
  | utf16le => (units? false bytes).bind decodeUnits
  | utf16be => (units? true bytes).bind decodeUnits
  | windows1252 => some (bytes.map charWindows1252)

/-- The text of some bytes.  A byte order mark overrides the encoding. -/
def decode (e : Encoding) (bytes : List UInt8) : Option (List Char) :=
  match bytes with
  | 0xEF :: 0xBB :: 0xBF :: rest => decodePlain utf8 rest
  | 0xFF :: 0xFE :: rest => decodePlain utf16le rest
  | 0xFE :: 0xFF :: rest => decodePlain utf16be rest
  | bytes => decodePlain e bytes

/-! ## Detection -/

/-- The order of the bytes of a wide character. -/
inductive ByteOrder where
  | little
  | big
deriving DecidableEq

/-- What the first four bytes tell: how many bytes a character takes, which of them
is the one of an ASCII character, the order of bytes and a label. -/
structure Mark where
  width : Nat
  offset : Nat
  order : Option ByteOrder
  label : Option String

/-- The mark of the first four bytes. -/
def markOf (a b c d : UInt8) : Mark :=
  match a, b, c, d with
  | 0x00, 0x00, 0xFE, 0xFF => ⟨4, 3, some .big, some "ucs-4be"⟩
  | 0xFF, 0xFE, 0x00, 0x00 => ⟨4, 0, some .little, some "ucs-4le"⟩
  | 0x00, 0x00, 0xFF, 0xFE => ⟨4, 2, none, none⟩
  | 0xFE, 0xFF, 0x00, 0x00 => ⟨4, 1, none, none⟩
  | 0xFE, 0xFF, _, _ => ⟨2, 1, some .big, some "utf-16be"⟩
  | 0xFF, 0xFE, _, _ => ⟨2, 0, some .little, some "utf-16le"⟩
  | 0xEF, 0xBB, 0xBF, _ => ⟨1, 0, none, some "utf-8"⟩
  | 0x00, 0x00, 0x00, 0x3C => ⟨4, 3, some .big, none⟩
  | 0x3C, 0x00, 0x00, 0x00 => ⟨4, 0, some .little, none⟩
  | 0x00, 0x00, 0x3C, 0x00 => ⟨4, 2, none, none⟩
  | 0x00, 0x3C, 0x00, 0x00 => ⟨4, 1, none, none⟩
  | 0x00, 0x3C, 0x00, 0x3F => ⟨2, 1, some .big, none⟩
  | 0x3C, 0x00, 0x3F, 0x00 => ⟨2, 0, some .little, none⟩
  | 0x4C, 0x6F, 0xA7, 0x94 => ⟨1, 0, none, some "ebcdic"⟩
  | _, _, _, _ => ⟨1, 0, none, none⟩

/-- Every `width`-th byte from the offset on. -/
def thinned (width offset : Nat) (bytes : List UInt8) : List UInt8 :=
  (List.range ((bytes.length - offset + width - 1) / width)).map fun i =>
    bytes.getD (offset + i * width) 0

/-- A byte as an ASCII character.  Other bytes can be part of no label. -/
def asciiChar (b : UInt8) : Char :=
  if b < 0x80 then Char.ofNat b.toNat else '\uFFFD'

/-- What follows the first place where given characters stand. -/
def afterFirst? (lead : List Char) : List Char → Option (List Char)
  | [] => none
  | c :: cs =>
    if lead.isPrefixOf (c :: cs) then some ((c :: cs).drop lead.length) else afterFirst? lead cs

/-- Put one text for every occurrence of another that is not empty, from the left.  The
number is that of the characters still to be passed over. -/
def replacing (old new : List Char) : Nat → List Char → List Char
  | _, [] => []
  | skipped + 1, _ :: cs => replacing old new skipped cs
  | 0, c :: cs =>
    if old.isPrefixOf (c :: cs) then new ++ replacing old new (old.length - 1) cs
    else c :: replacing old new 0 cs

/-- Other spellings in labels, and what is put for them wherever they stand. -/
def spellings : List (String × String) :=
  [("us-ascii", "ascii"), ("utf8", "utf-8"), ("shift-jis", "shift_jis")]

/-- A label with the usual spellings. -/
def respelled (label : List Char) : List Char :=
  spellings.foldl (fun cs s => replacing s.1.toList s.2.toList 0 cs) label

def isQuote (c : Char) : Bool := c == '"' || c == '\''

/-- The label that a declaration gives. -/
def declaredLabel? (text : List Char) : Option String :=
  let after :=
    match afterFirst? "encoding=".toList text with
    | some rest => some rest
    | none => afterFirst? "charset=".toList text
  after.map fun rest =>
    let label := (rest.dropWhile isQuote).takeWhile fun c => !isQuote c
    String.ofList (respelled (Text.lower (String.ofList label)).toList)

/-- The number of bytes after the mark in which a declaration is looked for. -/
def window : Nat := 512

/-- The label of the encoding, if the bytes tell one. -/
def labelOf? : List UInt8 → Option String
  | a :: b :: c :: d :: e :: rest =>
    let mark := markOf a b c d
    let head := (e :: rest).take window
    let head := head ++ List.replicate (window - head.length) 0
    match declaredLabel? ((thinned mark.width mark.offset head).map asciiChar) with
    | none => mark.label
    | some label =>
      if label == "utf-16" then
        match mark.order with
        | some .little => some "utf-16le"
        | some .big => some "utf-16be"
        | none => some label
      else some label
  | _ => none

/-- The blanks that may stand around a label. -/
def isLabelBlank (c : Char) : Bool :=
  c == ' ' || c == '\t' || c == '\n' || c == '\r' || c == '\x0c'

/-- A label without the blanks around it. -/
def trimmedLabel (label : String) : String :=
  let cs := label.toList.dropWhile isLabelBlank
  String.ofList (cs.reverse.dropWhile isLabelBlank).reverse

/-- The labels of the encodings other than UTF-8. -/
def labels : List (Encoding × List String) :=
  [(windows1252, ["ansi_x3.4-1968", "ascii", "cp1252", "cp819", "csisolatin1", "ibm819",
      "iso-8859-1", "iso-ir-100", "iso8859-1", "iso88591", "iso_8859-1", "iso_8859-1:1987",
      "l1", "latin1", "us-ascii", "windows-1252", "x-cp1252"]),
   (utf16be, ["unicodefffe", "utf-16be"]),
   (utf16le, ["csunicode", "iso-10646-ucs-2", "ucs-2", "unicode", "unicodefeff", "utf-16",
      "utf-16le"])]

/-- The encoding of a label, if it is one of the four.  Any other label means UTF-8. -/
def ofLabel (label : String) : Encoding :=
  match labels.find? fun e => e.2.contains (trimmedLabel label) with
  | some (e, _) => e
  | none => utf8

/-- The encoding of some bytes, which is UTF-8 if they tell nothing. -/
def detect (bytes : List UInt8) : Encoding :=
  match labelOf? bytes with
  | some label => ofLabel label
  | none => utf8

/-- The encodings of templates, as bytes tell them. -/
def decoder : Decoder Encoding where
  detect := detect
  decode := decode
  name := name

end Encoding
end Markup
end TagGrammar
