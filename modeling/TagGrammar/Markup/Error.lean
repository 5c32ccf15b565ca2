/-
Faults of markup.

A fault is either a place where nothing known begins, or a cause inside a construct
that begins somewhere.  Places are first given as the number of characters left in
the source; `Position.ofLeft` turns them into rows and columns.
-/

namespace TagGrammar
namespace Markup

/-- A place in a text: rows and columns count from one, columns in characters. -/
structure Position where
  row : Nat
  col : Nat
deriving DecidableEq

namespace Position

/-- The place after some text. -/
def after (text : List Char) : Position where
  row := text.count '\n' + 1
  col := (text.reverse.takeWhile (· != '\n')).length + 1

/-- The place at which a number of characters of a text are left. -/
def ofLeft (source : List Char) (left : Nat) : Position :=
  after (source.take (source.length - left))

def text (p : Position) : String := s!"{p.row}:{p.col}"

end Position

/-- The constructs of markup that can be broken. -/
inductive Construct where
  | comment
  | cdata
  | processingInstruction
  | element
  | attributes
  | characterData
deriving DecidableEq

def Construct.text : Construct → String
  | comment => "comment"
  | cdata => "CDATA"
  | processingInstruction => "processing instruction"
  | element => "element"
  | attributes => "attribute"
  | characterData => "character data"

/-- What is wrong inside a construct.  Places are of type `π`. -/
inductive Cause (π : Type) where
  | invalidName
  | unexpectedEnd
  | expectedChar (expected found : Char) (place : π)
  | expectedText (expected : String) (place : π)
  | expectedQuote (found : Char) (place : π)
  | expectedSpace (found : Char) (place : π)
  | nonXmlChar (found : Char) (place : π)
  | dashesInComment
  | dashAtCommentEnd
  | cdataEndInText
deriving DecidableEq

/-- A fault of markup. -/
inductive XmlError (π : Type) where
  | unknownToken (start : π)
  | broken (construct : Construct) (start : π) (cause : Cause π)
deriving DecidableEq

def Cause.map {π ρ : Type} (f : π → ρ) : Cause π → Cause ρ
  | invalidName => .invalidName
  | unexpectedEnd => .unexpectedEnd
  | expectedChar expected found place => .expectedChar expected found (f place)
  | expectedText expected place => .expectedText expected (f place)
  | expectedQuote found place => .expectedQuote found (f place)
  | expectedSpace found place => .expectedSpace found (f place)
  | nonXmlChar found place => .nonXmlChar found (f place)
  | dashesInComment => .dashesInComment
  | dashAtCommentEnd => .dashAtCommentEnd
  | cdataEndInText => .cdataEndInText

def XmlError.map {π ρ : Type} (f : π → ρ) : XmlError π → XmlError ρ
  | unknownToken start => .unknownToken (f start)
  | broken construct start cause => .broken construct (f start) (cause.map f)

/-- The character of the first byte of a character, which is how messages show what
was found in place of an ASCII character. -/
def leadByte (c : Char) : Char :=
  let n := c.toNat
  if n < 0x80 then c
  else if n < 0x800 then Char.ofNat (0xC0 + n / 0x40)
  else if n < 0x10000 then Char.ofNat (0xE0 + n / 0x1000)
  else Char.ofNat (0xF0 + n / 0x40000)

/-- A forbidden character by its code point in hexadecimal. -/
def escapedChar (c : Char) : String :=
  if c.toNat = 0 then "\\0"
  else "\\u\x7b" ++ String.ofList (Nat.toDigits 16 c.toNat) ++ "\x7d"

/-- The wording of a cause. -/
def Cause.message : Cause Position → String
  | invalidName => "invalid name token"
  | unexpectedEnd => "unexpected end of stream"
  | expectedChar expected found place =>
    s!"expected '{expected}' not '{leadByte found}' at {place.text}"
  | expectedText expected place => s!"expected '{expected}' at {place.text}"
  | expectedQuote found place => s!"expected quote mark not '{leadByte found}' at {place.text}"
  | expectedSpace found place => s!"expected space not '{leadByte found}' at {place.text}"
  | nonXmlChar found place => s!"a non-XML character '{escapedChar found}' found at {place.text}"
  | dashesInComment => "'--' is not allowed in comments"
  | dashAtCommentEnd => "comment cannot end with '-'"
  | cdataEndInText => "']]>' is not allowed inside a character data"

/-- The wording of a fault. -/
def XmlError.message : XmlError Position → String
  | unknownToken start => s!"unknown token at {start.text}"
  | broken construct start cause =>
    s!"invalid {construct.text} at {start.text} cause {cause.message}"

end Markup
end TagGrammar
