/-
The characters and names of XML.

A name may have a prefix, which a colon separates from the rest.  Both parts begin
with a letter-like character, and an empty prefix before a colon counts as none.
-/
import TagGrammar.Markup.Token
import TagGrammar.Text.Blank

namespace TagGrammar
namespace Markup

/-- The blanks that separate the parts of a tag. -/
def isSpace (c : Char) : Bool := c == ' ' || c == '\t' || c == '\n' || c == '\r'

/-- The characters that may stand in a document. -/
def isXmlChar (c : Char) : Bool :=
  if c.toNat < 0x20 then isSpace c else c.toNat != 0xFFFE && c.toNat != 0xFFFF

/-- The ranges of code points beyond ASCII that a name may start with. -/
def nameStartRanges : List (Nat × Nat) :=
  [(0xC0, 0xD6), (0xD8, 0xF6), (0xF8, 0x2FF), (0x370, 0x37D), (0x37F, 0x1FFF),
   (0x200C, 0x200D), (0x2070, 0x218F), (0x2C00, 0x2FEF), (0x3001, 0xD7FF),
   (0xF900, 0xFDCF), (0xFDF0, 0xFFFD), (0x10000, 0xEFFFF)]

/-- The ranges of code points beyond ASCII that a name may only go on with. -/
def nameTailRanges : List (Nat × Nat) := [(0xB7, 0xB7), (0x300, 0x36F), (0x203F, 0x2040)]

def isNameStart (c : Char) : Bool :=
  c.isAlpha || c == '_' || c == ':' || Text.inRanges nameStartRanges c.toNat

def isNameChar (c : Char) : Bool :=
  isNameStart c || c == '-' || c == '.' || c.isDigit || Text.inRanges nameTailRanges c.toNat

/-- Whether a part of a name begins as it must. -/
def startsName : List Char → Bool
  | [] => false
  | c :: _ => isNameStart c

/-- The prefix and the local part of a run of name characters. -/
def splitName (cs : List Char) : List Char × List Char :=
  match cs.dropWhile (· != ':') with
  | [] => ([], cs)
  | _ :: rest => (cs.takeWhile (· != ':'), rest)

/-- The name that some name characters make: at most one colon, and a start of a name
in the local part and in the prefix if that is not empty. -/
def qname? (cs : List Char) : Option QName :=
  let (lead, name) := splitName cs
  if name.contains ':' || !startsName name || !(lead.isEmpty || startsName lead) then none
  else some ⟨String.ofList lead, String.ofList name⟩

end Markup
end TagGrammar
