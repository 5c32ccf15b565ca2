/-
Tokens of markup.

A start tag is a run of tokens: its name, its attributes and the end of the tag,
which tells whether the element is empty.  Values and text hold what was written,
with references not yet resolved.  Whatever reads tokens takes a `Tokenizer`, one way
or another to cut a source into them.
-/
import TagGrammar.Markup.Error

namespace TagGrammar
namespace Markup

/-- A name with the prefix it was written with, which may be empty. -/
structure QName where
  lead : String
  name : String
deriving DecidableEq

/-- A name as it is written. -/
def QName.text (q : QName) : String :=
  if q.lead.isEmpty then q.name else q.lead ++ ":" ++ q.name

inductive Token where
  /-- The name of a start tag. -/
  | elementStart (name : QName)
  /-- An attribute of the start tag that is being read. -/
  | attr (name : QName) (value : String)
  /-- The end of a start tag with content to come. -/
  | openEnd
  /-- The end of a start tag without content. -/
  | emptyEnd
  /-- A close tag. -/
  | close (name : QName)
  | text (text : String)
  | cdata (text : String)
  | comment (text : String)
  | processingInstruction (target : String) (data : Option String)
deriving DecidableEq

/-- Whether one is inside a start tag after a token. -/
def Token.insideAfter (inside : Bool) : Token → Bool
  | elementStart _ => true
  | openEnd | emptyEnd => false
  | _ => inside

/-- A way to cut a source into tokens.  A fault may end them, and those before it stand. -/
abbrev Tokenizer := String → List Token × Option (XmlError Position)

end Markup
end TagGrammar
