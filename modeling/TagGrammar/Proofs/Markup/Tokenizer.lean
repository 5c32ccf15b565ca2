/-
What is taken of a tokenizer.

A source is cut into tokens elsewhere, and what is proved about templates holds whichever way
that is done.  Where more has to be known of the tokens, it is one of two things.  Tags
alternate with content: the name of a start tag, its attributes and its end follow on each
other, and everything else stands between tags (`Tokenizer.Alternates`).  And text goes up to
the next tag: it is one token, unless something in it may not stand there
(`Tokenizer.ReadsText`).
-/
import TagGrammar.Markup.Token

namespace TagGrammar
namespace Markup

namespace Token

/-- The name of an element or of an attribute. -/
def name? : Token → Option QName
  | elementStart name | attr name _ | close name => some name
  | _ => none

/-- Whether a token stands inside a start tag. -/
def inTag : Token → Bool
  | attr _ _ | openEnd | emptyEnd => true
  | _ => false

/-- A token under another name, if it has one. -/
def withName (name : QName) : Token → Token
  | elementStart _ => elementStart name
  | attr _ value => attr name value
  | close _ => close name
  | token => token

theorem withName_of_name? {token : Token} {name : QName} (h : token.name? = some name) :
    token.withName name = token := by
  cases token <;> simp_all [name?, withName]

theorem name?_withName {token : Token} (h : token.name?.isSome = true) (name : QName) :
    (token.withName name).name? = some name := by
  cases token <;> simp_all [name?, withName]

end Token

/-- Tokens that belong in a start tag stand in one, and no others. -/
def Alternates : Bool → List Token → Prop
  | _, [] => True
  | inside, token :: rest => token.inTag = inside ∧ Alternates (token.insideAfter inside) rest

instance : (inside : Bool) → (tokens : List Token) → Decidable (Alternates inside tokens)
  | _, [] => inferInstanceAs (Decidable True)
  | inside, token :: rest =>
    have := instDecidableAlternates (token.insideAfter inside) rest
    inferInstanceAs (Decidable (token.inTag = inside ∧ _))

/-- The characters of a text up to the next tag. -/
def textOf (cs : List Char) : List Char := cs.takeWhile (· != '<')

/-- What follows the text up to the next tag. -/
def afterText (cs : List Char) : List Char := cs.dropWhile (· != '<')

theorem textOf_append_afterText (cs : List Char) : textOf cs ++ afterText cs = cs :=
  List.takeWhile_append_dropWhile

/-- Characters that may be text: each may stand in a document, and together they do not end a
section of text without markup. -/
structure IsCharacterData (allowed : Char → Bool) (cs : List Char) : Prop where
  allowed : ∀ c ∈ cs, allowed c = true
  unended : ¬"]]>".toList <:+: cs

namespace Tokenizer

/-- The tokens of any source alternate between tags and what stands in them. -/
def Alternates (tokenizer : Tokenizer) : Prop :=
  ∀ source, Markup.Alternates false (tokenizer source).1

/-- The tokens of some characters, and whether there is a fault after them. -/
def read (tokenizer : Tokenizer) (cs : List Char) : List Token × Bool :=
  ((tokenizer (String.ofList cs)).1, (tokenizer (String.ofList cs)).2.isSome)

/-- Text at the start of a source is one token, before those of what follows it.  If it may not
be text, there is a fault and no token. -/
structure ReadsText (tokenizer : Tokenizer) (allowed : Char → Bool) : Prop where
  text : ∀ cs, textOf cs ≠ [] → IsCharacterData allowed (textOf cs) →
    tokenizer.read cs =
      (.text (String.ofList (textOf cs)) :: (tokenizer.read (afterText cs)).1,
        (tokenizer.read (afterText cs)).2)
  fault : ∀ cs, textOf cs ≠ [] → ¬IsCharacterData allowed (textOf cs) →
    tokenizer.read cs = ([], true)

end Tokenizer
end Markup
end TagGrammar
