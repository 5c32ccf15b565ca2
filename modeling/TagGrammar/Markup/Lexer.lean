/-
Cutting markup into tokens.

The lexer is in one of two states, between tags or inside a start tag, and stops
without a fault at the end of the source in either.  The first fault ends the
tokens, but those before it stand, so a reader of the tokens may find a fault of its
own earlier.  Every token takes at least one character.
-/
import TagGrammar.Markup.Name

namespace TagGrammar
namespace Markup
namespace Lexer

/-- A fault found where a number of characters are left. -/
abbrev Fault := Cause Nat

/-- Whether a text begins with given characters. -/
def startsWith (cs lead : List Char) : Bool := lead.isPrefixOf cs

/-- Whether given characters stand somewhere in a text. -/
def holds (lead : List Char) : List Char → Bool
  | [] => lead.isEmpty
  | c :: cs => startsWith (c :: cs) lead || holds lead cs

/-- The characters before the first place that satisfies a test, and the rest from
there on.  A character that may not stand in a document is a fault, even where the
test would hold. -/
def charsUntil (stop : List Char → Bool) :
    List Char → Except Fault (List Char × List Char)
  | [] => .ok ([], [])
  | c :: cs =>
    if !isXmlChar c then .error (.nonXmlChar c (cs.length + 1))
    else if stop (c :: cs) then .ok ([], c :: cs)
    else do
      let (text, rest) ← charsUntil stop cs
      .ok (c :: text, rest)

/-- What follows given characters, which must come next. -/
def skipText (expected : String) (cs : List Char) : Except Fault (List Char) :=
  if startsWith cs expected.toList then .ok (cs.drop expected.length)
  else .error (.expectedText expected cs.length)

/-- What follows a given character, which must come next. -/
def skipChar (expected : Char) : List Char → Except Fault (List Char)
  | [] => .error .unexpectedEnd
  | c :: cs =>
    if c = expected then .ok cs else .error (.expectedChar expected c (cs.length + 1))

def skipSpaces (cs : List Char) : List Char := cs.dropWhile isSpace

/-- The name that comes next. -/
def qname (cs : List Char) : Except Fault (QName × List Char) :=
  match qname? (cs.takeWhile isNameChar) with
  | some name => .ok (name, cs.dropWhile isNameChar)
  | none => .error .invalidName

/-- The text up to given characters, and what follows them. -/
def textUntil (terminator : String) (cs : List Char) :
    Except Fault (List Char × List Char) := do
  let (text, rest) ← charsUntil (fun cs => startsWith cs terminator.toList) cs
  let rest ← skipText terminator rest
  .ok (text, rest)

/-- A comment after its opening. -/
def comment (cs : List Char) : Except Fault (Token × List Char) := do
  let (text, rest) ← textUntil "-->" cs
  if holds ['-', '-'] text then .error .dashesInComment
  else if text.getLast? = some '-' then .error .dashAtCommentEnd
  else .ok (.comment (String.ofList text), rest)

/-- A section of text without markup after its opening. -/
def cdata (cs : List Char) : Except Fault (Token × List Char) := do
  let (text, rest) ← textUntil "]]>" cs
  .ok (.cdata (String.ofList text), rest)

/-- A processing instruction after its opening. -/
def processingInstruction (cs : List Char) : Except Fault (Token × List Char) :=
  if startsName cs then do
    let target := String.ofList (cs.takeWhile isNameChar)
    let (data, rest) ← textUntil "?>" (skipSpaces (cs.dropWhile isNameChar))
    let data := if data.isEmpty then none else some (String.ofList data)
    .ok (.processingInstruction target data, rest)
  else .error .invalidName

/-- A close tag after its opening. -/
def closeTag (cs : List Char) : Except Fault (Token × List Char) := do
  let (name, rest) ← qname cs
  let rest ← skipChar '>' (skipSpaces rest)
  .ok (.close name, rest)

/-- The name of a start tag after its opening. -/
def startTag (cs : List Char) : Except Fault (Token × List Char) := do
  let (name, rest) ← qname cs
  .ok (.elementStart name, rest)

/-- Text between tags. -/
def characterData (cs : List Char) : Except Fault (Token × List Char) := do
  let (text, rest) ← charsUntil (fun cs => startsWith cs ['<']) cs
  if holds [']', ']', '>'] text then .error .cdataEndInText
  else .ok (.text (String.ofList text), rest)

/-- The quote that comes next. -/
def quote : List Char → Except Fault (Char × List Char)
  | [] => .error .unexpectedEnd
  | c :: cs =>
    if c == '"' || c == '\'' then .ok (c, cs) else .error (.expectedQuote c (cs.length + 1))

/-- The name and the value of an attribute. -/
def nameAndValue (cs : List Char) : Except Fault (Token × List Char) := do
  let (name, rest) ← qname cs
  let rest ← skipChar '=' (skipSpaces rest)
  let (q, rest) ← quote (skipSpaces rest)
  let (value, rest) ← charsUntil (fun cs => startsWith cs [q] || startsWith cs ['<']) rest
  let rest ← skipChar q rest
  .ok (.attr name (String.ofList value), rest)

/-- What comes next inside a start tag: its end, or an attribute after spaces. -/
def insideTag (cs : List Char) : Except Fault (Token × List Char) :=
  let rest := skipSpaces cs
  match rest with
  | '/' :: rest => (skipChar '>' rest).map fun rest => (.emptyEnd, rest)
  | '>' :: rest => .ok (.openEnd, rest)
  | _ =>
    if cs.head?.any isSpace then nameAndValue rest
    else match rest with
      | [] => .error .unexpectedEnd
      | c :: _ => .error (.expectedSpace c cs.length)

/-- Place the fault of a construct that begins where a number of characters are left. -/
def placed {α : Type} (construct : Construct) (start : Nat) :
    Except Fault α → Except (XmlError Nat) α
  | .ok a => .ok a
  | .error cause => .error (.broken construct start cause)

/-- What comes next between tags. -/
def betweenTags (cs : List Char) : Except (XmlError Nat) (Token × List Char) :=
  let start := cs.length
  match cs with
  | '<' :: '!' :: '-' :: '-' :: rest => placed .comment start (comment rest)
  | '<' :: '!' :: '[' :: 'C' :: 'D' :: 'A' :: 'T' :: 'A' :: '[' :: rest =>
    placed .cdata start (cdata rest)
  | '<' :: '!' :: _ => .error (.unknownToken start)
  | '<' :: '?' :: rest =>
    if startsWith rest ['x', 'm', 'l', ' '] then .error (.unknownToken start)
    else placed .processingInstruction start (processingInstruction rest)
  | '<' :: '/' :: rest => placed .element start (closeTag rest)
  | ['<'] => .error (.unknownToken start)
  | '<' :: rest => placed .element start (startTag rest)
  | cs => placed .characterData start (characterData cs)

/-- The tokens of a text, and the fault that ends them if there is one.  The length
of the text bounds their number. -/
def tokensFrom : Nat → Bool → List Char → List Token × Option (XmlError Nat)
  | 0, _, _ => ([], none)
  | _, _, [] => ([], none)
  | fuel + 1, inside, cs =>
    let next :=
      if inside then placed .attributes cs.length (insideTag cs) else betweenTags cs
    match next with
    | .error fault => ([], some fault)
    | .ok (token, rest) =>
      let (tokens, fault) := tokensFrom fuel (token.insideAfter inside) rest
      (token :: tokens, fault)

end Lexer

/-- The tokens of a source, and the fault that ends them if there is one. -/
def tokenize : Tokenizer := fun source =>
  let cs := source.toList
  let (tokens, fault) := Lexer.tokensFrom (cs.length + 1) false cs
  (tokens, fault.map (XmlError.map (Position.ofLeft cs)))

end Markup
end TagGrammar
