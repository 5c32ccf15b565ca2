/-
Cutting an expression into tokens.

Blanks separate tokens and mean nothing else.  A star or a name is an operator
where the token before it can end an operand, so `token` is told that token.  Any
other name is classified by what follows it after blanks: a double colon makes it
the name of an axis, a parenthesis that of a node type or of a function.
-/
import TagGrammar.Text.Numeral
import TagGrammar.XPath.Token

namespace TagGrammar
namespace XPath
namespace Lexer

/-- The characters a name starts with. -/
def isNameStart (c : Char) : Bool := Text.isLetter c || c == '_'

/-- The characters a name goes on with. -/
def isNameChar (c : Char) : Bool :=
  Text.isLetterOrNumeral c || c == '_' || c == '-' || c == '.'

/-- The names that make a parenthesis after them part of a node test. -/
def nodeTypes : List String := ["comment", "node", "processing-instruction", "text"]

/-- Whether a star or a name after a token is an operator: not at the start, and not
after a token that leaves an operand to be given. -/
def operatorExpected : Option Token → Bool
  | none => false
  | some .atSign | some .doubleColon | some .leftParen | some .leftBracket | some .comma
  | some (.operator _) | some .slash | some .doubleSlash => false
  | some _ => true

/-- The rest of a name that starts with the given character, and what follows it.
One colon may separate the lead of a namespace from a name or a star. -/
def qualifiedName (c : Char) (cs : List Char) : Except ExprError (List Char × List Char) :=
  let name := c :: cs.takeWhile isNameChar
  match cs.dropWhile isNameChar with
  | ':' :: ':' :: rest => .ok (name, ':' :: ':' :: rest)
  | ':' :: '*' :: rest => .ok (name ++ [':', '*'], rest)
  | ':' :: d :: rest =>
    if isNameStart d then
      .ok (name ++ ':' :: d :: rest.takeWhile isNameChar, rest.dropWhile isNameChar)
    else .error (.unexpectedCharacter ':')
  | [':'] => .error (.unexpectedCharacter ':')
  | rest => .ok (name, rest)

/-- The operators that are written as names. -/
def namedOperator? (name : String) : Option Operator :=
  [.and, .or, .div, .mod].find? fun op => op.text == name

/-- The token of a name, after some token and before the rest of the text. -/
def classify (previous : Option Token) (name : String) (rest : List Char) :
    Except ExprError Token :=
  if operatorExpected previous then
    match namedOperator? name with
    | some op => .ok (.operator op)
    | none => .error (.unexpectedToken (quoted name))
  else
    match Text.skipBlanks rest with
    | ':' :: ':' :: _ => .ok (.axisName name)
    | '(' :: _ => .ok (if nodeTypes.contains name then .nodeType name else .functionName name)
    | _ => .ok (.nameTest name)

/-- The token of the name that starts with the given character. -/
def nameToken (previous : Option Token) (c : Char) (cs : List Char) :
    Except ExprError (Token × List Char) := do
  let (name, rest) ← qualifiedName c cs
  let token ← classify previous (String.ofList name) rest
  .ok (token, rest)

/-- The variable after a dollar sign.  It is read as a name, and refused where a name
would be an operator. -/
def variableToken (previous : Option Token) :
    List Char → Except ExprError (Token × List Char)
  | [] => .error .unexpectedEnd
  | c :: cs =>
    if isNameStart c then do
      let (token, rest) ← nameToken previous c cs
      match token with
      | .nameTest name | .functionName name | .nodeType name | .axisName name =>
        .ok (.variable name, rest)
      | other => .error (.unexpectedToken other.display)
    else .error (.unexpectedCharacter c)

/-- A digit or a point. -/
def isNumeralChar (c : Char) : Bool := c.isDigit || c == '.'

/-- The number that starts with the given character: all digits and points in a row. -/
def numberToken (c : Char) (cs : List Char) : Except ExprError (Token × List Char) :=
  let numeral := c :: cs.takeWhile isNumeralChar
  match Number.ofNumeral? numeral with
  | some n => .ok (.number n, cs.dropWhile isNumeralChar)
  | none => .error (.unexpectedToken (quoted (String.ofList numeral)))

/-- The literal up to the next quote of a kind. -/
def literalToken (quote : Char) (cs : List Char) : Except ExprError (Token × List Char) :=
  match cs.dropWhile (· != quote) with
  | _ :: rest => .ok (.literal (String.ofList (cs.takeWhile (· != quote))), rest)
  | [] => .error .unterminatedLiteral

/-- The token at the start of a text that does not begin with a blank, after some
token, and what follows it. -/
def token (previous : Option Token) :
    List Char → Except ExprError (Token × List Char)
  | [] => .error .unexpectedEnd
  | '(' :: cs => .ok (.leftParen, cs)
  | ')' :: cs => .ok (.rightParen, cs)
  | '[' :: cs => .ok (.leftBracket, cs)
  | ']' :: cs => .ok (.rightBracket, cs)
  | ',' :: cs => .ok (.comma, cs)
  | '@' :: cs => .ok (.atSign, cs)
  | '|' :: cs => .ok (.operator .union, cs)
  | '+' :: cs => .ok (.operator .plus, cs)
  | '-' :: cs => .ok (.operator .minus, cs)
  | '=' :: cs => .ok (.operator .equal, cs)
  | '!' :: '=' :: cs => .ok (.operator .notEqual, cs)
  | '<' :: '=' :: cs => .ok (.operator .lessOrEqual, cs)
  | '<' :: cs => .ok (.operator .less, cs)
  | '>' :: '=' :: cs => .ok (.operator .greaterOrEqual, cs)
  | '>' :: cs => .ok (.operator .greater, cs)
  | '/' :: '/' :: cs => .ok (.doubleSlash, cs)
  | '/' :: cs => .ok (.slash, cs)
  | ':' :: ':' :: cs => .ok (.doubleColon, cs)
  | '*' :: cs =>
    .ok (if operatorExpected previous then .operator .multiply else .nameTest "*", cs)
  | '.' :: '.' :: cs => .ok (.dotDot, cs)
  | '.' :: cs =>
    if (cs.head?.any Char.isDigit) then numberToken '.' cs else .ok (.dot, cs)
  | '$' :: cs => variableToken previous cs
  | c :: cs =>
    if c == '"' || c == '\'' then literalToken c cs
    else if c.isDigit then numberToken c cs
    else if isNameStart c then nameToken previous c cs
    else .error (.unexpectedCharacter c)

/-- The tokens of a text that follows some token.  Every token takes at least one
character, so the length of the text bounds their number. -/
def tokensFrom : Nat → Option Token → List Char → Except ExprError (List Token)
  | 0, _, _ => .ok []
  | fuel + 1, previous, cs =>
    match Text.skipBlanks cs with
    | [] => .ok []
    | c :: rest => do
      let (next, rest) ← token previous (c :: rest)
      let tokens ← tokensFrom fuel (some next) rest
      .ok (next :: tokens)

end Lexer

/-- The tokens of an expression. -/
def tokenize (source : String) : Except ExprError (List Token) :=
  Lexer.tokensFrom (source.toList.length + 1) none source.toList

end XPath
end TagGrammar
