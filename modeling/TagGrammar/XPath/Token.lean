/-
Tokens of expressions.

A name is one token together with the lead of its namespace, and so are a literal
with its quotes and a variable with its dollar sign.  What kind of name a name is
has been settled before it becomes a token.
-/
import TagGrammar.XPath.Expr

namespace TagGrammar
namespace XPath

inductive Token where
  | literal (value : String)
  | number (value : Number)
  | variable (name : String)
  | nameTest (name : String)
  | nodeType (name : String)
  | functionName (name : String)
  | axisName (name : String)
  | operator (op : Operator)
  | slash
  | doubleSlash
  | atSign
  | dot
  | dotDot
  | doubleColon
  | leftParen
  | rightParen
  | leftBracket
  | rightBracket
  | comma
deriving DecidableEq

/-- A text between single quotes. -/
def quoted (s : String) : String := "'" ++ s ++ "'"

/-- A token as it is shown in messages. -/
def Token.display : Token → String
  | literal value => quoted value
  | number value => value.display
  | .variable name => "$" ++ name
  | nameTest name | nodeType name | functionName name | axisName name => quoted name
  | operator op => quoted op.text
  | slash => quoted "/"
  | doubleSlash => quoted "//"
  | atSign => quoted "@"
  | dot => quoted "."
  | dotDot => quoted ".."
  | doubleColon => quoted "::"
  | leftParen => quoted "("
  | rightParen => quoted ")"
  | leftBracket => quoted "["
  | rightBracket => quoted "]"
  | comma => quoted ","

/-- Why a text is not an expression. -/
inductive ExprError where
  | unexpectedEnd
  | unexpectedToken (token : String)
  | unterminatedLiteral
  | unexpectedCharacter (c : Char)
deriving DecidableEq

/-- The wording of each cause. -/
def ExprError.message : ExprError → String
  | unexpectedEnd => "Unexpected end of expression"
  | unexpectedToken token => "Unexpected token " ++ token
  | unterminatedLiteral => "Unterminated string literal"
  | unexpectedCharacter c => "Unexpected character " ++ quoted (String.singleton c)

end XPath
end TagGrammar
