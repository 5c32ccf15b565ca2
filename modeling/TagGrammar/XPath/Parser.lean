/-
The grammar of expressions.

Each level of the grammar is a function that is given the parser of the nested
expressions it may hold, in parentheses, brackets and argument lists, so the levels
do not call each other in a circle: `expression` ties the knot by counting how deep
expressions are nested, and every nested expression comes after at least one token
that opens it.  Repetitions are bounded by the number of tokens left.

From loosest to tightest the operators are `or`, `and`, the two equalities, the four
comparisons, the two sums, the three products, the sign and the union, all of the
binary ones grouping to the left.
-/
import TagGrammar.XPath.Lexer

namespace TagGrammar
namespace XPath

/-- A reader of the start of a list of tokens, which gives what it read and the rest. -/
abbrev Parser (α : Type) := List Token → Except ExprError (α × List Token)

namespace Parser

def unexpected (t : Token) : ExprError := .unexpectedToken t.display

/-- Read exactly one given token. -/
def expect (expected : Token) : Parser Unit
  | [] => .error .unexpectedEnd
  | t :: rest => if t = expected then .ok ((), rest) else .error (unexpected t)

/-- Predicates in brackets, as many as there are. -/
def predicatesUpTo (nested : Parser Expr) : Nat → Parser (List Expr)
  | fuel + 1, .leftBracket :: ts => do
    let (e, ts) ← nested ts
    let (_, ts) ← expect .rightBracket ts
    let (es, ts) ← predicatesUpTo nested fuel ts
    .ok (e :: es, ts)
  | _, ts => .ok ([], ts)

def predicates (nested : Parser Expr) : Parser (List Expr) :=
  fun ts => predicatesUpTo nested ts.length ts

/-- The test that a node type stands for, which only a processing instruction may
give an argument. -/
def typeTest (name : String) : Parser NodeTest
  | ts =>
    match name, ts with
    | "comment", ts => .ok (.comment, ts)
    | "text", ts => .ok (.text, ts)
    | "node", ts => .ok (.node, ts)
    | _, .literal target :: ts => .ok (.processingInstruction (some target), ts)
    | _, ts => .ok (.processingInstruction none, ts)

/-- The test of a step. -/
def nodeTest : Parser NodeTest
  | [] => .error .unexpectedEnd
  | .nameTest name :: ts => .ok (.name name, ts)
  | .nodeType name :: ts => do
    let (_, ts) ← expect .leftParen ts
    let (test, ts) ← typeTest name ts
    let (_, ts) ← expect .rightParen ts
    .ok (test, ts)
  | t :: _ => .error (unexpected t)

/-- A test and its predicates along an axis. -/
def stepAlong (nested : Parser Expr) (axis : Axis) : Parser Step := fun ts => do
  let (test, ts) ← nodeTest ts
  let (ps, ts) ← predicates nested ts
  .ok (.mk axis test ps, ts)

/-- One step of a path.  The axis of a plain test is that of the children. -/
def step (nested : Parser Expr) : Parser Step
  | [] => .error .unexpectedEnd
  | .dot :: ts => .ok (.here, ts)
  | .dotDot :: ts => .ok (.up, ts)
  | .atSign :: ts => stepAlong nested .attributes ts
  | .axisName name :: ts => do
    let (_, ts) ← expect .doubleColon ts
    match Axis.ofString? name with
    | some axis => stepAlong nested axis ts
    | none => .error (.unexpectedToken (quoted name))
  | ts => stepAlong nested .child ts

/-- The steps after the first one of a path, as many as there are. -/
def moreStepsUpTo (nested : Parser Expr) : Nat → Parser (List Step)
  | fuel + 1, .slash :: ts => do
    let (s, ts) ← step nested ts
    let (rest, ts) ← moreStepsUpTo nested fuel ts
    .ok (s :: rest, ts)
  | fuel + 1, .doubleSlash :: ts => do
    let (s, ts) ← step nested ts
    let (rest, ts) ← moreStepsUpTo nested fuel ts
    .ok (.anywhere :: s :: rest, ts)
  | _, ts => .ok ([], ts)

/-- Steps separated by slashes, at least one. -/
def steps (nested : Parser Expr) : Parser (List Step) := fun ts => do
  let (s, ts) ← step nested ts
  let (rest, ts) ← moreStepsUpTo nested ts.length ts
  .ok (s :: rest, ts)

/-- The arguments of a call after the opening parenthesis, if there are any. -/
def argumentsUpTo (nested : Parser Expr) : Nat → Parser (List Expr)
  | 0, _ => .error .unexpectedEnd
  | fuel + 1, ts => do
    let (e, ts) ← nested ts
    match ts with
    | .rightParen :: ts => .ok ([e], ts)
    | ts => do
      let (_, ts) ← expect .comma ts
      let (es, ts) ← argumentsUpTo nested fuel ts
      .ok (e :: es, ts)

def arguments (nested : Parser Expr) : Parser (List Expr)
  | .rightParen :: ts => .ok ([], ts)
  | ts => argumentsUpTo nested (ts.length + 1) ts

/-- What a path may start from instead of a step. -/
def primary (nested : Parser Expr) : Parser Expr
  | [] => .error .unexpectedEnd
  | .variable name :: ts => .ok (.variable name, ts)
  | .literal value :: ts => .ok (.literal value, ts)
  | .number value :: ts => .ok (.number value, ts)
  | .leftParen :: ts => do
    let (e, ts) ← nested ts
    let (_, ts) ← expect .rightParen ts
    .ok (e, ts)
  | .functionName name :: ts => do
    let (_, ts) ← expect .leftParen ts
    let (es, ts) ← arguments nested ts
    .ok (.call name es, ts)
  | t :: _ => .error (unexpected t)

/-- The steps that may follow a primary expression. -/
def trailingSteps (nested : Parser Expr) : Parser (List Step)
  | .slash :: ts => steps nested ts
  | .doubleSlash :: ts => do
    let (rest, ts) ← steps nested ts
    .ok (.anywhere :: rest, ts)
  | ts => .ok ([], ts)

/-- A primary expression that nothing follows stands for itself. -/
def filtered (primary : Expr) (predicates : List Expr) (steps : List Step) : Expr :=
  if predicates.isEmpty && steps.isEmpty then primary else .filter primary predicates steps

/-- A primary expression with its predicates and steps. -/
def filterExpr (nested : Parser Expr) : Parser Expr := fun ts => do
  let (e, ts) ← primary nested ts
  let (ps, ts) ← predicates nested ts
  let (ss, ts) ← trailingSteps nested ts
  .ok (filtered e ps ss, ts)

/-- Whether a token starts a primary expression. -/
def startsPrimary : Token → Bool
  | .variable _ | .leftParen | .literal _ | .number _ | .functionName _ => true
  | _ => false

/-- Whether a token starts a step. -/
def startsStep : Token → Bool
  | .nameTest _ | .nodeType _ | .axisName _ | .atSign | .dot | .dotDot => true
  | _ => false

/-- A path.  A slash alone is the root. -/
def path (nested : Parser Expr) : Parser Expr
  | [] => .error .unexpectedEnd
  | .slash :: ts =>
    if ts.head?.any startsStep then do
      let (ss, ts) ← steps nested ts
      .ok (.path true ss, ts)
    else .ok (.path true [], ts)
  | .doubleSlash :: ts => do
    let (ss, ts) ← steps nested ts
    .ok (.path true (.anywhere :: ss), ts)
  | t :: ts =>
    if startsPrimary t then filterExpr nested (t :: ts)
    else do
      let (ss, ts) ← steps nested (t :: ts)
      .ok (.path false ss, ts)

/-- The operators of one level after its first operand, grouped to the left. -/
def chainUpTo (next : Parser Expr) (operators : List Operator) : Nat → Expr → Parser Expr
  | fuel + 1, left, .operator op :: ts =>
    if operators.contains op then do
      let (right, ts) ← next ts
      chainUpTo next operators fuel (.binary left op right) ts
    else .ok (left, .operator op :: ts)
  | _, left, ts => .ok (left, ts)

/-- A level of binary operators over the next tighter level. -/
def chain (operators : List Operator) (next : Parser Expr) : Parser Expr := fun ts => do
  let (left, ts) ← next ts
  chainUpTo next operators ts.length left ts

def unions (nested : Parser Expr) : Parser Expr := chain [.union] (path nested)

/-- Signs before a union. -/
def signed (nested : Parser Expr) : Parser Expr
  | .operator .minus :: ts => do
    let (e, ts) ← signed nested ts
    .ok (.negate e, ts)
  | ts => unions nested ts

/-- The levels of binary operators that are looser than the sign, loosest first. -/
def levels : List (List Operator) :=
  [[.or], [.and], [.equal, .notEqual], [.less, .lessOrEqual, .greater, .greaterOrEqual],
   [.plus, .minus], [.multiply, .div, .mod]]

/-- An expression whose nested expressions are read by a given parser. -/
def disjunction (nested : Parser Expr) : Parser Expr := levels.foldr chain (signed nested)

/-- An expression in which expressions are nested less deep than a bound. -/
def expression : Nat → Parser Expr
  | 0 => fun _ => .error .unexpectedEnd
  | depth + 1 => disjunction (expression depth)

/-- An expression at the start of a list of tokens.  It cannot be nested deeper than
there are tokens. -/
def expr : Parser Expr := fun ts => expression (ts.length + 1) ts

end Parser

/-- Read an expression, which must be all of the text. -/
def Expr.parse (source : String) : Except ExprError Expr := do
  let tokens ← tokenize source
  let (e, rest) ← Parser.expr tokens
  match rest with
  | [] => .ok e
  | t :: _ => .error (Parser.unexpected t)

end XPath
end TagGrammar
