/-
Expressions.

The abstract form of the XPath 1.0 expressions that templates hold.  Nothing is
evaluated: the checks and the rewriting of templates look for a few shapes in this
form and treat all others as unknown.
-/
import TagGrammar.XPath.Number

namespace TagGrammar
namespace XPath

/-- The binary operators. -/
inductive Operator where
  | or
  | and
  | equal
  | notEqual
  | less
  | lessOrEqual
  | greater
  | greaterOrEqual
  | plus
  | minus
  | multiply
  | div
  | mod
  | union
deriving DecidableEq

def Operator.text : Operator → String
  | or => "or"
  | and => "and"
  | equal => "="
  | notEqual => "!="
  | less => "<"
  | lessOrEqual => "<="
  | greater => ">"
  | greaterOrEqual => ">="
  | plus => "+"
  | minus => "-"
  | multiply => "*"
  | div => "div"
  | mod => "mod"
  | union => "|"

/-- The directions a step may take. -/
inductive Axis where
  | ancestor
  | ancestorOrSelf
  | attributes
  | child
  | descendant
  | descendantOrSelf
  | following
  | followingSibling
  | namespaces
  | parent
  | preceding
  | precedingSibling
  | self
deriving DecidableEq

namespace Axis

def all : List Axis :=
  [ancestor, ancestorOrSelf, attributes, child, descendant, descendantOrSelf, following,
   followingSibling, namespaces, parent, preceding, precedingSibling, self]

def text : Axis → String
  | ancestor => "ancestor"
  | ancestorOrSelf => "ancestor-or-self"
  | attributes => "attribute"
  | child => "child"
  | descendant => "descendant"
  | descendantOrSelf => "descendant-or-self"
  | following => "following"
  | followingSibling => "following-sibling"
  | namespaces => "namespace"
  | parent => "parent"
  | preceding => "preceding"
  | precedingSibling => "preceding-sibling"
  | self => "self"

/-- The axis of a name. -/
def ofString? (s : String) : Option Axis := all.find? fun axis => axis.text == s

theorem mem_all (a : Axis) : a ∈ all := by cases a <;> decide

end Axis

/-- What a step selects along its axis. -/
inductive NodeTest where
  /-- A name, a star, or a star after the lead of a namespace. -/
  | name (name : String)
  | node
  | text
  | comment
  | processingInstruction (target : Option String)
deriving DecidableEq

mutual

/-- An expression. -/
inductive Expr where
  | literal (value : String)
  | number (value : Number)
  | variable (name : String)
  | call (name : String) (arguments : List Expr)
  | binary (left : Expr) (operator : Operator) (right : Expr)
  | negate (operand : Expr)
  /-- Steps from the root or from the current node. -/
  | path (absolute : Bool) (steps : List Step)
  /-- An expression with predicates, followed by steps. -/
  | filter (primary : Expr) (predicates : List Expr) (steps : List Step)

/-- A step of a path. -/
inductive Step where
  | mk (axis : Axis) (test : NodeTest) (predicates : List Expr)

end

instance : Inhabited Expr := ⟨.literal ""⟩

namespace Step

def axis : Step → Axis
  | mk axis _ _ => axis

def test : Step → NodeTest
  | mk _ test _ => test

def predicates : Step → List Expr
  | mk _ _ predicates => predicates

/-- The step to the current node. -/
def here : Step := mk .self .node []

/-- The step to the parent. -/
def up : Step := mk .parent .node []

/-- The step that a double slash stands for. -/
def anywhere : Step := mk .descendantOrSelf .node []

end Step
end XPath
end TagGrammar
