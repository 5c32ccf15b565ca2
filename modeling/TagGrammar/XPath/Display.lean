/-
Writing expressions.

Every operation is written in parentheses, so the text does not depend on the order
of precedence, and a step is written in its shortest form.  A literal is put between
double quotes only if it holds a single one.
-/
import TagGrammar.XPath.Expr

namespace TagGrammar
namespace XPath

/-- A literal between quotes of the kind it does not hold. -/
def displayLiteral (value : String) : String :=
  if value.toList.contains '\'' then "\"" ++ value ++ "\"" else "'" ++ value ++ "'"

def NodeTest.display : NodeTest → String
  | .name n => n
  | .node => "node()"
  | .text => "text()"
  | .comment => "comment()"
  | .processingInstruction none => "processing-instruction()"
  | .processingInstruction (some target) => "processing-instruction('" ++ target ++ "')"

/-- A test along an axis, without predicates. -/
def displayTest (axis : Axis) (test : NodeTest) : String :=
  match axis with
  | .attributes => "@" ++ test.display
  | .child => test.display
  | axis => axis.text ++ "::" ++ test.display

mutual

def Expr.display : Expr → String
  | .literal value => displayLiteral value
  | .number value => value.display
  | .variable name => "$" ++ name
  | .call name arguments => name ++ "(" ++ displayArguments arguments ++ ")"
  | .binary left op right =>
    "(" ++ left.display ++ " " ++ op.text ++ " " ++ right.display ++ ")"
  | .negate operand => "-" ++ operand.display
  | .path absolute steps => (if absolute then "/" else "") ++ displaySteps steps
  | .filter primary predicates steps =>
    primary.display ++ displayPredicates predicates ++ displayTrailing steps

def Step.display : Step → String
  | .mk .self .node [] => "."
  | .mk .parent .node [] => ".."
  | .mk axis test predicates => displayTest axis test ++ displayPredicates predicates

/-- Arguments separated by commas. -/
def displayArguments : List Expr → String
  | [] => ""
  | e :: rest => e.display ++ displayMoreArguments rest

def displayMoreArguments : List Expr → String
  | [] => ""
  | e :: rest => "," ++ e.display ++ displayMoreArguments rest

/-- Predicates, each in brackets. -/
def displayPredicates : List Expr → String
  | [] => ""
  | e :: rest => "[" ++ e.display ++ "]" ++ displayPredicates rest

/-- Steps separated by slashes. -/
def displaySteps : List Step → String
  | [] => ""
  | s :: rest => s.display ++ displayTrailing rest

/-- Steps, each after a slash. -/
def displayTrailing : List Step → String
  | [] => ""
  | s :: rest => "/" ++ s.display ++ displayTrailing rest

end

end XPath
end TagGrammar
