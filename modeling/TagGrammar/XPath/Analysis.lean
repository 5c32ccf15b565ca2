/-
The shapes of expressions that the checks look for.

An expression may be exactly one attribute, or the current node, or a disjunction of
comparisons of one operand with constants; it may call a function somewhere; and the
attributes its text can come from may be known.  What is not recognized counts as
unknown.
-/
import TagGrammar.XPath.Display
import TagGrammar.XPath.Parser

namespace TagGrammar
namespace XPath
namespace Expr

/-- The name of the attribute that the expression is. -/
def asAttribute? : Expr → Option String
  | .path false [.mk .attributes (.name name) []] =>
    if name.toList.contains '*' then none else some name
  | _ => none

/-- Whether the expression is the current node. -/
def isContextItem : Expr → Bool
  | .path false [.mk .self .node []] => true
  | _ => false

mutual

/-- Whether a function is called anywhere in the expression. -/
def calls (function : String) : Expr → Bool
  | .literal _ | .number _ | .variable _ => false
  | .call name arguments => name == function || anyCalls function arguments
  | .binary left _ right => left.calls function || right.calls function
  | .negate operand => operand.calls function
  | .path _ steps => anyStepCalls function steps
  | .filter primary predicates steps =>
    primary.calls function || anyCalls function predicates || anyStepCalls function steps

def anyCalls (function : String) : List Expr → Bool
  | [] => false
  | e :: rest => e.calls function || anyCalls function rest

def stepCalls (function : String) : Step → Bool
  | .mk _ _ predicates => anyCalls function predicates

def anyStepCalls (function : String) : List Step → Bool
  | [] => false
  | s :: rest => stepCalls function s || anyStepCalls function rest

end

/-- The functions that yield a number or a truth value whatever they are given. -/
def scalarFunctions : List String :=
  ["boolean", "ceiling", "contains", "count", "false", "floor", "lang", "last", "not",
   "number", "position", "round", "starts-with", "string-length", "sum", "true"]

/-- The functions that yield text made of the text of their arguments. -/
def textFunctions : List String :=
  ["concat", "normalize-space", "string", "substring", "substring-after",
   "substring-before", "translate"]

/-- A list with the members of another one that it lacks put at its end. -/
def unite (known new : List String) : List String :=
  new.foldl (fun known name => if known.contains name then known else known ++ [name]) known

mutual

/-- The attributes that the text of the expression can come from, if that is known.
Literals, numbers and truth values come from none.  Without arguments a text function
reads the current node. -/
def sources? : Expr → Option (List String)
  | .literal _ | .number _ | .negate _ => some []
  | .path absolute steps => ((Expr.path absolute steps).asAttribute?).map fun name => [name]
  | .call name arguments =>
    if scalarFunctions.contains name then some []
    else if textFunctions.contains name && !arguments.isEmpty then allSources? [] arguments
    else none
  | .binary _ op _ => if op == .union then none else some []
  | .variable _ | .filter _ _ _ => none

/-- The attributes of some expressions after those already known, each once. -/
def allSources? (known : List String) : List Expr → Option (List String)
  | [] => some known
  | e :: rest => e.sources?.bind fun new => allSources? (unite known new) rest

end

/-- The leaves of the outermost disjunction, from left to right. -/
def disjuncts : Expr → List Expr
  | .binary left .or right => left.disjuncts ++ right.disjuncts
  | e => [e]

/-- The text of a literal or a number. -/
def constant? : Expr → Option String
  | .literal value => some value
  | .number value => some value.display
  | _ => none

/-- An operand whose comparisons with constants can be told apart: a variable, an
attribute or the current node. -/
def isComparable : Expr → Bool
  | .variable _ => true
  | e => e.asAttribute?.isSome || e.isContextItem

/-- The operand and the constant of an equality between the two, on either side. -/
def equality? : Expr → Option (Expr × String)
  | .binary left .equal right =>
    match left.constant?, right.constant? with
    | none, some value => if left.isComparable then some (left, value) else none
    | some value, none => if right.isComparable then some (right, value) else none
    | _, _ => none
  | _ => none

/-- The operand, as it is displayed, and the constants of a disjunction of equalities
that all have the same operand. -/
def equalityTerms? (e : Expr) : Option (String × List String) :=
  (e.disjuncts.mapM equality?).bind fun terms =>
    match terms with
    | [] => none
    | (operand, _) :: _ =>
      let key := operand.display
      if terms.all fun t => t.1.display == key then some (key, terms.map Prod.snd) else none

end Expr
end XPath
end TagGrammar
