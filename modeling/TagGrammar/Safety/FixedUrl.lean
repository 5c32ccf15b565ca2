/-
Addresses of what is loaded and run.

An element that loads code takes it from a fixed place: its addresses are literal, or
they begin with a literal scheme and host and go on with text that is filtered for
addresses.  An address that an instruction makes is literal.  A movie that may not
script the page is exempt, and so are the parameters of an exempt object.
-/
import TagGrammar.Safety.Embedding
import TagGrammar.Safety.Grant
import TagGrammar.XPath.Analysis

namespace TagGrammar
namespace Safety

/-- Whether an expression yields only text that is filtered for addresses. -/
def isUrlExpression (g : Grant) (source : String) : Bool :=
  match XPath.Expr.parse source with
  | .error _ => false
  | .ok e => e.sources?.any fun names => names.all fun name => g.isFiltered name .url

/-- Whether some parts make an address that is literal or has a fixed origin. -/
def isFixedParts (g : Grant) (parts : List ValuePart) : Bool :=
  ValueTemplate.isLiteral parts ||
    hasFixedOrigin (ValueTemplate.leadingLiteral parts) &&
      (ValueTemplate.expressions parts).all (isUrlExpression g)

/-- Whether a value template is a fixed address. -/
def isFixedUrl (g : Grant) (value : String) : Bool :=
  match ValueTemplate.parse value with
  | .error _ => false
  | .ok parts => isFixedParts g parts

/-- The attributes of an element that must be fixed addresses. -/
inductive FixedAttributes where
  /-- All that hold an address. -/
  | urls
  /-- The value of a parameter that is an address. -/
  | paramValue
deriving DecidableEq

/-- Whether an attribute of an element, which may name a parameter, is among those. -/
def FixedAttributes.contains (attributes : FixedAttributes) (param : Option String)
    (name : String) : Bool :=
  match attributes with
  | urls => isUrlAttribute name
  | paramValue => isUrlParamValue "param" name param

/-- Whether an embedding element is known to script the page so little that its address
need not be fixed. -/
def isExempt (g : Grant) (visit : Visit) : Bool :=
  (embeddingViolation? g.options.fixedUrlExemption visit).isNone

/-- The nearest object around a visited node. -/
def enclosingObject? (visit : Visit) : Option Visit :=
  visit.above.find? fun v => v.node.value.madeName == "object"

/-- Which attributes of a visited node must be fixed addresses. -/
def fixedAttributes? (g : Grant) (visit : Visit) : Option FixedAttributes :=
  match visit.node.value.madeName with
  | "iframe" | "script" => some .urls
  | "embed" | "object" => if isExempt g visit then none else some .urls
  | "param" =>
    match enclosingObject? visit with
    | none => none
    | some object => if isExempt g object then none else some .paramValue
  | _ => none

/-- Content that is the same whenever the template runs. -/
def isLiteralContent (n : Node) : Bool :=
  match n.value with
  | .text _ unescaped _ => !unescaped
  | .processingInstruction _ _ | .comment _ _ => true
  | _ => false

/-- The name of the attribute that an instruction makes, and whether its value is
literal.  A copied attribute keeps its name. -/
def madeAttribute? (n : Node) : Option (String × Bool) :=
  match n.value with
  | .attributeConstructor name _ =>
    some ((ValueTemplate.literalText? name).getD "", n.children.all isLiteralContent)
  | .copyOf select =>
    match XPath.Expr.parse select with
    | .error _ => none
    | .ok e => e.asAttribute?.map fun name => (name, false)
  | _ => none

/-- The violation in a literal attribute of an element. -/
def literalUrlViolation? (g : Grant) (visit : Visit) (attributes : FixedAttributes) :
    Option Violation :=
  let v := visit.node.value
  v.asElement?.bind fun e =>
    e.attributes.findSome? fun a =>
      if attributes.contains v.paramName? a.1 && !isFixedUrl g a.2 then
        some ⟨.nonFixedUrl v.madeName (Text.lower a.1), visit.path⟩
      else none

/-- The violation in an attribute that an instruction makes of an element. -/
def madeUrlViolation? (visit : Visit) (attributes : FixedAttributes) : Option Violation :=
  let v := visit.node.value
  visit.below.findSome? fun inner =>
    if inner.ownerPath? == some visit.path then
      (madeAttribute? inner.node).bind fun made =>
        if !made.2 && attributes.contains v.paramName? made.1 then
          some ⟨.dynamicNonFixedUrl v.madeName (Text.lower made.1), inner.path⟩
        else none
    else none

/-- The violation in the addresses of a visited node. -/
def urlViolation? (g : Grant) (visit : Visit) : Option Violation :=
  (fixedAttributes? g visit).bind fun attributes =>
    (literalUrlViolation? g visit attributes).or (madeUrlViolation? visit attributes)

/-- The first address that is not fixed and has to be. -/
def fixedUrlViolation? (g : Grant) (template : Node) : Option Violation :=
  template.visits.findSome? (urlViolation? g)

end Safety
end TagGrammar
