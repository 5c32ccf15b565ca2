/-
Expressions that can be read.

Every expression of a template must parse, wherever it stands, and none may read
another document.
-/
import TagGrammar.Safety.Hazard
import TagGrammar.ValueTemplate
import TagGrammar.XPath.Analysis

namespace TagGrammar
namespace Safety

/-- The hazard in one expression. -/
def sourceHazard? (source : String) : Option Hazard :=
  match XPath.Expr.parse source with
  | .ok e => if e.calls "document" then some .documentFunction else none
  | .error _ => some (.unassessableExpression (Text.trim source))

/-- The hazard in the expressions at one place. -/
def siteHazard? (site : ExpressionSite) : Option Hazard :=
  match site.kind with
  | .expression => sourceHazard? site.source
  | .valueTemplate =>
    match ValueTemplate.parse site.source with
    | .ok parts => (ValueTemplate.expressions parts).findSome? sourceHazard?
    | .error _ => some (.unassessableExpression (Text.trim site.source))

/-- The first expression that cannot be read or reads another document. -/
def expressionViolation? (template : Node) : Option Violation :=
  template.expressions.findSome? fun e =>
    (siteHazard? e.2).map fun hazard => ⟨hazard, e.1⟩

end Safety
end TagGrammar
