/-
The check of a template.

Five checks are made in turn and the first violation is the answer.  A template without
one is accepted.  Whatever a check cannot tell to be safe is a violation.
-/
import TagGrammar.Safety.Expressions
import TagGrammar.Safety.FixedUrl
import TagGrammar.Safety.Flow
import TagGrammar.Safety.Structure

namespace TagGrammar
namespace Safety

/-- The first violation of a template under what it is granted. -/
def violation? (g : Grant) (template : Node) : Option Violation :=
  (structureViolation? template).or <|
    (expressionViolation? template).or <|
      (fixedUrlViolation? g template).or <|
        (scriptAccessViolation? g.options.maxScriptAccess template).or <|
          flowViolation? g template

/-- Whether a template is accepted. -/
def accepts (g : Grant) (template : Node) : Bool := (violation? g template).isNone

/-- A template is accepted when each of the checks finds nothing. -/
theorem accepts_iff (g : Grant) (template : Node) :
    accepts g template = true ↔
      structureViolation? template = none ∧ expressionViolation? template = none ∧
        fixedUrlViolation? g template = none ∧
          scriptAccessViolation? g.options.maxScriptAccess template = none ∧
            flowViolation? g template = none := by
  simp [accepts, violation?, Option.isNone_iff_eq_none]

end Safety
end TagGrammar
