/-
Constructs that cannot be judged at all.

Output that is not escaped, code for the server, attributes from elsewhere and names
that are made up when the template runs leave nothing to judge.  Each node is looked
at by itself, but for the name of a parameter, which must not be made by an
instruction either.
-/
import TagGrammar.Safety.Hazard
import TagGrammar.Safety.Naming
import TagGrammar.Text.Blank

namespace TagGrammar
namespace Safety

def isPhp (target : String) : Bool := Text.sameIgnoringCase target "php"

/-- The instructions whose output comes from other templates. -/
def foreignInstructions : List String := ["call-template", "apply-imports"]

/-- The hazard in a literal element by itself. -/
def elementHazard? (e : Element) : Option Hazard :=
  if (e.get? "use-attribute-sets").isSome || (e.get? "xsl:use-attribute-sets").isSome then
    some .attributeSets
  else if Text.lower e.name == "param" &&
      (e.get? "name").any fun name => (ValueTemplate.literalText? name).isNone then
    some .dynamicParamName
  else none

/-- The hazard in an instruction that makes an attribute below some ancestors. -/
def constructorHazard? (ancestors : List Node) (name : String) : Option Hazard :=
  match ValueTemplate.literalText? name with
  | none => some (.dynamicAttributeName name)
  | some literal =>
    if ownerName ancestors == "param" && Text.sameIgnoringCase literal "name" then
      some .dynamicParamName
    else none

/-- The hazard in the value of a node below some ancestors. -/
def valueHazard? (ancestors : List Node) : Value → Option Hazard
  | .processingInstruction target _ => if isPhp target then some .phpTag else none
  | .processingInstructionConstructor name =>
    match ValueTemplate.literalText? name with
    | some literal => if isPhp (Text.trim literal) then some .phpTag else none
    | none => some .dynamicProcessingInstruction
  | .copy => some (.unassessableInstruction "copy")
  | .instruction name attributes =>
    if foreignInstructions.contains name then some (.unassessableInstruction name)
    else if attributes.any fun a => a.1 == "use-attribute-sets" then some .attributeSets
    else none
  | .element e => elementHazard? e
  | .dynamicElement name _ sets =>
    if sets.isSome then some .attributeSets
    else if (ValueTemplate.literalText? name).isNone then some (.dynamicElementName name)
    else none
  | .attributeConstructor name _ => constructorHazard? ancestors name
  | _ => none

/-- The hazard at a visited node. -/
def structureHazard? (visit : Visit) : Option Hazard :=
  if visit.node.disablesEscaping then some .disableOutputEscaping
  else valueHazard? visit.ancestors visit.node.value

/-- The first construct that cannot be judged. -/
def structureViolation? (template : Node) : Option Violation :=
  template.visits.findSome? fun visit =>
    (structureHazard? visit).map fun hazard => ⟨hazard, visit.path⟩

end Safety
end TagGrammar
