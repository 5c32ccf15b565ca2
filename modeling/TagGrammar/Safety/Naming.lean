/-
The elements that a template makes.

A literal element and an element instruction with a literal name make an element of a
known name.  The namespace does not matter, since a script of any namespace runs.  What
an instruction makes an attribute of is the nearest element around it, its owner.
-/
import TagGrammar.Template.Node
import TagGrammar.ValueTemplate

namespace TagGrammar

/-- A node that makes an element. -/
def Value.makesElement : Value → Bool
  | .element _ | .dynamicElement _ _ _ => true
  | _ => false

/-- The name of the element that a node makes in small letters, if it is known. -/
def Value.madeName? : Value → Option String
  | .element e => some (Text.lower e.name)
  | .dynamicElement name _ _ => (ValueTemplate.literalText? name).map Text.lower
  | _ => none

/-- The name of the element that a node makes, or nothing. -/
def Value.madeName (v : Value) : String := v.madeName?.getD ""

/-- What a literal element names its parameter. -/
def Value.paramName? (v : Value) : Option String := v.asElement?.bind fun e => e.get? "name"

namespace Safety

/-- The nearest element among the ancestors of a node. -/
def owner? (ancestors : List Node) : Option Node := ancestors.find? fun n => n.value.makesElement

/-- The name of the owner among some ancestors, or nothing. -/
def ownerName (ancestors : List Node) : String :=
  ((owner? ancestors).map fun n => n.value.madeName).getD ""

/-- What the owner among some ancestors names its parameter. -/
def ownerParam? (ancestors : List Node) : Option String :=
  (owner? ancestors).bind fun n => n.value.paramName?

end Safety

namespace Visit

/-- The path of the nearest element around a visited node. -/
def ownerPath? (visit : Visit) : Option Path :=
  (visit.above.find? fun v => v.node.value.makesElement).map Visit.path

/-- The visit of the parent of a visited node's ancestor list. -/
def isChildOf (visit parent : Visit) : Bool := visit.path.dropLast == parent.path

end Visit
end TagGrammar
