/-
Script access of embedded movies.

The setting of an embedding element is its attribute, that of an object are its
parameters.  A parameter deeper than a child may belong to another object or be made
only sometimes, so it is checked but does not replace the default.  No instruction may
make a setting.
-/
import TagGrammar.Safety.Hazard
import TagGrammar.Safety.Naming
import TagGrammar.Safety.Sinks

namespace TagGrammar
namespace Safety

/-- The name of the setting, as an attribute and as a parameter. -/
def scriptAccessName : String := "allowscriptaccess"

/-- The hazard in a setting that must not grant more than a bound. -/
def settingHazard? (most : ScriptAccess) (setting : String) : Option Hazard :=
  match ScriptAccess.ofString? setting with
  | some access =>
    if access.atMost most then none else some (.scriptAccessExceeds setting most)
  | none =>
    if hasExpression setting then some (.unassessableScriptAccess setting)
    else some (.unknownScriptAccess setting)

/-- The violation in a setting at a node. -/
def settingViolation? (most : ScriptAccess) (path : Path) (setting : String) :
    Option Violation :=
  (settingHazard? most setting).map fun hazard => ⟨hazard, path⟩

/-- An instruction that makes an attribute whose written name is a given one. -/
def makesAttribute (name : String) (n : Node) : Bool :=
  match n.value with
  | .attributeConstructor written _ => Text.sameIgnoringCase written name
  | _ => false

/-- The first instruction below a node that makes an attribute of a given name. -/
def madeAttributeViolation? (name : String) (visit : Visit) : Option Violation :=
  (visit.below.find? fun v => makesAttribute name v.node).map fun v =>
    ⟨.dynamicFlashAttribute, v.path⟩

/-- The violation in an embedding element. -/
def embedViolation? (most : ScriptAccess) (visit : Visit) : Option Violation :=
  let setting := visit.node.value.asElement?.bind fun e => e.get? scriptAccessName
  (madeAttributeViolation? scriptAccessName visit).or
    (settingViolation? most visit.path (setting.getD ScriptAccess.default.text))

/-- The literal element of a node that is a parameter with a setting. -/
def settingParam? (n : Node) : Option Element :=
  n.value.asElement?.filter fun e =>
    Text.sameIgnoringCase e.name "param" &&
      (e.get? "name").any fun name => Text.sameIgnoringCase name scriptAccessName

/-- The violation in a parameter with a setting. -/
def paramViolation? (most : ScriptAccess) (visit : Visit) : Option Violation :=
  match settingParam? visit.node with
  | none => none
  | some e =>
    (settingViolation? most visit.path ((e.get? "value").getD "")).or
      (madeAttributeViolation? "value" visit)

/-- The violation in an object, which has the default setting unless a child is a
parameter with another one. -/
def objectViolation? (most : ScriptAccess) (visit : Visit) : Option Violation :=
  let replaced := visit.below.any fun v =>
    v.isChildOf visit && (settingParam? v.node).isSome
  (visit.below.findSome? (paramViolation? most)).or <|
    if replaced then none
    else settingViolation? most visit.path ScriptAccess.default.text

/-- The violation in an element that embeds a movie and must not grant more script
access than a bound. -/
def embeddingViolation? (most : ScriptAccess) (visit : Visit) : Option Violation :=
  match visit.node.value.madeName? with
  | some "embed" => embedViolation? most visit
  | some "object" => objectViolation? most visit
  | _ => none

/-- The first embedding element that grants more than the bound, if there is one. -/
def scriptAccessViolation? (most : Option ScriptAccess) (template : Node) :
    Option Violation :=
  match most with
  | none => none
  | some most => template.visits.findSome? (embeddingViolation? most)

end Safety
end TagGrammar
