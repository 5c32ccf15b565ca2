/-
Where output flows.

What an instruction writes ends up in the content of an element or in an attribute, and
that may be a sink.  A scope says where the output of the nodes inside it goes:
`Scope.inside?` makes the scope of a node's children from the scope around it, and
`flows` lists the nodes that output can come from, each with its scope.  Below an
insertion there are none.  In a sink only constants and filtered attributes of the tag
may be written, and what cannot be told is refused.
-/
import TagGrammar.Safety.Grant
import TagGrammar.Safety.Hazard
import TagGrammar.Safety.Naming
import TagGrammar.Safety.Sinks
import TagGrammar.Text.Blank
import TagGrammar.XPath.Analysis

namespace TagGrammar
namespace Safety

/-- What the output of a scope belongs to. -/
inductive Holder where
  | template
  /-- An element, and whether an instruction makes it. -/
  | element (name : String) (dynamic : Bool)
  /-- An attribute that an instruction makes. -/
  | attr (name : String)
deriving DecidableEq

/-- Where the output of some nodes goes. -/
structure Scope where
  /-- Nothing if the output is escaped text or a harmless attribute. -/
  sink : Option Sink := none
  holder : Holder := .template
  /-- The output follows the scheme of mail. -/
  mailto : Bool := false
  /-- The current node is that of the tag. -/
  bindingKnown : Bool := true
deriving DecidableEq

namespace Scope

/-- The scope of the content of a template. -/
def outermost : Scope := {}

/-- The scope of the content of an element.  Markup in a script is a script still. -/
def ofElement (outer : Scope) (name : String) (dynamic : Bool) : Scope :=
  match elementSink? name, outer.sink with
  | none, some _ => outer
  | sink, _ => { sink, holder := .element name dynamic, bindingKnown := outer.bindingKnown }

/-- Whether the content of a node begins with literal text with the scheme of mail. -/
def beginsMailto (n : Node) : Bool :=
  match n.children with
  | first :: _ =>
    match first.value with
    | .text text _ _ => isMailto text
    | _ => false
  | [] => false

/-- The scope of the content of an attribute that an instruction makes of the element
around it. -/
def ofAttribute (outer : Scope) (ancestors : List Node) (written : String) (n : Node) : Scope :=
  let name := Text.lower ((ValueTemplate.literalText? written).getD "")
  let sink := attributeSink? (ownerName ancestors) name (ownerParam? ancestors)
  { sink, holder := .attr name, mailto := sink == some .url && beginsMailto n,
    bindingKnown := outer.bindingKnown }

/-- The scope of the children of a node, unless no output of theirs is left. -/
def inside? (scope : Scope) (ancestors : List Node) (n : Node) : Option Scope :=
  match n.value with
  | .element e => some (scope.ofElement (Text.lower e.name) false)
  | .dynamicElement _ _ _ => some (scope.ofElement n.value.madeName true)
  | .attributeConstructor name _ => some (scope.ofAttribute ancestors name n)
  | .forEach _ => some { scope with bindingKnown := false }
  | .valueOf _ _ | .copyOf _ | .applyTemplates _ => none
  | _ => some scope

end Scope

/-- A node that output comes from and where it goes. -/
structure Flow where
  visit : Visit
  scope : Scope

mutual

/-- The flows from a tree at a path below some ancestors. -/
def flowsAt (path : Path) (ancestors : List Node) (scope : Scope) : Node → List Flow
  | ⟨v, u, cs⟩ =>
    ⟨⟨path, ancestors, ⟨v, u, cs⟩⟩, scope⟩ ::
      match scope.inside? ancestors ⟨v, u, cs⟩ with
      | none => []
      | some inner => flowsBelow path (⟨v, u, cs⟩ :: ancestors) inner 0 cs

/-- The flows from the children of a node, from the child with a given index on. -/
def flowsBelow (path : Path) (ancestors : List Node) (scope : Scope) (i : Nat) :
    List Node → List Flow
  | [] => []
  | n :: rest =>
    flowsAt (path ++ [i]) ancestors scope n ++ flowsBelow path ancestors scope (i + 1) rest

end

/-- All flows of a template, in document order. -/
def flows (template : Node) : List Flow :=
  flowsBelow [] [template] .outermost 0 template.children

/-- The hazard in the value of an attribute that goes into a sink. -/
def referenceHazard? (g : Grant) (bindingKnown mailto : Bool) (sink : Sink) (name : String) :
    Option Hazard :=
  if !bindingKnown then some .forEachContext
  else if !g.declares name then some (.undefinedAttribute name)
  else if !g.isFiltered name (if mailto then .attributeValue else sink) then
    some (.unfilteredAttribute name sink)
  else none

/-- The hazard in an expression whose text goes into a sink. -/
def outputHazard? (g : Grant) (bindingKnown mailto : Bool) (sink : Sink) (source : String) :
    Option Hazard :=
  match XPath.Expr.parse source with
  | .error _ => some (.unassessableExpression (Text.trim source))
  | .ok e =>
    match e.sources? with
    | none => some (.unassessableExpression (Text.trim source))
    | some names => names.findSome? (referenceHazard? g bindingKnown mailto sink)

/-- The hazard in a value template that goes into a sink. -/
def valueTemplateHazard? (g : Grant) (bindingKnown : Bool) (sink : Sink) (value : String) :
    Option Hazard :=
  match ValueTemplate.parse value with
  | .error _ => some (.unassessableExpression (Text.trim value))
  | .ok parts =>
    let mailto := sink == .url && isMailto (ValueTemplate.leadingLiteral parts)
    (ValueTemplate.expressions parts).findSome? (outputHazard? g bindingKnown mailto sink)

/-- An attribute that is kept under the lead of the instruction namespace. -/
def isInstructionAttribute (name : String) : Bool := "xsl:".toList.isPrefixOf name.toList

/-- The hazard in the literal attributes of an element. -/
def literalAttributesHazard? (g : Grant) (bindingKnown : Bool) (e : Element) : Option Hazard :=
  e.attributes.findSome? fun a =>
    if isInstructionAttribute a.1 then none
    else (attributeSink? (Text.lower e.name) a.1 (e.get? "name")).bind fun sink =>
      valueTemplateHazard? g bindingKnown sink a.2

/-- The sink that a copied attribute goes into.  Inside an attribute only its value is
copied, elsewhere it becomes an attribute of the element around it. -/
def copySink? (scope : Scope) (ancestors : List Node) (name : String) : Option Sink :=
  match scope.holder with
  | .attr _ => scope.sink
  | _ => attributeSink? (ownerName ancestors) name (ownerParam? ancestors)

/-- The hazard in a copy, which must be that of an attribute. -/
def copyHazard? (g : Grant) (scope : Scope) (ancestors : List Node) (select : String) :
    Option Hazard :=
  match XPath.Expr.parse select with
  | .error _ => some (.copyOfSelect (Text.trim select))
  | .ok e =>
    match e.asAttribute? with
    | none => some (.copyOfSelect (Text.trim select))
    | some name => (copySink? scope ancestors name).bind fun sink =>
      referenceHazard? g scope.bindingKnown false sink name

/-- The hazard in the content of a tag that goes into a sink. -/
def contentHazard (scope : Scope) : Option String → Hazard
  | some select => .applyTemplatesSelect (Text.trim select)
  | none =>
    match scope.holder with
    | .element name false => .unfilteredElement name
    | .element name true => .unfilteredDynamicElement name
    | .attr name => .unfilteredDynamicAttribute name
    | .template => .unassessableInstruction "apply-templates"

/-- The hazard in what a node writes by itself. -/
def flowHazard? (g : Grant) (flow : Flow) : Option Hazard :=
  let scope := flow.scope
  match flow.visit.node.value with
  | .element e => literalAttributesHazard? g scope.bindingKnown e
  | .valueOf select _ => scope.sink.bind fun sink =>
    outputHazard? g scope.bindingKnown scope.mailto sink select
  | .copyOf select => copyHazard? g scope flow.visit.ancestors select
  | .applyTemplates select => scope.sink.map fun _ => contentHazard scope select
  | .instruction name _ =>
    if scope.sink.isSome && name != "sort" then some (.unassessableInstruction name) else none
  | _ => none

/-- The first output that must not go where it goes. -/
def flowViolation? (g : Grant) (template : Node) : Option Violation :=
  (flows template).findSome? fun flow =>
    (flowHazard? g flow).map fun hazard => ⟨hazard, flow.visit.path⟩

end Safety
end TagGrammar
