/-
What a template shows of the HTML around its content.

The outline of a template holds the elements at its top level, the categories of all
its elements, and for each place where content goes, a substitution point, the set of
categories accepted there.  That set is gathered along the elements around the point
from the outermost in: an element that is not transparent starts it anew, a transparent
one adds to it.  Whether all these elements are transparent is noted along the way,
over all points of the template.
-/
import TagGrammar.Html.Element
import TagGrammar.Template.Node

namespace TagGrammar
namespace Html

/-- The name by which an element is looked up. -/
def elementName (e : Element) : String := Text.lower e.name

/-- The model of an HTML element. -/
def modelOf? (e : Element) : Option ElementModel :=
  if e.isHtml then element? (elementName e) else none

/-- A set of categories of an element, which is empty outside HTML. -/
def bitsOf (f : Field) (e : Element) : Categories :=
  match modelOf? e with
  | some m => m.bits f e
  | none => 0

/-- Whether an element accepts what its parent accepts. -/
def isTransparent (e : Element) : Bool := (modelOf? e).any ElementModel.transparent

/-- The literal elements around a visited node, outermost first. -/
def elementsAround (visit : Visit) : List Element :=
  (visit.ancestors.filterMap fun n => n.value.asElement?).reverse

/-- Whether a node is a substitution point. -/
def isSubstitutionPoint (n : Node) : Bool :=
  match n.value with
  | .applyTemplates _ => true
  | _ => false

/-- For each substitution point the literal elements around it, outermost first. -/
def substitutionPoints (template : Node) : List (List Element) :=
  (template.visits.filter fun visit => isSubstitutionPoint visit.node).map elementsAround

/-- The set accepted inside one more element, given the set accepted around it. -/
def acceptedInside (outer : Option Categories) (e : Element) : Categories :=
  let base :=
    if isTransparent e then
      match outer with
      | some set => set
      | none => bitsOf .categories e
    else 0
  base ||| bitsOf .allowedChildren e

/-- The set accepted at a substitution point.  Where no element is around, all is. -/
def acceptedAt : List Element → Categories
  | [] => BitVec.allOnes 32
  | e :: rest =>
    rest.foldl (fun set e => acceptedInside (some set) e) (acceptedInside none e)

/-- What is known of whether the elements around content are all transparent, after one
more element.  A transparent element counts where it is the outermost one and nothing is
known yet, and any other element settles the matter. -/
def transparencyInside (outermost : Bool) (known : Option Bool) (e : Element) : Option Bool :=
  if isTransparent e then
    if outermost then known.or (some true) else known
  else some false

/-- What is known of it after one more substitution point. -/
def transparencyAt (known : Option Bool) : List Element → Option Bool
  | [] => known
  | e :: rest => rest.foldl (transparencyInside false) (transparencyInside true known e)

/-- What a template shows of the HTML around its content. -/
structure Outline where
  /-- The elements at the top level: name and categories. -/
  firstChildren : List (String × Categories)
  /-- The categories of all elements. -/
  usedCategories : Categories
  /-- The categories forbidden at some substitution point. -/
  deniedDescendants : Categories
  /-- The set accepted at each substitution point. -/
  allowedChildren : List Categories
  /-- The names of the elements directly around the substitution points. -/
  lastChildren : List String
  /-- Content is in elements, all of which are transparent. -/
  transparent : Bool

/-- The union of sets of categories. -/
def union (sets : List Categories) : Categories := sets.foldl (· ||| ·) 0

/-- The literal elements of a template. -/
def elementsOf (template : Node) : List Element :=
  template.nodes.filterMap fun n => n.value.asElement?

/-- The literal elements of a template that are in no other literal element. -/
def topElements (template : Node) : List Element :=
  (template.visits.filter fun visit => (elementsAround visit).isEmpty).filterMap
    fun visit => visit.node.value.asElement?

/-- The outline of a template. -/
def Outline.of (template : Node) : Outline :=
  let points := substitutionPoints template
  let around := points.flatten
  { firstChildren := (topElements template).map fun e => (elementName e, bitsOf .categories e)
    usedCategories := union ((elementsOf template).map (bitsOf .categories))
    deniedDescendants := union (around.map (bitsOf .deniedDescendants))
    allowedChildren := points.map acceptedAt
    lastChildren := points.filterMap fun es => es.getLast?.map elementName
    transparent := points.foldl transparencyAt none == some true }

end Html
end TagGrammar
