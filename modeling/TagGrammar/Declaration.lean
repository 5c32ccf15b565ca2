/-
Why a declaration is refused.

Tags, attributes, rules and filters are declared by name.  Each cause of refusal
is a constructor that keeps the names involved, and `message` words it.  A name
is refused exactly when it is not valid (`TagName.declare_eq_ok_iff`).
-/
import TagGrammar.Name

namespace TagGrammar

/-- The causes for which a declaration is refused. -/
inductive DeclarationError where
  | invalidTagName (name : String)
  | invalidAttributeName (name : String)
  | invalidFilterName (name : String)
  | tagExists (tag : TagName)
  | unknownTag (tag : TagName)
  | attributeExists (tag : TagName) (name : AttributeName)
  | unknownAttribute (tag : TagName) (name : AttributeName)
  | unknownRuleAction (action : String)
  | unknownFilter (filter : String)
  | unknownHtmlElement (element : String)
deriving DecidableEq

namespace DeclarationError

/-- The wording of each cause. -/
def message : DeclarationError → String
  | invalidTagName name => s!"Invalid tag name '{name}'"
  | invalidAttributeName name => s!"Invalid attribute name '{name}'"
  | invalidFilterName name => s!"Invalid filter name '{name}'"
  | tagExists tag => s!"Tag '{tag.text}' already exists"
  | unknownTag tag => s!"Tag '{tag.text}' does not exist"
  | attributeExists tag name =>
    s!"Attribute '{name.text}' already exists in tag '{tag.text}'"
  | unknownAttribute tag name =>
    s!"Attribute '{name.text}' does not exist in tag '{tag.text}'"
  | unknownRuleAction action => s!"Unknown rule action '{action}'"
  | unknownFilter filter => s!"Unknown filter '{filter}'"
  | unknownHtmlElement element => s!"Unknown HTML element '{element}'"

end DeclarationError

/-- Read the name of a tag to be declared. -/
def TagName.declare (s : String) : Except DeclarationError TagName :=
  match TagName.ofString? s with
  | some name => .ok name
  | none => .error (.invalidTagName s)

/-- Read the name of an attribute to be declared. -/
def AttributeName.declare (s : String) : Except DeclarationError AttributeName :=
  match AttributeName.ofString? s with
  | some name => .ok name
  | none => .error (.invalidAttributeName s)

theorem TagName.declare_eq_ok_iff (s : String) (name : TagName) :
    TagName.declare s = .ok name ↔ TagName.isValid s = true ∧ name = ⟨Text.upper s⟩ := by
  unfold TagName.declare TagName.ofString?
  by_cases h : TagName.isValid s = true <;> simp [h, eq_comm]

theorem AttributeName.declare_eq_ok_iff (s : String) (name : AttributeName) :
    AttributeName.declare s = .ok name ↔
      AttributeName.isValid s = true ∧ name = ⟨Text.lower s⟩ := by
  unfold AttributeName.declare AttributeName.ofString?
  by_cases h : AttributeName.isValid s = true <;> simp [h, eq_comm]

end TagGrammar
