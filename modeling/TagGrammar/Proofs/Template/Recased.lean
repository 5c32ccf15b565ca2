/-
Templates with names in another case.

Only names change, and only in the case of ASCII letters: those of literal elements and their
attributes, and those that instructions give.  The latter have no braces, so each stands for
itself, in any case.  The nodes of the two trees correspond one to one.
-/
import Mathlib.Data.List.Forall2
import TagGrammar.Proofs.Case
import TagGrammar.Proofs.ValueTemplate
import TagGrammar.Template.Node

namespace TagGrammar

/-! ## Names -/

theorem ValueTemplate.isPlain_lower {s : String} (h : IsPlain s) : IsPlain (Text.lower s) := by
  intro c hc
  rw [Text.toList_lower, List.mem_map] at hc
  obtain ⟨d, hd, rfl⟩ := hc
  rw [Ne, Text.toLower_eq_iff (by decide), Ne, Text.toLower_eq_iff (by decide)]
  exact h d hd

/-- A name without braces that is written in another case. -/
structure RecasedName (name name' : String) : Prop where
  plain : ValueTemplate.IsPlain name
  lower : Text.lower name' = Text.lower name

namespace RecasedName

variable {name name' : String} (h : RecasedName name name')

include h

theorem plain' : ValueTemplate.IsPlain name' :=
  ValueTemplate.isPlain_of_lower (h.lower ▸ ValueTemplate.isPlain_lower h.plain)

theorem literalText? : ValueTemplate.literalText? name = some name :=
  ValueTemplate.literalText?_of_plain h.plain

theorem literalText?' : ValueTemplate.literalText? name' = some name' :=
  ValueTemplate.literalText?_of_plain h.plain'

end RecasedName

/-- Something that goes by a name, with the name in another case. -/
structure RecasedEntry {α : Type} (a a' : String × α) : Prop where
  name : Text.lower a'.1 = Text.lower a.1
  value : a'.2 = a.2

/-- A literal element whose name and attributes are written in another case. -/
structure RecasedElement (e e' : Element) : Prop where
  name : Text.lower e'.name = Text.lower e.name
  namespaceName : e'.namespaceName = e.namespaceName
  attributes : List.Forall₂ RecasedEntry e.attributes e'.attributes

/-! ## Trees -/

/-- A value whose names are written in another case. -/
inductive RecasedValue : Value → Value → Prop where
  | refl (v : Value) : RecasedValue v v
  | element {e e' : Element} (h : RecasedElement e e') :
      RecasedValue (.element e) (.element e')
  | dynamicElement {name name' : String} (h : RecasedName name name')
      (namespaceName sets : Option String) :
      RecasedValue (.dynamicElement name namespaceName sets)
        (.dynamicElement name' namespaceName sets)
  | attributeConstructor {name name' : String} (h : RecasedName name name')
      (namespaceName : Option String) :
      RecasedValue (.attributeConstructor name namespaceName)
        (.attributeConstructor name' namespaceName)
  | processingInstructionConstructor {name name' : String} (h : RecasedName name name') :
      RecasedValue (.processingInstructionConstructor name)
        (.processingInstructionConstructor name')

mutual

/-- A tree in which names are written in another case. -/
inductive Recased : Node → Node → Prop where
  | node {v v' : Value} {unescaped : Bool} {cs cs' : List Node} (hv : RecasedValue v v')
      (hcs : RecasedAll cs cs') : Recased ⟨v, unescaped, cs⟩ ⟨v', unescaped, cs'⟩

inductive RecasedAll : List Node → List Node → Prop where
  | nil : RecasedAll [] []
  | cons {n n' : Node} {rest rest' : List Node} (h : Recased n n')
      (hrest : RecasedAll rest rest') : RecasedAll (n :: rest) (n' :: rest')

end

end TagGrammar
