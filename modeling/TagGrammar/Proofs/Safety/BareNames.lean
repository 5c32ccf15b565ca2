/-
Attributes that no check looks for.

An attribute that is written with a prefix is one that the checks look for only if it is a
handler, the address of a link or a use of attribute sets.  `Value.bare` puts the same name in
the place of every other.  No check tells the bare form of a template from the template, so
templates that differ in other names alone are accepted together (`accepts_bare`).
-/
import TagGrammar.Proofs.Safety.SameTrees
import TagGrammar.Template.InlineLiteral

namespace TagGrammar
namespace Safety

/-- The name of an attribute, or another one for the same checks if it has a prefix. -/
def bareName (name : String) : String :=
  if name.toList.contains ':' then
    if isHandler (Text.lower name).toList then "on:"
    else if Text.lower name == "xlink:href" then "xlink:href"
    else if Text.lower name == "xsl:use-attribute-sets" then "xsl:use-attribute-sets"
    else ":"
  else name

/-- The name of an attribute of an instruction, or another one if it has a prefix. -/
def bareInstructionName (name : String) : String :=
  if name.toList.contains ':' then ":" else name

def bareAttributes (attributes : List (String × String)) : List (String × String) :=
  attributes.map fun a => (bareName a.1, a.2)

def bareInstructionAttributes (attributes : List (String × String)) : List (String × String) :=
  attributes.map fun a => (bareInstructionName a.1, a.2)

end Safety

open Safety

def Element.bare (e : Element) : Element := { e with attributes := bareAttributes e.attributes }

/-- A value without the names that no check looks for. -/
def Value.bare : Value → Value
  | element e => element e.bare
  | instruction name attributes => instruction name (bareInstructionAttributes attributes)
  | v => v

abbrev Node.bare (n : Node) : Node := n.mapValues Value.bare

/-! ## Names of attributes -/

namespace Safety

theorem contains_bareName (name : String) :
    (bareName name).toList.contains ':' = name.toList.contains ':' := by
  unfold bareName
  split
  · rename_i hcolon
    rw [hcolon]
    split
    · decide
    · split
      · decide
      · split <;> decide
  · rfl

theorem bareName_of_no_colon {name : String} (h : name.toList.contains ':' = false) :
    bareName name = name := by
  rw [bareName, h, if_neg Bool.false_ne_true]

section Plain

variable {plain : String} (hplain : plain.toList.contains ':' = false)

include hplain

theorem sameIgnoringCase_bareName (name : String) :
    Text.sameIgnoringCase (bareName name) plain = Text.sameIgnoringCase name plain := by
  cases hcolon : name.toList.contains ':' with
  | false => rw [bareName_of_no_colon hcolon]
  | true =>
    have hbare : (bareName name).toList.contains ':' = true := by rw [contains_bareName, hcolon]
    rw [Text.sameIgnoringCase_of_colon hbare hplain, Text.sameIgnoringCase_of_colon hcolon hplain]

theorem bareInstructionName_beq (name : String) :
    (bareInstructionName name == plain) = (name == plain) := by
  unfold bareInstructionName
  split
  · rename_i hcolon
    have hne : ∀ s : String, s.toList.contains ':' = true → (s == plain) = false := by
      intro s hs
      rw [beq_eq_false_iff_ne]
      rintro rfl
      rw [hplain] at hs
      cases hs
    rw [hne name hcolon, hne ":" (by decide)]
  · rfl

end Plain

theorem isHandler_bareName (name : String) :
    isHandler (Text.lower (bareName name)).toList = isHandler (Text.lower name).toList := by
  unfold bareName
  split
  · split
    · rename_i hhandler
      rw [hhandler]
      decide
    · rename_i hhandler
      rw [Bool.eq_false_iff.mpr hhandler]
      split
      · decide
      · split <;> decide
  · rfl

theorem isUrlAttribute_bareName (name : String) :
    isUrlAttribute (bareName name) = isUrlAttribute name := by
  cases hcolon : name.toList.contains ':' with
  | false => rw [bareName_of_no_colon hcolon]
  | true =>
    rw [isUrlAttribute_of_colon hcolon,
      isUrlAttribute_of_colon (by rw [contains_bareName, hcolon]), bareName, if_pos hcolon]
    by_cases hhandler : isHandler (Text.lower name).toList = true
    · rw [if_pos hhandler]
      have hne : (Text.lower name == "xlink:href") = false := by
        rw [beq_eq_false_iff_ne]
        intro heq
        rw [heq] at hhandler
        exact absurd hhandler (by decide)
      rw [hne]
      decide
    · rw [if_neg hhandler]
      split
      · rename_i hlink
        rw [hlink]
        decide
      · rename_i hlink
        rw [Bool.eq_false_iff.mpr hlink]
        split <;> decide

theorem sameIgnoringCase_sets_bareName (name : String) :
    Text.sameIgnoringCase (bareName name) "xsl:use-attribute-sets" =
      Text.sameIgnoringCase name "xsl:use-attribute-sets" := by
  have hlower : Text.lower "xsl:use-attribute-sets" = "xsl:use-attribute-sets" := by decide
  unfold Text.sameIgnoringCase
  rw [hlower]
  unfold bareName
  split
  · split
    · rename_i hhandler
      have hne : (Text.lower name == "xsl:use-attribute-sets") = false := by
        rw [beq_eq_false_iff_ne]
        intro heq
        rw [heq] at hhandler
        exact absurd hhandler (by decide)
      rw [hne]
      decide
    · split
      · rename_i hlink
        rw [beq_iff_eq.mp hlink]
        decide
      · split
        · rename_i hsets
          rw [hsets]
          decide
        · rename_i hsets
          rw [Bool.eq_false_iff.mpr hsets]
          decide
  · rfl

/-- The bare name of an attribute is the same for the checks. -/
theorem sameName_bareName (name : String) : SameName name (bareName name) where
  handler := isHandler_bareName name
  url := isUrlAttribute_bareName name
  sought := by
    have hplain : ∀ key ∈ soughtAttributes,
        key.toList.contains ':' = false ∨ key = "xsl:use-attribute-sets" := by decide
    intro key hkey
    rcases hplain key hkey with hkey | rfl
    · exact sameIgnoringCase_bareName hkey name
    · exact sameIgnoringCase_sets_bareName name

/-! ## Values -/

theorem sameInstructionAttribute_bare (a : String × String) :
    SameInstructionAttribute a (bareInstructionName a.1, a.2) where
  name := by
    have hplain : ∀ key ∈ soughtInstructionAttributes, key.toList.contains ':' = false := by decide
    exact fun key hkey => bareInstructionName_beq (hplain key hkey) a.1
  value := rfl

theorem sameValue_bare (v : Value) : SameValue v v.bare := by
  cases v with
  | element e =>
    have hattributes : List.Forall₂ SameEntry e.attributes (bareAttributes e.attributes) :=
      List.forall₂_map_right_iff.mpr <|
        List.forall₂_same.mpr fun a _ => ⟨sameName_bareName a.1, rfl⟩
    exact .element ⟨rfl, hattributes⟩
  | instruction name attributes =>
    have hattributes : List.Forall₂ SameInstructionAttribute attributes
        (bareInstructionAttributes attributes) :=
      List.forall₂_map_right_iff.mpr <|
        List.forall₂_same.mpr fun a _ => sameInstructionAttribute_bare a
    exact .instruction hattributes name
  | _ => exact .refl _

theorem sameTree_bare (n : Node) : SameTree n n.bare := by
  induction n using Node.of_children with
  | step n ih =>
    obtain ⟨v, u, cs⟩ := n
    rw [Node.bare, Node.mapValues_mk]
    exact .node (sameValue_bare v) (SameTrees.map ih)

/-- A template is accepted exactly if its bare form is. -/
theorem accepts_bare (g : Grant) (template : Node) : accepts g template.bare = accepts g template :=
  accepts_same g (sameTree_bare template)

end Safety
end TagGrammar
