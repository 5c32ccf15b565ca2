/-
Names of made elements.

An instruction names the element it makes as it is written, with a prefix if it has one,
while a literal element goes by its local name.  So an instruction that makes an element
which the checks know by name is missed if the name has a prefix, and `accepts_local_name`
says that this is the only difference a prefix makes.
-/
import TagGrammar.Proofs.Safety.SameTrees

namespace TagGrammar

namespace Safety

/-- An element is made of its local name, whatever else its name is written with. -/
def setMadeName (name : String) (n : Node) : Node :=
  match n.value with
  | .dynamicElement _ namespaceName sets =>
    { n with value := .dynamicElement name namespaceName sets }
  | _ => n

/-- No check tells names apart that it does not know. -/
theorem sameMadeName_of_unknown {name name' : String} (hplain : ValueTemplate.IsPlain name)
    (hplain' : ValueTemplate.IsPlain name') (hunknown : Text.lower name ∉ knownElements)
    (hunknown' : Text.lower name' ∉ knownElements) : SameMadeName name name' := by
  refine .intro (ValueTemplate.literalText?_of_plain hplain)
    (ValueTemplate.literalText?_of_plain hplain') fun element helement => iff_of_false ?_ ?_
  · rintro rfl
    exact hunknown' helement
  · rintro rfl
    exact hunknown helement

/-- No name with a prefix is known. -/
theorem lower_not_mem_knownElements {name : String} (h : ':' ∈ name.toList) :
    Text.lower name ∉ knownElements := by
  have hplain : ∀ known ∈ knownElements, ':' ∉ known.toList := by decide
  intro hmem
  have hcolon : (Text.lower name).toList.contains ':' = true := by
    rw [Text.contains_colon_lower, List.contains_iff_mem]
    exact h
  exact hplain _ hmem (List.contains_iff_mem.mp hcolon)

/-- An element that an instruction makes under a name with a prefix is checked as one of
its local name if the checks do not know that name. -/
theorem accepts_local_name (g : Grant) {template n : Node} {path : Path}
    {lead name : String} {namespaceName sets : Option String}
    (hat : template.at? path = some n)
    (hvalue : n.value = .dynamicElement (lead ++ ":" ++ name) namespaceName sets)
    (hlead : ValueTemplate.IsPlain lead) (hname : ValueTemplate.IsPlain name)
    (hunknown : Text.lower name ∉ knownElements) :
    accepts g (template.modifyAt (setMadeName name) path) = accepts g template := by
  have hwritten : (lead ++ ":" ++ name).toList = lead.toList ++ ':' :: name.toList := by
    simp
  have hplain : ValueTemplate.IsPlain (lead ++ ":" ++ name) := by
    intro c hc
    rw [hwritten, List.mem_append, List.mem_cons] at hc
    rcases hc with hc | rfl | hc
    · exact hlead c hc
    · decide
    · exact hname c hc
  have hcolon : ':' ∈ (lead ++ ":" ++ name).toList := by
    rw [hwritten]
    exact List.mem_append_right _ List.mem_cons_self
  have hmade : SameMadeName (lead ++ ":" ++ name) name :=
    sameMadeName_of_unknown hplain hname (lower_not_mem_knownElements hcolon) hunknown
  have hsame : SameTree n (setMadeName name n) := by
    obtain ⟨v, u, cs⟩ := n
    obtain rfl : v = .dynamicElement (lead ++ ":" ++ name) namespaceName sets := hvalue
    exact .node (.dynamicElement hmade namespaceName sets) (.refl cs)
  exact accepts_same g (hsame.modifyAt hat)

/-- A tag with text and an address. -/
def pictureGrant : Grant where
  tag :=
    { name := ⟨"PICTURE"⟩
      attributes := .ofList [(⟨"text"⟩, { name := ⟨"text"⟩, type := .text }),
        (⟨"url"⟩, { name := ⟨"url"⟩, type := .url })] }
  lookup := FilterRegistry.default.lookup

/-- An element of a given name with an address, a name and text. -/
def madeElement (name : String) : Node where
  value := .dynamicElement name none none
  children :=
    [{ value := .attributeConstructor "src" none, children := [{ value := .insertion "@url" }] },
      { value := .attributeConstructor "name" none },
      { value := .insertion "@text" }]

def madeTemplate (name : String) : Node := { value := .root, children := [madeElement name] }

theorem accepts_local_name_circle :
    (madeTemplate ("svg" ++ ":" ++ "circle")).at? [0] =
        some (madeElement ("svg" ++ ":" ++ "circle")) ∧
      accepts pictureGrant
          ((madeTemplate ("svg" ++ ":" ++ "circle")).modifyAt (setMadeName "circle") [0]) =
        accepts pictureGrant (madeTemplate ("svg" ++ ":" ++ "circle")) :=
  ⟨rfl, accepts_local_name pictureGrant rfl rfl (by decide) (by decide) (by decide)⟩

/-- Each of the known names is missed behind a prefix. -/
theorem accepts_prefixed_of_known {name : String} (h : name ∈ knownElements) :
    accepts pictureGrant (madeTemplate ("svg:" ++ name)) = true ∧
      accepts pictureGrant ((madeTemplate ("svg:" ++ name)).modifyAt (setMadeName name) [0]) =
        false := by
  have hall : ∀ name ∈ knownElements,
      accepts pictureGrant (madeTemplate ("svg:" ++ name)) = true ∧
        accepts pictureGrant
          ((madeTemplate ("svg:" ++ name)).modifyAt (setMadeName name) [0]) = false := by
    decide +kernel
  exact hall name h

def scriptSource : String :=
  "<xsl:element name=\"svg:script\"><xsl:value-of select=\"@text\"/></xsl:element>"

theorem prefixed_script_accepted :
    ∃ template n, Template.parse false scriptSource = .ok template ∧
      template.at? [0] = some n ∧ n.value = .dynamicElement "svg:script" none none ∧
      accepts pictureGrant template = true ∧
      accepts pictureGrant (template.modifyAt (setMadeName "script") [0]) = false := by
  obtain ⟨template, hparse, htemplate⟩ := exists_ok_of_any (p := fun template =>
      (template.at? [0]).any (fun n => n.value == .dynamicElement "svg:script" none none) &&
        accepts pictureGrant template &&
          !accepts pictureGrant (template.modifyAt (setMadeName "script") [0]))
    (x := Template.parse false scriptSource) (by decide +kernel)
  simp only [Bool.and_eq_true, Bool.not_eq_true'] at htemplate
  obtain ⟨⟨hat, haccepts⟩, hlocal⟩ := htemplate
  obtain ⟨n, hn, hvalue⟩ := (Option.any_eq_true _ _).mp hat
  exact ⟨template, n, hparse, hn, eq_of_beq hvalue, haccepts, hlocal⟩

end Safety
end TagGrammar
