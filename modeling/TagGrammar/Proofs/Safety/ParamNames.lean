/-
Names of parameters are never made up when the template runs.

What a parameter means depends on its name, so the name has to be written.  An instruction
may make an attribute of the element around it (`MayMake`) or copy one to it (`Copies`).
The check refuses the first for the name of a parameter and not the second, which is all
that is missing for `accepted_param_names`.
-/
import TagGrammar.Proofs.Safety.FixedUrl
import TagGrammar.Proofs.Safety.Flow

namespace TagGrammar

/-- The name of the attribute that is copied, if it is known. -/
def Value.copiedName? : Value → Option String
  | copyOf select =>
    match XPath.Expr.parse select with
    | .ok e => e.asAttribute?
    | .error _ => none
  | _ => none

/-- The nearest element or made attribute around a visited node. -/
def Visit.holder? (visit : Visit) : Option Visit :=
  visit.above.find? fun a => a.node.value.makesElement || a.node.value.makesAttribute

namespace Safety

/-! ## Attributes that instructions give an element -/

/-- An instruction may make an attribute of a name for an element: it makes one for it and
is not known to give it another name. -/
def MayMake (owner inner : Visit) (name : String) : Prop :=
  inner.owner? = some owner ∧ ∃ written namespaceName,
    inner.node.value = .attributeConstructor written namespaceName ∧
      ∀ made, ValueTemplate.literalText? written = some made →
        Text.sameIgnoringCase made name = true

/-- An attribute of a name is copied to an element.  Inside an attribute that is being made
only its value is copied. -/
def Copies (owner inner : Visit) (name : String) : Prop :=
  inner.holder? = some owner ∧ owner.node.value.makesElement = true ∧
    ∃ copied, inner.node.value.copiedName? = some copied ∧
      Text.sameIgnoringCase copied name = true

/-- Whatever is copied is an attribute of a known name. -/
def CopiesKnown (template : Node) : Prop :=
  ∀ inner ∈ template.content, Reached inner.around → ∀ select,
    inner.node.value = .copyOf select → ∃ name, inner.node.value.copiedName? = some name

theorem owner?_ancestors (visit : Visit) :
    owner? visit.ancestors = visit.owner?.map Visit.node := by
  rw [owner?, ← Visit.map_node_above, List.find?_map]
  rfl

theorem ownerName_of_owner? {inner owner : Visit} (h : inner.owner? = some owner) :
    ownerName inner.ancestors = owner.node.value.madeName := by
  rw [ownerName, owner?_ancestors, h]
  rfl

/-- The first check passes exactly the templates in which every node is judged safe by
itself. -/
theorem structureViolation?_eq_none_iff {template : Node} :
    structureViolation? template = none ↔ ∀ visit ∈ template.visits,
      visit.node.disablesEscaping = false ∧
        valueHazard? visit.ancestors visit.node.value = none := by
  have hnode : ∀ visit : Visit, structureHazard? visit = none ↔
      visit.node.disablesEscaping = false ∧
        valueHazard? visit.ancestors visit.node.value = none := by
    intro visit
    unfold structureHazard?
    cases visit.node.disablesEscaping <;> simp
  simp only [structureViolation?, List.findSome?_eq_none_iff, Option.map_eq_none_iff, hnode]

section Accepted

variable {g : Grant} {template : Node} (h : accepts g template = true)

include h

theorem structureHazard?_of_accepts {visit : Visit} (hvisit : visit ∈ template.visits) :
    visit.node.disablesEscaping = false ∧
      valueHazard? visit.ancestors visit.node.value = none :=
  structureViolation?_eq_none_iff.mp ((accepts_iff g template).mp h).1 visit hvisit

/-- The names of made attributes are known, and none of them is that of a parameter. -/
theorem exists_made_of_accepts {visit : Visit} (hvisit : visit ∈ template.visits)
    {written : String} {namespaceName : Option String}
    (hvalue : visit.node.value = .attributeConstructor written namespaceName) :
    ∃ made, ValueTemplate.literalText? written = some made ∧
      (ownerName visit.ancestors = "param" → Text.sameIgnoringCase made "name" = false) := by
  have hnone := (structureHazard?_of_accepts h hvisit).2
  rw [hvalue, valueHazard?, constructorHazard?] at hnone
  split at hnone
  · cases hnone
  · rename_i made hmade
    refine ⟨made, hmade, fun hparam => ?_⟩
    by_contra hname
    simp [hparam, hname] at hnone

theorem copiesKnown_of_accepts : CopiesKnown template := by
  intro inner hinner hreached select hvalue
  have hsafe := flowViolation?_eq_none_iff.mp ((accepts_iff g template).mp h).2.2.2.2 inner hinner
    hreached
  rw [PlaceSafe, hvalue] at hsafe
  obtain ⟨e, name, he, hname, -⟩ := hsafe
  exact ⟨name, by rw [hvalue, Value.copiedName?, he]; exact hname⟩

end Accepted

/-! ## Parameters -/

/-- A parameter, written or made. -/
def IsParam (visit : Visit) : Prop := visit.node.value.madeName? = some "param"

/-- Names of parameters are written without an expression and are not made. -/
structure ParamNamesWritten (template : Node) : Prop where
  written : ∀ visit ∈ template.visits, IsParam visit → ∀ name,
    visit.node.value.paramName? = some name →
      ∃ parts, ValueTemplate.parse name = .ok parts ∧ ValueTemplate.expressions parts = []
  made : ∀ visit ∈ template.visits, IsParam visit → ∀ inner ∈ template.visits,
    ¬MayMake visit inner "name"

/-- Names of parameters are not made up when the template runs. -/
structure ParamNamesFixed (template : Node) : Prop extends ParamNamesWritten template where
  copied : ∀ visit ∈ template.visits, IsParam visit → ∀ inner ∈ template.visits,
    ¬Copies visit inner "name"

theorem exists_parts_of_literalText? {source text : String}
    (h : ValueTemplate.literalText? source = some text) :
    ∃ parts, ValueTemplate.parse source = .ok parts ∧ ValueTemplate.expressions parts = [] := by
  unfold ValueTemplate.literalText? at h
  split at h
  · cases h
  · rename_i parts hparts
    split at h
    · rename_i hliteral
      exact ⟨parts, hparts, expressions_eq_nil hliteral⟩
    · cases h

theorem paramNamesWritten_of_accepts {g : Grant} {template : Node}
    (h : accepts g template = true) : ParamNamesWritten template := by
  constructor
  case written =>
    intro visit hvisit hparam name hname
    obtain ⟨e, he, hget⟩ := Option.bind_eq_some_iff.mp hname
    have hvalue : visit.node.value = .element e := by
      cases hv : visit.node.value <;> rw [hv] at he <;> cases he
      rfl
    have hlower : Text.lower e.name = "param" := by
      rw [IsParam, hvalue] at hparam
      exact Option.some.inj hparam
    have hnone := (structureHazard?_of_accepts h hvisit).2
    rw [hvalue, valueHazard?, elementHazard?] at hnone
    cases hliteral : ValueTemplate.literalText? name with
    | some text => exact exists_parts_of_literalText? hliteral
    | none =>
      split at hnone
      · cases hnone
      · simp [hlower, hget, hliteral] at hnone
  case made =>
    rintro visit hvisit hparam inner hinner ⟨howner, written, namespaceName, hvalue, hname⟩
    obtain ⟨made, hmade, hother⟩ := exists_made_of_accepts h hinner hvalue
    have hnameParam : ownerName inner.ancestors = "param" := by
      rw [ownerName_of_owner? howner, Value.madeName, hparam]
      rfl
    rw [hname made hmade] at hother
    cases hother hnameParam

/-- In an accepted template the names of parameters are written without an expression and
no instruction makes them.  They are fixed exactly if none is copied. -/
theorem accepted_param_names {g : Grant} {template : Node} (h : accepts g template = true) :
    ParamNamesWritten template ∧ CopiesKnown template ∧
      (ParamNamesFixed template ↔ ∀ visit ∈ template.visits, IsParam visit →
        ∀ inner ∈ template.visits, ¬Copies visit inner "name") :=
  have hwritten := paramNamesWritten_of_accepts h
  ⟨hwritten, copiesKnown_of_accepts h, ParamNamesFixed.copied, fun hcopied => ⟨hwritten, hcopied⟩⟩

/-- A tag with a name and an address. -/
def movieGrant : Grant where
  tag :=
    { name := ⟨"MOVIE"⟩
      attributes := .ofList [(⟨"name"⟩, { name := ⟨"name"⟩, type := .text }),
        (⟨"url"⟩, { name := ⟨"url"⟩, type := .text })] }
  lookup := FilterRegistry.default.lookup

/-- The name goes to the parameter as its title and to an element in it as its name. -/
def titledParamSource : String :=
  "<object><param name=\"wmode\" value=\"{@url}\"><xsl:if test=\"@url\">" ++
    "<xsl:attribute name=\"title\"><xsl:copy-of select=\"@name\"/></xsl:attribute>" ++
    "<i><xsl:copy-of select=\"@name\"/></i></xsl:if></param></object>"

theorem accepted_param_names_titled :
    ∃ template, Template.parse false titledParamSource = .ok template ∧
      accepts movieGrant template = true ∧ ParamNamesFixed template := by
  obtain ⟨template, hparse, h⟩ := exists_ok_of_any (p := fun template =>
      accepts movieGrant template && template.visits.all fun inner =>
        inner.node.value.copiedName?.isNone ||
          inner.holder?.any fun holder => holder.node.value.madeName? != some "param")
    (x := Template.parse false titledParamSource) (by decide +kernel)
  simp only [Bool.and_eq_true, List.all_eq_true] at h
  obtain ⟨haccepts, hcopies⟩ := h
  refine ⟨template, hparse, haccepts, (accepted_param_names haccepts).2.2.mpr ?_⟩
  rintro visit _ hparam inner hinner ⟨hholder, -, copied, hcopied, -⟩
  have hother := hcopies inner hinner
  rw [hcopied, hholder, Option.any_some, hparam] at hother
  cases hother

/-- The name of the parameter is what the user writes, and so is its value. -/
def copiedParamSource : String :=
  "<object><param value=\"{@url}\"><xsl:copy-of select=\"@name\"/></param></object>"

theorem copied_param_name_accepted :
    ∃ template, Template.parse false copiedParamSource = .ok template ∧
      accepts movieGrant template = true ∧ ¬ParamNamesFixed template := by
  obtain ⟨template, hparse, h⟩ := exists_ok_of_any (p := fun template =>
      accepts movieGrant template && template.visits.any fun inner =>
        inner.node.value.copiedName? == some "name" &&
          inner.holder?.any fun holder => holder.node.value.makesElement &&
            holder.node.value.madeName? == some "param")
    (x := Template.parse false copiedParamSource) (by decide +kernel)
  simp only [Bool.and_eq_true, List.any_eq_true, Option.any_eq_true, beq_iff_eq] at h
  obtain ⟨haccepts, inner, hinner, hcopied, visit, hholder, helement, hparam⟩ := h
  refine ⟨template, hparse, haccepts, fun hfixed => ?_⟩
  have hvisit : visit ∈ template.visits :=
    (Node.mem_of_mem_above hinner (List.mem_of_find?_eq_some hholder)).1
  exact hfixed.copied visit hvisit hparam inner hinner
    ⟨hholder, helement, "name", hcopied, Text.sameIgnoringCase_refl "name"⟩

end Safety
end TagGrammar
