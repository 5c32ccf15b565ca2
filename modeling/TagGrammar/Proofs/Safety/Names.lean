/-
Names that no check tells apart.

The checks look for a few elements and attributes by name and tell how other names of
attributes begin.  Two values are the same for them (`SameValue`) if they differ in names alone
and what is looked for in one is in the other: then all that is read of the one is read of the
other as well.
-/
import Mathlib.Data.List.Forall2
import TagGrammar.Proofs.Safety.ParamNames
import TagGrammar.Proofs.ValueTemplate

namespace TagGrammar

namespace Text

theorem contains_colon_lower (s : String) :
    (lower s).toList.contains ':' = s.toList.contains ':' := by
  rw [Bool.eq_iff_iff, List.contains_iff_mem, List.contains_iff_mem, toList_lower, List.mem_map]
  constructor
  · rintro ⟨c, hc, hlower⟩
    exact (toLower_eq_iff (by decide)).mp hlower ▸ hc
  · intro h
    exact ⟨':', h, rfl⟩

/-- A name with a prefix is no name without one, in any case. -/
theorem sameIgnoringCase_of_colon {a b : String} (ha : a.toList.contains ':' = true)
    (hb : b.toList.contains ':' = false) : sameIgnoringCase a b = false := by
  refine Bool.eq_false_iff.mpr fun h => ?_
  have hlower : lower a = lower b := by simpa [sameIgnoringCase] using h
  rw [← contains_colon_lower, hlower, contains_colon_lower, hb] at ha
  cases ha

end Text

theorem Value.madeName_eq_iff {name : String} (hname : name ≠ "") {v : Value} :
    v.madeName = name ↔ v.madeName? = some name := by
  unfold madeName
  cases v.madeName? with
  | some made => rw [Option.getD_some, Option.some.injEq]
  | none => exact iff_of_false (Ne.symm hname) (by simp)

namespace Safety

/-- The same is asked of two lists if it is of each two of their members. -/
theorem forall_mem_iff_of_forall₂ {α β : Type} {r : α → β → Prop} {p : α → Prop} {q : β → Prop}
    (hpq : ∀ a b, r a b → (q b ↔ p a)) {l : List α} {l' : List β} (h : List.Forall₂ r l l') :
    (∀ b ∈ l', q b) ↔ ∀ a ∈ l, p a := by
  induction h with
  | nil => simp
  | cons hab _ ih => rw [List.forall_mem_cons, List.forall_mem_cons, hpq _ _ hab, ih]

theorem any_eq_of_forall₂ {α β : Type} {r : α → β → Prop} {p : α → Bool} {q : β → Bool}
    (hpq : ∀ a b, r a b → q b = p a) {l : List α} {l' : List β} (h : List.Forall₂ r l l') :
    l'.any q = l.any p := by
  induction h with
  | nil => rfl
  | cons hab _ ih => rw [List.any_cons, List.any_cons, hpq _ _ hab, ih]

theorem rel_find? {α β : Type} {r : α → β → Prop} {p : α → Bool} {q : β → Bool}
    (hpq : ∀ a b, r a b → q b = p a) {l : List α} {l' : List β} (h : List.Forall₂ r l l') :
    Option.Rel r (l.find? p) (l'.find? q) := by
  induction h with
  | nil => exact .none
  | @cons a b l l' hab _ ih =>
    rw [List.find?_cons, List.find?_cons, hpq a b hab]
    cases p a with
    | true => exact .some hab
    | false => exact ih

theorem optionRel_refl {α : Type} {r : α → α → Prop} (h : ∀ a, r a a) (o : Option α) :
    Option.Rel r o o := by
  cases o with
  | none => exact .none
  | some a => exact .some (h a)

/-! ## Names of attributes -/

/-- The one address whose name has a prefix is that of a link. -/
theorem isUrlAttribute_of_colon {name : String} (h : name.toList.contains ':' = true) :
    isUrlAttribute name = (Text.lower name == "xlink:href") := by
  have honly : ∀ s ∈ urlAttributes, s.toList.contains ':' = true → s = "xlink:href" := by decide
  rw [Bool.eq_iff_iff, isUrlAttribute, List.contains_iff_mem, beq_iff_eq]
  constructor
  · intro hmem
    exact honly _ hmem (by rw [Text.contains_colon_lower, h])
  · intro heq
    rw [heq]
    decide

/-- An attribute that is kept under the lead of the instruction namespace is no sink. -/
theorem attributeSink?_of_isInstructionAttribute {element name : String} {param : Option String}
    (h : isInstructionAttribute name = true) : attributeSink? element name param = none := by
  obtain ⟨rest, hrest⟩ := List.isPrefixOf_iff_prefix.mp h
  have hlower : (Text.lower name).toList = "xsl:".toList ++ rest.map Char.toLower := by
    rw [Text.toList_lower, ← hrest, List.map_append]
    rfl
  have hcolon : (Text.lower name).toList.contains ':' = true := by
    rw [hlower]
    simp
  have hcolon' : name.toList.contains ':' = true := by rwa [Text.contains_colon_lower] at hcolon
  have hhandler : isHandler (Text.lower name).toList = false := by
    rw [hlower]
    rfl
  have hstyle : (Text.lower name == "style") = false :=
    Text.sameIgnoringCase_of_colon (b := "style") hcolon' (by decide)
  have hurl : isUrlAttribute (Text.lower name) = false := by
    rw [isUrlAttribute_of_colon hcolon, Text.lower_lower, beq_eq_false_iff_ne]
    intro heq
    rw [heq] at hlower
    simp at hlower
  have hvalue : Text.sameIgnoringCase (Text.lower name) "value" = false :=
    Text.sameIgnoringCase_of_colon hcolon (by decide)
  simp [attributeSink?, hhandler, hstyle, hurl, isUrlParamValue, hvalue]

/-- The attributes that a check looks for by name, in any case. -/
def soughtAttributes : List String :=
  ["name", "value", "style", "allowscriptaccess", "disable-output-escaping",
   "use-attribute-sets", "xsl:use-attribute-sets"]

/-- Two names of attributes that no check tells apart. -/
structure SameName (name name' : String) : Prop where
  handler : isHandler (Text.lower name').toList = isHandler (Text.lower name).toList
  url : isUrlAttribute name' = isUrlAttribute name
  sought : ∀ key ∈ soughtAttributes,
    Text.sameIgnoringCase name' key = Text.sameIgnoringCase name key

namespace SameName

variable {name name' : String}

theorem of_lower (h : Text.lower name' = Text.lower name) : SameName name name' where
  handler := by rw [h]
  url := congrArg urlAttributes.contains h
  sought := fun key _ => Text.sameIgnoringCase_congr h key

theorem refl (name : String) : SameName name name := of_lower rfl

variable (h : SameName name name')

include h

theorem attributeSink? (element : String) (param : Option String) :
    attributeSink? element name' param = attributeSink? element name param := by
  have hstyle : (Text.lower name' == "style") = (Text.lower name == "style") :=
    h.sought "style" (by decide)
  have hurl : isUrlAttribute (Text.lower name') = isUrlAttribute (Text.lower name) := by
    rw [isUrlAttribute, Text.lower_lower, isUrlAttribute, Text.lower_lower]
    exact h.url
  have hvalue : Text.sameIgnoringCase (Text.lower name') "value" =
      Text.sameIgnoringCase (Text.lower name) "value" := by
    rw [Text.sameIgnoringCase_congr (Text.lower_lower name'),
      Text.sameIgnoringCase_congr (Text.lower_lower name), h.sought "value" (by decide)]
  unfold Safety.attributeSink? isUrlParamValue
  dsimp only
  rw [h.handler, hstyle, hurl, hvalue]

theorem contains (attributes : FixedAttributes) (param : Option String) :
    attributes.contains param name' = attributes.contains param name := by
  cases attributes with
  | urls => exact h.url
  | paramValue =>
    rw [FixedAttributes.contains, isUrlParamValue, h.sought "value" (by decide),
      FixedAttributes.contains, isUrlParamValue]

end SameName

/-- Something that goes by the name of an attribute, with a name that is the same for the
checks. -/
structure SameEntry {α : Type} (a a' : String × α) : Prop where
  name : SameName a.1 a'.1
  value : a'.2 = a.2

theorem SameEntry.refl {α : Type} (a : String × α) : SameEntry a a := ⟨.refl a.1, rfl⟩

/-! ## Elements -/

/-- The elements that a check knows by name. -/
def knownElements : List String := ["embed", "iframe", "object", "param", "script", "style"]

/-- A literal element with attributes that are the same for the checks. -/
structure SameElement (e e' : Element) : Prop where
  name : Text.lower e'.name = Text.lower e.name
  attributes : List.Forall₂ SameEntry e.attributes e'.attributes

namespace SameElement

theorem refl (e : Element) : SameElement e e where
  name := rfl
  attributes := List.forall₂_same.mpr fun a _ => .refl a

variable {e e' : Element} (h : SameElement e e')

include h

theorem get? {key : String} (hkey : key ∈ soughtAttributes) : e'.get? key = e.get? key := by
  have hfound := rel_find? (p := fun a => Text.sameIgnoringCase a.1 key)
    (q := fun a => Text.sameIgnoringCase a.1 key) (fun _ _ ha => ha.name.sought key hkey)
    h.attributes
  unfold Element.get?
  generalize e.attributes.find? _ = o, e'.attributes.find? _ = o' at hfound ⊢
  cases hfound with
  | none => rfl
  | some ha => exact congrArg some ha.value

theorem elementHazard? : elementHazard? e' = elementHazard? e := by
  rw [Safety.elementHazard?, h.get? (by decide), h.get? (by decide), h.get? (by decide), h.name,
    Safety.elementHazard?]

end SameElement

/-- Two literal names under which an instruction makes the same known element, or an unknown
one. -/
inductive SameMadeName (name name' : String) : Prop where
  | intro {text text' : String} (literal : ValueTemplate.literalText? name = some text)
      (literal' : ValueTemplate.literalText? name' = some text')
      (known : ∀ element ∈ knownElements, Text.lower text' = element ↔ Text.lower text = element)

/-! ## Values -/

/-- The attributes of an unspecified instruction that a check looks for by name. -/
def soughtInstructionAttributes : List String :=
  "disable-output-escaping" :: "use-attribute-sets" :: Value.expressionAttributes

/-- An attribute of an unspecified instruction, with a name that is the same for the checks. -/
structure SameInstructionAttribute (a a' : String × String) : Prop where
  name : ∀ key ∈ soughtInstructionAttributes, (a'.1 == key) = (a.1 == key)
  value : a'.2 = a.2

theorem SameInstructionAttribute.holdsExpression {a a' : String × String}
    (h : SameInstructionAttribute a a') :
    Value.expressionAttributes.contains a'.1 = Value.expressionAttributes.contains a.1 := by
  rw [Bool.eq_iff_iff, List.contains_iff_exists_mem_beq, List.contains_iff_exists_mem_beq]
  refine exists_congr fun key => and_congr_right fun hkey => ?_
  rw [h.name key (List.mem_cons_of_mem _ (List.mem_cons_of_mem _ hkey))]

/-- Two values that differ in names alone, in none that a check looks for.  A name that an
instruction gives has no braces in either. -/
inductive SameValue : Value → Value → Prop where
  | refl (v : Value) : SameValue v v
  | element {e e' : Element} (h : SameElement e e') : SameValue (.element e) (.element e')
  | dynamicElement {name name' : String} (h : SameMadeName name name')
      (namespaceName sets : Option String) :
      SameValue (.dynamicElement name namespaceName sets)
        (.dynamicElement name' namespaceName sets)
  | attributeConstructor {name name' : String} (hname : ValueTemplate.IsPlain name)
      (hname' : ValueTemplate.IsPlain name') (h : SameName name name')
      (namespaceName : Option String) :
      SameValue (.attributeConstructor name namespaceName)
        (.attributeConstructor name' namespaceName)
  | processingInstructionConstructor {name name' : String} (hname : ValueTemplate.IsPlain name)
      (hname' : ValueTemplate.IsPlain name')
      (h : isPhp (Text.trim name') = isPhp (Text.trim name)) :
      SameValue (.processingInstructionConstructor name) (.processingInstructionConstructor name')
  | instruction {attributes attributes' : List (String × String)}
      (h : List.Forall₂ SameInstructionAttribute attributes attributes') (name : String) :
      SameValue (.instruction name attributes) (.instruction name attributes')

/-- A literal name holds no expression. -/
theorem siteHazard?_of_literal {name text : String}
    (h : ValueTemplate.literalText? name = some text) (holder : String) :
    siteHazard? ⟨.valueTemplate, holder, name⟩ = none := by
  obtain ⟨parts, hparse, hexpressions⟩ := exists_parts_of_literalText? h
  unfold siteHazard?
  simp only [hparse, hexpressions, List.findSome?_nil]

theorem forall_mem_nameSites {name name' text text' : String}
    (h : ValueTemplate.literalText? name = some text)
    (h' : ValueTemplate.literalText? name' = some text') (namespaceName : Option String) :
    (∀ site ∈ Value.nameSites name' namespaceName, siteHazard? site = none) ↔
      ∀ site ∈ Value.nameSites name namespaceName, siteHazard? site = none := by
  rw [Value.nameSites, List.forall_mem_cons, Value.nameSites, List.forall_mem_cons,
    siteHazard?_of_literal h, siteHazard?_of_literal h']

theorem madeName?_of_literal {name text : String}
    (h : ValueTemplate.literalText? name = some text) (namespaceName sets : Option String) :
    (Value.dynamicElement name namespaceName sets).madeName? = some (Text.lower text) := by
  rw [Value.madeName?, h, Option.map_some]

/-- Two values that make the same known element, if they make one. -/
def MakesSame (v v' : Value) : Prop :=
  ∀ element ∈ knownElements, v'.madeName? = some element ↔ v.madeName? = some element

namespace MakesSame

variable {v v' : Value} (h : MakesSame v v')

include h

theorem madeName_eq_iff {element : String} (hknown : element ∈ knownElements) :
    v'.madeName = element ↔ v.madeName = element := by
  have hne : element ≠ "" := by
    rintro rfl
    exact absurd hknown (by decide)
  rw [Value.madeName_eq_iff hne, Value.madeName_eq_iff hne, h element hknown]

theorem madeName_beq {element : String} (hknown : element ∈ knownElements) :
    (v'.madeName == element) = (v.madeName == element) := by
  rw [Bool.eq_iff_iff, beq_iff_eq, beq_iff_eq, h.madeName_eq_iff hknown]

/-- The name is the same unless no check knows either. -/
theorem madeName_cases :
    v'.madeName = v.madeName ∨ v'.madeName ∉ knownElements ∧ v.madeName ∉ knownElements := by
  by_cases hknown : v.madeName ∈ knownElements
  · exact .inl ((h.madeName_eq_iff hknown).mpr rfl)
  · by_cases hknown' : v'.madeName ∈ knownElements
    · exact .inl ((h.madeName_eq_iff hknown').mp rfl).symm
    · exact .inr ⟨hknown', hknown⟩

theorem elementSink? : elementSink? v'.madeName = elementSink? v.madeName := by
  unfold Safety.elementSink?
  rw [h.madeName_beq (by decide), h.madeName_beq (by decide)]

end MakesSame

namespace SameValue

variable {v v' : Value} (h : SameValue v v')

include h

theorem makesElement : v'.makesElement = v.makesElement := by
  cases h <;> rfl

theorem asElement? : Option.Rel SameElement v.asElement? v'.asElement? := by
  cases h with
  | element h => exact .some h
  | refl => exact optionRel_refl SameElement.refl v.asElement?
  | _ => exact .none

theorem paramName? : v'.paramName? = v.paramName? := by
  have helement := h.asElement?
  unfold Value.paramName?
  generalize v.asElement? = o, v'.asElement? = o' at helement
  cases helement with
  | none => rfl
  | some h => exact h.get? (by decide)

theorem makesSame : MakesSame v v' := by
  intro element hknown
  cases h with
  | element h => rw [Value.madeName?, h.name, Value.madeName?]
  | dynamicElement h namespaceName sets =>
    obtain ⟨hliteral, hliteral', hsame⟩ := h
    rw [madeName?_of_literal hliteral, madeName?_of_literal hliteral', Option.some.injEq,
      Option.some.injEq]
    exact hsame element hknown
  | _ => exact Iff.rfl

/-- The names of the attributes that hold the expressions do not matter. -/
theorem forall_mem_expressionSites :
    (∀ site ∈ v'.expressionSites, siteHazard? site = none) ↔
      ∀ site ∈ v.expressionSites, siteHazard? site = none := by
  cases h with
  | refl => exact Iff.rfl
  | element h =>
    rw [Value.expressionSites, List.forall_mem_map, Value.expressionSites, List.forall_mem_map]
    refine forall_mem_iff_of_forall₂ (fun a a' ha => ?_) h.attributes
    rw [siteHazard?, ha.value, siteHazard?]
  | dynamicElement h namespaceName sets =>
    obtain ⟨hliteral, hliteral', -⟩ := h
    exact forall_mem_nameSites hliteral hliteral' namespaceName
  | attributeConstructor hname hname' _ namespaceName =>
    exact forall_mem_nameSites (ValueTemplate.literalText?_of_plain hname)
      (ValueTemplate.literalText?_of_plain hname') namespaceName
  | processingInstructionConstructor hname hname' _ =>
    exact forall_mem_nameSites (ValueTemplate.literalText?_of_plain hname)
      (ValueTemplate.literalText?_of_plain hname') none
  | instruction h name =>
    rw [Value.expressionSites, List.forall_mem_map, Value.expressionSites, List.forall_mem_map]
    refine forall_mem_iff_of_forall₂ (fun a a' ha => ?_) h
    rw [ha.holdsExpression, siteHazard?, ha.value, siteHazard?]

theorem disablesEscaping {u : Bool} {cs cs' : List Node} :
    Node.disablesEscaping ⟨v', u, cs'⟩ = Node.disablesEscaping ⟨v, u, cs⟩ := by
  cases h with
  | refl => rfl
  | element h => exact congrArg Option.isSome (h.get? (by decide))
  | instruction h name => exact any_eq_of_forall₂ (fun a a' ha => ha.name _ (by decide)) h
  | _ => rfl

end SameValue

end Safety
end TagGrammar
