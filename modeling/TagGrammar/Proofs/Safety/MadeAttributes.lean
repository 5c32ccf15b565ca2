/-
Attributes that are written and attributes that are made.

An element has an attribute because it is written there or because an instruction in the
element makes it.  If the content of the instruction is the parts of the written value one
by one (`Node.makeAttribute`), nothing else changes for the element, and the checks, which
go different ways to judge the two, have to agree: `accepts_makeAttribute`.

Left out are the names that a check looks for in one of the two forms only.  In one of the
`judgedElements` an address that is made has to be constant, and one that is written may go
on with an expression.  The `judgedAttributes` are looked up in any case, and so
`xsl:use-attribute-sets` is one of them: in capitals it is no attribute of an instruction.

The proof compares the two templates place by place.  The element and the instruction
together are asked what the element was (`placeAccepted_erase_iff`), nodes around them are
`Kept`, and to nodes inside the two elements are `Alike`.
-/
import TagGrammar.Proofs.Safety.SameTrees

namespace TagGrammar

namespace Element

variable {name value : String}

theorem find?_eraseIn {other : String} (h : Text.sameIgnoringCase name other = false)
    (l : List (String × String)) :
    (eraseIn name l).find? (fun a => Text.sameIgnoringCase a.1 other) =
      l.find? fun a => Text.sameIgnoringCase a.1 other := by
  induction l with
  | nil => rfl
  | cons a rest ih =>
    rw [eraseIn, List.find?_cons]
    by_cases ha : Text.sameIgnoringCase a.1 name = true
    · have hlower : Text.lower a.1 = Text.lower name := eq_of_beq ha
      have hother : Text.sameIgnoringCase a.1 other = false := by
        rw [← h, Text.sameIgnoringCase, hlower, Text.sameIgnoringCase]
      rw [if_pos ha, hother]
    · rw [if_neg ha, List.find?_cons, ih]

theorem get?_erase (e : Element) {other : String} (h : Text.sameIgnoringCase name other = false) :
    (e.erase name).get? other = e.get? other :=
  congrArg (Option.map Prod.snd) (find?_eraseIn h e.attributes)

/-- If an attribute is there once, the others are left when it is taken out. -/
theorem mem_iff_mem_eraseIn {l : List (String × String)} (hmem : (name, value) ∈ l)
    (honce : l.countP (fun a => Text.sameIgnoringCase a.1 name) = 1) (a : String × String) :
    a ∈ l ↔ a = (name, value) ∨ a ∈ eraseIn name l := by
  induction l with
  | nil => exact absurd hmem List.not_mem_nil
  | cons b rest ih =>
    rw [eraseIn, List.mem_cons]
    by_cases hb : Text.sameIgnoringCase b.1 name = true
    · rw [List.countP_cons, if_pos hb, Nat.add_eq_right, List.countP_eq_zero] at honce
      have hrest : (name, value) ∉ rest :=
        fun h => honce (name, value) h (Text.sameIgnoringCase_refl name)
      obtain rfl : (name, value) = b := (List.mem_cons.mp hmem).resolve_right hrest
      rw [if_pos hb]
    · have hne : (name, value) ≠ b := by
        rintro rfl
        exact hb (Text.sameIgnoringCase_refl name)
      rw [List.countP_cons, if_neg hb, Nat.add_zero] at honce
      rw [if_neg hb, ih ((List.mem_cons.mp hmem).resolve_left hne) honce, List.mem_cons]
      exact or_left_comm

end Element

/-- A part of a value as the node that writes it. -/
def ValuePart.node : ValuePart → Node
  | literal text => { value := .plainText text }
  | expression source => { value := .insertion source }

namespace Node

/-- The instruction that makes an attribute of the parts of its value. -/
def attributeMaker (name : String) (parts : List ValuePart) : Node :=
  { value := .attributeConstructor name none, children := parts.map ValuePart.node }

/-- Take an attribute from an element and let an instruction make it before the content. -/
def makeAttribute (name : String) (parts : List ValuePart) (n : Node) : Node :=
  match n.value with
  | .element e =>
    { n with value := .element (e.erase name), children := attributeMaker name parts :: n.children }
  | _ => n

end Node

namespace Safety

/-- The elements that are judged by how their attributes come about. -/
def judgedElements : List String := ["embed", "iframe", "object", "script", "param"]

/-- The attributes that are judged by their name alone where they are written or where they
are made. -/
def judgedAttributes : List String :=
  ["use-attribute-sets", "xsl:use-attribute-sets", "disable-output-escaping",
   "allowscriptaccess", "value"]

/-- An attribute that may be made as well as written. -/
structure Movable (e : Element) (name value : String) (parts : List ValuePart) : Prop where
  mem : (name, value) ∈ e.attributes
  once : e.attributes.countP (fun a => Text.sameIgnoringCase a.1 name) = 1
  parts : ValueTemplate.parse value = .ok parts
  plain : ValueTemplate.IsPlain name
  literal : isInstructionAttribute name = false
  name : Text.lower name ∉ judgedAttributes
  element : Text.lower e.name ∉ judgedElements

/-- In one tree an attribute is written that is made in another one. -/
inductive Moved (name : String) (parts : List ValuePart) : Node → Node → Prop
  | here {e : Element} {value : String} (h : Movable e name value parts) (u : Bool)
      (cs : List Node) :
      Moved name parts ⟨.element e, u, cs⟩
        ⟨.element (e.erase name), u, Node.attributeMaker name parts :: cs⟩
  | inside {c c' : Node} (h : Moved name parts c c') (v : Value) (u : Bool)
      (before after : List Node) :
      Moved name parts ⟨v, u, before ++ c :: after⟩ ⟨v, u, before ++ c' :: after⟩

theorem moved_modifyAt {template n : Node} {path : Path} {e : Element} {name value : String}
    {parts : List ValuePart} (hat : template.at? path = some n) (hvalue : n.value = .element e)
    (h : Movable e name value parts) :
    Moved name parts template (template.modifyAt (Node.makeAttribute name parts) path) := by
  induction path generalizing template with
  | nil =>
    obtain rfl : template = n := Option.some.inj hat
    obtain ⟨v, u, cs⟩ := template
    obtain rfl : v = .element e := hvalue
    exact Moved.here h u cs
  | cons i rest ih =>
    obtain ⟨v, u, cs⟩ := template
    obtain ⟨before, c, after, rfl, hc, hmodify⟩ :=
      modifyAt_cons_cases hat (Node.makeAttribute name parts)
    rw [hmodify]
    exact Moved.inside (ih hc) v u before after

/-! ## What the nodes around see of it -/

/-- A node that is neither a movie nor an object grants nothing. -/
theorem grantsAtMost_of_ne {n : Node} {most : ScriptAccess}
    (hembed : n.value.madeName? ≠ some "embed") (hobject : n.value.madeName? ≠ some "object") :
    GrantsAtMost most n :=
  ⟨fun h => absurd h hembed, fun h => absurd h hobject⟩

theorem grantsAtMost_of_not_makesElement {n : Node} {most : ScriptAccess}
    (h : n.value.makesElement = false) : GrantsAtMost most n := by
  have hnone : n.value.madeName? = none := by
    cases hvalue : n.value <;> first | rfl | exact absurd (hvalue ▸ h) (by simp [Value.makesElement])
  exact grantsAtMost_of_ne (by simp [hnone]) (by simp [hnone])

theorem mem_nodes_attributeMaker {name : String} {parts : List ValuePart} {d : Node}
    (hd : d ∈ (Node.attributeMaker name parts).nodes) :
    d = Node.attributeMaker name parts ∨ ∃ part ∈ parts, d = part.node := by
  rw [Node.nodes_eq, List.mem_cons, Node.mem_nodesOfAll] at hd
  rcases hd with rfl | ⟨c, hc, hd⟩
  · exact Or.inl rfl
  · obtain ⟨part, hpart, rfl⟩ := List.mem_map.mp hc
    refine Or.inr ⟨part, hpart, hd.resolve_right ?_⟩
    cases part <;> exact List.not_mem_nil

theorem settingParam?_of_ne_param {e : Element} (h : Text.lower e.name ≠ "param") {u : Bool}
    {cs : List Node} : settingParam? ⟨.element e, u, cs⟩ = none := by
  refine Option.eq_none_iff_forall_ne_some.mpr fun e' he' => ?_
  obtain ⟨hvalue, hname, -⟩ := settingParam?_eq_some_iff.mp he'
  cases hvalue
  exact h hname

section Moved

variable {name : String} {parts : List ValuePart} {n n' : Node}

theorem Movable.ne_of_mem {e : Element} {value : String} (h : Movable e name value parts)
    {element : String} (hmem : element ∈ judgedElements) : Text.lower e.name ≠ element := by
  rintro rfl
  exact h.element hmem

theorem Movable.sameIgnoringCase {e : Element} {value : String} (h : Movable e name value parts)
    {written : String} (hmem : Text.lower written ∈ judgedAttributes) :
    Text.sameIgnoringCase name written = false := by
  refine Bool.eq_false_iff.mpr fun hsame => h.name ?_
  rw [eq_of_beq hsame]
  exact hmem

theorem Moved.value_cases (h : Moved name parts n n') :
    n'.value = n.value ∨ ∃ e e', n.value = .element e ∧ n'.value = .element e' := by
  cases h with
  | here => exact Or.inr ⟨_, _, rfl, rfl⟩
  | inside => exact Or.inl rfl

theorem Moved.isLiteralContent (h : Moved name parts n n') :
    isLiteralContent n' = isLiteralContent n := by
  unfold Safety.isLiteralContent
  rcases h.value_cases with hvalue | ⟨e, e', he, he'⟩
  · rw [hvalue]
  · rw [he, he']

theorem Moved.makesAttribute (h : Moved name parts n n') (written : String) :
    makesAttribute written n' = makesAttribute written n := by
  unfold Safety.makesAttribute
  rcases h.value_cases with hvalue | ⟨e, e', he, he'⟩
  · rw [hvalue]
  · rw [he, he']

theorem Moved.madeAttribute? (h : Moved name parts n n') :
    madeAttribute? n' = madeAttribute? n := by
  cases h with
  | here => rfl
  | @inside c c' h v u before after =>
    have hall : (before ++ c' :: after).all Safety.isLiteralContent =
        (before ++ c :: after).all Safety.isLiteralContent := by
      rw [List.all_append, List.all_append, List.all_cons, List.all_cons, h.isLiteralContent]
    cases v with
    | attributeConstructor => simp only [Safety.madeAttribute?, hall]
    | _ => rfl

/-- What belongs to the element around makes the same attributes. -/
theorem Moved.filterMap_owned (h : Moved name parts n n') :
    n'.owned.filterMap Safety.madeAttribute? = n.owned.filterMap Safety.madeAttribute? := by
  induction h with
  | here => rfl
  | @inside c c' h v u before after ih =>
    rw [Node.owned, Node.owned, List.filterMap_cons, List.filterMap_cons,
      (Moved.inside h v u before after).madeAttribute?]
    have hbelow : (if v.makesElement = true then [] else
        Node.ownedOfAll (before ++ c' :: after)).filterMap Safety.madeAttribute? =
          (if v.makesElement = true then [] else
            Node.ownedOfAll (before ++ c :: after)).filterMap Safety.madeAttribute? := by
      split
      · rfl
      · rw [Node.ownedOfAll_append, Node.ownedOfAll, Node.ownedOfAll_append, Node.ownedOfAll]
        simp only [List.filterMap_append, ih]
    rw [hbelow]

/-- A condition that the instruction and its content meet, and that no node around the
attribute loses or gains, holds of all nodes after the move exactly if it did before. -/
theorem Moved.forall_mem_nodes {p : Node → Prop} (h : Moved name parts n n')
    (hsame : ∀ {m m'}, Moved name parts m m' → (p m' ↔ p m))
    (hmaker : ∀ d ∈ (Node.attributeMaker name parts).nodes, p d) :
    (∀ d ∈ n'.nodes, p d) ↔ ∀ d ∈ n.nodes, p d := by
  induction h with
  | here hmovable u cs =>
    rw [Node.nodes_eq, Node.nodes_eq, List.forall_mem_cons, List.forall_mem_cons,
      hsame (Moved.here hmovable u cs), Node.nodesOfAll, List.forall_mem_append]
    exact and_congr_right fun _ => and_iff_right hmaker
  | @inside c c' h v u before after ih =>
    rw [Node.nodes_eq, Node.nodes_eq, List.forall_mem_cons, List.forall_mem_cons,
      hsame (Moved.inside h v u before after), Node.forall_mem_nodesOfAll_congr ih]

theorem Moved.movable (h : Moved name parts n n') : ∃ e value, Movable e name value parts := by
  induction h with
  | here h => exact ⟨_, _, h⟩
  | inside _ _ _ _ _ ih => exact ih

theorem Moved.makesAttribute_eq_false_iff (h : Moved name parts n n') {written : String}
    (hmem : Text.lower written ∈ judgedAttributes) :
    (∀ d ∈ n'.nodes, Safety.makesAttribute written d = false) ↔
      ∀ d ∈ n.nodes, Safety.makesAttribute written d = false := by
  obtain ⟨e, value, hmovable⟩ := h.movable
  refine h.forall_mem_nodes (fun hm => by rw [hm.makesAttribute]) fun d hd => ?_
  rcases mem_nodes_attributeMaker hd with rfl | ⟨part, -, rfl⟩
  · exact hmovable.sameIgnoringCase hmem
  · cases part <;> rfl

theorem Moved.settingParam? (h : Moved name parts n n') : settingParam? n' = settingParam? n := by
  cases h with
  | inside => rfl
  | @here e value hmovable u cs =>
    have hname : Text.lower e.name ≠ "param" := hmovable.ne_of_mem (by decide)
    rw [settingParam?_of_ne_param hname]
    exact settingParam?_of_ne_param (e := e.erase name) hname

theorem Moved.paramAtMost_iff (h : Moved name parts n n') {most : ScriptAccess} :
    ParamAtMost most n' ↔ ParamAtMost most n := by
  unfold ParamAtMost
  rw [h.settingParam?]
  cases h with
  | @here e value hmovable u cs =>
    rw [settingParam?_of_ne_param (hmovable.ne_of_mem (by decide))]
    simp
  | inside h v u before after =>
    have hmade : Text.lower "value" ∈ judgedAttributes := by decide
    rw [Node.forall_mem_nodesOfAll_congr (h.makesAttribute_eq_false_iff hmade)]

theorem Moved.forall_paramAtMost_iff (h : Moved name parts n n') {most : ScriptAccess} :
    (∀ d ∈ n'.nodes, ParamAtMost most d) ↔ ∀ d ∈ n.nodes, ParamAtMost most d := by
  refine h.forall_mem_nodes (fun hm => hm.paramAtMost_iff) fun d hd e he => ?_
  have hvalue := (settingParam?_eq_some_iff.mp he).1
  rcases mem_nodes_attributeMaker hd with rfl | ⟨part, -, rfl⟩
  · cases hvalue
  · cases part <;> cases hvalue

theorem Moved.grantsAtMost_iff (h : Moved name parts n n') (most : ScriptAccess) :
    GrantsAtMost most n' ↔ GrantsAtMost most n := by
  cases h with
  | @here e value hmovable u cs =>
    have hname : ∀ element ∈ judgedElements, some (Text.lower e.name) ≠ some element :=
      fun element hmem h => hmovable.ne_of_mem hmem (Option.some.inj h)
    exact iff_of_true (grantsAtMost_of_ne (hname _ (by decide)) (hname _ (by decide)))
      (grantsAtMost_of_ne (hname _ (by decide)) (hname _ (by decide)))
  | @inside c c' h v u before after =>
    have hmade : Text.lower scriptAccessName ∈ judgedAttributes := by decide
    unfold GrantsAtMost EmbedAtMost ObjectAtMost
    rw [Node.forall_mem_nodesOfAll_congr (h.makesAttribute_eq_false_iff hmade),
      Node.forall_mem_nodesOfAll_congr h.forall_paramAtMost_iff]
    -- Whether a child replaces the default is left, and the changed child does if it did.
    simp only [List.mem_append, List.mem_cons, or_and_right, exists_or, exists_eq_left,
      h.settingParam?]

/-- A node in which an attribute is moved is kept. -/
theorem Moved.kept (h : Moved name parts n n') (v : Value) (u : Bool) (before after : List Node) :
    Kept ⟨v, u, before ++ n :: after⟩ ⟨v, u, before ++ n' :: after⟩ where
  value := .refl v
  unescaped := rfl
  beginsMailto := by
    cases before with
    | cons => rfl
    | nil =>
      simp only [Scope.beginsMailto, List.nil_append]
      rcases h.value_cases with hvalue | ⟨e, e', he, he'⟩
      · rw [hvalue]
      · rw [he, he']
  made := by
    have hmade : madeAttributes ⟨v, u, before ++ n' :: after⟩ =
        madeAttributes ⟨v, u, before ++ n :: after⟩ := by
      simp only [madeAttributes, Node.ownedOfAll_append, Node.ownedOfAll, List.filterMap_append,
        h.filterMap_owned]
    rw [hmade]
    exact List.forall₂_same.mpr fun made _ => .refl made
  grants := (Moved.inside h v u before after).grantsAtMost_iff

theorem Moved.alike (h : Moved name parts n n') : Alike n n' where
  makesElement := by cases h <;> rfl
  makesSame := by cases h <;> exact fun _ _ => Iff.rfl
  paramName? := by
    intro hparam
    cases h with
    | inside => rfl
    | here hmovable => exact absurd (Option.some.inj hparam) (hmovable.ne_of_mem (by decide))
  grants := h.grantsAtMost_iff

end Moved

/-! ## The element and the instruction -/

/-- An attribute of an element, written or made, may have the value and go where it goes. -/
def AttributeAccepted (g : Grant) (scope? : Option Scope) (element : String)
    (a : String × String) : Prop :=
  siteHazard? ⟨.valueTemplate, a.1, a.2⟩ = none ∧
    ∀ scope ∈ scope?, isInstructionAttribute a.1 = false →
      ∀ sink, attributeSink? element a.1 none = some sink →
        valueTemplateHazard? g scope.bindingKnown sink a.2 = none

theorem urlViolation?_of_not_mem {g : Grant} {visit : Visit}
    (h : visit.node.value.madeName ∉ judgedElements) : urlViolation? g visit = none := by
  have hloading : ∀ element ∈ loadingElements, element ∈ judgedElements := by decide
  rw [urlViolation?, fixedAttributes?_of_not_mem fun hmem => h (hloading _ hmem), Option.bind_none]

/-- What is asked of an element is asked of its attributes one by one. -/
theorem placeAccepted_element_iff {g : Grant} {ancestors : List Node} {scope? : Option Scope}
    {e : Element} (he : Text.lower e.name ∉ judgedElements) {u : Bool} {cs : List Node} :
    PlaceAccepted g ancestors scope? ⟨.element e, u, cs⟩ ↔
      (e.get? "disable-output-escaping" = none ∧ e.get? "use-attribute-sets" = none ∧
        e.get? "xsl:use-attribute-sets" = none) ∧
        ∀ a ∈ e.attributes, AttributeAccepted g scope? (Text.lower e.name) a := by
  have hne : ∀ element ∈ judgedElements, Text.lower e.name ≠ element := by
    rintro _ hmem rfl
    exact he hmem
  have hgrants : ∀ most, GrantsAtMost most ⟨.element e, u, cs⟩ := fun most =>
    grantsAtMost_of_ne (fun h => hne _ (by decide) (Option.some.inj h))
      fun h => hne _ (by decide) (Option.some.inj h)
  have hfixed : ∀ path, urlViolation? g ⟨path, ancestors, ⟨.element e, u, cs⟩⟩ = none :=
    fun path => urlViolation?_of_not_mem he
  have hescaped : Node.disablesEscaping ⟨.element e, u, cs⟩ = false ↔
      e.get? "disable-output-escaping" = none := by
    simp [Node.disablesEscaping]
  have hjudged : valueHazard? ancestors (.element e) = none ↔
      e.get? "use-attribute-sets" = none ∧ e.get? "xsl:use-attribute-sets" = none := by
    have hparam := hne "param" (by decide)
    simp [valueHazard?, elementHazard?, hparam]
  have hsafe : ∀ scope : Scope, literalAttributesHazard? g scope.bindingKnown e = none ↔
      ∀ a ∈ e.attributes, isInstructionAttribute a.1 = false →
        ∀ sink, attributeSink? (Text.lower e.name) a.1 none = some sink →
          valueTemplateHazard? g scope.bindingKnown sink a.2 = none := by
    intro scope
    rw [literalAttributesHazard?, List.findSome?_eq_none_iff]
    refine forall₂_congr fun a _ => ?_
    rw [attributeSink?_of_ne_param (hne "param" (by decide)) (hne "param" (by decide)) a.1 none]
    cases isInstructionAttribute a.1 <;> simp
  rw [placeAccepted_iff, nodeAccepted_iff, hescaped, hjudged]
  constructor
  · rintro ⟨⟨hget, hsets, hread, -, -⟩, hwrites⟩
    refine ⟨⟨hget, hsets⟩, fun a ha => ⟨hread _ (List.mem_map_of_mem ha), fun scope hscope => ?_⟩⟩
    exact (hsafe scope).mp (hwrites [] scope hscope) a ha
  · rintro ⟨⟨hget, hsets⟩, hattributes⟩
    refine ⟨⟨hget, hsets, List.forall_mem_map.mpr fun a ha => (hattributes a ha).1, hfixed,
      fun most _ => hgrants most⟩, fun path scope hscope => ?_⟩
    exact (hsafe scope).mpr fun a ha => (hattributes a ha).2 scope hscope

/-- Nodes that make no element are asked for less. -/
theorem nodeAccepted_iff_of_not_makesElement {g : Grant} {ancestors : List Node} {n : Node}
    (h : n.value.makesElement = false) :
    NodeAccepted g ancestors n ↔ n.disablesEscaping = false ∧
      valueHazard? ancestors n.value = none ∧
        ∀ site ∈ n.value.expressionSites, siteHazard? site = none := by
  have hfixed : ∀ path, urlViolation? g ⟨path, ancestors, n⟩ = none := by
    intro path
    cases hattributes : fixedAttributes? g ⟨path, ancestors, n⟩ with
    | none => rw [urlViolation?, hattributes, Option.bind_none]
    | some attributes =>
      have helement := makesElement_of_fixedAttributes? hattributes
      rw [h] at helement
      cases helement
  constructor
  · intro haccepted
    exact ⟨haccepted.escaped, haccepted.judged, haccepted.read⟩
  · rintro ⟨hescaped, hjudged, hread⟩
    exact ⟨hescaped, hjudged, hread, hfixed, fun most _ => grantsAtMost_of_not_makesElement h⟩

theorem acceptedAt_literal (g : Grant) (ancestors : List Node) (scope? : Option Scope)
    (text : String) : AcceptedAt g ancestors scope? (ValuePart.literal text).node := by
  have hnode : NodeAccepted g ancestors (ValuePart.literal text).node := by
    rw [nodeAccepted_iff_of_not_makesElement rfl]
    exact ⟨rfl, rfl, List.forall_mem_nil _⟩
  exact acceptedAt_iff.mpr ⟨⟨hnode, fun _ _ _ => rfl⟩, List.forall_mem_nil _⟩

theorem acceptedAt_expression_iff {g : Grant} (ancestors : List Node) {scope? : Option Scope}
    {source : String} :
    AcceptedAt g ancestors scope? (ValuePart.expression source).node ↔
      sourceHazard? source = none ∧ ∀ scope ∈ scope?, ∀ sink ∈ scope.sink,
        outputHazard? g scope.bindingKnown scope.mailto sink source = none := by
  have hnode : NodeAccepted g ancestors (ValuePart.expression source).node ↔
      sourceHazard? source = none := by
    rw [nodeAccepted_iff_of_not_makesElement rfl]
    exact ⟨fun h => h.2.2 _ List.mem_cons_self,
      fun h => ⟨rfl, rfl, List.forall_mem_singleton.mpr h⟩⟩
  have hsafe : ∀ path scope, flowHazard? g
      ⟨⟨path, ancestors, (ValuePart.expression source).node⟩, scope⟩ = none ↔
        ∀ sink ∈ scope.sink,
          outputHazard? g scope.bindingKnown scope.mailto sink source = none := by
    intro path scope
    exact Option.bind_eq_none_iff
  rw [acceptedAt_iff, placeAccepted_iff, hnode]
  simp only [hsafe, forall_const]
  exact and_iff_left (List.forall_mem_nil _)

theorem beginsMailto_attributeMaker (name : String) (parts : List ValuePart) :
    Scope.beginsMailto (Node.attributeMaker name parts) =
      isMailto (ValueTemplate.leadingLiteral parts) := by
  have hempty : isMailto "" = false := by decide
  rcases parts with - | ⟨part | part, rest⟩
  · exact hempty.symm
  · rfl
  · exact hempty.symm

theorem bindingKnown_ofElement (scope : Scope) (name : String) (dynamic : Bool) :
    (scope.ofElement name dynamic).bindingKnown = scope.bindingKnown := by
  unfold Scope.ofElement
  split <;> rfl

theorem attributeAccepted_iff {g : Grant} {scope? : Option Scope} {e : Element}
    {name value : String} {parts : List ValuePart} (h : Movable e name value parts) :
    AttributeAccepted g scope? (Text.lower e.name) (name, value) ↔
      ∀ source ∈ ValueTemplate.expressions parts, sourceHazard? source = none ∧
        ∀ scope ∈ scope?, ∀ sink ∈ attributeSink? (Text.lower e.name) name none,
          outputHazard? g scope.bindingKnown
            (sink == .url && isMailto (ValueTemplate.leadingLiteral parts)) sink source = none := by
  unfold AttributeAccepted siteHazard? valueTemplateHazard?
  simp only [h.parts, h.literal, List.findSome?_eq_none_iff, Option.mem_def, forall_const]
  constructor
  · rintro ⟨hread, hwrites⟩ source hsource
    exact ⟨hread source hsource, fun scope hscope sink hsink =>
      hwrites scope hscope sink hsink source hsource⟩
  · intro hall
    exact ⟨fun source hsource => (hall source hsource).1, fun scope hscope sink hsink source
      hsource => (hall source hsource).2 scope hscope sink hsink⟩

section Maker

variable {g : Grant} {ancestors : List Node} {scope? : Option Scope} {e e' : Element}
  {name value : String} {parts : List ValuePart} {owner : Node}

theorem ownerName_cons (howner : owner.value = .element e') :
    ownerName (owner :: ancestors) = Text.lower e'.name := by
  simp [ownerName, owner?, Value.makesElement, howner, Value.madeName, Value.madeName?]

theorem placeAccepted_attributeMaker (h : Movable e name value parts)
    (howner : owner.value = .element e') (hname : e'.name = e.name) :
    PlaceAccepted g (owner :: ancestors) scope? (Node.attributeMaker name parts) := by
  refine ⟨(nodeAccepted_iff_of_not_makesElement rfl).mpr ⟨rfl, ?_, ?_⟩, fun _ _ _ => rfl⟩
  · show constructorHazard? (owner :: ancestors) name = none
    have hparam : (Text.lower e.name == "param") = false :=
      beq_eq_false_iff_ne.mpr (h.ne_of_mem (by decide))
    rw [constructorHazard?, ValueTemplate.literalText?_of_plain h.plain, ownerName_cons howner,
      hname]
    simp only [hparam, Bool.false_and]
    rfl
  · obtain ⟨written, hparse, hnone⟩ :=
      exists_parts_of_literalText? (ValueTemplate.literalText?_of_plain h.plain)
    refine List.forall_mem_singleton.mpr ?_
    simp only [siteHazard?, hparse, hnone, List.findSome?_nil]

/-- Where the output of the instruction goes. -/
theorem inside?_attributeMaker (h : Movable e name value parts)
    (howner : owner.value = .element e') (hname : e'.name = e.name) (ancestors : List Node)
    (scope : Scope) :
    ∃ inner, ((scope.inside? ancestors owner).bind fun scope =>
        scope.inside? (owner :: ancestors) (Node.attributeMaker name parts)) = some inner ∧
      inner.sink = attributeSink? (Text.lower e.name) name none ∧
      inner.mailto = (inner.sink == some .url && isMailto (ValueTemplate.leadingLiteral parts)) ∧
      inner.bindingKnown = scope.bindingKnown := by
  have hinside : scope.inside? ancestors owner =
      some (scope.ofElement (Text.lower e'.name) false) := by
    rw [Scope.inside?, howner]
  refine ⟨(scope.ofElement (Text.lower e'.name) false).ofAttribute (owner :: ancestors) name
    (Node.attributeMaker name parts), ?_, ?_, ?_, ?_⟩
  · rw [hinside]
    rfl
  · simp only [Scope.ofAttribute, ownerName_cons howner, hname, attributeSink?_lower,
      ValueTemplate.literalText?_of_plain h.plain, Option.getD_some]
    exact attributeSink?_of_ne_param (h.ne_of_mem (by decide)) (h.ne_of_mem (by decide)) name none _
  · simp only [Scope.ofAttribute, beginsMailto_attributeMaker]
  · simp only [Scope.ofAttribute, bindingKnown_ofElement]

/-- An attribute that is made of the parts of its value is accepted if it is as a written
one. -/
theorem acceptedAt_attributeMaker_iff (h : Movable e name value parts)
    (howner : owner.value = .element e') (hname : e'.name = e.name) :
    AcceptedAt g (owner :: ancestors) (scope?.bind fun scope => scope.inside? ancestors owner)
        (Node.attributeMaker name parts) ↔
      AttributeAccepted g scope? (Text.lower e.name) (name, value) := by
  have hparts : ∀ above inner?, (∀ c ∈ (Node.attributeMaker name parts).children,
      AcceptedAt g above inner? c) ↔ ∀ source ∈ ValueTemplate.expressions parts,
        sourceHazard? source = none ∧ ∀ inner ∈ inner?, ∀ sink ∈ inner.sink,
          outputHazard? g inner.bindingKnown inner.mailto sink source = none := by
    intro above inner?
    simp only [← acceptedAt_expression_iff above, ValueTemplate.mem_expressions_iff]
    rw [Node.attributeMaker, List.forall_mem_map]
    constructor
    · intro hall source hsource
      exact hall _ hsource
    · intro hall part hpart
      cases part with
      | literal text => exact acceptedAt_literal g above inner? text
      | expression source => exact hall source hpart
  rw [acceptedAt_iff, and_iff_right (placeAccepted_attributeMaker h howner hname), hparts,
    attributeAccepted_iff h]
  refine forall₂_congr fun source _ => and_congr_right fun _ => ?_
  cases scope? with
  | none => simp
  | some scope =>
    obtain ⟨inner, hinner, hsink, hmailto, hknown⟩ :=
      inside?_attributeMaker h howner hname ancestors scope
    rw [Option.bind_some, hinner]
    simp only [Option.mem_def, Option.some.injEq, forall_eq', hknown]
    rw [hmailto, hsink]
    refine forall₂_congr fun sink hsink => ?_
    rw [hsink, Option.some_beq_some]

end Maker

/-! ## The whole template -/

/-- An element is asked the same with the attribute written as without it, but for the
attribute. -/
theorem placeAccepted_erase_iff {g : Grant} {ancestors ancestors' : List Node}
    {scope? : Option Scope} {e : Element} {name value : String} {parts : List ValuePart}
    (h : Movable e name value parts) {u : Bool} {cs cs' : List Node} :
    PlaceAccepted g ancestors' scope? ⟨.element (e.erase name), u, cs'⟩ ∧
        AttributeAccepted g scope? (Text.lower e.name) (name, value) ↔
      PlaceAccepted g ancestors scope? ⟨.element e, u, cs⟩ := by
  have hget : ∀ written, Text.lower written ∈ judgedAttributes →
      (e.erase name).get? written = e.get? written :=
    fun written hmem => Element.get?_erase e (h.sameIgnoringCase hmem)
  have hattributes : (∀ a ∈ e.attributes, AttributeAccepted g scope? (Text.lower e.name) a) ↔
      AttributeAccepted g scope? (Text.lower e.name) (name, value) ∧
        ∀ a ∈ (e.erase name).attributes, AttributeAccepted g scope? (Text.lower e.name) a := by
    simp only [Element.mem_iff_mem_eraseIn h.mem h.once, forall_eq_or_imp]
    rfl
  rw [placeAccepted_element_iff h.element, placeAccepted_element_iff (e := e.erase name) h.element,
    hget _ (by decide), hget _ (by decide), hget _ (by decide), hattributes, and_assoc,
    and_comm (b := AttributeAccepted g scope? (Text.lower e.name) (name, value))]
  rfl

/-- A tree in which an attribute is moved is accepted at a place if it was at one that looks
alike. -/
theorem Moved.acceptedAt_iff {g : Grant} {name : String} {parts : List ValuePart} {n n' : Node}
    (h : Moved name parts n n') {ancestors ancestors' : List Node} {scope? : Option Scope}
    (habove : List.Forall₂ Alike ancestors ancestors') :
    AcceptedAt g ancestors' scope? n' ↔ AcceptedAt g ancestors scope? n := by
  induction h generalizing ancestors ancestors' scope? with
  | @here e value hmovable u cs =>
    have halike := (Moved.here hmovable u cs).alike
    have hbelow : ∀ c scope?, AcceptedAt g (⟨.element (e.erase name), u,
        Node.attributeMaker name parts :: cs⟩ :: ancestors') scope? c ↔
          AcceptedAt g (⟨.element e, u, cs⟩ :: ancestors) scope? c :=
      fun c scope? => acceptedAt_same (.refl c) (.cons halike habove) (optionRel_refl .refl scope?)
    have howner : Node.value ⟨.element (e.erase name), u, Node.attributeMaker name parts :: cs⟩ =
        .element (e.erase name) := rfl
    -- What is asked of the element and of the instruction, its first child, together is what
    -- was asked of the element, and its old children see the same around them.
    rw [Safety.acceptedAt_iff, Safety.acceptedAt_iff, List.forall_mem_cons,
      acceptedAt_attributeMaker_iff hmovable howner rfl, ← and_assoc,
      placeAccepted_erase_iff hmovable]
    simp only [hbelow]
    rfl
  | @inside c c' h v u before after ih =>
    have hkept := h.kept v u before after
    have hscope := optionRel_refl SameScope.refl scope?
    have hbelow : ∀ d, AcceptedAt g (⟨v, u, before ++ c' :: after⟩ :: ancestors')
        (scope?.bind fun scope => scope.inside? ancestors' ⟨v, u, before ++ c' :: after⟩) d ↔
          AcceptedAt g (⟨v, u, before ++ c :: after⟩ :: ancestors)
            (scope?.bind fun scope => scope.inside? ancestors ⟨v, u, before ++ c :: after⟩) d :=
      fun d => acceptedAt_same (.refl d) (.cons hkept.alike habove)
        (rel_bind_inside? hkept habove hscope)
    -- The changed child is exchanged in its new place, and then the place for the old one.
    rw [Safety.acceptedAt_iff, Safety.acceptedAt_iff, placeAccepted_kept hkept habove hscope]
    simp only [List.forall_mem_append, List.forall_mem_cons, ih (alike_refl _), hbelow]

/-- A template is accepted with an attribute that is written if it is with the attribute
made of the parts of the written value.  The element stands below the root, which holds the
content and is not written itself. -/
theorem accepts_makeAttribute (g : Grant) {template n : Node} {path : Path} {e : Element}
    {name value : String} {parts : List ValuePart} (hpath : path ≠ [])
    (hat : template.at? path = some n) (hvalue : n.value = .element e)
    (h : Movable e name value parts) :
    accepts g (template.modifyAt (Node.makeAttribute name parts) path) = accepts g template := by
  obtain ⟨v, u, cs⟩ := template
  obtain ⟨i, rest, rfl⟩ := List.exists_cons_of_ne_nil hpath
  obtain ⟨before, c, after, rfl, hc, hmodify⟩ :=
    modifyAt_cons_cases hat (Node.makeAttribute name parts)
  have hmoved := moved_modifyAt hc hvalue h
  have hkept := hmoved.kept v u before after
  have habove := List.Forall₂.cons hkept.alike List.Forall₂.nil
  rw [Bool.eq_iff_iff, hmodify, accepts_iff_acceptedAt, accepts_iff_acceptedAt,
    nodeAccepted_kept hkept List.Forall₂.nil]
  simp only [List.forall_mem_append, List.forall_mem_cons, hmoved.acceptedAt_iff habove]
  simp only [acceptedAt_same (.refl _) habove (optionRel_refl SameScope.refl _)]

def mailAddress : String := "mailto:{@mail}?re={@id}"

/-- A link with an address of mail. -/
def mailElement : Element :=
  { name := "A", attributes := [("title", "Write"), ("Href", mailAddress)] }

def mailSource : String :=
  "<xsl:if test=\"@mail\"><A title=\"Write\" Href=\"" ++ mailAddress ++ "\"><i/></A></xsl:if>"

theorem accepts_makeAttribute_mail :
    ∃ template n parts, Template.parse false mailSource = .ok template ∧
      template.at? [0, 0] = some n ∧ n.value = .element mailElement ∧
      Movable mailElement "Href" mailAddress parts ∧
      accepts contactGrant template = true ∧
      accepts contactGrant (template.modifyAt (Node.makeAttribute "Href" parts) [0, 0]) = true := by
  obtain ⟨template, hparse, h⟩ := exists_ok_of_any (p := fun template =>
      (template.at? [0, 0]).any (fun n => n.value == .element mailElement) &&
        accepts contactGrant template)
    (x := Template.parse false mailSource) (by decide +kernel)
  simp only [Bool.and_eq_true, Option.any_eq_true, beq_iff_eq] at h
  obtain ⟨⟨n, hat, hvalue⟩, haccepts⟩ := h
  obtain ⟨parts, hparts, -⟩ := exists_ok_of_any (p := fun _ => true)
    (x := ValueTemplate.parse mailAddress) (by decide +kernel)
  have hmovable : Movable mailElement "Href" mailAddress parts :=
    ⟨by decide, by decide, hparts, by decide, by decide, by decide, by decide⟩
  refine ⟨template, n, parts, hparse, hat, hvalue, hmovable, haccepts, ?_⟩
  rw [accepts_makeAttribute contactGrant (List.cons_ne_nil _ _) hat hvalue hmovable, haccepts]

/-- The attribute is looked for in any case, but only one in small letters is kept as that of
an instruction. -/
def attributeSetsElement : Element :=
  { name := "b", attributes := [("XSL:use-attribute-sets", "y")] }

def attributeSetsSource : String := "<b xmlns:XSL=\"urn:x\" XSL:use-attribute-sets=\"y\"/>"

theorem attribute_sets_not_accepts_makeAttribute :
    ∃ template n parts, Template.parse false attributeSetsSource = .ok template ∧
      template.at? [0] = some n ∧ n.value = .element attributeSetsElement ∧
      attributeSetsElement.attributes.countP
        (fun a => Text.sameIgnoringCase a.1 "XSL:use-attribute-sets") = 1 ∧
      ValueTemplate.parse "y" = .ok parts ∧
      ValueTemplate.IsPlain "XSL:use-attribute-sets" ∧
      isInstructionAttribute "XSL:use-attribute-sets" = false ∧
      Text.lower "XSL:use-attribute-sets" ∉
        ["use-attribute-sets", "disable-output-escaping", "allowscriptaccess", "value"] ∧
      Text.lower attributeSetsElement.name ∉ judgedElements ∧
      accepts contactGrant template = false ∧
      accepts contactGrant
        (template.modifyAt (Node.makeAttribute "XSL:use-attribute-sets" parts) [0]) = true := by
  obtain ⟨parts, hparts, hy⟩ := exists_ok_of_any (p := fun parts => parts == [.literal "y"])
    (x := ValueTemplate.parse "y") (by decide +kernel)
  obtain rfl := eq_of_beq hy
  obtain ⟨template, hparse, h⟩ := exists_ok_of_any (p := fun template =>
      (template.at? [0]).any (fun n => n.value == .element attributeSetsElement) &&
        !accepts contactGrant template && accepts contactGrant
          (template.modifyAt (Node.makeAttribute "XSL:use-attribute-sets" [.literal "y"]) [0]))
    (x := Template.parse false attributeSetsSource) (by decide +kernel)
  simp only [Bool.and_eq_true, Option.any_eq_true, beq_iff_eq, Bool.not_eq_true'] at h
  obtain ⟨⟨⟨n, hat, hvalue⟩, hrejected⟩, haccepts⟩ := h
  exact ⟨template, n, _, hparse, hat, hvalue, by decide, hparts, by decide, by decide, by decide,
    by decide, hrejected, haccepts⟩

end Safety
end TagGrammar
