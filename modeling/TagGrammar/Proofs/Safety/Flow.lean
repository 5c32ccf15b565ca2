/-
What flows into a sink.

The flows carry a scope down the template.  Here the same is read off from the places alone:
the nearest script, style sheet or attribute around a node sets where its output goes,
`sinkAt?`, and every loop around it makes the current node unknown.  `Agrees` says that a
scope is what the nodes around a place say; each step down keeps it (`Agrees.inside`), so
the flows are the reachable places with what is said about them there, and a template has
no violation exactly if every such place is safe.
-/
import TagGrammar.Proofs.Case
import TagGrammar.Proofs.Except
import TagGrammar.Proofs.Template.Places
import TagGrammar.Safety.Check
import TagGrammar.Template.Source

namespace TagGrammar

namespace Value

/-- An instruction that repeats its content. -/
def repeats : Value → Bool
  | forEach _ => true
  | _ => false

/-- An instruction that puts something else in the place of its content. -/
def inserts : Value → Bool
  | valueOf _ _ | copyOf _ | applyTemplates _ => true
  | _ => false

/-- A script, a style sheet or an attribute, in which output is no longer that of the
outside. -/
def setsSink (v : Value) : Bool := v.makesAttribute || (Safety.elementSink? v.madeName).isSome

theorem makesAttribute_of_makesElement {v : Value} (h : v.makesElement = true) :
    v.makesAttribute = false := by
  cases v <;> first | rfl | cases h

theorem repeats_of_makesElement {v : Value} (h : v.makesElement = true) : v.repeats = false := by
  cases v <;> first | rfl | cases h

theorem setsSink_of_not_makesElement {v : Value} (h : v.makesElement = false) :
    v.setsSink = v.makesAttribute := by
  cases v <;> first | rfl | cases h

end Value

namespace Safety

/-! ## Owners -/

section Owner

variable {ancestors : List Node} {n : Node}

/-- The owner is an ancestor that makes an element, and those nearer than it make none. -/
theorem owner?_eq_some_iff : owner? ancestors = some n ↔
    ∃ nearer farther, ancestors = nearer ++ n :: farther ∧ n.value.makesElement = true ∧
      ∀ m ∈ nearer, m.value.makesElement = false := by
  rw [owner?, List.find?_eq_some_iff_append]
  constructor
  · rintro ⟨hn, nearer, farther, rfl, hnearer⟩
    exact ⟨nearer, farther, rfl, hn, fun m hm => by simpa using hnearer m hm⟩
  · rintro ⟨nearer, farther, rfl, hn, hnearer⟩
    exact ⟨hn, nearer, farther, rfl, fun m hm => by simpa using hnearer m hm⟩

theorem owner?_eq_none_iff :
    owner? ancestors = none ↔ ∀ m ∈ ancestors, m.value.makesElement = false := by
  simp [owner?, List.find?_eq_none]

end Owner

/-! ## Sinks by place -/

section Places

variable (around : List Visit)

/-- The nearest script, style sheet or attribute. -/
def setter? : Option Visit := around.find? fun a => a.node.value.setsSink

/-- The sink that the content of a setter goes into. -/
def sinkInside? (setter : Visit) : Option Sink :=
  match setter.node.value with
  | .attributeConstructor written _ =>
    attributeSink? (ownerName setter.ancestors) ((ValueTemplate.literalText? written).getD "")
      (ownerParam? setter.ancestors)
  | v => elementSink? v.madeName

/-- An attribute that is made belongs to the nearest element around. -/
theorem sinkInside?_of_nearest {setter : Visit} {written : String} {namespaceName : Option String}
    {nearer farther : List Node} {n : Node}
    (hvalue : setter.node.value = .attributeConstructor written namespaceName)
    (hancestors : setter.ancestors = nearer ++ n :: farther)
    (hn : n.value.makesElement = true) (hnearer : ∀ m ∈ nearer, m.value.makesElement = false) :
    sinkInside? setter = attributeSink? n.value.madeName
      ((ValueTemplate.literalText? written).getD "") n.value.paramName? := by
  have howner := owner?_eq_some_iff.mpr ⟨nearer, farther, hancestors, hn, hnearer⟩
  rw [sinkInside?, hvalue]
  dsimp only
  rw [ownerName, ownerParam?, howner]
  rfl

/-- The sink that output goes into between some nodes. -/
def sinkAt? : Option Sink := (setter? around).bind sinkInside?

/-- The output is the rest of an address that begins with the scheme of mail. -/
def isMailtoAt : Bool :=
  (setter? around).any fun a => a.node.value.makesAttribute && sinkInside? a == some .url &&
    Scope.beginsMailto a.node

/-- No loop stands around, so the current node is that of the tag. -/
def NoLoop : Prop := ∀ a ∈ around, a.node.value.repeats = false

/-- No insertion stands around, so output comes from here. -/
def Reached : Prop := ∀ a ∈ around, a.node.value.inserts = false

/-- A copied attribute leaves its value here alone: an attribute is being made, and in one
that is no sink no element stands in between. -/
def copiesValue : Bool :=
  (setter? around).any fun a => a.node.value.makesAttribute &&
    ((sinkInside? a).isSome ||
      !(around.takeWhile fun b => !b.node.value.setsSink).any fun b => b.node.value.makesElement)

end Places

/-- The sink that a copied attribute goes into. -/
def copySinkAt? (visit : Visit) (name : String) : Option Sink :=
  if copiesValue visit.around then sinkAt? visit.around
  else attributeSink? (ownerName visit.ancestors) name (ownerParam? visit.ancestors)

/-! ## Safe places -/

/-- An attribute of the tag may go into a sink: the current node is that of the tag, which
declares the attribute with a filter that is safe for the sink.  Behind the scheme of mail
it need only be safe as an attribute. -/
def ReferenceSafe (g : Grant) (around : List Visit) (mailto : Bool) (sink : Sink)
    (name : String) : Prop :=
  NoLoop around ∧ ∃ attr, g.tag.findAttribute? name = some attr ∧
    ∃ filter ∈ attr.filterChain, g.lookup.isSafe filter (if mailto then .attributeValue else sink)

/-- An expression yields constants and attributes that may go into a sink. -/
def OutputSafe (g : Grant) (around : List Visit) (mailto : Bool) (sink : Sink)
    (source : String) : Prop :=
  ∃ e names, XPath.Expr.parse source = .ok e ∧ e.sources? = some names ∧
    ∀ name ∈ names, ReferenceSafe g around mailto sink name

/-- The expressions of a value template may go into a sink. -/
def ValueTemplateSafe (g : Grant) (around : List Visit) (sink : Sink) (value : String) : Prop :=
  ∃ parts, ValueTemplate.parse value = .ok parts ∧
    ∀ source ∈ ValueTemplate.expressions parts,
      OutputSafe g around (sink == .url && isMailto (ValueTemplate.leadingLiteral parts)) sink
        source

/-- What a node writes by itself may go where it goes. -/
def PlaceSafe (g : Grant) (visit : Visit) : Prop :=
  match visit.node.value with
  | .element e => ∀ a ∈ e.attributes, isInstructionAttribute a.1 = false →
    ∀ sink, attributeSink? (Text.lower e.name) a.1 (e.get? "name") = some sink →
      ValueTemplateSafe g visit.around sink a.2
  | .valueOf select _ => ∀ sink, sinkAt? visit.around = some sink →
    OutputSafe g visit.around (isMailtoAt visit.around) sink select
  | .copyOf select => ∃ e name, XPath.Expr.parse select = .ok e ∧ e.asAttribute? = some name ∧
    ∀ sink, copySinkAt? visit name = some sink → ReferenceSafe g visit.around false sink name
  | .applyTemplates _ => sinkAt? visit.around = none
  | .instruction name _ => sinkAt? visit.around = none ∨ name = "sort"
  | _ => True

/-! ## Scopes by place -/

theorem attributeSink?_lower (element name : String) (param : Option String) :
    attributeSink? element (Text.lower name) param = attributeSink? element name param := by
  unfold attributeSink?
  rw [Text.lower_lower]

theorem sinkInside?_of_makesElement {a : Visit} (h : a.node.value.makesElement = true) :
    sinkInside? a = elementSink? a.node.value.madeName := by
  unfold sinkInside?
  split
  · rename_i hvalue
    rw [hvalue] at h
    cases h
  · rfl

/-- The scope between some nodes, nearest first, if output comes from there. -/
def scopeAt? : List Visit → Option Scope
  | [] => some .outermost
  | a :: around => (scopeAt? around).bind fun scope => scope.inside? a.ancestors a.node

/-- A scope is what the nodes around a place say. -/
structure Agrees (around : List Visit) (scope : Scope) : Prop where
  sink : scope.sink = sinkAt? around
  mailto : scope.mailto = isMailtoAt around
  known : scope.bindingKnown = true ↔ NoLoop around
  holder : (∃ name, scope.holder = .attr name) ↔ copiesValue around = true

theorem agrees_outermost : Agrees [] .outermost where
  sink := rfl
  mailto := rfl
  known := by simp [Scope.outermost, NoLoop]
  holder := by simp [Scope.outermost, copiesValue, setter?]

section Step

variable {a : Visit} {around : List Visit}

theorem setter?_cons_of_setsSink (h : a.node.value.setsSink = true) :
    setter? (a :: around) = some a := List.find?_cons_of_pos h

theorem setter?_cons_of_not_setsSink (h : a.node.value.setsSink = false) :
    setter? (a :: around) = setter? around := List.find?_cons_of_neg (by simp [h])

theorem noLoop_cons_iff :
    NoLoop (a :: around) ↔ a.node.value.repeats = false ∧ NoLoop around := List.forall_mem_cons

theorem sinkAt?_cons_of_not_setsSink (h : a.node.value.setsSink = false) :
    sinkAt? (a :: around) = sinkAt? around := by
  rw [sinkAt?, setter?_cons_of_not_setsSink h, sinkAt?]

theorem isMailtoAt_cons_of_not_setsSink (h : a.node.value.setsSink = false) :
    isMailtoAt (a :: around) = isMailtoAt around := by
  rw [isMailtoAt, setter?_cons_of_not_setsSink h, isMailtoAt]

theorem isMailtoAt_of_sinkAt?_eq_none (h : sinkAt? around = none) : isMailtoAt around = false := by
  unfold sinkAt? at h
  unfold isMailtoAt
  cases hs : setter? around with
  | none => rfl
  | some s =>
    rw [hs, Option.bind_some] at h
    simp [h]

theorem copiesValue_cons_of_not_setsSink (h : a.node.value.setsSink = false) :
    copiesValue (a :: around) =
      if a.node.value.makesElement then copiesValue around && (sinkAt? around).isSome
      else copiesValue around := by
  unfold copiesValue sinkAt?
  rw [setter?_cons_of_not_setsSink h, List.takeWhile_cons_of_pos (by simp [h]), List.any_cons]
  cases setter? around with
  | none => simp
  | some s =>
    by_cases hm : a.node.value.makesElement = true
    · cases hs : (sinkInside? s).isSome <;> simp [hm, hs]
    · simp [hm]

variable {scope inner : Scope} (h : Agrees around scope)

include h

theorem Agrees.pass (helement : a.node.value.makesElement = false)
    (hattr : a.node.value.makesAttribute = false) (known : Bool)
    (hknown : known = true ↔ a.node.value.repeats = false ∧ scope.bindingKnown = true) :
    Agrees (a :: around) { scope with bindingKnown := known } := by
  have hsets : a.node.value.setsSink = false :=
    (Value.setsSink_of_not_makesElement helement).trans hattr
  refine ⟨?_, ?_, ?_, ?_⟩
  · exact h.sink.trans (sinkAt?_cons_of_not_setsSink hsets).symm
  · exact h.mailto.trans (isMailtoAt_cons_of_not_setsSink hsets).symm
  · rw [noLoop_cons_iff, hknown, h.known]
  · rw [copiesValue_cons_of_not_setsSink hsets, helement]
    exact h.holder

theorem Agrees.ofElement (helement : a.node.value.makesElement = true) (dynamic : Bool) :
    Agrees (a :: around) (scope.ofElement a.node.value.madeName dynamic) := by
  have hattr : a.node.value.makesAttribute = false := Value.makesAttribute_of_makesElement helement
  have hrepeats : a.node.value.repeats = false := Value.repeats_of_makesElement helement
  have hknown : scope.bindingKnown = true ↔ NoLoop (a :: around) := by
    rw [noLoop_cons_iff, h.known, and_iff_right hrepeats]
  unfold Scope.ofElement
  cases hsink : elementSink? a.node.value.madeName with
  | some sink =>
    have hsetter : setter? (a :: around) = some a :=
      setter?_cons_of_setsSink (by simp [Value.setsSink, hsink])
    refine ⟨?_, ?_, hknown, ?_⟩
    · rw [sinkAt?, hsetter, Option.bind_some, sinkInside?_of_makesElement helement, hsink]
    · rw [isMailtoAt, hsetter, Option.any_some, hattr, Bool.false_and, Bool.false_and]
    · simp [copiesValue, hsetter, hattr]
  | none =>
    have hsets : a.node.value.setsSink = false := by simp [Value.setsSink, hsink, hattr]
    have hcopies : copiesValue (a :: around) = (copiesValue around && (sinkAt? around).isSome) := by
      rw [copiesValue_cons_of_not_setsSink hsets, if_pos helement]
    -- In a sink the scope goes on into the element, elsewhere the element has its own.
    cases houter : scope.sink with
    | some sink =>
      refine ⟨h.sink.trans (sinkAt?_cons_of_not_setsSink hsets).symm,
        h.mailto.trans (isMailtoAt_cons_of_not_setsSink hsets).symm, hknown, ?_⟩
      rw [hcopies, ← h.sink, houter, Option.isSome_some, Bool.and_true]
      exact h.holder
    | none =>
      have hnone : sinkAt? (a :: around) = none := by
        rw [sinkAt?_cons_of_not_setsSink hsets, ← h.sink, houter]
      refine ⟨hnone.symm, (isMailtoAt_of_sinkAt?_eq_none hnone).symm, hknown, ?_⟩
      rw [hcopies, ← h.sink, houter, Option.isSome_none, Bool.and_false]
      simp

theorem Agrees.ofAttribute {written : String} {namespaceName : Option String}
    (hvalue : a.node.value = .attributeConstructor written namespaceName) :
    Agrees (a :: around) (scope.ofAttribute a.ancestors written a.node) := by
  have hattr : a.node.value.makesAttribute = true := by rw [hvalue]; rfl
  have hrepeats : a.node.value.repeats = false := by rw [hvalue]; rfl
  have hsets : a.node.value.setsSink = true := by rw [Value.setsSink, hattr, Bool.true_or]
  have hsetter : setter? (a :: around) = some a := setter?_cons_of_setsSink hsets
  have hinside : (scope.ofAttribute a.ancestors written a.node).sink = sinkInside? a := by
    simp only [sinkInside?, hvalue, Scope.ofAttribute, attributeSink?_lower]
  refine ⟨?_, ?_, ?_, ?_⟩
  · rw [sinkAt?, hsetter, Option.bind_some, hinside]
  · rw [isMailtoAt, hsetter, Option.any_some, hattr, Bool.true_and, ← hinside]
    simp only [Scope.ofAttribute]
  · simp only [Scope.ofAttribute, noLoop_cons_iff, hrepeats, true_and, h.known]
  · simp [Scope.ofAttribute, copiesValue, hsetter, hattr, hsets]

/-- A step down keeps what is known of the scope. -/
theorem Agrees.inside (hinside : scope.inside? a.ancestors a.node = some inner) :
    Agrees (a :: around) inner := by
  unfold Scope.inside? at hinside
  split at hinside
  case h_1 e hvalue =>
    obtain rfl := Option.some.inj hinside
    have hname : a.node.value.madeName = Text.lower e.name := by rw [hvalue]; rfl
    exact hname ▸ h.ofElement (by rw [hvalue]; rfl) false
  case h_2 hvalue =>
    obtain rfl := Option.some.inj hinside
    exact h.ofElement (by rw [hvalue]; rfl) true
  case h_3 hvalue =>
    obtain rfl := Option.some.inj hinside
    exact h.ofAttribute hvalue
  case h_4 hvalue =>
    obtain rfl := Option.some.inj hinside
    exact h.pass (by rw [hvalue]; rfl) (by rw [hvalue]; rfl) false
      (by rw [hvalue]; simp [Value.repeats])
  case h_8 =>
    obtain rfl := Option.some.inj hinside
    have hplain : a.node.value.makesElement = false ∧ a.node.value.makesAttribute = false ∧
        a.node.value.repeats = false := by
      cases hv : a.node.value <;>
        simp_all [Value.makesElement, Value.makesAttribute, Value.repeats]
    exact h.pass hplain.1 hplain.2.1 scope.bindingKnown (by rw [hplain.2.2]; simp)
  all_goals cases hinside

end Step

theorem Scope.inside?_eq_none_iff {scope : Scope} {ancestors : List Node} {n : Node} :
    scope.inside? ancestors n = none ↔ n.value.inserts = true := by
  unfold Scope.inside?
  cases n.value <;> simp [Value.inserts]

/-- There is a scope between some nodes unless one of them inserts something else, and it is
what they say. -/
theorem scopeAt?_spec (around : List Visit) :
    (Reached around → ∃ scope, scopeAt? around = some scope ∧ Agrees around scope) ∧
      (¬Reached around → scopeAt? around = none) := by
  induction around with
  | nil =>
    exact ⟨fun _ => ⟨.outermost, rfl, agrees_outermost⟩, fun h => absurd (List.forall_mem_nil _) h⟩
  | cons a around ih =>
    rw [scopeAt?, Reached, List.forall_mem_cons]
    constructor
    · rintro ⟨ha, haround⟩
      obtain ⟨scope, hscope, hagrees⟩ := ih.1 haround
      have hsome : scope.inside? a.ancestors a.node ≠ none := by
        rw [Ne, Scope.inside?_eq_none_iff, ha]
        exact Bool.false_ne_true
      obtain ⟨inner, hinner⟩ := Option.ne_none_iff_exists'.mp hsome
      refine ⟨inner, ?_, hagrees.inside hinner⟩
      rw [hscope, Option.bind_some, hinner]
    · intro h
      by_cases haround : Reached around
      · obtain ⟨scope, hscope, -⟩ := ih.1 haround
        rw [hscope, Option.bind_some, Scope.inside?_eq_none_iff]
        by_contra ha
        exact h ⟨Bool.eq_false_iff.mpr ha, haround⟩
      · rw [ih.2 haround, Option.bind_none]

/-! ## Flows by place -/

/-- The flow from a place, if output comes from there. -/
def flow? (visit : Visit) : Option Flow := (scopeAt? visit.around).map fun scope => ⟨visit, scope⟩

mutual

/-- The visits of a tree that output comes from are its flows, and none if nothing comes
from the place of the tree. -/
theorem filterMap_flow?_visitsAt (path : Path) (ancestors : List Node) (scope? : Option Scope) :
    ∀ n : Node, ancestors ≠ [] → scopeAt? (Visit.around ⟨path, ancestors, n⟩) = scope? →
      (Node.visitsAt path ancestors n).filterMap flow? =
        scope?.elim [] fun scope => flowsAt path ancestors scope n
  | ⟨v, u, cs⟩, hroot, hscope => by
    have hbelow := filterMap_flow?_visitsBelow path (⟨v, u, cs⟩ :: ancestors)
      (scope?.bind fun scope => scope.inside? ancestors ⟨v, u, cs⟩) 0 cs (List.cons_ne_nil _ _)
      fun j c => by
        rw [← hscope]
        exact congrArg scopeAt? (Visit.around_child ⟨path, ancestors, ⟨v, u, cs⟩⟩ hroot j c)
    cases scope? with
    | none =>
      have hflow : flow? ⟨path, ancestors, ⟨v, u, cs⟩⟩ = none := by rw [flow?, hscope]; rfl
      rw [Node.visitsAt, List.filterMap_cons_none hflow, hbelow]
      rfl
    | some scope =>
      have hflow : flow? ⟨path, ancestors, ⟨v, u, cs⟩⟩ =
          some ⟨⟨path, ancestors, ⟨v, u, cs⟩⟩, scope⟩ := by
        rw [flow?, hscope]
        rfl
      rw [Node.visitsAt, List.filterMap_cons_some hflow, hbelow, Option.elim_some, flowsAt,
        Option.bind_some]
      cases scope.inside? ancestors ⟨v, u, cs⟩ <;> rfl

theorem filterMap_flow?_visitsBelow (path : Path) (ancestors : List Node)
    (scope? : Option Scope) (i : Nat) :
    ∀ l : List Node, ancestors ≠ [] →
      (∀ j c, scopeAt? (Visit.around ⟨path ++ [j], ancestors, c⟩) = scope?) →
      (Node.visitsBelow path ancestors i l).filterMap flow? =
        scope?.elim [] fun scope => flowsBelow path ancestors scope i l
  | [], _, _ => by cases scope? <;> rfl
  | n :: rest, hroot, hscope => by
    have hn := filterMap_flow?_visitsAt (path ++ [i]) ancestors scope? n hroot (hscope i n)
    have hrest := filterMap_flow?_visitsBelow path ancestors scope? (i + 1) rest hroot hscope
    rw [Node.visitsBelow, List.filterMap_append, hn, hrest]
    cases scope? with
    | none => rfl
    | some scope => rw [Option.elim_some, Option.elim_some, Option.elim_some, flowsBelow]

end

theorem flows_eq (template : Node) : flows template = template.content.filterMap flow? := by
  rw [Node.content_eq]
  refine (filterMap_flow?_visitsBelow [] [template] (some .outermost) 0 template.children
    (List.cons_ne_nil _ _) fun j c => ?_).symm
  exact congrArg scopeAt? (Visit.around_child_root template j c)

/-! ## Safe flows -/

section Hazards

variable {g : Grant} {around : List Visit} {scope : Scope} {sink : Sink}

theorem referenceHazard?_eq_none_iff (h : Agrees around scope) {mailto : Bool} {name : String} :
    referenceHazard? g scope.bindingKnown mailto sink name = none ↔
      ReferenceSafe g around mailto sink name := by
  rw [ReferenceSafe, ← h.known, ← Grant.isFiltered_iff]
  unfold referenceHazard?
  cases hknown : scope.bindingKnown with
  | false => simp
  | true =>
    cases hsafe : g.isFiltered name (if mailto then .attributeValue else sink) with
    | false => cases g.declares name <;> simp
    | true => simp [Grant.declares_of_isFiltered hsafe]

theorem outputHazard?_eq_none_iff (h : Agrees around scope) {mailto : Bool} {source : String} :
    outputHazard? g scope.bindingKnown mailto sink source = none ↔
      OutputSafe g around mailto sink source := by
  unfold outputHazard? OutputSafe
  cases XPath.Expr.parse source with
  | error _ => simp
  | ok e =>
    cases hsources : e.sources? with
    | none => simp [hsources]
    | some names => simp [hsources, referenceHazard?_eq_none_iff h]

theorem valueTemplateHazard?_eq_none_iff (h : Agrees around scope) {value : String} :
    valueTemplateHazard? g scope.bindingKnown sink value = none ↔
      ValueTemplateSafe g around sink value := by
  unfold valueTemplateHazard? ValueTemplateSafe
  cases ValueTemplate.parse value with
  | error _ => simp
  | ok parts => simp [outputHazard?_eq_none_iff h]

theorem literalAttributesHazard?_eq_none_iff (h : Agrees around scope) {e : Element} :
    literalAttributesHazard? g scope.bindingKnown e = none ↔
      ∀ a ∈ e.attributes, isInstructionAttribute a.1 = false →
        ∀ sink, attributeSink? (Text.lower e.name) a.1 (e.get? "name") = some sink →
          ValueTemplateSafe g around sink a.2 := by
  simp only [literalAttributesHazard?, List.findSome?_eq_none_iff]
  refine forall₂_congr fun a _ => ?_
  cases isInstructionAttribute a.1 with
  | true => simp
  | false =>
    cases attributeSink? (Text.lower e.name) a.1 (e.get? "name") with
    | none => simp
    | some sink => simp [valueTemplateHazard?_eq_none_iff h]

end Hazards

section Places

variable {g : Grant} {visit : Visit} {scope : Scope}

theorem copySink?_eq (h : Agrees visit.around scope) (name : String) :
    copySink? scope visit.ancestors name = copySinkAt? visit name := by
  unfold copySink? copySinkAt?
  cases hholder : scope.holder with
  | attr written =>
    rw [if_pos (h.holder.mp ⟨written, hholder⟩)]
    exact h.sink
  | template | element =>
    have hnot : ¬copiesValue visit.around = true := by
      intro hcopies
      obtain ⟨written, hwritten⟩ := h.holder.mpr hcopies
      rw [hholder] at hwritten
      cases hwritten
    rw [if_neg hnot]

theorem copyHazard?_eq_none_iff (h : Agrees visit.around scope) {select : String} :
    copyHazard? g scope visit.ancestors select = none ↔
      ∃ e name, XPath.Expr.parse select = .ok e ∧ e.asAttribute? = some name ∧
        ∀ sink, copySinkAt? visit name = some sink →
          ReferenceSafe g visit.around false sink name := by
  unfold copyHazard?
  cases XPath.Expr.parse select with
  | error _ => simp
  | ok e =>
    cases hname : e.asAttribute? with
    | none => simp [hname]
    | some name =>
      cases hsink : copySinkAt? visit name with
      | none => simp [hname, copySink?_eq h, hsink]
      | some sink => simp [hname, copySink?_eq h, hsink, referenceHazard?_eq_none_iff h]

/-- Each kind of node is judged by the places around it. -/
theorem flowHazard?_eq_none_iff (h : Agrees visit.around scope) :
    flowHazard? g ⟨visit, scope⟩ = none ↔ PlaceSafe g visit := by
  unfold flowHazard? PlaceSafe
  cases visit.node.value with
  | element e => exact literalAttributesHazard?_eq_none_iff h
  | valueOf select unescaped =>
    rw [← h.sink, ← h.mailto]
    cases hsink : scope.sink with
    | none => simp [hsink]
    | some sink => simp [hsink, outputHazard?_eq_none_iff h]
  | copyOf select => exact copyHazard?_eq_none_iff h
  | applyTemplates select =>
    rw [← h.sink]
    simp
  | instruction name attributes =>
    rw [← h.sink]
    cases hsink : scope.sink <;> simp [hsink]
  | _ => simp

/-- The flows have no violation if the places that output comes from are safe. -/
theorem flowViolation?_eq_none_iff {template : Node} :
    flowViolation? g template = none ↔
      ∀ visit ∈ template.content, Reached visit.around → PlaceSafe g visit := by
  simp only [flowViolation?, flows_eq, List.findSome?_eq_none_iff, List.mem_filterMap,
    Option.map_eq_none_iff]
  constructor
  · intro h visit hvisit hreached
    obtain ⟨scope, hscope, hagrees⟩ := (scopeAt?_spec visit.around).1 hreached
    rw [← flowHazard?_eq_none_iff hagrees]
    refine h ⟨visit, scope⟩ ⟨visit, hvisit, ?_⟩
    rw [flow?, hscope, Option.map_some]
  · rintro h flow ⟨visit, hvisit, hflow⟩
    by_cases hreached : Reached visit.around
    · obtain ⟨scope, hscope, hagrees⟩ := (scopeAt?_spec visit.around).1 hreached
      rw [flow?, hscope, Option.map_some, Option.some.injEq] at hflow
      rw [← hflow]
      exact (flowHazard?_eq_none_iff hagrees).mpr (h visit hvisit hreached)
    · rw [flow?, (scopeAt?_spec visit.around).2 hreached] at hflow
      cases hflow

end Places

/-- The context walk is sound and complete.  A template that passes the other checks is
accepted exactly if every place below the root that is not inside an insertion is safe. -/
theorem accepts_iff_places_safe {g : Grant} {template : Node}
    (hstructure : structureViolation? template = none)
    (hexpressions : expressionViolation? template = none)
    (hurls : fixedUrlViolation? g template = none)
    (hscripts : scriptAccessViolation? g.options.maxScriptAccess template = none) :
    accepts g template = true ↔
      ∀ visit ∈ template.content, Reached visit.around → PlaceSafe g visit := by
  rw [accepts_iff, flowViolation?_eq_none_iff]
  constructor
  · intro h
    exact h.2.2.2.2
  · intro h
    exact ⟨hstructure, hexpressions, hurls, hscripts, h⟩

/-- A tag with a number and an address of mail. -/
def contactGrant : Grant where
  tag :=
    { name := ⟨"CONTACT"⟩
      attributes := .ofList [(⟨"id"⟩, { name := ⟨"id"⟩, type := .int }),
        (⟨"mail"⟩, { name := ⟨"mail"⟩, type := .email })] }
  lookup := FilterRegistry.default.lookup

def contactSource : String :=
  "<a onclick=\"go({@id})\"><xsl:attribute name=\"href\">mailto:<b>" ++
    "<xsl:value-of select=\"@mail\"/></b></xsl:attribute></a>"

def loopSource : String :=
  "<script><i><xsl:for-each select=\"//y\"><xsl:value-of select=\"@id\"/></xsl:for-each></i>" ++
    "</script>"

/-- A number goes into a handler, and an address of mail into an element in the attribute
that its scheme begins.  In a script even a number is not safe inside a loop. -/
theorem accepts_iff_places_safe_contact :
    (∃ template, Template.parse false contactSource = .ok template ∧
      ∀ visit ∈ template.content, Reached visit.around → PlaceSafe contactGrant visit) ∧
    ∃ template, Template.parse false loopSource = .ok template ∧
      structureViolation? template = none ∧ expressionViolation? template = none ∧
      fixedUrlViolation? contactGrant template = none ∧
      scriptAccessViolation? contactGrant.options.maxScriptAccess template = none ∧
      ¬∀ visit ∈ template.content, Reached visit.around → PlaceSafe contactGrant visit := by
  constructor
  · obtain ⟨template, hparse, haccepts⟩ := exists_ok_of_any (p := accepts contactGrant)
      (x := Template.parse false contactSource) (by decide +kernel)
    obtain ⟨h₁, h₂, h₃, h₄, -⟩ := (accepts_iff _ _).mp haccepts
    exact ⟨template, hparse, (accepts_iff_places_safe h₁ h₂ h₃ h₄).mp haccepts⟩
  · obtain ⟨template, hparse, h⟩ := exists_ok_of_any (p := fun template =>
        (structureViolation? template).isNone && (expressionViolation? template).isNone &&
          (fixedUrlViolation? contactGrant template).isNone &&
          (scriptAccessViolation? contactGrant.options.maxScriptAccess template).isNone &&
          !accepts contactGrant template)
      (x := Template.parse false loopSource) (by decide +kernel)
    simp only [Bool.and_eq_true, Option.isNone_iff_eq_none, Bool.not_eq_true'] at h
    obtain ⟨⟨⟨⟨h₁, h₂⟩, h₃⟩, h₄⟩, hrejected⟩ := h
    refine ⟨template, hparse, h₁, h₂, h₃, h₄, fun hsafe => ?_⟩
    rw [(accepts_iff_places_safe h₁ h₂ h₃ h₄).mpr hsafe] at hrejected
    cases hrejected

end Safety
end TagGrammar
