/-
What a node is judged by.

A check of a node looks at the node, at what is below it and at the elements around it.  Of
these elements it sees no more than `Alike` says, and of what is below no more than `Kept`
does.  So a template is accepted exactly if each node is at its place (`AcceptedAt`), and
to change a template one has to look at the changed place alone.
-/
import TagGrammar.Proofs.Safety.Embedding
import TagGrammar.Proofs.Safety.Expressions
import TagGrammar.Proofs.Safety.Names

namespace TagGrammar

namespace Node

mutual

/-- The nodes of a tree that belong to the element around the tree.  What stands in an
element of the tree belongs to that one. -/
def owned : Node → List Node
  | ⟨v, u, cs⟩ => ⟨v, u, cs⟩ :: if v.makesElement then [] else ownedOfAll cs

def ownedOfAll : List Node → List Node
  | [] => []
  | n :: rest => n.owned ++ ownedOfAll rest

end

theorem ownedOfAll_append (l l' : List Node) :
    ownedOfAll (l ++ l') = ownedOfAll l ++ ownedOfAll l' := by
  induction l with
  | nil => rfl
  | cons n rest ih => rw [List.cons_append, ownedOfAll, ih, ownedOfAll, List.append_assoc]

end Node

namespace Visit

theorem ownerPath?_child (visit : Visit) (i : Nat) (c : Node) :
    (visit.child i c).ownerPath? =
      if visit.node.value.makesElement then some visit.path else visit.ownerPath? := by
  rw [ownerPath?, above_child, List.find?_cons, ownerPath?]
  cases visit.node.value.makesElement <;> rfl

end Visit

namespace Node

mutual

/-- Behind the path of an element the nodes whose owner stands there are those that belong
to it. -/
theorem map_node_filter_visitsAt (owner path : Path) (ancestors : List Node) :
    ∀ n : Node, owner.length < path.length →
      ((visitsAt path ancestors n).filter fun v => v.ownerPath? == some owner).map Visit.node =
        if Visit.ownerPath? ⟨path, ancestors, n⟩ = some owner then n.owned else []
  | ⟨v, u, cs⟩, hlength => by
    have hbelow := map_node_filter_visitsBelow owner path (⟨v, u, cs⟩ :: ancestors) 0 cs
      (Nat.le_of_lt hlength) fun j c => Visit.ownerPath?_child ⟨path, ancestors, ⟨v, u, cs⟩⟩ j c
    have hne : path ≠ owner := fun h => absurd hlength (h ▸ Nat.lt_irrefl _)
    rw [visitsAt, List.filter_cons, owned]
    by_cases howner : Visit.ownerPath? ⟨path, ancestors, ⟨v, u, cs⟩⟩ = some owner
    · rw [if_pos (beq_iff_eq.mpr howner), if_pos howner, List.map_cons, hbelow]
      cases v.makesElement <;> simp [howner, hne]
    · rw [if_neg (fun h => howner (beq_iff_eq.mp h)), if_neg howner, hbelow]
      cases v.makesElement <;> simp [howner, hne]

theorem map_node_filter_visitsBelow {nearest : Option Path} (owner path : Path)
    (ancestors : List Node) (i : Nat) :
    ∀ l : List Node, owner.length ≤ path.length →
      (∀ j c, Visit.ownerPath? ⟨path ++ [j], ancestors, c⟩ = nearest) →
        ((visitsBelow path ancestors i l).filter fun v => v.ownerPath? == some owner).map
          Visit.node = if nearest = some owner then ownedOfAll l else []
  | [], _, _ => by simp [visitsBelow, ownedOfAll]
  | n :: rest, hlength, hnearest => by
    have hn := map_node_filter_visitsAt owner (path ++ [i]) ancestors n (by simp; omega)
    rw [hnearest i n] at hn
    rw [visitsBelow, List.filter_append, List.map_append, hn,
      map_node_filter_visitsBelow owner path ancestors (i + 1) rest hlength hnearest, ownedOfAll]
    split <;> rfl

end

/-- What belongs to an element. -/
theorem map_node_filter_below {visit : Visit} (helement : visit.node.value.makesElement = true) :
    (visit.below.filter fun v => v.ownerPath? == some visit.path).map Visit.node =
      ownedOfAll visit.node.children := by
  have howned := map_node_filter_visitsBelow visit.path visit.path
    (visit.node :: visit.ancestors) 0 visit.node.children (Nat.le_refl _)
    fun j c => Visit.ownerPath?_child visit j c
  rw [if_pos (by rw [if_pos helement])] at howned
  rw [Visit.below_eq, howned]

end Node

namespace Safety

/-! ## What is seen of the nodes around -/

/-- Two nodes that make the same element for all that the checks of nodes inside it see. -/
structure Alike (n n' : Node) : Prop where
  makesElement : n'.value.makesElement = n.value.makesElement
  makesSame : MakesSame n.value n'.value
  paramName? : n.value.madeName? = some "param" → n'.value.paramName? = n.value.paramName?
  grants : ∀ most, GrantsAtMost most n' ↔ GrantsAtMost most n

theorem Alike.refl (n : Node) : Alike n n :=
  ⟨rfl, fun _ _ => Iff.rfl, fun _ => rfl, fun _ => Iff.rfl⟩

/-- The name of the parameter matters only if the element is one. -/
theorem attributeSink?_of_ne_param {element element' : String} (h : element ≠ "param")
    (h' : element' ≠ "param") (name : String) (param param' : Option String) :
    attributeSink? element' name param' = attributeSink? element name param := by
  have hvalue : ∀ {element : String}, element ≠ "param" → ∀ written param,
      isUrlParamValue element written param = false := by
    intro element hne written param
    simp [isUrlParamValue, hne]
  unfold attributeSink?
  simp only [hvalue h, hvalue h']

section Ancestors

variable {ancestors ancestors' : List Node} (h : List.Forall₂ Alike ancestors ancestors')

include h

theorem rel_owner? : Option.Rel Alike (owner? ancestors) (owner? ancestors') :=
  rel_find? (fun _ _ halike => halike.makesElement) h

theorem ownerName_alike {element : String} (hknown : element ∈ knownElements) :
    (ownerName ancestors' == element) = (ownerName ancestors == element) := by
  have howner := rel_owner? h
  unfold ownerName
  generalize owner? ancestors = o, owner? ancestors' = o' at howner ⊢
  cases howner with
  | none => rfl
  | some halike => exact halike.makesSame.madeName_beq hknown

theorem attributeSink?_alike (name : String) :
    attributeSink? (ownerName ancestors') name (ownerParam? ancestors') =
      attributeSink? (ownerName ancestors) name (ownerParam? ancestors) := by
  have hsame := ownerName_alike h (by decide : "param" ∈ knownElements)
  by_cases hparam : ownerName ancestors = "param"
  · have hparam' : ownerName ancestors' = "param" := by
      rwa [hparam, beq_self_eq_true, beq_iff_eq] at hsame
    have howner := rel_owner? h
    rw [hparam, hparam']
    unfold ownerName at hparam
    unfold ownerParam?
    generalize owner? ancestors = o, owner? ancestors' = o' at howner hparam ⊢
    cases howner with
    | none => rfl
    | some halike =>
      have hmade := (Value.madeName_eq_iff (by decide)).mp hparam
      rw [Option.bind_some, Option.bind_some, halike.paramName? hmade]
  · rw [beq_eq_false_iff_ne.mpr hparam, beq_eq_false_iff_ne] at hsame
    exact attributeSink?_of_ne_param hparam hsame name _ _

theorem rel_aboveFrom (path path' : Path) :
    List.Forall₂ (fun a a' : Visit => Alike a.node a'.node) (Visit.aboveFrom path ancestors)
      (Visit.aboveFrom path' ancestors') := by
  induction h generalizing path path' with
  | nil => exact List.Forall₂.nil
  | cons halike _ ih => exact List.Forall₂.cons halike (ih path.dropLast path'.dropLast)

end Ancestors

theorem rel_enclosingObject? {visit visit' : Visit}
    (h : List.Forall₂ Alike visit.ancestors visit'.ancestors) :
    Option.Rel (fun a a' : Visit => Alike a.node a'.node) (enclosingObject? visit)
      (enclosingObject? visit') :=
  rel_find? (fun _ _ halike => halike.makesSame.madeName_beq (by decide))
    (rel_aboveFrom h visit.path visit'.path)

/-! ## What is seen of the nodes below -/

/-- The attributes that instructions make of an element, with whether each is literal. -/
def madeAttributes (n : Node) : List (String × Bool) :=
  (Node.ownedOfAll n.children).filterMap madeAttribute?

/-- A node is the same for its checks, and so is what they look at below it. -/
structure Kept (n n' : Node) : Prop where
  value : SameValue n.value n'.value
  unescaped : n'.unescaped = n.unescaped
  beginsMailto : Scope.beginsMailto n' = Scope.beginsMailto n
  made : List.Forall₂ SameEntry (madeAttributes n) (madeAttributes n')
  grants : ∀ most, GrantsAtMost most n' ↔ GrantsAtMost most n

theorem Kept.refl (n : Node) : Kept n n where
  value := .refl n.value
  unescaped := rfl
  beginsMailto := rfl
  made := List.forall₂_same.mpr fun made _ => .refl made
  grants := fun _ => Iff.rfl

theorem Kept.alike {n n' : Node} (h : Kept n n') : Alike n n' where
  makesElement := h.value.makesElement
  makesSame := h.value.makesSame
  paramName? := fun _ => h.value.paramName?
  grants := h.grants

section Urls

variable {g : Grant} {visit visit' : Visit}

theorem isExempt_alike (h : Alike visit.node visit'.node) :
    isExempt g visit' = isExempt g visit := by
  rw [Bool.eq_iff_iff]
  simp only [isExempt, Option.isNone_iff_eq_none, embeddingViolation?_eq_none_iff]
  exact h.grants _

/-- The elements whose attributes may have to be fixed. -/
def loadingElements : List String := ["embed", "iframe", "object", "param", "script"]

theorem fixedAttributes?_of_not_mem (h : visit.node.value.madeName ∉ loadingElements) :
    fixedAttributes? g visit = none := by
  unfold fixedAttributes?
  split <;> first | rfl | (rename_i hname; exact absurd (hname ▸ by decide) h)

theorem fixedAttributes?_alike (hnode : Alike visit.node visit'.node)
    (habove : List.Forall₂ Alike visit.ancestors visit'.ancestors) :
    fixedAttributes? g visit' = fixedAttributes? g visit := by
  have hloading : ∀ element ∈ loadingElements, element ∈ knownElements := by decide
  rcases hnode.makesSame.madeName_cases with hname | ⟨hunknown', hunknown⟩
  · have hobject := rel_enclosingObject? habove
    unfold fixedAttributes?
    rw [hname, isExempt_alike hnode]
    generalize enclosingObject? visit = o, enclosingObject? visit' = o' at hobject ⊢
    cases hobject with
    | none => rfl
    | some halike => simp only [isExempt_alike halike]
  · rw [fixedAttributes?_of_not_mem fun hmem => hunknown (hloading _ hmem),
      fixedAttributes?_of_not_mem fun hmem => hunknown' (hloading _ hmem)]

/-- Only elements have attributes that must be fixed. -/
theorem makesElement_of_fixedAttributes? {attributes : FixedAttributes}
    (h : fixedAttributes? g visit = some attributes) : visit.node.value.makesElement = true := by
  by_contra helement
  have hname : visit.node.value.madeName = "" := by
    cases hvalue : visit.node.value <;> first | rfl | exact absurd (by rw [hvalue]; rfl) helement
  rw [fixedAttributes?, hname] at h
  cases h

theorem literalUrlViolation?_eq_none_iff {attributes : FixedAttributes} :
    literalUrlViolation? g visit attributes = none ↔
      ∀ e, visit.node.value.asElement? = some e → ∀ a ∈ e.attributes,
        attributes.contains visit.node.value.paramName? a.1 = true → isFixedUrl g a.2 = true := by
  unfold literalUrlViolation?
  cases he : visit.node.value.asElement? with
  | none => simp [he]
  | some e => simp [he]

theorem madeUrlViolation?_eq_none_iff (helement : visit.node.value.makesElement = true)
    {attributes : FixedAttributes} :
    madeUrlViolation? visit attributes = none ↔
      ∀ made ∈ madeAttributes visit.node,
        attributes.contains visit.node.value.paramName? made.1 = true → made.2 = true := by
  rw [madeAttributes, ← Node.map_node_filter_below helement, madeUrlViolation?,
    List.findSome?_eq_none_iff]
  simp only [List.mem_filterMap, List.mem_map, List.mem_filter]
  constructor
  · rintro h made ⟨_, ⟨inner, ⟨hinner, howner⟩, rfl⟩, hmade⟩ hcontains
    have hnone := h inner hinner
    rw [if_pos howner, hmade, Option.bind_some, hcontains, Bool.and_true] at hnone
    simpa using hnone
  · intro h inner hinner
    by_cases howner : (inner.ownerPath? == some visit.path) = true
    · rw [if_pos howner]
      cases hmade : madeAttribute? inner.node with
      | none => rfl
      | some made =>
        have hliteral := h made ⟨_, ⟨inner, ⟨hinner, howner⟩, rfl⟩, hmade⟩
        rw [Option.bind_some, if_neg]
        simp only [Bool.and_eq_true, Bool.not_eq_true', not_and]
        intro hopen hcontains
        rw [hliteral hcontains] at hopen
        cases hopen
    · rw [if_neg howner]

theorem urlViolation?_kept (visit visit' : Visit) (hnode : Kept visit.node visit'.node)
    (habove : List.Forall₂ Alike visit.ancestors visit'.ancestors) :
    urlViolation? g visit' = none ↔ urlViolation? g visit = none := by
  rw [urlViolation?, urlViolation?, fixedAttributes?_alike hnode.alike habove]
  cases hfixed : fixedAttributes? g visit with
  | none => exact Iff.rfl
  | some attributes =>
    have helement := makesElement_of_fixedAttributes? hfixed
    have helement' : visit'.node.value.makesElement = true := by
      rw [hnode.value.makesElement, helement]
    rw [Option.bind_some, Option.or_eq_none_iff, Option.bind_some, Option.or_eq_none_iff,
      literalUrlViolation?_eq_none_iff, literalUrlViolation?_eq_none_iff,
      madeUrlViolation?_eq_none_iff helement, madeUrlViolation?_eq_none_iff helement',
      hnode.value.paramName?]
    refine and_congr ?_ ?_
    · have hasElement := hnode.value.asElement?
      generalize visit.node.value.asElement? = o, visit'.node.value.asElement? = o' at hasElement
      cases hasElement with
      | none => simp
      | some he =>
        simp only [Option.some.injEq, forall_eq']
        refine forall_mem_iff_of_forall₂ (fun a a' ha => ?_) he.attributes
        rw [ha.name.contains, ha.value]
    · refine forall_mem_iff_of_forall₂ (fun made made' hmade => ?_) hnode.made
      rw [hmade.name.contains, hmade.value]

end Urls

/-! ## Accepted places -/

/-- What is asked of a node below some ancestors, but for what it writes. -/
@[mk_iff]
structure NodeAccepted (g : Grant) (ancestors : List Node) (n : Node) : Prop where
  escaped : n.disablesEscaping = false
  judged : valueHazard? ancestors n.value = none
  read : ∀ site ∈ n.value.expressionSites, siteHazard? site = none
  fixed : ∀ path, urlViolation? g ⟨path, ancestors, n⟩ = none
  bounded : ∀ most, g.options.maxScriptAccess = some most → GrantsAtMost most n

/-- What is asked of a node below some ancestors whose output goes where a scope says, if
there is one. -/
@[mk_iff]
structure PlaceAccepted (g : Grant) (ancestors : List Node) (scope? : Option Scope) (n : Node) :
    Prop extends NodeAccepted g ancestors n where
  safe : ∀ path, ∀ scope ∈ scope?, flowHazard? g ⟨⟨path, ancestors, n⟩, scope⟩ = none

mutual

/-- Every node of a tree below some ancestors is accepted at its place. -/
def AcceptedAt (g : Grant) (ancestors : List Node) (scope? : Option Scope) : Node → Prop
  | ⟨v, u, cs⟩ =>
    PlaceAccepted g ancestors scope? ⟨v, u, cs⟩ ∧
      AcceptedBelow g (⟨v, u, cs⟩ :: ancestors)
        (scope?.bind fun scope => scope.inside? ancestors ⟨v, u, cs⟩) cs

def AcceptedBelow (g : Grant) (ancestors : List Node) (scope? : Option Scope) : List Node → Prop
  | [] => True
  | n :: rest => AcceptedAt g ancestors scope? n ∧ AcceptedBelow g ancestors scope? rest

end

section Places

variable {g : Grant} {ancestors ancestors' : List Node} {scope? : Option Scope}

theorem acceptedBelow_iff {l : List Node} :
    AcceptedBelow g ancestors scope? l ↔ ∀ n ∈ l, AcceptedAt g ancestors scope? n := by
  induction l with
  | nil => simp [AcceptedBelow]
  | cons n rest ih => rw [AcceptedBelow, ih, List.forall_mem_cons]

theorem acceptedAt_iff {n : Node} :
    AcceptedAt g ancestors scope? n ↔ PlaceAccepted g ancestors scope? n ∧
      ∀ c ∈ n.children, AcceptedAt g (n :: ancestors)
        (scope?.bind fun scope => scope.inside? ancestors n) c := by
  obtain ⟨v, u, cs⟩ := n
  rw [AcceptedAt, acceptedBelow_iff]

/-- Two scopes whose output may be the same.  The name of what it belongs to does not matter. -/
structure SameScope (scope scope' : Scope) : Prop where
  sink : scope'.sink = scope.sink
  holder : (∃ name, scope'.holder = .attr name) ↔ ∃ name, scope.holder = .attr name
  mailto : scope'.mailto = scope.mailto
  bindingKnown : scope'.bindingKnown = scope.bindingKnown

namespace SameScope

theorem refl (scope : Scope) : SameScope scope scope := ⟨rfl, Iff.rfl, rfl, rfl⟩

variable {scope scope' : Scope} (h : SameScope scope scope')

include h

theorem ofElement {name name' : String} (hsink : elementSink? name' = elementSink? name)
    (dynamic dynamic' : Bool) :
    SameScope (scope.ofElement name dynamic) (scope'.ofElement name' dynamic') := by
  unfold Scope.ofElement
  rw [hsink, h.sink]
  split
  · exact h
  · exact ⟨rfl, by simp, rfl, h.bindingKnown⟩

end SameScope

theorem copySink?_of_not_attr {scope : Scope} (h : ¬∃ holder, scope.holder = .attr holder)
    (name : String) :
    copySink? scope ancestors name =
      attributeSink? (ownerName ancestors) name (ownerParam? ancestors) := by
  unfold copySink?
  split
  · rename_i holder hholder
    exact absurd ⟨holder, hholder⟩ h
  · rfl

/-- No attribute under the lead of the instruction namespace needs to be left out. -/
theorem ite_isInstructionAttribute {β : Type} (element name : String) (param : Option String)
    (hazard : Sink → Option β) :
    (if isInstructionAttribute name then none
      else (attributeSink? element name param).bind hazard) =
        (attributeSink? element name param).bind hazard := by
  split
  · rename_i hlead
    rw [attributeSink?_of_isInstructionAttribute hlead, Option.bind_none]
  · rfl

theorem literalAttributesHazard?_same {e e' : Element} (h : SameElement e e') (known : Bool) :
    literalAttributesHazard? g known e' = none ↔ literalAttributesHazard? g known e = none := by
  simp only [literalAttributesHazard?, List.findSome?_eq_none_iff, ite_isInstructionAttribute]
  refine forall_mem_iff_of_forall₂ (fun a a' ha => ?_) h.attributes
  rw [h.name, h.get? (by decide), ha.name.attributeSink?, ha.value]

section Around

variable (habove : List.Forall₂ Alike ancestors ancestors')

include habove

/-- Of the nodes around, an instruction that makes an attribute asks for the owner alone. -/
theorem valueHazard?_alike {v v' : Value} (hvalue : SameValue v v') :
    valueHazard? ancestors' v' = valueHazard? ancestors v := by
  have hparam := ownerName_alike habove (by decide : "param" ∈ knownElements)
  cases hvalue with
  | refl v =>
    cases v with
    | attributeConstructor written namespaceName =>
      simp only [valueHazard?, constructorHazard?, hparam]
    | _ => rfl
  | element h => exact h.elementHazard?
  | dynamicElement h namespaceName sets =>
    obtain ⟨hliteral, hliteral', -⟩ := h
    rw [valueHazard?, valueHazard?, hliteral, hliteral']
    rfl
  | attributeConstructor hname hname' h namespaceName =>
    rw [valueHazard?, valueHazard?, constructorHazard?, constructorHazard?,
      ValueTemplate.literalText?_of_plain hname, ValueTemplate.literalText?_of_plain hname']
    simp only [hparam, h.sought "name" (by decide)]
  | processingInstructionConstructor hname hname' h =>
    rw [valueHazard?, valueHazard?, ValueTemplate.literalText?_of_plain hname,
      ValueTemplate.literalText?_of_plain hname']
    simp only [h]
  | instruction h name =>
    have hsets := any_eq_of_forall₂ (p := fun a => a.1 == "use-attribute-sets")
      (q := fun a => a.1 == "use-attribute-sets") (fun _ _ ha => ha.name _ (by decide)) h
    simp only [valueHazard?, hsets]

theorem SameScope.ofAttribute {scope scope' : Scope} (hscope : SameScope scope scope')
    {written written' : String}
    (hname : SameName ((ValueTemplate.literalText? written).getD "")
      ((ValueTemplate.literalText? written').getD "")) {n n' : Node}
    (hmailto : Scope.beginsMailto n' = Scope.beginsMailto n) :
    SameScope (scope.ofAttribute ancestors written n)
      (scope'.ofAttribute ancestors' written' n') := by
  have hsink : ∀ element param,
      attributeSink? element (Text.lower ((ValueTemplate.literalText? written').getD "")) param =
        attributeSink? element (Text.lower ((ValueTemplate.literalText? written).getD ""))
          param := by
    intro element param
    rw [attributeSink?_lower, attributeSink?_lower, hname.attributeSink?]
  constructor
  case holder => exact iff_of_true ⟨_, rfl⟩ ⟨_, rfl⟩
  case bindingKnown => simp only [Scope.ofAttribute, hscope.bindingKnown]
  all_goals simp only [Scope.ofAttribute, attributeSink?_alike habove, hsink, hmailto]

theorem inside?_same {n n' : Node} (hvalue : SameValue n.value n'.value)
    (hmailto : Scope.beginsMailto n' = Scope.beginsMailto n) {scope scope' : Scope}
    (hscope : SameScope scope scope') :
    Option.Rel SameScope (scope.inside? ancestors n) (scope'.inside? ancestors' n') := by
  have hsink := hvalue.makesSame.elementSink?
  unfold Scope.inside?
  generalize n.value = v, n'.value = v' at hvalue hsink ⊢
  cases hvalue with
  | refl v =>
    cases v with
    | element e => exact .some (hscope.ofElement rfl false false)
    | dynamicElement => exact .some (hscope.ofElement rfl true true)
    | attributeConstructor written namespaceName =>
      exact .some (hscope.ofAttribute habove (.refl _) hmailto)
    | forEach select => exact .some ⟨hscope.sink, hscope.holder, hscope.mailto, rfl⟩
    | valueOf | copyOf | applyTemplates => exact .none
    | _ => exact .some hscope
  | element h => exact .some (hscope.ofElement (congrArg elementSink? h.name) false false)
  | dynamicElement => exact .some (hscope.ofElement hsink true true)
  | attributeConstructor hname hname' h namespaceName =>
    refine .some (hscope.ofAttribute habove ?_ hmailto)
    rwa [ValueTemplate.literalText?_of_plain hname, ValueTemplate.literalText?_of_plain hname']
  | processingInstructionConstructor | instruction => exact .some hscope

theorem SameScope.copySink? {scope scope' : Scope} (hscope : SameScope scope scope')
    (name : String) :
    copySink? scope' ancestors' name = copySink? scope ancestors name := by
  by_cases hattr : ∃ holder, scope.holder = .attr holder
  · obtain ⟨holder, hholder⟩ := hattr
    obtain ⟨holder', hholder'⟩ := hscope.holder.mpr ⟨holder, hholder⟩
    rw [Safety.copySink?, hholder', Safety.copySink?, hholder]
    exact hscope.sink
  · rw [copySink?_of_not_attr hattr, copySink?_of_not_attr (mt hscope.holder.mp hattr),
      attributeSink?_alike habove]

theorem flowHazard?_same {n n' : Node} (hvalue : SameValue n.value n'.value) (path : Path)
    {scope scope' : Scope} (hscope : SameScope scope scope') :
    flowHazard? g ⟨⟨path, ancestors', n'⟩, scope'⟩ = none ↔
      flowHazard? g ⟨⟨path, ancestors, n⟩, scope⟩ = none := by
  unfold flowHazard?
  dsimp only
  generalize n.value = v, n'.value = v' at hvalue
  cases hvalue with
  | refl v =>
    cases v with
    | element e => simp only [hscope.bindingKnown]
    | valueOf select => simp only [hscope.sink, hscope.bindingKnown, hscope.mailto]
    | copyOf select =>
      simp only [copyHazard?, hscope.copySink? habove, hscope.bindingKnown]
    | applyTemplates select => simp only [Option.map_eq_none_iff, hscope.sink]
    | instruction name attributes => simp only [hscope.sink]
    | _ => exact Iff.rfl
  | element h =>
    dsimp only
    rw [hscope.bindingKnown, literalAttributesHazard?_same h]
  | instruction h name => simp only [hscope.sink]
  | _ => exact Iff.rfl

end Around

theorem nodeAccepted_kept {n n' : Node} (hnode : Kept n n')
    (habove : List.Forall₂ Alike ancestors ancestors') :
    NodeAccepted g ancestors' n' ↔ NodeAccepted g ancestors n := by
  have hescaped : n'.disablesEscaping = n.disablesEscaping := by
    obtain ⟨v, u, cs⟩ := n
    obtain ⟨v', u', cs'⟩ := n'
    obtain rfl : u' = u := hnode.unescaped
    exact hnode.value.disablesEscaping
  have hfixed : (∀ path, urlViolation? g ⟨path, ancestors', n'⟩ = none) ↔
      ∀ path, urlViolation? g ⟨path, ancestors, n⟩ = none :=
    forall_congr' fun path =>
      urlViolation?_kept ⟨path, ancestors, n⟩ ⟨path, ancestors', n'⟩ hnode habove
  rw [nodeAccepted_iff, nodeAccepted_iff, hescaped, valueHazard?_alike habove hnode.value,
    hnode.value.forall_mem_expressionSites, hfixed]
  simp only [hnode.grants]

theorem placeAccepted_kept {n n' : Node} (hnode : Kept n n')
    (habove : List.Forall₂ Alike ancestors ancestors') {scope?' : Option Scope}
    (hscope : Option.Rel SameScope scope? scope?') :
    PlaceAccepted g ancestors' scope?' n' ↔ PlaceAccepted g ancestors scope? n := by
  rw [placeAccepted_iff, placeAccepted_iff, nodeAccepted_kept hnode habove]
  cases hscope with
  | none => exact and_congr_right fun _ => by simp
  | some hscope =>
    simp only [Option.mem_def, Option.some.injEq, forall_eq',
      flowHazard?_same habove hnode.value _ hscope]

theorem alike_refl (ancestors : List Node) : List.Forall₂ Alike ancestors ancestors :=
  List.forall₂_same.mpr fun n _ => Alike.refl n

theorem fixed_iff {visit : Visit} :
    (∀ path, urlViolation? g ⟨path, visit.ancestors, visit.node⟩ = none) ↔
      urlViolation? g visit = none := by
  constructor
  · intro h
    exact h visit.path
  · intro h path
    exact (urlViolation?_kept visit ⟨path, visit.ancestors, visit.node⟩ (Kept.refl visit.node)
      (alike_refl visit.ancestors)).mpr h

theorem safe_iff (visit : Visit) {scope : Scope} :
    (∀ path, ∀ s ∈ some scope, flowHazard? g ⟨⟨path, visit.ancestors, visit.node⟩, s⟩ = none) ↔
      flowHazard? g ⟨visit, scope⟩ = none := by
  constructor
  · intro h
    exact h visit.path scope rfl
  · rintro h path _ ⟨⟩
    exact h

mutual

/-- A tree is accepted if its nodes and its flows are. -/
theorem acceptedAt_iff_visits (path : Path) (ancestors : List Node) (scope? : Option Scope) :
    ∀ n : Node, AcceptedAt g ancestors scope? n ↔
      (∀ visit ∈ Node.visitsAt path ancestors n, NodeAccepted g visit.ancestors visit.node) ∧
        ∀ flow ∈ scope?.elim [] fun scope => flowsAt path ancestors scope n,
          flowHazard? g flow = none
  | ⟨v, u, cs⟩ => by
    have hbelow := acceptedBelow_iff_visits path (⟨v, u, cs⟩ :: ancestors)
      (scope?.bind fun scope => scope.inside? ancestors ⟨v, u, cs⟩) 0 cs
    rw [AcceptedAt, hbelow, placeAccepted_iff, Node.visitsAt, List.forall_mem_cons]
    cases scope? with
    | none => simp
    | some scope =>
      have hflows : flowsAt path ancestors scope ⟨v, u, cs⟩ =
          ⟨⟨path, ancestors, ⟨v, u, cs⟩⟩, scope⟩ ::
            (scope.inside? ancestors ⟨v, u, cs⟩).elim [] fun inner =>
              flowsBelow path (⟨v, u, cs⟩ :: ancestors) inner 0 cs := by
        rw [flowsAt]
        cases scope.inside? ancestors ⟨v, u, cs⟩ <;> rfl
      rw [safe_iff ⟨path, ancestors, ⟨v, u, cs⟩⟩, Option.elim_some, hflows,
        List.forall_mem_cons, Option.bind_some]
      exact and_and_and_comm

theorem acceptedBelow_iff_visits (path : Path) (ancestors : List Node) (scope? : Option Scope)
    (i : Nat) :
    ∀ l : List Node, AcceptedBelow g ancestors scope? l ↔
      (∀ visit ∈ Node.visitsBelow path ancestors i l,
          NodeAccepted g visit.ancestors visit.node) ∧
        ∀ flow ∈ scope?.elim [] fun scope => flowsBelow path ancestors scope i l,
          flowHazard? g flow = none
  | [] => by cases scope? <;> simp [AcceptedBelow, Node.visitsBelow, flowsBelow]
  | n :: rest => by
    rw [AcceptedBelow, acceptedAt_iff_visits (path ++ [i]) ancestors scope? n,
      acceptedBelow_iff_visits path ancestors scope? (i + 1) rest, Node.visitsBelow,
      List.forall_mem_append]
    cases scope? with
    | none => simp
    | some scope =>
      rw [Option.elim_some, Option.elim_some, Option.elim_some, flowsBelow, List.forall_mem_append]
      exact and_and_and_comm

end

/-- A template is accepted exactly if every node is at its place.  The root writes nothing. -/
theorem accepts_iff_acceptedAt {template : Node} :
    accepts g template = true ↔ NodeAccepted g [] template ∧
      ∀ c ∈ template.children, AcceptedAt g [template] (some .outermost) c := by
  have hread : expressionViolation? template = none ↔
      ∀ visit ∈ template.visits, ∀ site ∈ visit.node.value.expressionSites,
        siteHazard? site = none := by
    rw [expressionViolation?_eq_none_iff, ← Node.map_node_visits, List.forall_mem_map]
    simp only [siteHazard?_eq_none_iff]
  have hflows : flowViolation? g template = none ↔
      ∀ flow ∈ flowsBelow [] [template] .outermost 0 template.children,
        flowHazard? g flow = none := by
    simp only [flowViolation?, flows, List.findSome?_eq_none_iff, Option.map_eq_none_iff]
  have hvisits : (∀ visit ∈ template.visits, NodeAccepted g visit.ancestors visit.node) ↔
      NodeAccepted g [] template ∧
        ∀ visit ∈ Node.visitsBelow [] [template] 0 template.children,
          NodeAccepted g visit.ancestors visit.node := by
    obtain ⟨v, u, cs⟩ := template
    rw [Node.visits, Node.visitsAt, List.forall_mem_cons]
  rw [← acceptedBelow_iff, acceptedBelow_iff_visits [] [template] (some .outermost) 0, ← and_assoc,
    ← hvisits, Option.elim_some, ← hflows, accepts_iff, structureViolation?_eq_none_iff, hread,
    fixedUrlViolation?, List.findSome?_eq_none_iff, scriptAccessViolation?_eq_none_iff]
  simp only [nodeAccepted_iff, fixed_iff, forall_and, and_assoc]

end Places

end Safety
end TagGrammar
