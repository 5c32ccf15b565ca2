/-
The outline of a template in closed form.

The set accepted at a substitution point is gathered element by element, but only the
elements from the innermost one on that is not transparent count in the end, and the
categories of the outermost element if all are transparent (`accepted_acceptedAt`).  Whether
all elements around content are transparent is noted along the same way, in a flag that all
points of the template share.  It does not depend on how the elements are divided among the
points (`foldl_transparencyAt`).  `Surrounds` says all this of the nodes around the points,
of which some are literal elements.
-/
import TagGrammar.Proofs.Html.Derivation

namespace TagGrammar
namespace Html

variable {e : Element} {es inner outer rest : List Element} {set : Categories}

theorem isTransparent_of_foreign (h : e.isHtml = false) : isTransparent e = false := by
  rw [isTransparent, modelOf?, h]
  rfl

theorem bitsOf_of_foreign (h : e.isHtml = false) (f : Field) : bitsOf f e = 0 := by
  rw [bitsOf, modelOf?, h]
  rfl

/-! ## Unions -/

theorem foldl_or (sets : List Categories) (set : Categories) :
    sets.foldl (· ||| ·) set = set ||| union sets := by
  rw [union]
  induction sets generalizing set with
  | nil => exact BitVec.or_zero.symm
  | cons a sets ih =>
    have hstart : (0 : Categories) ||| a = a := BitVec.zero_or
    rw [List.foldl_cons, List.foldl_cons, ih, hstart, ih a, BitVec.or_assoc]

theorem union_cons (a : Categories) (sets : List Categories) :
    union (a :: sets) = a ||| union sets := by
  rw [union, List.foldl_cons, foldl_or]
  exact congrArg (· ||| union sets) BitVec.zero_or

/-- A category is in a union if it is in one of the sets. -/
theorem getLsbD_union (sets : List Categories) (i : Nat) :
    (union sets).getLsbD i = true ↔ ∃ set ∈ sets, set.getLsbD i = true := by
  induction sets with
  | nil => simp [union]
  | cons a sets ih => rw [union_cons, BitVec.getLsbD_or, Bool.or_eq_true, ih, List.exists_mem_cons_iff]

/-! ## What is accepted -/

/-- The union of the sets that some elements accept by themselves. -/
def ownAccepted (es : List Element) : Categories := union (es.map (bitsOf .allowedChildren))

/-- What is accepted inside some elements, outermost first. -/
inductive Accepted : List Element → Categories → Prop
  /-- Where no element is around, everything is. -/
  | everything : Accepted [] (BitVec.allOnes 32)
  /-- Outside the innermost element that is not transparent nothing counts. -/
  | within (outer : List Element) {e : Element} {inner : List Element}
    (stops : isTransparent e = false) (transparent : ∀ i ∈ inner, isTransparent i = true) :
    Accepted (outer ++ e :: inner) (ownAccepted (e :: inner))
  /-- If all are transparent, what is accepted where the outermost stands is taken to be the
  categories of that element. -/
  | throughout {e : Element} {inner : List Element}
    (transparent : ∀ i ∈ e :: inner, isTransparent i = true) :
    Accepted (e :: inner) (bitsOf .categories e ||| ownAccepted (e :: inner))

theorem ownAccepted_cons (e : Element) (es : List Element) :
    ownAccepted (e :: es) = bitsOf .allowedChildren e ||| ownAccepted es := union_cons _ _

theorem acceptedInside_of_not_transparent (h : isTransparent e = false)
    (around : Option Categories) : acceptedInside around e = bitsOf .allowedChildren e := by
  simp [acceptedInside, h]

/-- Transparent elements add what they accept by themselves. -/
theorem foldl_acceptedInside (h : ∀ i ∈ inner, isTransparent i = true) (set : Categories) :
    inner.foldl (fun set e => acceptedInside (some set) e) set = set ||| ownAccepted inner := by
  induction inner generalizing set with
  | nil => exact BitVec.or_zero.symm
  | cons i inner ih =>
    obtain ⟨hi, hinner⟩ := List.forall_mem_cons.mp h
    rw [List.foldl_cons, ih hinner, ownAccepted_cons, acceptedInside, if_pos hi, BitVec.or_assoc]

/-- An element that is not transparent makes the way to it irrelevant. -/
theorem acceptedAt_within (outer : List Element) (hstops : isTransparent e = false)
    (hinner : ∀ i ∈ inner, isTransparent i = true) :
    acceptedAt (outer ++ e :: inner) = ownAccepted (e :: inner) := by
  cases outer with
  | nil =>
    rw [List.nil_append, acceptedAt, acceptedInside_of_not_transparent hstops,
      foldl_acceptedInside hinner, ownAccepted_cons]
  | cons a outer =>
    rw [List.cons_append, acceptedAt, List.foldl_append, List.foldl_cons,
      acceptedInside_of_not_transparent hstops, foldl_acceptedInside hinner, ownAccepted_cons]

theorem acceptedAt_throughout (h : ∀ i ∈ e :: inner, isTransparent i = true) :
    acceptedAt (e :: inner) = bitsOf .categories e ||| ownAccepted (e :: inner) := by
  obtain ⟨he, hinner⟩ := List.forall_mem_cons.mp h
  rw [acceptedAt, foldl_acceptedInside hinner, ownAccepted_cons, acceptedInside, if_pos he,
    BitVec.or_assoc]

/-- Among some elements there is an innermost one that is not transparent, or all are. -/
theorem exists_innermost (es : List Element) :
    (∀ e ∈ es, isTransparent e = true) ∨ ∃ outer e inner, es = outer ++ e :: inner ∧
      isTransparent e = false ∧ ∀ i ∈ inner, isTransparent i = true := by
  induction es with
  | nil => exact Or.inl (by simp)
  | cons e es ih =>
    rcases ih with hall | ⟨outer, e', inner, rfl, h⟩
    · cases he : isTransparent e with
      | true => exact Or.inl (List.forall_mem_cons.mpr ⟨he, hall⟩)
      | false => exact Or.inr ⟨[], e, es, rfl, he, hall⟩
    · exact Or.inr ⟨e :: outer, e', inner, rfl, h⟩

theorem accepted_acceptedAt (es : List Element) : Accepted es (acceptedAt es) := by
  rcases exists_innermost es with hall | ⟨outer, e, inner, rfl, hstops, hinner⟩
  · cases es with
    | nil => exact .everything
    | cons e inner =>
      rw [acceptedAt_throughout hall]
      exact .throughout hall
  · rw [acceptedAt_within outer hstops hinner]
    exact .within outer hstops hinner

/-! ## Transparency -/

/-- What is known after some elements, whatever points they are around. -/
def settled (known : Option Bool) (es : List Element) : Option Bool :=
  if es.all isTransparent then
    if es.isEmpty then known else known.or (some true)
  else some false

theorem settled_nil (known : Option Bool) : settled known [] = known := rfl

theorem settled_cons (known : Option Bool) (e : Element) (es : List Element) :
    settled known (e :: es) =
      if (e :: es).all isTransparent then known.or (some true) else some false := rfl

/-- What is known after some elements does not depend on where the points divide them. -/
theorem settled_append (known : Option Bool) (es es' : List Element) :
    settled (settled known es) es' = settled known (es ++ es') := by
  cases es with
  | nil => rfl
  | cons e es =>
    cases es' with
    | nil => rw [settled_nil, List.append_nil]
    | cons e' es' =>
      rw [settled_cons, settled_cons, List.cons_append, settled_cons, ← List.cons_append,
        List.all_append]
      cases (e :: es).all isTransparent <;> cases (e' :: es').all isTransparent <;> cases known <;> rfl

/-- Below the outermost element transparent ones change nothing. -/
theorem foldl_transparencyInside (known : Option Bool) (es : List Element) :
    es.foldl (transparencyInside false) known =
      if es.all isTransparent then known else some false := by
  induction es generalizing known with
  | nil => rfl
  | cons e es ih =>
    rw [List.foldl_cons, ih, List.all_cons, transparencyInside]
    cases isTransparent e <;> cases es.all isTransparent <;> rfl

theorem transparencyAt_eq (known : Option Bool) (es : List Element) :
    transparencyAt known es = settled known es := by
  cases es with
  | nil => rfl
  | cons e es =>
    rw [transparencyAt, foldl_transparencyInside, settled_cons, List.all_cons, transparencyInside]
    cases isTransparent e <;> cases es.all isTransparent <;> rfl

theorem foldl_transparencyAt (known : Option Bool) (points : List (List Element)) :
    points.foldl transparencyAt known = settled known points.flatten := by
  induction points generalizing known with
  | nil => rfl
  | cons es points ih =>
    rw [List.foldl_cons, ih, transparencyAt_eq, settled_append, List.flatten_cons]

/-- The flag is raised by some element around content if all such are transparent. -/
theorem settled_eq_some_true_iff :
    settled none es = some true ↔ es ≠ [] ∧ ∀ e ∈ es, isTransparent e = true := by
  cases es with
  | nil => simp [settled_nil]
  | cons e es =>
    rw [settled_cons, ← List.all_eq_true]
    cases (e :: es).all isTransparent <;> simp

/-! ## The points of a template -/

/-- Those of some things that are something else, as what they are and in their order. -/
inductive Picked {α β : Type} (is : α → β → Prop) : List α → List β → Prop
  | nil : Picked is [] []
  | take {a : α} {b : β} {as : List α} {bs : List β} (h : is a b) (hrest : Picked is as bs) :
    Picked is (a :: as) (b :: bs)
  | skip {a : α} {as : List α} {bs : List β} (h : ∀ b, ¬is a b) (hrest : Picked is as bs) :
    Picked is (a :: as) bs

theorem picked_filterMap {α β : Type} {is : α → β → Prop} {f : α → Option β}
    (hsome : ∀ a b, f a = some b → is a b) (hnone : ∀ a, f a = none → ∀ b, ¬is a b)
    (l : List α) : Picked is l (l.filterMap f) := by
  induction l with
  | nil => exact .nil
  | cons a l ih =>
    cases ha : f a with
    | none =>
      rw [List.filterMap_cons_none ha]
      exact .skip (hnone a ha) ih
    | some b =>
      rw [List.filterMap_cons_some ha]
      exact .take (hsome a b ha) ih

/-- The node is a substitution point. -/
def IsPoint (n : Node) : Prop := ∃ select, n.value = .applyTemplates select

/-- The set is what is accepted inside some nodes, outermost first, of which literal elements
count. -/
def AcceptedInside (nodes : List Node) (set : Categories) : Prop :=
  ∃ es, Picked (fun n e => n.value = .element e) nodes es ∧ Accepted es set

/-- The element is a literal one around some substitution point. -/
def IsAround (template : Node) (e : Element) : Prop :=
  ∃ visit ∈ template.visits, IsPoint visit.node ∧ ∃ n ∈ visit.ancestors, n.value = .element e

/-- The content is in elements, all of which are transparent. -/
def AllTransparent (template : Node) : Prop :=
  (∃ e, IsAround template e) ∧ ∀ e, IsAround template e → isTransparent e = true

/-- What the substitution points of a template say, each by the nodes around it. -/
structure Surrounds (template : Node) (o : Outline) : Prop where
  accepted : Picked
    (fun visit set => IsPoint visit.node ∧ AcceptedInside visit.ancestors.reverse set)
    template.visits o.allowedChildren
  denied : ∀ i, o.deniedDescendants.getLsbD i = true ↔
    ∃ e, IsAround template e ∧ (bitsOf .deniedDescendants e).getLsbD i = true
  transparent : o.transparent = true ↔ AllTransparent template

/-! ## Outlines -/

theorem asElement?_eq_some_iff {v : Value} : v.asElement? = some e ↔ v = .element e := by
  cases v <;> simp [Value.asElement?]

theorem isSubstitutionPoint_iff {n : Node} : isSubstitutionPoint n = true ↔ IsPoint n := by
  unfold isSubstitutionPoint IsPoint
  cases n.value <;> simp

theorem mem_elementsAround {visit : Visit} :
    e ∈ elementsAround visit ↔ ∃ n ∈ visit.ancestors, n.value = .element e := by
  simp only [elementsAround, List.mem_reverse, List.mem_filterMap, asElement?_eq_some_iff]

/-- The visits of the substitution points of a template, in document order. -/
def points (template : Node) : List Visit :=
  template.visits.filter fun visit => isSubstitutionPoint visit.node

theorem mem_points {template : Node} {visit : Visit} :
    visit ∈ points template ↔ visit ∈ template.visits ∧ isSubstitutionPoint visit.node = true :=
  List.mem_filter

theorem mem_flatten_substitutionPoints {template : Node} :
    e ∈ (substitutionPoints template).flatten ↔ IsAround template e := by
  rw [substitutionPoints, ← points, List.mem_flatten]
  simp only [List.mem_map, exists_exists_and_eq_and]
  simp only [mem_points, isSubstitutionPoint_iff, mem_elementsAround, IsAround, and_assoc]

theorem acceptedInside_elementsAround (visit : Visit) :
    AcceptedInside visit.ancestors.reverse (acceptedAt (elementsAround visit)) := by
  refine ⟨elementsAround visit, ?_, accepted_acceptedAt _⟩
  rw [elementsAround, ← List.filterMap_reverse]
  refine picked_filterMap (fun n e => asElement?_eq_some_iff.mp) (fun n hnone e he => ?_) _
  cases hnone.symm.trans (asElement?_eq_some_iff.mpr he)

theorem accepted_of (template : Node) :
    Picked (fun visit set => IsPoint visit.node ∧ AcceptedInside visit.ancestors.reverse set)
      template.visits (Outline.of template).allowedChildren := by
  show Picked _ template.visits ((substitutionPoints template).map acceptedAt)
  rw [substitutionPoints, List.map_map, ← List.filterMap_eq_filter, List.map_filterMap]
  refine picked_filterMap (fun visit set hset => ?_) (fun visit hnone set h => ?_) _
  · obtain ⟨point, hguard, rfl⟩ := Option.map_eq_some_iff.mp hset
    obtain ⟨rfl, hpoint⟩ := Option.guard_eq_some_iff.mp hguard
    exact ⟨isSubstitutionPoint_iff.mp hpoint, acceptedInside_elementsAround visit⟩
  · have hpoint := Option.guard_eq_none_iff.mp (Option.map_eq_none_iff.mp hnone)
    rw [isSubstitutionPoint_iff.mpr h.1] at hpoint
    cases hpoint

theorem getLsbD_deniedDescendants (template : Node) (i : Nat) :
    (Outline.of template).deniedDescendants.getLsbD i = true ↔
      ∃ e, IsAround template e ∧ (bitsOf .deniedDescendants e).getLsbD i = true := by
  show (union ((substitutionPoints template).flatten.map _)).getLsbD i = true ↔ _
  simp only [getLsbD_union, List.mem_map, exists_exists_and_eq_and,
    mem_flatten_substitutionPoints]

theorem transparent_of_iff (template : Node) :
    (Outline.of template).transparent = true ↔ AllTransparent template := by
  show ((substitutionPoints template).foldl transparencyAt none == some true) = true ↔ _
  rw [beq_iff_eq, foldl_transparencyAt, settled_eq_some_true_iff, AllTransparent, Ne,
    List.eq_nil_iff_forall_not_mem]
  simp only [mem_flatten_substitutionPoints, not_forall, not_not]

theorem surrounds_of (template : Node) : Surrounds template (Outline.of template) :=
  ⟨accepted_of template, getLsbD_deniedDescendants template, transparent_of_iff template⟩

/-- What is derived for a name says whether the template declared last for it is transparent. -/
theorem transparent_of_derive {root : Option String} {tags : List (TagName × Option Node)}
    {derived : Dictionary TagName DerivedOptions} (h : derive root tags = .ok derived)
    {name : TagName} {declared : Option Node} (hname : lastDeclared? tags name = some declared) :
    ∃ options, derived.find? name = some options ∧
      (options.transparent = true ↔ AllTransparent (declared.getD Node.contentOnly)) := by
  have hfind := find?_of_derive h name
  rw [hname, Option.map_some, Option.map_eq_some_iff] at hfind
  obtain ⟨options, hoptions, heq⟩ := hfind
  refine ⟨options, hoptions, ?_⟩
  rw [← transparent_of_iff, (Prod.mk.inj heq).2]
  rfl

/-- What an outline gathers along the way into a template, in closed form.  An element outside
HTML is not transparent and has no categories. -/
theorem outline_surrounds (template : Node) :
    Surrounds template (Outline.of template) ∧
      (∀ root tags derived name declared, derive root tags = .ok derived →
        lastDeclared? tags name = some declared → declared.getD Node.contentOnly = template →
          ∃ options, derived.find? name = some options ∧
            (options.transparent = true ↔ AllTransparent template)) ∧
      ∀ e : Element, e.isHtml = false → isTransparent e = false ∧ ∀ f, bitsOf f e = 0 := by
  refine ⟨surrounds_of template, ?_, ?_⟩
  · rintro root tags derived name declared hderive hname rfl
    exact transparent_of_derive hderive hname
  · exact fun e h => ⟨isTransparent_of_foreign h, bitsOf_of_foreign h⟩

/-- An insertion in a link accepts what may stand where the link does, and no link.  In a block
it accepts what the block does, and in an element outside HTML nothing. -/
example :
    let content : Node := { value := .applyTemplates none }
    let inside (n : Node) (e : Element) : Node := { value := .element e, children := [n] }
    let insertion := inside content { name := "ins" }
    let linked := Outline.of ⟨.root, false, [inside insertion { name := "a" }]⟩
    let framed := Outline.of ⟨.root, false, [inside insertion { name := "div" }]⟩
    let foreign := Outline.of ⟨.root, false,
      [inside (inside insertion { name := "x", namespaceName := some "urn:x" }) { name := "div" }]⟩
    linked.allowedChildren = [0xF] ∧ linked.deniedDescendants = 0x8 ∧ linked.transparent = true ∧
      framed.allowedChildren = [0x1] ∧ framed.transparent = false ∧
      foreign.allowedChildren = [0x0] ∧ foreign.transparent = false := by
  decide +kernel

end Html
end TagGrammar
