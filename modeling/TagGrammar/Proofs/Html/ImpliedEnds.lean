/-
Implied end tags.

The start of an element may imply the end of the one around it, and a tag then ends a tag
whose content goes directly into such an element.  Which elements these are is looked up by
their names alone (`hasRule_closeParent_iff`), so an element of another namespace that has the
name of an HTML element takes part, although it has no categories.  Where none does, only HTML
elements end each other (`closeParent_within_html`).
-/
import TagGrammar.Proofs.Html.Outline

namespace TagGrammar
namespace Html

variable {root : Option String} {tags : List (TagName × Option Node)}
  {derived : Dictionary TagName DerivedOptions} {s t template : Node} {e f : Element}

/-- The element is a literal one in no other literal element. -/
def IsTop (template : Node) (e : Element) : Prop :=
  ∃ visit ∈ template.visits, visit.node.value = .element e ∧
    ∀ n ∈ visit.ancestors, n.value.asElement? = none

/-- Of the literal elements around some substitution point the element is the nearest. -/
def IsInnermost (template : Node) (e : Element) : Prop :=
  ∃ visit ∈ template.visits, isSubstitutionPoint visit.node = true ∧
    (visit.ancestors.filterMap fun n => n.value.asElement?).head? = some e

/-- By their names, the start of one element implies the end of the other. -/
def Ends (e f : Element) : Prop := ∃ m, element? (elementName e) = some m ∧ elementName f ∈ m.closes

/-- An element at the top of one template ends one directly around content of the other. -/
def EndsAround (s t : Node) (e f : Element) : Prop := IsTop s e ∧ IsInnermost t f ∧ Ends e f

/-- So it is with the templates declared under two names, of which the first is the one that
counts for the rules of its name. -/
def EndsBetween (tags : List (TagName × Option Node)) (a b : TagName) (e f : Element) : Prop :=
  ∃ declared, lastDeclared? tags a = some declared ∧ ∃ t ∈ tags, t.1 = b ∧
    EndsAround (declared.getD Node.contentOnly) (t.2.getD Node.contentOnly) e f

theorem mem_topElements : e ∈ topElements template ↔ IsTop template e := by
  rw [topElements, List.mem_filterMap]
  refine exists_congr fun visit => ?_
  rw [List.mem_filter, asElement?_eq_some_iff, elementsAround, List.isEmpty_reverse,
    List.isEmpty_iff, List.filterMap_eq_nil_iff, and_assoc, and_comm (a := ∀ n ∈ _, _)]

/-- For each substitution point the nearest literal element around it. -/
def innermostElements (template : Node) : List Element :=
  (points template).filterMap fun visit => (elementsAround visit).getLast?

theorem mem_innermostElements : e ∈ innermostElements template ↔ IsInnermost template e := by
  rw [innermostElements, List.mem_filterMap]
  refine exists_congr fun visit => ?_
  rw [mem_points, elementsAround, List.getLast?_reverse, and_assoc]

theorem lastChildren_of (template : Node) :
    (Outline.of template).lastChildren = (innermostElements template).map elementName := by
  show (substitutionPoints template).filterMap _ = _
  rw [substitutionPoints, ← points, List.filterMap_map, innermostElements, List.map_filterMap]
  rfl

theorem closesParent_iff :
    ClosesParent (Outline.of s) (Outline.of t) ↔ ∃ e f, EndsAround s t e f := by
  constructor
  · rintro ⟨first, hfirst, m, hm, last, hlast, hcloses⟩
    obtain ⟨e, he, rfl⟩ := List.mem_map.mp hfirst
    rw [lastChildren_of] at hlast
    obtain ⟨f, hf, rfl⟩ := List.mem_map.mp hlast
    exact ⟨e, f, mem_topElements.mp he, mem_innermostElements.mp hf, m, hm, hcloses⟩
  · rintro ⟨e, f, he, hf, m, hm, hcloses⟩
    refine ⟨_, List.mem_map_of_mem (mem_topElements.mpr he), m, hm, elementName f, ?_, hcloses⟩
    rw [lastChildren_of]
    exact List.mem_map_of_mem (mem_innermostElements.mpr hf)

/-- A rule that a tag ends another comes of elements by their names, whatever their namespaces. -/
theorem hasRule_closeParent_iff (h : derive root tags = .ok derived) {a b : TagName} :
    HasRule derived a ⟨.closeParent, b⟩ ↔ ∃ e f, EndsBetween tags a b e f := by
  have hfind := find?_of_derive h a
  have hrule (o : Outline) :
      (RuleSet.ofList (allRules o (outlined tags))).resolveConflicts.contains ⟨.closeParent, b⟩ =
        true ↔ ∃ t ∈ tags, t.1 = b ∧ ClosesParent o (outlineOf t.2) := by
    rw [RuleSet.contains_resolveConflicts, RuleSet.contains_ofList, mem_allRules]
    simp [outlined, Gathers]
  constructor
  · rintro ⟨options, hoptions, hcontains⟩
    rw [hoptions, Option.map_some, eq_comm, Option.map_eq_some_iff] at hfind
    obtain ⟨declared, hdeclared, heq⟩ := hfind
    rw [← (Prod.mk.inj heq).1] at hcontains
    obtain ⟨t, ht, hname, hcloses⟩ := (hrule _).mp hcontains
    obtain ⟨e, f, hends⟩ := closesParent_iff.mp hcloses
    exact ⟨e, f, declared, hdeclared, t, ht, hname, hends⟩
  · rintro ⟨e, f, declared, hdeclared, t, ht, hname, hends⟩
    rw [hdeclared, Option.map_some, Option.map_eq_some_iff] at hfind
    obtain ⟨options, hoptions, heq⟩ := hfind
    refine ⟨options, hoptions, ?_⟩
    rw [(Prod.mk.inj heq).1]
    exact (hrule _).mpr ⟨t, ht, hname, closesParent_iff.mpr ⟨e, f, hends⟩⟩

/-- A tag ends another exactly if some element of the one ends one of the other by their names.
If these are HTML elements wherever that is so, the rule comes of HTML elements. -/
theorem closeParent_within_html (h : derive root tags = .ok derived) (a b : TagName) :
    (HasRule derived a ⟨.closeParent, b⟩ ↔ ∃ e f, EndsBetween tags a b e f) ∧
      ((∀ e f, EndsBetween tags a b e f → e.isHtml = true ∧ f.isHtml = true) →
        (HasRule derived a ⟨.closeParent, b⟩ ↔
          ∃ e f, EndsBetween tags a b e f ∧ e.isHtml = true ∧ f.isHtml = true)) := by
  have hrule := hasRule_closeParent_iff h (a := a) (b := b)
  refine ⟨hrule, fun hhtml => hrule.trans ?_⟩
  constructor
  · rintro ⟨e, f, hends⟩
    exact ⟨e, f, hends, hhtml e f hends⟩
  · rintro ⟨e, f, hends, -⟩
    exact ⟨e, f, hends⟩

/-- Some elements, each in the one before it, around content. -/
def nested (elements : List Element) : Node :=
  { value := .root
    children := [elements.foldr (fun e n => { value := .element e, children := [n] })
      { value := .applyTemplates none }] }

def block : Element := { name := "div" }

def paragraph : Element := { name := "p" }

/-- An element of another namespace under the name of one of HTML. -/
def foreign (e : Element) : Element := { e with namespaceName := some "urn:x" }

/-- A block, and a paragraph in an element outside HTML. -/
def framedTags : List (TagName × Option Node) :=
  [(⟨"DIV"⟩, some (nested [block])), (⟨"P"⟩, some (nested [foreign paragraph, paragraph]))]

/-- An element outside HTML with the name of a block, and a paragraph. -/
def foreignTags : List (TagName × Option Node) :=
  [(⟨"DIV"⟩, some (nested [foreign block])), (⟨"P"⟩, some (nested [paragraph]))]

theorem isHtml_of_framedTags (h : EndsBetween framedTags ⟨"DIV"⟩ ⟨"P"⟩ e f) :
    e.isHtml = true ∧ f.isHtml = true := by
  obtain ⟨declared, hdeclared, t, ht, hname, he, hf, -⟩ := h
  obtain rfl : some (nested [block]) = declared := Option.some.inj hdeclared
  have htop : ∀ e ∈ topElements (nested [block]), e.isHtml = true := by decide +kernel
  have hinnermost : ∀ t ∈ framedTags, t.1 = ⟨"P"⟩ →
      ∀ f ∈ innermostElements (t.2.getD Node.contentOnly), f.isHtml = true := by decide +kernel
  exact ⟨htop e (mem_topElements.mpr he), hinnermost t ht hname f (mem_innermostElements.mpr hf)⟩

theorem closeParent_within_html_framedTags :
    ∃ derived, derive none framedTags = .ok derived ∧
      HasRule derived ⟨"DIV"⟩ ⟨.closeParent, ⟨"P"⟩⟩ ∧
        ∃ e f, EndsBetween framedTags ⟨"DIV"⟩ ⟨"P"⟩ e f ∧ e.isHtml = true ∧ f.isHtml = true := by
  have hends : EndsBetween framedTags ⟨"DIV"⟩ ⟨"P"⟩ block paragraph := by
    refine ⟨some (nested [block]), rfl, _, List.mem_cons_of_mem _ List.mem_cons_self, rfl,
      mem_topElements.mp ?_, mem_innermostElements.mp ?_, _, rfl, ?_⟩ <;> decide +kernel
  refine ⟨_, rfl, ?_⟩
  obtain ⟨hrule, hhtml⟩ := @closeParent_within_html none framedTags _ rfl ⟨"DIV"⟩ ⟨"P"⟩
  have hderived := hrule.mpr ⟨block, paragraph, hends⟩
  exact ⟨hderived, (hhtml fun _ _ => isHtml_of_framedTags).mp hderived⟩

theorem foreign_block_ends_paragraph :
    ∃ derived, derive none foreignTags = .ok derived ∧
      HasRule derived ⟨"DIV"⟩ ⟨.closeParent, ⟨"P"⟩⟩ ∧
        ¬∃ e, IsTop (nested [foreign block]) e ∧ e.isHtml = true := by
  have hends : EndsBetween foreignTags ⟨"DIV"⟩ ⟨"P"⟩ (foreign block) paragraph := by
    refine ⟨some (nested [foreign block]), rfl, _, List.mem_cons_of_mem _ List.mem_cons_self, rfl,
      mem_topElements.mp ?_, mem_innermostElements.mp ?_, _, rfl, ?_⟩ <;> decide +kernel
  have htop : ∀ e ∈ topElements (nested [foreign block]), e.isHtml = false := by decide +kernel
  refine ⟨_, rfl, (@hasRule_closeParent_iff none foreignTags _ rfl _ _).mpr ⟨_, _, hends⟩, ?_⟩
  rintro ⟨e, he, hhtml⟩
  rw [htop e (mem_topElements.mpr he)] at hhtml
  cases hhtml

end Html
end TagGrammar
