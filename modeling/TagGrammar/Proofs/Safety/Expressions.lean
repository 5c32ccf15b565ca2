/-
What the expressions of an accepted template are.

Every text that stands at a place for expressions is read whole, and what is read holds
no call that the check refuses.  The check asks the abstract form of an expression for
calls; `Expr.calls_iff_mem_tokens` carries its answer over to the tokens of the text.
-/
import TagGrammar.Proofs.XPath.Calls
import TagGrammar.Safety.Check
import TagGrammar.Template.Source

namespace TagGrammar

open XPath (Expr Token tokenize)

/-- A text that is an expression whose tokens hold no call of a function. -/
def XPath.ReadsWithout (function source : String) : Prop :=
  ∃ e tokens, Expr.parse source = .ok e ∧ tokenize source = .ok tokens ∧
    Token.functionName function ∉ tokens

namespace Value

/-- What a value has of the attributes of its tag, by name and text, without those that the
builder reads for itself: which attribute sets are used and whether output is escaped. -/
inductive HasAttribute : Value → String → String → Prop where
  | element {e : Element} {name text : String} (h : (name, text) ∈ e.attributes) :
      HasAttribute (.element e) name text
  | instruction {localName : String} {attributes : List (String × String)} {name text : String}
      (h : (name, text) ∈ attributes) : HasAttribute (.instruction localName attributes) name text
  | elementName (name : String) (namespaceName useAttributeSets : Option String) :
      HasAttribute (.dynamicElement name namespaceName useAttributeSets) "name" name
  | elementNamespace (name uri : String) (useAttributeSets : Option String) :
      HasAttribute (.dynamicElement name (some uri) useAttributeSets) "namespace" uri
  | attributeName (name : String) (namespaceName : Option String) :
      HasAttribute (.attributeConstructor name namespaceName) "name" name
  | attributeNamespace (name uri : String) :
      HasAttribute (.attributeConstructor name (some uri)) "namespace" uri
  | target (name : String) : HasAttribute (.processingInstructionConstructor name) "name" name
  | valueOf (select : String) (unescaped : Bool) :
      HasAttribute (.valueOf select unescaped) "select" select
  | copyOf (select : String) : HasAttribute (.copyOf select) "select" select
  | forEach (select : String) : HasAttribute (.forEach select) "select" select
  | applyTemplates (select : String) :
      HasAttribute (.applyTemplates (some select)) "select" select
  | onlyIf (test : String) : HasAttribute (.onlyIf test) "test" test
  | when (test : String) : HasAttribute (.when test) "test" test

/-- How an attribute of a value is read: on an instruction some are expressions. -/
def kindOf (v : Value) (name : String) : ExpressionKind :=
  if v.isInstruction && expressionAttributes.contains name then .expression else .valueTemplate

theorem mem_nameSites_iff {name : String} {namespaceName : Option String} {site : ExpressionSite} :
    site ∈ nameSites name namespaceName ↔ site = ⟨.valueTemplate, "name", name⟩ ∨
      ∃ uri, namespaceName = some uri ∧ site = ⟨.valueTemplate, "namespace", uri⟩ := by
  cases namespaceName <;> simp [nameSites]

/-- The places for expressions are the attributes that a value has. -/
theorem mem_expressionSites_iff {v : Value} {site : ExpressionSite} :
    site ∈ v.expressionSites ↔
      v.HasAttribute site.holder site.source ∧ site.kind = v.kindOf site.holder := by
  constructor
  · intro h
    unfold expressionSites at h
    split at h
    case h_1 e =>
      obtain ⟨⟨name, text⟩, ha, rfl⟩ := List.mem_map.mp h
      exact ⟨.element ha, rfl⟩
    case h_2 =>
      obtain rfl | ⟨uri, rfl, rfl⟩ := mem_nameSites_iff.mp h
      · exact ⟨.elementName _ _ _, rfl⟩
      · exact ⟨.elementNamespace _ _ _, rfl⟩
    case h_3 =>
      obtain rfl | ⟨uri, rfl, rfl⟩ := mem_nameSites_iff.mp h
      · exact ⟨.attributeName _ _, rfl⟩
      · exact ⟨.attributeNamespace _ _, rfl⟩
    case h_11 =>
      obtain ⟨⟨name, text⟩, ha, rfl⟩ := List.mem_map.mp h
      exact ⟨.instruction ha, rfl⟩
    case h_12 => cases h
    all_goals
      obtain rfl := List.mem_singleton.mp h
      exact ⟨by constructor, rfl⟩
  · rintro ⟨h, hkind⟩
    obtain ⟨kind, holder, source⟩ := site
    dsimp only at h hkind
    subst hkind
    cases h with
    | element h => exact List.mem_map.mpr ⟨_, h, rfl⟩
    | instruction h => exact List.mem_map.mpr ⟨_, h, rfl⟩
    | elementName | attributeName => exact mem_nameSites_iff.mpr (Or.inl rfl)
    | elementNamespace | attributeNamespace => exact mem_nameSites_iff.mpr (Or.inr ⟨_, rfl, rfl⟩)
    | _ => exact List.mem_singleton.mpr rfl

end Value

/-- A place whose expressions can be told and all satisfy a condition. -/
def ExpressionSite.All (p : String → Prop) (site : ExpressionSite) : Prop :=
  match site.kind with
  | .expression => p site.source
  | .valueTemplate => ∃ parts, ValueTemplate.parse site.source = .ok parts ∧
      ∀ source ∈ ValueTemplate.expressions parts, p source

namespace Safety

theorem readsWithout_iff {function source : String} :
    XPath.ReadsWithout function source ↔
      ∃ e, Expr.parse source = .ok e ∧ e.calls function = false := by
  constructor
  · rintro ⟨e, tokens, he, htokens, hnot⟩
    obtain ⟨tokens', htokens', hcalls⟩ := Expr.calls_iff_mem_tokens he
    obtain rfl : tokens = tokens' := Except.ok.inj (htokens.symm.trans htokens')
    exact ⟨e, he, Bool.eq_false_iff.mpr fun h => hnot ((hcalls function).mp h)⟩
  · rintro ⟨e, he, hcalls⟩
    obtain ⟨tokens, htokens, hiff⟩ := Expr.calls_iff_mem_tokens he
    refine ⟨e, tokens, he, htokens, fun hmem => ?_⟩
    rw [(hiff function).mpr hmem] at hcalls
    cases hcalls

theorem sourceHazard?_eq_none_iff (source : String) :
    sourceHazard? source = none ↔ XPath.ReadsWithout "document" source := by
  rw [readsWithout_iff]
  unfold sourceHazard?
  cases Expr.parse source with
  | error cause => simp
  | ok e => simp

theorem siteHazard?_eq_none_iff (site : ExpressionSite) :
    siteHazard? site = none ↔ site.All (XPath.ReadsWithout "document") := by
  unfold siteHazard? ExpressionSite.All
  cases site.kind with
  | expression => exact sourceHazard?_eq_none_iff site.source
  | valueTemplate =>
    cases ValueTemplate.parse site.source with
    | error cause => simp
    | ok parts => simp [List.findSome?_eq_none_iff, sourceHazard?_eq_none_iff]

/-- The second check passes exactly the templates in which every expression is read and
none reads another document. -/
theorem expressionViolation?_eq_none_iff (template : Node) :
    expressionViolation? template = none ↔
      ∀ n ∈ template.nodes, ∀ site ∈ n.value.expressionSites,
        site.All (XPath.ReadsWithout "document") := by
  rw [← Node.map_node_visits]
  simp only [expressionViolation?, Node.expressions, List.findSome?_eq_none_iff,
    List.mem_flatMap, List.mem_map, Option.map_eq_none_iff, ← siteHazard?_eq_none_iff]
  constructor
  · rintro h n ⟨visit, hvisit, rfl⟩ site hsite
    exact h (visit.path, site) ⟨visit, hvisit, site, hsite, rfl⟩
  · rintro h _ ⟨visit, hvisit, site, hsite, rfl⟩
    exact h visit.node ⟨visit, hvisit, rfl⟩ site hsite

/-- What stands in an attribute of an accepted template is read, as an expression or as a value
template. -/
theorem attributes_read {g : Grant} {template n : Node} (h : accepts g template = true)
    (hn : n ∈ template.nodes) {name text : String} (hattribute : n.value.HasAttribute name text) :
    ExpressionSite.All (XPath.ReadsWithout "document") ⟨n.value.kindOf name, name, text⟩ :=
  (expressionViolation?_eq_none_iff template).mp ((accepts_iff g template).mp h).2.1 n hn _
    (Value.mem_expressionSites_iff.mpr ⟨hattribute, rfl⟩)

/-- No call hides.  The calls in the abstract form of a text are those in its tokens, and
in an accepted template every expression is read and none of them calls for another
document. -/
theorem calls_never_hide :
    (∀ source e, Expr.parse source = .ok e → ∃ tokens, tokenize source = .ok tokens ∧
      ∀ f, e.calls f = true ↔ Token.functionName f ∈ tokens) ∧
    ∀ g template, accepts g template = true →
      ∀ n ∈ template.nodes, ∀ site ∈ n.value.expressionSites,
        site.All (XPath.ReadsWithout "document") := by
  constructor
  · intro source e h
    exact Expr.calls_iff_mem_tokens h
  · intro g template h
    exact (expressionViolation?_eq_none_iff template).mp ((accepts_iff g template).mp h).2.1

/-- A call is seen in a predicate, inside parentheses and among arguments, and a template
with a value template and a test in it is accepted without one. -/
theorem calls_never_hide_nested :
    (∃ e tokens, Expr.parse "a[count((document('x')|b)[1])]" = .ok e ∧
      tokenize "a[count((document('x')|b)[1])]" = .ok tokens ∧
      e.calls "document" = true ∧ Token.functionName "document" ∈ tokens) ∧
    ∃ template, Template.parse false "<b title=\"{string(@x)}\"><xsl:if test=\"@x\"/></b>" =
        .ok template ∧
      accepts ⟨{ name := ⟨"B"⟩ }, FilterRegistry.default.lookup, {}⟩ template = true ∧
      ∀ n ∈ template.nodes, ∀ site ∈ n.value.expressionSites,
        site.All (XPath.ReadsWithout "document") := by
  constructor
  · obtain ⟨e, he, hcalls⟩ := exists_ok_of_any (p := fun e => e.calls "document")
      (x := Expr.parse "a[count((document('x')|b)[1])]") (by decide +kernel)
    obtain ⟨tokens, htokens, h⟩ := calls_never_hide.1 _ e he
    exact ⟨e, tokens, he, htokens, hcalls, (h "document").mp hcalls⟩
  · obtain ⟨template, hparse, haccepts⟩ := exists_ok_of_any
      (p := accepts ⟨{ name := ⟨"B"⟩ }, FilterRegistry.default.lookup, {}⟩)
      (x := Template.parse false "<b title=\"{string(@x)}\"><xsl:if test=\"@x\"/></b>")
      (by decide +kernel)
    exact ⟨template, hparse, haccepts, calls_never_hide.2 _ template haccepts⟩

end Safety
end TagGrammar
