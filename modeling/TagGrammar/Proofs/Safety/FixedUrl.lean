/-
Addresses of what is loaded and run are fixed.

`MustBeFixed` picks the attributes that have to hold a fixed address, and `UrlsFixed` says
that they do, whether an attribute is written, made or copied.  What it asks of a made
attribute is a parameter.  The check looks at the nodes directly in it, so these are text,
comments and processing instructions; it does not look into them, and a text or comment
instruction may hold anything.  `accepted_urls_fixed` states both.
-/
import TagGrammar.Proofs.Except
import TagGrammar.Proofs.Template.Places
import TagGrammar.Safety.Check
import TagGrammar.Template.Source

namespace TagGrammar

/-- The nearest element around a visited node. -/
def Visit.owner? (visit : Visit) : Option Visit :=
  visit.above.find? fun a => a.node.value.makesElement

/-- Text, a comment or a processing instruction. -/
def Value.isConstant : Value → Bool
  | text _ _ _ | comment _ _ | processingInstruction _ _ => true
  | _ => false

namespace Safety

/-! ## What has to be fixed -/

/-- An element that loads code and does not keep script access within the exemption. -/
def LoadsCode (g : Grant) (visit : Visit) : Prop :=
  visit.node.value.madeName? = some "iframe" ∨ visit.node.value.madeName? = some "script" ∨
    (visit.node.value.madeName? = some "embed" ∨ visit.node.value.madeName? = some "object") ∧
      embeddingViolation? g.options.fixedUrlExemption visit ≠ none

/-- A parameter that is an address of an object that is not exempt. -/
def IsAddressParam (g : Grant) (visit : Visit) : Prop :=
  visit.node.value.madeName? = some "param" ∧
    (∃ param, visit.node.value.paramName? = some param ∧ Text.lower param ∈ urlParams) ∧
    ∃ object, visit.above.find? (fun a => a.node.value.madeName? == some "object") = some object ∧
      embeddingViolation? g.options.fixedUrlExemption object ≠ none

def MustBeFixed (g : Grant) (visit : Visit) (name : String) : Prop :=
  LoadsCode g visit ∧ isUrlAttribute name = true ∨
    IsAddressParam g visit ∧ Text.sameIgnoringCase name "value" = true

/-- A text begins with a host between two slashes and one, after a scheme of the web or
none. -/
def FixedOrigin (leading : String) : Prop :=
  ∃ scheme ∈ ["", "http:", "https:"], ∃ host rest, host ≠ [] ∧ '/' ∉ host ∧
    (Text.lower leading).toList = scheme.toList ++ '/' :: '/' :: (host ++ '/' :: rest)

/-- An expression yields constants and attributes with a filter that is safe for addresses. -/
def UrlExpression (g : Grant) (source : String) : Prop :=
  ∃ e names, XPath.Expr.parse source = .ok e ∧ e.sources? = some names ∧
    ∀ name ∈ names, ∃ attr, g.tag.findAttribute? name = some attr ∧
      ∃ filter ∈ attr.filterChain, g.lookup.isSafe filter .url = true

def FixedAddress (g : Grant) (value : String) : Prop :=
  ∃ parts, ValueTemplate.parse value = .ok parts ∧
    (ValueTemplate.expressions parts = [] ∨
      FixedOrigin (ValueTemplate.leadingLiteral parts) ∧
        ∀ source ∈ ValueTemplate.expressions parts, UrlExpression g source)

/-! ## Three ways to an attribute -/

/-- The literal attributes of an element. -/
def WrittenFixed (g : Grant) (visit : Visit) : Prop :=
  ∀ e, visit.node.value = .element e → ∀ a ∈ e.attributes, MustBeFixed g visit a.1 →
    FixedAddress g a.2

/-- An instruction makes an attribute of an element that has to be fixed. -/
def MakesAddress (g : Grant) (visit inner : Visit) : Prop :=
  inner.owner? = some visit ∧ ∃ written namespaceName name,
    inner.node.value = .attributeConstructor written namespaceName ∧
      ValueTemplate.literalText? written = some name ∧ MustBeFixed g visit name

/-- The attributes that instructions make of an element, with what is asked of them. -/
def MadeFixed (constant : Node → Prop) (g : Grant) (template : Node) (visit : Visit) : Prop :=
  ∀ inner ∈ template.visits, MakesAddress g visit inner → constant inner.node

/-- The attributes that are copied to an element. -/
def CopiedFixed (g : Grant) (template : Node) (visit : Visit) : Prop :=
  ∀ inner ∈ template.visits, inner.owner? = some visit → ∀ select e name,
    inner.node.value = .copyOf select → XPath.Expr.parse select = .ok e →
      e.asAttribute? = some name → ¬MustBeFixed g visit name

structure UrlsFixed (constant : Node → Prop) (g : Grant) (template : Node) : Prop where
  written : ∀ visit ∈ template.visits, WrittenFixed g visit
  made : ∀ visit ∈ template.visits, MadeFixed constant g template visit
  copied : ∀ visit ∈ template.visits, CopiedFixed g template visit

/-- The nodes directly in a node are constant. -/
def ConstantChildren (n : Node) : Prop := ∀ c ∈ n.children, c.value.isConstant = true

/-- The nodes below a node are constant, at any depth. -/
def ConstantBelow (n : Node) : Prop := ∀ c ∈ Node.nodesOfAll n.children, c.value.isConstant = true

/-- What stands below the nodes directly in a node is constant. -/
def ConstantNested (n : Node) : Prop := ∀ c ∈ n.children, ConstantBelow c

theorem constantBelow_iff {n : Node} :
    ConstantBelow n ↔ ConstantChildren n ∧ ConstantNested n := by
  unfold ConstantBelow ConstantChildren ConstantNested
  constructor
  · intro h
    refine ⟨fun c hc => h c (Node.mem_nodesOfAll.mpr ⟨c, hc, Or.inl rfl⟩), fun c hc d hd => ?_⟩
    exact h d (Node.mem_nodesOfAll.mpr ⟨c, hc, Or.inr hd⟩)
  · rintro ⟨hchildren, hnested⟩ d hd
    obtain ⟨c, hc, rfl | hd⟩ := Node.mem_nodesOfAll.mp hd
    · exact hchildren d hc
    · exact hnested c hc d hd

theorem madeFixed_constantBelow_iff {g : Grant} {template : Node} {visit : Visit} :
    MadeFixed ConstantBelow g template visit ↔
      MadeFixed ConstantChildren g template visit ∧ MadeFixed ConstantNested g template visit := by
  simp only [MadeFixed, constantBelow_iff]
  exact ⟨fun h => ⟨fun inner hinner hmakes => (h inner hinner hmakes).1,
      fun inner hinner hmakes => (h inner hinner hmakes).2⟩,
    fun h inner hinner hmakes => ⟨h.1 inner hinner hmakes, h.2 inner hinner hmakes⟩⟩

/-! ## What the check finds -/

theorem eq_append_of_afterLead? {lead cs rest : List Char} (h : afterLead? lead cs = some rest) :
    cs = lead ++ rest := by
  unfold afterLead? at h
  split at h
  · rename_i hprefix
    obtain ⟨t, rfl⟩ := List.isPrefixOf_iff_prefix.mp hprefix
    rw [List.drop_left, Option.some.injEq] at h
    rw [h]
  · cases h

theorem exists_scheme (cs : List Char) :
    ∃ scheme ∈ ["", "http:", "https:"], cs = scheme.toList ++ withoutScheme cs := by
  unfold withoutScheme
  cases hs : afterLead? "https:".toList cs with
  | some rest => exact ⟨"https:", by simp, eq_append_of_afterLead? hs⟩
  | none =>
    cases h : afterLead? "http:".toList cs with
    | some rest => exact ⟨"http:", by simp, eq_append_of_afterLead? h⟩
    | none => exact ⟨"", by simp, rfl⟩

theorem exists_host {cs : List Char} (h : hasHost cs = true) :
    ∃ host rest, host ≠ [] ∧ '/' ∉ host ∧ cs = host ++ '/' :: rest := by
  cases cs with
  | nil => cases h
  | cons c cs =>
    obtain ⟨hc, hcs⟩ := (Bool.and_eq_true _ _).mp h
    obtain ⟨before, rest, rfl, hbefore⟩ := List.eq_append_cons_of_mem (List.contains_iff_mem.mp hcs)
    refine ⟨c :: before, rest, List.cons_ne_nil _ _, ?_, rfl⟩
    rw [List.mem_cons, not_or]
    exact ⟨fun e => by simp [← e] at hc, hbefore⟩

theorem fixedOrigin_of_hasFixedOrigin {leading : String} (h : hasFixedOrigin leading = true) :
    FixedOrigin leading := by
  unfold hasFixedOrigin at h
  split at h
  · rename_i authority hauthority
    obtain ⟨scheme, hscheme, hcs⟩ := exists_scheme (Text.lower leading).toList
    obtain ⟨host, rest, hne, hslash, rfl⟩ := exists_host h
    refine ⟨scheme, hscheme, host, rest, hne, hslash, ?_⟩
    rw [hcs, hauthority]
  · cases h

theorem urlExpression_of_isUrlExpression {g : Grant} {source : String}
    (h : isUrlExpression g source = true) : UrlExpression g source := by
  unfold isUrlExpression at h
  split at h
  · cases h
  · rename_i e he
    obtain ⟨names, hnames, hall⟩ := (Option.any_eq_true _ _).mp h
    refine ⟨e, names, he, hnames, fun name hname => ?_⟩
    exact Grant.isFiltered_iff.mp (List.all_eq_true.mp hall name hname)

theorem expressions_eq_nil {parts : List ValuePart} (h : ValueTemplate.isLiteral parts = true) :
    ValueTemplate.expressions parts = [] := by
  refine List.filterMap_eq_nil_iff.mpr fun part hpart => ?_
  have hliteral := List.all_eq_true.mp h part hpart
  cases part with
  | literal text => rfl
  | expression source => cases hliteral

theorem fixedAddress_of_isFixedUrl {g : Grant} {value : String} (h : isFixedUrl g value = true) :
    FixedAddress g value := by
  unfold isFixedUrl at h
  split at h
  · cases h
  · rename_i parts hparts
    refine ⟨parts, hparts, ?_⟩
    rcases (Bool.or_eq_true _ _).mp h with hliteral | hfixed
    · exact Or.inl (expressions_eq_nil hliteral)
    · obtain ⟨horigin, hall⟩ := (Bool.and_eq_true _ _).mp hfixed
      refine Or.inr ⟨fixedOrigin_of_hasFixedOrigin horigin, fun source hsource => ?_⟩
      exact urlExpression_of_isUrlExpression (List.all_eq_true.mp hall source hsource)

theorem MustBeFixed.exists_attributes {g : Grant} {visit : Visit} {name : String}
    (h : MustBeFixed g visit name) :
    ∃ attributes, fixedAttributes? g visit = some attributes ∧
      attributes.contains visit.node.value.paramName? name = true := by
  rcases h with ⟨hloads, hname⟩ | ⟨⟨hparam, ⟨param, hp, hmem⟩, object, hobject, hexempt⟩, hname⟩
  · refine ⟨.urls, ?_, hname⟩
    unfold fixedAttributes? Value.madeName
    rcases hloads with h | h | ⟨h | h, hexempt⟩
    · rw [h]
      rfl
    · rw [h]
      rfl
    · rw [h]
      simp [isExempt, hexempt]
    · rw [h]
      simp [isExempt, hexempt]
  · refine ⟨.paramValue, ?_, ?_⟩
    · have henclosing : enclosingObject? visit = some object := by
        rw [← hobject, enclosingObject?]
        refine congrArg (fun p => visit.above.find? p) (funext fun a => ?_)
        cases hmade : a.node.value.madeName? <;> simp [Value.madeName, hmade]
      unfold fixedAttributes? Value.madeName
      rw [hparam]
      simp [henclosing, isExempt, hexempt]
    · simp [FixedAttributes.contains, isUrlParamValue, hname, hp, hmem]

section Accepted

variable {g : Grant} {template : Node} {visit : Visit} (h : urlViolation? g visit = none)

include h

theorem writtenFixed_of_urlViolation? : WrittenFixed g visit := by
  intro e he a ha hmust
  obtain ⟨attributes, hattributes, hcontains⟩ := hmust.exists_attributes
  rw [urlViolation?, hattributes, Option.bind_some, Option.or_eq_none_iff] at h
  have hliteral := h.1
  rw [literalUrlViolation?, he, Value.asElement?, Option.bind_some,
    List.findSome?_eq_none_iff] at hliteral
  have hfixed := hliteral a ha
  rw [he] at hcontains
  cases hurl : isFixedUrl g a.2 with
  | true => exact fixedAddress_of_isFixedUrl hurl
  | false => simp [hcontains, hurl] at hfixed

/-- The attributes that are made of an element and have to be fixed are literal. -/
theorem literal_of_madeAttribute? {inner : Visit} (hinner : inner ∈ template.visits)
    (howner : inner.owner? = some visit) {made : String × Bool}
    (hmade : madeAttribute? inner.node = some made) (hmust : MustBeFixed g visit made.1) :
    made.2 = true := by
  obtain ⟨attributes, hattributes, hcontains⟩ := hmust.exists_attributes
  have hbelow : inner ∈ visit.below :=
    (Node.mem_of_mem_above hinner (List.mem_of_find?_eq_some howner)).2
  have hpath : inner.ownerPath? = some visit.path := congrArg (Option.map Visit.path) howner
  rw [urlViolation?, hattributes, Option.bind_some, Option.or_eq_none_iff] at h
  have hnone := List.findSome?_eq_none_iff.mp h.2 inner hbelow
  rw [hpath, beq_self_eq_true, if_pos rfl, hmade, Option.bind_some, hcontains,
    Bool.and_true] at hnone
  cases hliteral : made.2 with
  | true => rfl
  | false => simp [hliteral] at hnone

theorem madeFixed_of_urlViolation? : MadeFixed ConstantChildren g template visit := by
  rintro inner hinner ⟨howner, written, namespaceName, name, hvalue, hname, hmust⟩
  have hmade : madeAttribute? inner.node = some (name, inner.node.children.all isLiteralContent) := by
    simp only [madeAttribute?, hvalue, hname, Option.getD_some]
  have hall := literal_of_madeAttribute? h hinner howner hmade hmust
  intro c hc
  have hliteral := List.all_eq_true.mp hall c hc
  unfold isLiteralContent at hliteral
  cases hv : c.value <;> simp_all [Value.isConstant]

theorem copiedFixed_of_urlViolation? : CopiedFixed g template visit := by
  intro inner hinner howner select e name hvalue he hname hmust
  have hmade : madeAttribute? inner.node = some (name, false) := by
    simp only [madeAttribute?, hvalue, he, hname, Option.map_some]
  cases literal_of_madeAttribute? h hinner howner hmade hmust

end Accepted

theorem urlsFixed_of_fixedUrlViolation? {g : Grant} {template : Node}
    (h : fixedUrlViolation? g template = none) : UrlsFixed ConstantChildren g template := by
  have hvisit : ∀ visit ∈ template.visits, urlViolation? g visit = none :=
    List.findSome?_eq_none_iff.mp h
  exact ⟨fun visit hv => writtenFixed_of_urlViolation? (hvisit visit hv),
    fun visit hv => madeFixed_of_urlViolation? (hvisit visit hv),
    fun visit hv => copiedFixed_of_urlViolation? (hvisit visit hv)⟩

/-- Addresses that are written or copied are fixed in an accepted template, and those that
are made hold nothing but text, comments and processing instructions.  They do so at any
depth just if nothing else is nested in these. -/
theorem accepted_urls_fixed {g : Grant} {template : Node} (h : accepts g template = true) :
    UrlsFixed ConstantChildren g template ∧
      (UrlsFixed ConstantBelow g template ↔
        ∀ visit ∈ template.visits, MadeFixed ConstantNested g template visit) := by
  have hfixed : UrlsFixed ConstantChildren g template :=
    urlsFixed_of_fixedUrlViolation? ((accepts_iff g template).mp h).2.2.1
  refine ⟨hfixed, fun hbelow visit hvisit => ?_, fun hnested => ⟨hfixed.written, ?_, hfixed.copied⟩⟩
  · exact (madeFixed_constantBelow_iff.mp (hbelow.made visit hvisit)).2
  · intro visit hvisit
    exact madeFixed_constantBelow_iff.mpr ⟨hfixed.made visit hvisit, hnested visit hvisit⟩

/-- A tag with an address. -/
def playerGrant : Grant where
  tag :=
    { name := ⟨"PLAYER"⟩
      attributes := .ofList [(⟨"url"⟩, { name := ⟨"url"⟩, type := .url })] }
  lookup := FilterRegistry.default.lookup

/-- In this template the nodes directly in a made attribute hold nothing. -/
def playerSource : String :=
  "<object><param name=\"movie\" value=\"//a/{@url}\"/></object>" ++
    "<script><xsl:if test=\"@url\"><xsl:attribute name=\"src\">b</xsl:attribute></xsl:if></script>"

theorem accepted_urls_fixed_player :
    ∃ template, Template.parse false playerSource = .ok template ∧
      accepts playerGrant template = true ∧ UrlsFixed ConstantBelow playerGrant template := by
  obtain ⟨template, hparse, h⟩ := exists_ok_of_any (p := fun template =>
      accepts playerGrant template && template.visits.all fun visit =>
        !visit.node.value.makesAttribute || visit.node.children.all fun c => c.children.isEmpty)
    (x := Template.parse false playerSource) (by decide +kernel)
  simp only [Bool.and_eq_true, List.all_eq_true] at h
  obtain ⟨haccepts, hempty⟩ := h
  refine ⟨template, hparse, haccepts, (accepted_urls_fixed haccepts).2.mpr ?_⟩
  rintro visit _ inner hinner ⟨-, written, namespaceName, name, hvalue, -⟩ c hc
  have hc' := hempty inner hinner
  rw [hvalue, Value.makesAttribute, Bool.not_true, Bool.false_or] at hc'
  have hnil : c.children = [] := List.isEmpty_iff.mp (List.all_eq_true.mp hc' c hc)
  intro d hd
  rw [hnil] at hd
  cases hd

/-- The address is in a text instruction, which is not looked into. -/
def nestedSource : String :=
  "<script><xsl:attribute name=\"src\"><xsl:text><xsl:value-of select=\"@url\"/></xsl:text>" ++
    "</xsl:attribute></script>"

/-- A made address of a script that is not constant. -/
def isOpenScriptSource (inner : Visit) : Bool :=
  match inner.owner?, inner.node.value with
  | some visit, .attributeConstructor written _ =>
    visit.node.value.madeName? == some "script" &&
      ValueTemplate.literalText? written == some "src" &&
      (Node.nodesOfAll inner.node.children).any fun n => !n.value.isConstant
  | _, _ => false

theorem nested_address_accepted :
    ∃ template, Template.parse false nestedSource = .ok template ∧
      accepts playerGrant template = true ∧ ¬UrlsFixed ConstantBelow playerGrant template := by
  obtain ⟨template, hparse, h⟩ := exists_ok_of_any (p := fun template =>
      accepts playerGrant template && template.visits.any isOpenScriptSource)
    (x := Template.parse false nestedSource) (by decide +kernel)
  obtain ⟨haccepts, hopen⟩ := (Bool.and_eq_true _ _).mp h
  obtain ⟨inner, hinner, hsource⟩ := List.any_eq_true.mp hopen
  refine ⟨template, hparse, haccepts, fun hfixed => ?_⟩
  unfold isOpenScriptSource at hsource
  split at hsource
  · rename_i visit written namespaceName howner hvalue
    simp only [Bool.and_eq_true, beq_iff_eq, List.any_eq_true] at hsource
    obtain ⟨⟨hscript, hname⟩, n, hn, hconstant⟩ := hsource
    have hvisit : visit ∈ template.visits :=
      (Node.mem_of_mem_above hinner (List.mem_of_find?_eq_some howner)).1
    have hmust : MustBeFixed playerGrant visit "src" :=
      Or.inl ⟨Or.inr (Or.inl hscript), by decide +kernel⟩
    have hbelow := hfixed.made visit hvisit inner hinner
      ⟨howner, written, namespaceName, "src", hvalue, hname, hmust⟩ n hn
    rw [hbelow] at hconstant
    cases hconstant
  · cases hsource

end Safety
end TagGrammar
