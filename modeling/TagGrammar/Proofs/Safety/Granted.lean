/-
What more is granted.

A check goes by the filters that attributes pass through, by what the filters promise and by
two bounds on script access, and it goes by them in different ways: filters and bounds meet
what is asked, an exemption takes away what is asked, and an exempt object takes it away
from its parameters too.  All of it goes one way.  `Grant.Within` says that a grant gives no
more than another one, each check is led along it, and a template that is accepted stays
accepted (`accepts_of_within`).
-/
import TagGrammar.Proofs.Dictionary
import TagGrammar.Proofs.Safety.Locality

namespace TagGrammar
namespace Safety

/-! ## Grants that give more -/

/-- A bound on script access that bounds no less than another one.  Without a bound all is
granted. -/
def BoundWithin (most most' : Option ScriptAccess) : Prop :=
  ∀ m', most' = some m' → ∃ m, most = some m ∧ m.atMost m' = true

/-- A grant gives no more than another one. -/
structure Grant.Within (g g' : Grant) : Prop where
  attributes : ∀ name attr, g.tag.findAttribute? name = some attr →
    ∃ attr', g'.tag.findAttribute? name = some attr' ∧ attr.filterChain ⊆ attr'.filterChain
  filters : ∀ filter sink, g.lookup.isSafe filter sink = true → g'.lookup.isSafe filter sink = true
  fixedUrlExemption : g.options.fixedUrlExemption.atMost g'.options.fixedUrlExemption = true
  maxScriptAccess : BoundWithin g.options.maxScriptAccess g'.options.maxScriptAccess

/-- Attributes are found as they are declared, since declared names are in small letters. -/
theorem findAttribute?_of_declared {t t' : Tag}
    (hlower : ∀ name ∈ t'.attributes.keys, Text.lower name.text = name.text)
    (hdeclared : ∀ name attr, t.attributes.find? name = some attr →
      ∃ attr', t'.attributes.find? name = some attr' ∧ attr.filterChain ⊆ attr'.filterChain)
    {name : String} {attr : TagAttribute} (h : t.findAttribute? name = some attr) :
    ∃ attr', t'.findAttribute? name = some attr' ∧ attr.filterChain ⊆ attr'.filterChain := by
  unfold Tag.findAttribute? at h ⊢
  cases hname : t.attributes.find? ⟨name⟩ with
  | some attr₀ =>
    rw [hname] at h
    obtain ⟨attr', hattr', hchain⟩ := hdeclared _ _ (hname.trans h)
    exact ⟨attr', by rw [hattr'], hchain⟩
  | none =>
    rw [hname] at h
    obtain ⟨attr', hattr', hchain⟩ := hdeclared _ _ h
    cases hname' : t'.attributes.find? ⟨name⟩ with
    | none => exact ⟨attr', hattr', hchain⟩
    | some attr₀ =>
      have hsame : Text.lower name = name := hlower ⟨name⟩ (Dictionary.mem_keys_of_find? hname')
      rw [hsame, hname'] at hattr'
      exact ⟨attr', hattr', hchain⟩

section Within

variable {g g' : Grant} (hwithin : g.Within g')

include hwithin

theorem Grant.Within.isFiltered {name : String} {sink : Sink} (h : g.isFiltered name sink = true) :
    g'.isFiltered name sink = true := by
  obtain ⟨attr, hattr, filter, hfilter, hsafe⟩ := Grant.isFiltered_iff.mp h
  obtain ⟨attr', hattr', hchain⟩ := hwithin.attributes name attr hattr
  exact Grant.isFiltered_iff.mpr
    ⟨attr', hattr', filter, hchain hfilter, hwithin.filters filter sink hsafe⟩

end Within

/-! ## Script access under a higher bound -/

section Bounds

variable {m m' : ScriptAccess} (hbound : m.atMost m' = true) {n : Node}

include hbound

theorem SettingAtMost.mono {setting : String} (h : SettingAtMost m setting) :
    SettingAtMost m' setting := by
  obtain ⟨access, haccess, hmost⟩ := h
  exact ⟨access, haccess, ScriptAccess.atMost_trans hmost hbound⟩

theorem EmbedAtMost.mono (h : EmbedAtMost m n) : EmbedAtMost m' n := ⟨h.1, h.2.mono hbound⟩

theorem ParamAtMost.mono (h : ParamAtMost m n) : ParamAtMost m' n :=
  fun e he => ⟨(h e he).1.mono hbound, (h e he).2⟩

theorem ObjectAtMost.mono (h : ObjectAtMost m n) : ObjectAtMost m' n :=
  ⟨fun d hd => (h.1 d hd).mono hbound, h.2.imp_right fun hdefault => hdefault.mono hbound⟩

theorem GrantsAtMost.mono (h : GrantsAtMost m n) : GrantsAtMost m' n :=
  ⟨fun hembed => (h.1 hembed).mono hbound, fun hobject => (h.2 hobject).mono hbound⟩

end Bounds

theorem scriptAccessViolation?_mono {most most' : Option ScriptAccess}
    (hbound : BoundWithin most most') {template : Node}
    (h : scriptAccessViolation? most template = none) :
    scriptAccessViolation? most' template = none := by
  rw [scriptAccessViolation?_eq_none_iff] at h ⊢
  intro visit hvisit m' hm'
  obtain ⟨m, hm, hmost⟩ := hbound m' hm'
  exact (h visit hvisit m hm).mono hmost

/-! ## Addresses -/

section Urls

variable {g g' : Grant} (hwithin : g.Within g') {visit : Visit}

include hwithin

theorem isUrlExpression_mono {source : String} (h : isUrlExpression g source = true) :
    isUrlExpression g' source = true := by
  unfold isUrlExpression at h ⊢
  cases hparse : XPath.Expr.parse source with
  | error cause =>
    rw [hparse] at h
    cases h
  | ok e =>
    rw [hparse] at h
    obtain ⟨names, hnames, hall⟩ := (Option.any_eq_true _ _).mp h
    refine (Option.any_eq_true _ _).mpr ⟨names, hnames, List.all_eq_true.mpr fun name hname => ?_⟩
    exact hwithin.isFiltered (List.all_eq_true.mp hall name hname)

theorem isFixedUrl_mono {value : String} (h : isFixedUrl g value = true) :
    isFixedUrl g' value = true := by
  unfold isFixedUrl at h ⊢
  cases hparse : ValueTemplate.parse value with
  | error cause =>
    rw [hparse] at h
    cases h
  | ok parts =>
    rw [hparse] at h
    simp only [isFixedParts, Bool.or_eq_true, Bool.and_eq_true, List.all_eq_true] at h ⊢
    refine h.imp_right fun ⟨horigin, hexpressions⟩ => ⟨horigin, fun source hsource => ?_⟩
    exact isUrlExpression_mono hwithin (hexpressions source hsource)

theorem isExempt_mono (h : isExempt g visit = true) : isExempt g' visit = true := by
  rw [isExempt, Option.isNone_iff_eq_none, embeddingViolation?_eq_none_iff] at h ⊢
  exact h.mono hwithin.fixedUrlExemption

/-- What is asked of a movie that is not exempt is asked of one that was not before. -/
theorem unlessExempt_mono {asked attributes : FixedAttributes}
    (h : (if isExempt g' visit then none else some asked) = some attributes) :
    (if isExempt g visit then none else some asked) = some attributes := by
  cases hexempt : isExempt g visit with
  | true =>
    rw [isExempt_mono hwithin hexempt] at h
    cases h
  | false =>
    cases hexempt' : isExempt g' visit with
    | true =>
      rw [hexempt'] at h
      cases h
    | false => rwa [hexempt'] at h

/-- A higher exemption asks for the same attributes or for none. -/
theorem fixedAttributes?_mono {attributes : FixedAttributes}
    (h : fixedAttributes? g' visit = some attributes) :
    fixedAttributes? g visit = some attributes := by
  unfold fixedAttributes? at h ⊢
  split at h
  case h_1 => exact h
  case h_2 => exact h
  case h_3 => exact unlessExempt_mono hwithin h
  case h_4 => exact unlessExempt_mono hwithin h
  case h_5 =>
    cases hobject : enclosingObject? visit with
    | none =>
      rw [hobject] at h
      cases h
    | some object =>
      rw [hobject] at h
      exact unlessExempt_mono hwithin h
  case h_6 => cases h

theorem urlViolation?_mono (h : urlViolation? g visit = none) : urlViolation? g' visit = none := by
  unfold urlViolation? at h ⊢
  cases hfixed : fixedAttributes? g' visit with
  | none => rfl
  | some attributes =>
    rw [fixedAttributes?_mono hwithin hfixed, Option.bind_some, Option.or_eq_none_iff,
      literalUrlViolation?_eq_none_iff] at h
    rw [Option.bind_some, Option.or_eq_none_iff, literalUrlViolation?_eq_none_iff]
    exact ⟨fun e he a ha hcontains => isFixedUrl_mono hwithin (h.1 e he a ha hcontains), h.2⟩

theorem fixedUrlViolation?_mono {template : Node} (h : fixedUrlViolation? g template = none) :
    fixedUrlViolation? g' template = none := by
  rw [fixedUrlViolation?, List.findSome?_eq_none_iff] at h ⊢
  exact fun visit hvisit => urlViolation?_mono hwithin (h visit hvisit)

end Urls

/-! ## Sinks -/

section Sinks

variable {g g' : Grant} (hwithin : g.Within g') {around : List Visit} {mailto : Bool}
  {sink : Sink}

include hwithin

theorem ReferenceSafe.mono {name : String} (h : ReferenceSafe g around mailto sink name) :
    ReferenceSafe g' around mailto sink name := by
  rw [ReferenceSafe, ← Grant.isFiltered_iff] at h ⊢
  exact ⟨h.1, hwithin.isFiltered h.2⟩

theorem OutputSafe.mono {source : String} (h : OutputSafe g around mailto sink source) :
    OutputSafe g' around mailto sink source := by
  obtain ⟨e, names, hparse, hnames, hsafe⟩ := h
  exact ⟨e, names, hparse, hnames, fun name hname => (hsafe name hname).mono hwithin⟩

theorem ValueTemplateSafe.mono {value : String} (h : ValueTemplateSafe g around sink value) :
    ValueTemplateSafe g' around sink value := by
  obtain ⟨parts, hparse, hsafe⟩ := h
  exact ⟨parts, hparse, fun source hsource => (hsafe source hsource).mono hwithin⟩

theorem PlaceSafe.mono {visit : Visit} (h : PlaceSafe g visit) : PlaceSafe g' visit := by
  unfold PlaceSafe at h ⊢
  split at h
  case h_1 e _ =>
    intro a ha hinstruction sink hsink
    exact (h a ha hinstruction sink hsink).mono hwithin
  case h_2 => exact fun sink hsink => (h sink hsink).mono hwithin
  case h_3 =>
    obtain ⟨e, name, hparse, hname, hsafe⟩ := h
    exact ⟨e, name, hparse, hname, fun sink hsink => (hsafe sink hsink).mono hwithin⟩
  case h_4 => exact h
  case h_5 => exact h
  case h_6 => trivial

theorem flowViolation?_mono {template : Node} (h : flowViolation? g template = none) :
    flowViolation? g' template = none := by
  rw [flowViolation?_eq_none_iff] at h ⊢
  exact fun visit hvisit hreached => (h visit hvisit hreached).mono hwithin

end Sinks

/-- A template that is accepted is accepted under every grant that gives more: attributes with
more filters, filters that promise more, a higher exemption and a higher bound on script
access or none. -/
theorem accepts_of_within {g g' : Grant} (hwithin : g.Within g') {template : Node}
    (h : accepts g template = true) : accepts g' template = true := by
  rw [accepts_iff] at h ⊢
  obtain ⟨hstructure, hexpressions, hurls, hscripts, hflows⟩ := h
  exact ⟨hstructure, hexpressions, fixedUrlViolation?_mono hwithin hurls,
    scriptAccessViolation?_mono hwithin.maxScriptAccess hscripts,
    flowViolation?_mono hwithin hflows⟩

/-- A tag for movies that must not script the page. -/
def silentMovieGrant : Grant where
  tag :=
    { name := ⟨"MOVIE"⟩
      attributes := .ofList [(⟨"src"⟩, { name := ⟨"src"⟩, type := .url })] }
  lookup := FilterRegistry.default.lookup
  options := { maxScriptAccess := some .never }

/-- A tag with a further attribute and a further filter, for any movies. -/
def anyMovieGrant : Grant where
  tag :=
    { name := ⟨"MOVIE"⟩
      attributes := .ofList
        [(⟨"src"⟩, { name := ⟨"src"⟩, type := .text, filterChain := ["trim", "#url"] }),
         (⟨"title"⟩, { name := ⟨"title"⟩, type := .text })] }
  lookup := fun filter =>
    if filter = "trim" then some (.ofList [.attributeValue])
    else FilterRegistry.default.lookup filter
  options := { fixedUrlExemption := .always }

theorem silentMovieGrant_within : silentMovieGrant.Within anyMovieGrant where
  attributes name attr h := by
    refine findAttribute?_of_declared (by decide) (fun name attr h => ?_) h
    have hmem := (Dictionary.find?_ofList_eq_some_iff (by decide)).mp h
    obtain ⟨rfl, rfl⟩ := Prod.mk.inj (List.mem_singleton.mp hmem)
    exact ⟨_, rfl, by decide⟩
  filters filter sink h := by
    have hunknown : silentMovieGrant.lookup "trim" = none := by decide +kernel
    have hknown : filter ≠ "trim" := by
      rintro rfl
      rw [FilterLookup.isSafe, hunknown] at h
      cases h
    have hsame : anyMovieGrant.lookup filter = silentMovieGrant.lookup filter := if_neg hknown
    rw [FilterLookup.isSafe, hsame]
    exact h
  fixedUrlExemption := by decide
  maxScriptAccess m' h := by cases h

/-- An exempt movie with a filtered address. -/
def silentMovieSource : String := "<embed src=\"{@src}\" allowscriptaccess=\"never\"/>"

theorem accepts_of_within_silentMovie :
    ∃ template, Template.parse false silentMovieSource = .ok template ∧
      accepts silentMovieGrant template = true ∧ accepts anyMovieGrant template = true := by
  obtain ⟨template, hparse, haccepts⟩ := exists_ok_of_any (p := accepts silentMovieGrant)
    (x := Template.parse false silentMovieSource) (by decide +kernel)
  exact ⟨template, hparse, haccepts, accepts_of_within silentMovieGrant_within haccepts⟩

end Safety
end TagGrammar
