/-
The content model in the rule table.

Three stages decide between the rules that follow from the content models of two templates:
conflicts are resolved where rules are derived, a tag takes a rule with the child rule that
it implies, and in the table denials win and no child is allowed that is not allowed as a
descendant.  For tags that had no rules, what is left of the three is one relation between
the two outlines, `FollowsContentModel`.  Rules that are derived a second time are there
already, since neither names nor templates have changed.
-/
import TagGrammar.Proofs.Configuration.Trust
import TagGrammar.Proofs.Html.Derivation
import TagGrammar.Proofs.RuleTable

namespace TagGrammar

/-! ## Rules with what they imply -/

namespace RuleSet

/-- Rules that are declared again are there already. -/
theorem addAll_addAll_self (s : RuleSet) (rules : List Rule) :
    (s.addAll rules).addAll rules = s.addAll rules := by
  refine ext_contains fun r => ?_
  rw [contains_addAll, contains_addAll, or_self_left]

theorem contains_addAll_empty {s : RuleSet} {action : RuleAction} {name : TagName} :
    (empty.addAll s.toList).contains ⟨action, name⟩ = true ↔ s.contains ⟨action, name⟩ = true ∨
      ∃ stronger, stronger.implied? = some action ∧ s.contains ⟨stronger, name⟩ = true := by
  rw [contains_addAll]
  constructor
  · rintro (⟨rule, hrule, rfl | ⟨himplied, rfl⟩⟩ | h)
    · exact Or.inl (contains_iff.mpr hrule)
    · exact Or.inr ⟨rule.action, himplied, contains_iff.mpr hrule⟩
    · cases h
  · rintro (h | ⟨stronger, himplied, h⟩)
    · exact Or.inl ⟨_, contains_iff.mp h, Or.inl rfl⟩
    · exact Or.inl ⟨_, contains_iff.mp h, Or.inr ⟨himplied, rfl⟩⟩

end RuleSet

namespace Html

section Pair

variable {o t : Outline}

/-- The rules of a tag on a target with those that they imply. -/
def Declares (o t : Outline) (action : RuleAction) : Prop :=
  Derives o t action ∨ ∃ stronger, stronger.implied? = some action ∧ Derives o t stronger

theorem implied?_eq_some_iff {stronger action : RuleAction} :
    stronger.implied? = some action ↔
      stronger = .denyDescendant ∧ action = .denyChild ∨
        stronger = .allowDescendant ∧ action = .allowChild := by
  cases stronger <;> cases action <;> simp [RuleAction.implied?]

theorem declares_denyDescendant : Declares o t .denyDescendant ↔ DeniesDescendant o t := by
  simp [Declares, Derives, implied?_eq_some_iff]

/-- A denial of children that yielded to a denial of descendants is implied by it. -/
theorem declares_denyChild : Declares o t .denyChild ↔ DeniesDescendant o t ∨ DeniesChild o t := by
  by_cases h : DeniesDescendant o t <;> simp [Declares, Derives, implied?_eq_some_iff, h]

theorem declares_closeParent : Declares o t .closeParent ↔ ClosesParent o t := by
  simp [Declares, Derives, implied?_eq_some_iff]

theorem not_deniesDescendant_iff :
    ¬DeniesDescendant o t ↔ o.deniedDescendants &&& t.usedCategories = 0 := Decidable.not_not

theorem not_deniesChild_iff : ¬DeniesChild o t ↔ o.allowedChildren ≠ [] ∧
    ∀ allowed ∈ o.allowedChildren, ∀ first ∈ t.firstChildren, allowed &&& first.2 ≠ 0 := by
  simp [DeniesChild]

end Pair

end Html

namespace Configuration

open Html

/-! ## What is derived for a configuration -/

section Derived

variable {c c' : Configuration} {root : Option String}

/-- The tags that rules are derived for, each with its template. -/
def templates (c : Configuration) : List (TagName × Option Node) :=
  c.tags.values.map fun t => (t.name, t.template)

/-- A tag with what was derived for its name, if anything was. -/
def withDerived? (derived : Dictionary TagName DerivedOptions) (name : TagName) (t : Tag) : Tag :=
  ((derived.find? name).map fun options => withDerived options t).getD t

theorem addHtmlRules_eq_ok_iff : c.addHtmlRules root = ⟨.ok (), c'⟩ ↔
    ∃ derived, derive root c.templates = .ok derived ∧
      c' = { c with tags := c.tags.mapValues (withDerived? derived) } := by
  unfold addHtmlRules templates
  cases hderive : derive root (c.tags.values.map fun t => (t.name, t.template)) with
  | error cause =>
    refine iff_of_false (fun h => ?_) fun ⟨_, h, _⟩ => by cases h
    cases congrArg Outcome.result h
  | ok derived =>
    have hnodup : (derived.entries.map Prod.fst).Nodup := by
      obtain ⟨-, rfl⟩ := derive_eq_ok_iff.mp hderive
      exact (Dictionary.increasing_keys_ofList _).nodup
    have htags : derived.entries.foldl (fun tags d => tags.modify d.1 (withDerived d.2)) c.tags =
        c.tags.mapValues (withDerived? derived) := by
      rw [Dictionary.foldl_modify]
      refine congrArg (c.tags.mapValues ·) (funext fun name => funext fun t => ?_)
      exact Dictionary.foldl_ite_of_nodup withDerived hnodup name t
    rw [declaring, htags]
    simp [eq_comm]

theorem withDerived_withDerived (options : DerivedOptions) (t : Tag) :
    withDerived options (withDerived options t) = withDerived options t := by
  simp only [withDerived, RuleSet.addAll_addAll_self, Bool.or_assoc, Bool.or_self]

theorem withDerived?_withDerived? (derived : Dictionary TagName DerivedOptions) (name : TagName)
    (t : Tag) : withDerived? derived name (withDerived? derived name t) =
      withDerived? derived name t := by
  unfold withDerived?
  cases derived.find? name with
  | none => rfl
  | some options => exact withDerived_withDerived options t

theorem name_withDerived? (derived : Dictionary TagName DerivedOptions) (name : TagName)
    (t : Tag) : (withDerived? derived name t).name = t.name := by
  unfold withDerived?
  cases derived.find? name <;> rfl

theorem template_withDerived? (derived : Dictionary TagName DerivedOptions) (name : TagName)
    (t : Tag) : (withDerived? derived name t).template = t.template := by
  unfold withDerived?
  cases derived.find? name <;> rfl

theorem templates_mapValues (derived : Dictionary TagName DerivedOptions) :
    { c with tags := c.tags.mapValues (withDerived? derived) }.templates = c.templates := by
  simp only [templates, Dictionary.values, Dictionary.mapValues, List.map_map]
  refine List.map_congr_left fun e _ => ?_
  exact Prod.ext (name_withDerived? derived e.1 e.2) (template_withDerived? derived e.1 e.2)

theorem Stored.values_mapValues (hc : c.Stored) (edit : TagName → Tag → Tag) :
    (c.tags.mapValues edit).values = c.tags.values.map fun t => edit t.name t := by
  rw [Dictionary.values, Dictionary.values, Dictionary.mapValues, List.map_map, List.map_map]
  refine List.map_congr_left fun e he => ?_
  show edit e.1 e.2 = edit e.2.name e.2
  rw [(hc.named e.1 e.2 (hc.find?_eq_some_iff.mpr he)).1]

/-- The same rules are derived again, and they are there already. -/
theorem addHtmlRules_again (h : c.addHtmlRules root = ⟨.ok (), c'⟩) :
    c'.addHtmlRules root = ⟨.ok (), c'⟩ := by
  obtain ⟨derived, hderive, rfl⟩ := addHtmlRules_eq_ok_iff.mp h
  refine addHtmlRules_eq_ok_iff.mpr ⟨derived, (templates_mapValues derived).symm ▸ hderive, ?_⟩
  simp only [Dictionary.mapValues_mapValues, withDerived?_withDerived?]

end Derived

/-! ## Tags that had no rules -/

/-- A tag without rules that allows what no rule names and is enabled. -/
structure IsBare (t : Tag) : Prop where
  rules : t.rules = .empty
  defaultChildRule : t.options.defaultChildRule = .allow
  defaultDescendantRule : t.options.defaultDescendantRule = .allow
  enabled : t.options.disabled = false

instance (t : Tag) : Decidable (IsBare t) :=
  decidable_of_iff (t.rules = .empty ∧ t.options.defaultChildRule = .allow ∧
    t.options.defaultDescendantRule = .allow ∧ t.options.disabled = false)
    ⟨fun ⟨h₁, h₂, h₃, h₄⟩ => ⟨h₁, h₂, h₃, h₄⟩, fun ⟨h₁, h₂, h₃, h₄⟩ => ⟨h₁, h₂, h₃, h₄⟩⟩

/-- The root element, if there is one, forbids nothing that the template of the tag uses. -/
def AcceptedBelow (root : Option String) (t : Tag) : Prop :=
  ∀ element, root = some element →
    ¬DeniesDescendant (outlineOfRoot element) (outlineOf t.template)

/-- What a tag without rules is once its rules have been derived. -/
structure Follows (root : Option String) (tags : List Tag) (t t' : Tag) : Prop where
  name : t'.name = t.name
  defaultChildRule : t'.options.defaultChildRule = .allow
  defaultDescendantRule : t'.options.defaultDescendantRule = .allow
  enabled : t'.options.disabled = false ↔ AcceptedBelow root t
  rules : ∀ b ∈ tags, ∀ action, t'.rules.contains ⟨action, b.name⟩ = true ↔
    Declares (outlineOf t.template) (outlineOf b.template) action

theorem follows_withDerived {root : Option String} {tags : List Tag} {t : Tag} (ht : IsBare t)
    {options : DerivedOptions}
    (h : Html.DescribesTag root (tags.map fun t => (t.name, t.template)) (t.name, t.template)
      options) : Follows root tags t (withDerived options t) where
  name := rfl
  defaultChildRule := ht.defaultChildRule
  defaultDescendantRule := ht.defaultDescendantRule
  enabled := by
    show (t.options.disabled || options.disabled) = false ↔ _
    rw [ht.enabled, Bool.false_or, ← Bool.not_eq_true, h.disabled]
    simp [AcceptedBelow]
  rules b hb action := by
    have hmem : (b.name, b.template) ∈ tags.map fun t => (t.name, t.template) :=
      List.mem_map.mpr ⟨b, hb, rfl⟩
    show (t.rules.addAll options.rules.toList).contains ⟨action, b.name⟩ = true ↔ _
    rw [ht.rules, RuleSet.contains_addAll_empty]
    simp only [h.rules _ hmem]
    rfl

/-! ## The table -/

/-- The rule table is the relation between the outlines of the templates that the content
model makes, on the tags that the root element accepts. -/
structure FollowsContentModel (root : Option String) (tags : List Tag) (table : RuleTable) :
    Prop where
  names_increasing : Increasing table.names
  mem_names : ∀ name, name ∈ table.names ↔ ∃ t ∈ tags, t.name = name ∧ AcceptedBelow root t
  descendant : ∀ a ∈ tags, ∀ b ∈ tags, AcceptedBelow root a → AcceptedBelow root b →
    (table.allowsDescendant a.name.text b.name.text = true ↔
      (outlineOf a.template).deniedDescendants &&& (outlineOf b.template).usedCategories = 0)
  child : ∀ a ∈ tags, ∀ b ∈ tags, AcceptedBelow root a → AcceptedBelow root b →
    (table.allowsChild a.name.text b.name.text = true ↔
      (outlineOf a.template).deniedDescendants &&& (outlineOf b.template).usedCategories = 0 ∧
        (outlineOf a.template).allowedChildren ≠ [] ∧
        ∀ allowed ∈ (outlineOf a.template).allowedChildren,
          ∀ first ∈ (outlineOf b.template).firstChildren, allowed &&& first.2 ≠ 0)
  closeParent : ∀ a ∈ tags, AcceptedBelow root a →
    ∃ entry, table.find? a.name.text = some entry ∧ Increasing entry.closeParent ∧
      ∀ name, name ∈ entry.closeParent ↔ ∃ b ∈ tags, b.name = name ∧ AcceptedBelow root b ∧
        ∃ first ∈ (outlineOf a.template).firstChildren, ∃ m, element? first.1 = some m ∧
          ∃ last ∈ (outlineOf b.template).lastChildren, last ∈ m.closes

section Compiled

variable {root : Option String} {tags : List Tag} {derived : Tag → Tag}
  (hdeclared : ∀ t ∈ tags, t.name.IsDeclared) (hnames : (tags.map Tag.name).Nodup)
  (hfollows : ∀ t ∈ tags, Follows root tags t (derived t))

include hnames hfollows

/-- The names of the tags differ, so each one that is accepted counts. -/
theorem lastEnabled?_derived_iff {name : TagName} {t' : Tag} :
    RuleTable.lastEnabled? (tags.map derived) name = some t' ↔
      ∃ t ∈ tags, derived t = t' ∧ t.name = name ∧ AcceptedBelow root t := by
  have hsame : (tags.map derived).map Tag.name = tags.map Tag.name := by
    rw [List.map_map]
    exact List.map_congr_left fun t ht => (hfollows t ht).name
  have hnodup : (((tags.map derived).filter fun t => !t.options.disabled).map Tag.name).Nodup :=
    (hsame ▸ hnames).sublist (List.filter_sublist.map _)
  rw [RuleTable.lastEnabled?_eq_some_iff hnodup, List.mem_map]
  constructor
  · rintro ⟨⟨t, ht, rfl⟩, henabled, hname⟩
    have htag := hfollows t ht
    exact ⟨t, ht, rfl, htag.name.symm.trans hname, htag.enabled.mp henabled⟩
  · rintro ⟨t, ht, rfl, hname, haccepted⟩
    have htag := hfollows t ht
    exact ⟨⟨t, ht, rfl⟩, htag.enabled.mpr haccepted, htag.name.trans hname⟩

theorem enabled_derived_iff {name : TagName} : RuleTable.Enabled (tags.map derived) name ↔
    ∃ t ∈ tags, t.name = name ∧ AcceptedBelow root t := by
  rw [RuleTable.Enabled, Option.isSome_iff_exists]
  simp only [lastEnabled?_derived_iff hnames hfollows]
  constructor
  · rintro ⟨t', t, ht, -, haccepted⟩
    exact ⟨t, ht, haccepted⟩
  · rintro ⟨t, ht, haccepted⟩
    exact ⟨derived t, t, ht, rfl, haccepted⟩

/-- A tag that the root element accepts counts with the rules that were derived for it. -/
theorem lastEnabled?_derived {t : Tag} (ht : t ∈ tags) (haccepted : AcceptedBelow root t) :
    RuleTable.lastEnabled? (tags.map derived) (derived t).name = some (derived t) :=
  (lastEnabled?_derived_iff hnames hfollows).mpr
    ⟨t, ht, rfl, (hfollows t ht).name.symm, haccepted⟩

include hdeclared

omit hnames in
theorem declared_derived : ∀ t' ∈ tags.map derived, t'.name.IsDeclared := by
  intro t' ht'
  obtain ⟨t, ht, rfl⟩ := List.mem_map.mp ht'
  exact (hfollows t ht).name ▸ hdeclared t ht

section Pair

variable {a b : Tag} (ha : a ∈ tags) (hA : AcceptedBelow root a)

include ha hA

theorem allowsDescendant_derived_iff (hb : b ∈ tags) (hB : AcceptedBelow root b) :
    (RuleTable.compile (tags.map derived)).allowsDescendant a.name.text b.name.text = true ↔
      ¬DeniesDescendant (outlineOf a.template) (outlineOf b.template) := by
  have htag := hfollows a ha
  have hallows := RuleTable.allowsDescendant_compile (declared_derived hdeclared hfollows)
    (lastEnabled?_derived hnames hfollows ha hA)
    ((enabled_derived_iff hnames hfollows).mpr ⟨b, hb, rfl, hB⟩)
  rw [htag.name] at hallows
  rw [hallows, htag.defaultDescendantRule, ← declares_denyDescendant, ← htag.rules b hb]
  simp

/-- The denial of children counts, and so does the denial of descendants, which implies one of
children. -/
theorem allowsChild_derived_iff (hb : b ∈ tags) (hB : AcceptedBelow root b) :
    (RuleTable.compile (tags.map derived)).allowsChild a.name.text b.name.text = true ↔
      ¬DeniesDescendant (outlineOf a.template) (outlineOf b.template) ∧
        ¬DeniesChild (outlineOf a.template) (outlineOf b.template) := by
  have htag := hfollows a ha
  have hallows := RuleTable.allowsChild_compile (declared_derived hdeclared hfollows)
    (lastEnabled?_derived hnames hfollows ha hA)
    ((enabled_derived_iff hnames hfollows).mpr ⟨b, hb, rfl, hB⟩)
  rw [htag.name, allowsDescendant_derived_iff hdeclared hnames hfollows ha hA hb hB,
    htag.defaultChildRule] at hallows
  rw [hallows, ← Bool.not_eq_true, ← Bool.not_eq_true, htag.rules b hb, htag.rules b hb,
    declares_denyChild, declares_denyDescendant, not_or]
  simp only [or_true, and_true]
  tauto

theorem closeParent_derived :
    ∃ entry, (RuleTable.compile (tags.map derived)).find? a.name.text = some entry ∧
      Increasing entry.closeParent ∧ ∀ name, name ∈ entry.closeParent ↔
        ∃ b ∈ tags, b.name = name ∧ AcceptedBelow root b ∧
          ClosesParent (outlineOf a.template) (outlineOf b.template) := by
  have htag := hfollows a ha
  obtain ⟨i, hentry⟩ := RuleTable.exists_find? (declared_derived hdeclared hfollows)
    (lastEnabled?_derived hnames hfollows ha hA)
  have hlists := (RuleTable.describesTag_compileTag (tags.map derived) i (derived a)).closeParent
  refine ⟨_, htag.name ▸ hentry, hlists.increasing, fun name => ?_⟩
  rw [hlists.mem_iff, enabled_derived_iff hnames hfollows]
  constructor
  · rintro ⟨hrule, b, hb, rfl, hB⟩
    exact ⟨b, hb, rfl, hB, declares_closeParent.mp ((htag.rules b hb _).mp hrule)⟩
  · rintro ⟨b, hb, rfl, hB, hcloses⟩
    exact ⟨(htag.rules b hb _).mpr (declares_closeParent.mpr hcloses), b, hb, rfl, hB⟩

end Pair

theorem followsContentModel_compile :
    FollowsContentModel root tags (RuleTable.compile (tags.map derived)) where
  names_increasing := by
    rw [RuleTable.names_compile]
    exact RuleTable.enabledNames_increasing _
  mem_names name := by
    rw [RuleTable.names_compile, RuleTable.mem_enabledNames]
    exact enabled_derived_iff hnames hfollows
  descendant a ha b hb hA hB :=
    (allowsDescendant_derived_iff hdeclared hnames hfollows ha hA hb hB).trans
      not_deniesDescendant_iff
  child a ha b hb hA hB :=
    (allowsChild_derived_iff hdeclared hnames hfollows ha hA hb hB).trans
      (and_congr not_deniesDescendant_iff not_deniesChild_iff)
  closeParent _ ha hA := closeParent_derived hdeclared hnames hfollows ha hA

end Compiled

/-- The rules that are derived for tags without rules make the rule table the relation of
the content model.  To derive them a second time changes nothing. -/
theorem compile_addHtmlRules_follows {c c' : Configuration} {root : Option String}
    (hc : c.Stored) (hbare : ∀ t ∈ c.tags.values, IsBare t)
    (h : c.addHtmlRules root = ⟨.ok (), c'⟩) :
    (∀ table, c'.compile = .ok table → FollowsContentModel root c.tags.values table) ∧
      c'.addHtmlRules root = ⟨.ok (), c'⟩ := by
  refine ⟨fun table htable => ?_, addHtmlRules_again h⟩
  obtain ⟨-, rfl⟩ := compile_eq_ok_iff.mp htable
  obtain ⟨derived, hderive, rfl⟩ := addHtmlRules_eq_ok_iff.mp h
  have hnames : (c.tags.values.map Tag.name).Nodup := hc.names ▸ hc.increasing.nodup
  have hdescribes := describes_of_derive
    (by rw [templates, List.map_map]; exact hnames) hderive
  rw [hc.values_mapValues]
  refine followsContentModel_compile (fun t ht => ?_) hnames fun t ht => ?_
  · exact (hc.named t.name t (hc.mem_values_iff.mp ht)).2
  · obtain ⟨options, hoptions, htag⟩ :=
      hdescribes.tag (t.name, t.template) (List.mem_map.mpr ⟨t, ht, rfl⟩)
    rw [withDerived?, hoptions]
    exact follows_withDerived (hbare t ht) htag

/-- A list with its items, links and a tag without a template. -/
def linkedCalls : List Call :=
  [.addTag "li", .setTemplate "li" "<li><xsl:apply-templates/></li>" false false,
   .addTag "ul", .setTemplate "ul" "<ul><xsl:apply-templates/></ul>" false false,
   .addTag "url", .setTemplate "url" "<a><xsl:apply-templates/></a>" false false,
   .addTag "plain"]

/-- In a link there is no tag for links, items go into lists and end one another, and lists
do not go into lists. -/
theorem compile_addHtmlRules_follows_linkedCalls :
    ∃ c' table, (run Markup.tokenize linkedCalls).addHtmlRules (some "a") = ⟨.ok (), c'⟩ ∧
      c'.compile = .ok table ∧
      FollowsContentModel (some "a") (run Markup.tokenize linkedCalls).tags.values table ∧
      c'.addHtmlRules (some "a") = ⟨.ok (), c'⟩ ∧
      table.names = [⟨"LI"⟩, ⟨"PLAIN"⟩, ⟨"UL"⟩] ∧ table.allowsChild "ul" "li" = true ∧
      table.allowsChild "ul" "ul" = false ∧
      (table.find? "li").map CompiledTag.closeParent = some [⟨"LI"⟩] := by
  have hstored : (run Markup.tokenize linkedCalls).Stored :=
    stored_run (by simp [linkedCalls, Call.KeepsNames])
  have hbare : ∀ t ∈ (run Markup.tokenize linkedCalls).tags.values, IsBare t := by decide +kernel
  have hderive : (run Markup.tokenize linkedCalls).addHtmlRules (some "a") =
      ⟨.ok (), ((run Markup.tokenize linkedCalls).addHtmlRules (some "a")).config⟩ :=
    Outcome.eq_of_succeeds (by decide +kernel)
  obtain ⟨table, htable, hp⟩ := exists_ok_of_any
    (x := ((run Markup.tokenize linkedCalls).addHtmlRules (some "a")).config.compile)
    (p := fun table => decide (table.names = [⟨"LI"⟩, ⟨"PLAIN"⟩, ⟨"UL"⟩] ∧
      table.allowsChild "ul" "li" = true ∧ table.allowsChild "ul" "ul" = false ∧
      (table.find? "li").map CompiledTag.closeParent = some [⟨"LI"⟩])) (by decide +kernel)
  obtain ⟨hfollows, hagain⟩ := compile_addHtmlRules_follows hstored hbare hderive
  exact ⟨_, table, hderive, htable, hfollows table htable, hagain, of_decide_eq_true hp⟩

end Configuration
end TagGrammar
