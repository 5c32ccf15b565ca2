/-
Script access of accepted movies.

The check looks at an embedding element with all that is below it.  `GrantsAtMost` says the
same of the tree alone, without the places of its nodes, and `SettingsBounded` says what it
means for the settings of a template.  What the check does not look at are attributes that
are copied: a setting that is copied may be any (`accepted_script_access`).
-/
import TagGrammar.Proofs.Safety.ParamNames
import TagGrammar.Proofs.ValueTemplate

namespace TagGrammar

theorem ScriptAccess.ofString?_eq_some_iff {s : String} {access : ScriptAccess} :
    ofString? s = some access ↔ Text.sameIgnoringCase access.text s = true := by
  have hlower : ∀ a : ScriptAccess, Text.sameIgnoringCase a.text s = true ↔
      Text.lower a.text = Text.lower s := fun a => beq_iff_eq
  constructor
  · intro h
    have hfound := List.find?_some h
    exact hfound
  · intro h
    -- The three settings differ in small letters, so no other one is found first.
    have hother : ∀ a : ScriptAccess, a ≠ access → Text.sameIgnoringCase a.text s = false := by
      intro a hne
      rw [Bool.eq_false_iff, Ne, hlower, ← (hlower access).mp h]
      cases a <;> cases access <;> first | exact absurd rfl hne | decide
    cases access <;> simp [ofString?, h, hother]

namespace Safety

/-! ## Settings -/

/-- A setting, in any case, that grants at most as much as a bound. -/
def SettingAtMost (most : ScriptAccess) (setting : String) : Prop :=
  ∃ access : ScriptAccess, Text.sameIgnoringCase access.text setting = true ∧
    access.atMost most = true

section Bound

variable {most : ScriptAccess}

theorem settingViolation?_eq_none_iff {path : Path} {setting : String} :
    settingViolation? most path setting = none ↔ SettingAtMost most setting := by
  simp only [settingViolation?, Option.map_eq_none_iff, settingHazard?, SettingAtMost,
    ← ScriptAccess.ofString?_eq_some_iff]
  cases ScriptAccess.ofString? setting with
  | none => cases hasExpression setting <;> simp
  | some access => simp

theorem settingAtMost_text_iff (access : ScriptAccess) :
    SettingAtMost most access.text ↔ access.atMost most = true := by
  simp only [SettingAtMost, ← ScriptAccess.ofString?_eq_some_iff,
    ScriptAccess.ofString?_eq_some_iff.mpr (Text.sameIgnoringCase_refl access.text)]
  simp

theorem not_settingAtMost_empty : ¬SettingAtMost most "" := by
  rintro ⟨access, haccess, -⟩
  cases access <;> exact absurd haccess (by decide)

/-! ## By the tree alone -/

/-- An embedding element with a setting that is not made. -/
def EmbedAtMost (most : ScriptAccess) (n : Node) : Prop :=
  (∀ d ∈ Node.nodesOfAll n.children, makesAttribute scriptAccessName d = false) ∧
    SettingAtMost most ((n.value.asElement?.bind fun e => e.get? scriptAccessName).getD
      ScriptAccess.default.text)

/-- If a node is a parameter with a setting, then with one that is not made. -/
def ParamAtMost (most : ScriptAccess) (n : Node) : Prop :=
  ∀ e, settingParam? n = some e → SettingAtMost most ((e.get? "value").getD "") ∧
    ∀ d ∈ Node.nodesOfAll n.children, makesAttribute "value" d = false

/-- The parameters of an object, and the default unless a child replaces it. -/
def ObjectAtMost (most : ScriptAccess) (n : Node) : Prop :=
  (∀ d ∈ Node.nodesOfAll n.children, ParamAtMost most d) ∧
    ((∃ c ∈ n.children, (settingParam? c).isSome = true) ∨
      SettingAtMost most ScriptAccess.default.text)

/-- If a node embeds a movie, it grants at most as much as a bound. -/
def GrantsAtMost (most : ScriptAccess) (n : Node) : Prop :=
  (n.value.madeName? = some "embed" → EmbedAtMost most n) ∧
    (n.value.madeName? = some "object" → ObjectAtMost most n)

theorem forall_mem_below {p : Node → Prop} {visit : Visit} :
    (∀ v ∈ visit.below, p v.node) ↔ ∀ d ∈ Node.nodesOfAll visit.node.children, p d := by
  rw [← Visit.map_node_below, List.forall_mem_map]

theorem madeAttributeViolation?_eq_none_iff {name : String} {visit : Visit} :
    madeAttributeViolation? name visit = none ↔
      ∀ d ∈ Node.nodesOfAll visit.node.children, makesAttribute name d = false := by
  rw [madeAttributeViolation?, Option.map_eq_none_iff, List.find?_eq_none]
  simp only [Bool.not_eq_true]
  exact forall_mem_below (p := fun d => makesAttribute name d = false)

theorem paramViolation?_eq_none_iff {visit : Visit} :
    paramViolation? most visit = none ↔ ParamAtMost most visit.node := by
  unfold paramViolation? ParamAtMost
  cases settingParam? visit.node with
  | none => simp
  | some e =>
    simp [Option.or_eq_none_iff, settingViolation?_eq_none_iff, madeAttributeViolation?_eq_none_iff]

/-- The children of a place are those below it whose path leads on from it by one step. -/
theorem isChildOf_iff {visit v : Visit} (hv : v ∈ visit.below) :
    v.isChildOf visit = true ↔ ∃ i, ∃ c ∈ visit.node.children, v = visit.child i c := by
  rw [Visit.isChildOf, beq_iff_eq]
  constructor
  · intro hpath
    rw [Visit.below_eq] at hv
    rcases Node.mem_visitsBelow_cases hv with hchild | hlength
    · exact hchild
    · have hdrop := congrArg List.length hpath
      rw [List.length_dropLast] at hdrop
      omega
  · rintro ⟨i, c, -, rfl⟩
    exact List.dropLast_concat

theorem any_settingChild_iff {visit : Visit} :
    (visit.below.any fun v => v.isChildOf visit && (settingParam? v.node).isSome) = true ↔
      ∃ c ∈ visit.node.children, (settingParam? c).isSome = true := by
  simp only [List.any_eq_true, Bool.and_eq_true]
  constructor
  · rintro ⟨v, hv, hchild, hsetting⟩
    obtain ⟨i, c, hc, rfl⟩ := (isChildOf_iff hv).mp hchild
    exact ⟨c, hc, hsetting⟩
  · rintro ⟨c, hc, hsetting⟩
    obtain ⟨i, hi⟩ := Node.exists_mem_visitsBelow hc visit.path (visit.node :: visit.ancestors) 0
    rw [← Visit.below_eq] at hi
    exact ⟨_, hi, (isChildOf_iff hi).mpr ⟨i, c, hc, rfl⟩, hsetting⟩

theorem embedViolation?_eq_none_iff {visit : Visit} :
    embedViolation? most visit = none ↔ EmbedAtMost most visit.node := by
  rw [embedViolation?, Option.or_eq_none_iff, madeAttributeViolation?_eq_none_iff,
    settingViolation?_eq_none_iff, EmbedAtMost]

theorem objectViolation?_eq_none_iff {visit : Visit} :
    objectViolation? most visit = none ↔ ObjectAtMost most visit.node := by
  rw [objectViolation?, Option.or_eq_none_iff, List.findSome?_eq_none_iff, ObjectAtMost,
    ← any_settingChild_iff]
  simp only [paramViolation?_eq_none_iff]
  rw [forall_mem_below]
  refine and_congr_right fun _ => ?_
  split
  · rename_i hreplaced
    simp [hreplaced]
  · rename_i hreplaced
    rw [settingViolation?_eq_none_iff]
    simp [hreplaced]

/-- Whether a movie grants too much is told by its tree alone. -/
theorem embeddingViolation?_eq_none_iff {visit : Visit} :
    embeddingViolation? most visit = none ↔ GrantsAtMost most visit.node := by
  unfold embeddingViolation? GrantsAtMost
  split
  · rename_i hname
    simp [hname, embedViolation?_eq_none_iff]
  · rename_i hname
    simp [hname, objectViolation?_eq_none_iff]
  · rename_i hembed hobject
    exact iff_of_true rfl ⟨fun h => (hembed h).elim, fun h => (hobject h).elim⟩

end Bound

/-- The fourth check passes exactly the templates in which no movie grants more than the
bound, if there is one. -/
theorem scriptAccessViolation?_eq_none_iff {most : Option ScriptAccess} {template : Node} :
    scriptAccessViolation? most template = none ↔
      ∀ visit ∈ template.visits, ∀ m, most = some m → GrantsAtMost m visit.node := by
  cases most with
  | none => simp [scriptAccessViolation?]
  | some most => simp [scriptAccessViolation?, embeddingViolation?_eq_none_iff]

/-! ## The settings of a template -/

/-- A node is a parameter with a setting, written as an element. -/
def IsSettingParam (n : Node) (e : Element) : Prop :=
  n.value = .element e ∧ Text.lower e.name = "param" ∧
    ∃ name, e.get? "name" = some name ∧ Text.sameIgnoringCase name scriptAccessName = true

/-- The settings that are written are bounded, and none is made. -/
structure SettingsBounded (most : ScriptAccess) (template : Node) : Prop where
  embed : ∀ visit ∈ template.visits, ∀ e, visit.node.value = .element e →
    Text.lower e.name = "embed" →
      SettingAtMost most ((e.get? scriptAccessName).getD ScriptAccess.default.text)
  dynamicEmbed : ∀ visit ∈ template.visits, ∀ name namespaceName sets,
    visit.node.value = .dynamicElement name namespaceName sets →
      visit.node.value.madeName? = some "embed" → ScriptAccess.default.atMost most = true
  embedMade : ∀ visit ∈ template.visits, visit.node.value.madeName? = some "embed" →
    ∀ inner ∈ template.visits, ¬MayMake visit inner scriptAccessName
  param : ∀ visit ∈ template.visits, visit.node.value.madeName? = some "object" →
    ∀ param ∈ visit.below, ∀ e, IsSettingParam param.node e →
      ∃ setting, e.get? "value" = some setting ∧ SettingAtMost most setting
  paramMade : ∀ visit ∈ template.visits, visit.node.value.madeName? = some "object" →
    ∀ param ∈ visit.below, ∀ e, IsSettingParam param.node e →
      ∀ inner ∈ template.visits, ¬MayMake param inner "value"
  object : ∀ visit ∈ template.visits, visit.node.value.madeName? = some "object" →
    (∀ c ∈ visit.node.children, ∀ e, ¬IsSettingParam c e) →
      ScriptAccess.default.atMost most = true

/-- No setting is copied. -/
structure NoSettingCopied (template : Node) : Prop where
  embed : ∀ visit ∈ template.visits, visit.node.value.madeName? = some "embed" →
    ∀ inner ∈ template.visits, ¬Copies visit inner scriptAccessName
  param : ∀ visit ∈ template.visits, visit.node.value.madeName? = some "object" →
    ∀ param ∈ visit.below, ∀ e, IsSettingParam param.node e →
      ∀ inner ∈ template.visits, ¬Copies param inner "value"

/-- The settings are bounded wherever they come from. -/
structure ScriptAccessBounded (most : ScriptAccess) (template : Node) : Prop
    extends SettingsBounded most template where
  copied : NoSettingCopied template

theorem settingParam?_eq_some_iff {n : Node} {e : Element} :
    settingParam? n = some e ↔ IsSettingParam n e := by
  have hvalue : n.value.asElement? = some e ↔ n.value = .element e := by
    cases n.value <;> simp [Value.asElement?]
  rw [settingParam?, Option.filter_eq_some_iff, hvalue, IsSettingParam]
  simp only [Bool.and_eq_true, Option.any_eq_true, Text.sameIgnoringCase, beq_iff_eq]
  rfl

/-- An attribute of a name without braces is made only under that name as it is written. -/
theorem makesAttribute_of_mayMake {g : Grant} {template : Node} (h : accepts g template = true)
    {owner inner : Visit} (hinner : inner ∈ template.visits) {name : String}
    (hname : ValueTemplate.IsPlain (Text.lower name)) (hmakes : MayMake owner inner name) :
    inner.node ∈ Node.nodesOfAll owner.node.children ∧ makesAttribute name inner.node = true := by
  obtain ⟨howner, written, namespaceName, hvalue, hsame⟩ := hmakes
  have hbelow := (Node.mem_of_mem_above hinner (List.mem_of_find?_eq_some howner)).2
  refine ⟨Visit.map_node_below owner ▸ List.mem_map_of_mem hbelow, ?_⟩
  obtain ⟨made, hmade, -⟩ := exists_made_of_accepts h hinner hvalue
  have hlower : Text.lower made = Text.lower name := eq_of_beq (hsame made hmade)
  have hwritten : written = made :=
    ValueTemplate.eq_of_literalText? hmade (ValueTemplate.isPlain_of_lower (hlower ▸ hname))
  rw [makesAttribute, hvalue, hwritten]
  exact hsame made hmade

theorem isPlain_scriptAccessName : ValueTemplate.IsPlain (Text.lower scriptAccessName) := by decide

section Accepted

variable {g : Grant} {template : Node} {most : ScriptAccess}

theorem grantsAtMost_of_accepts (h : accepts g template = true)
    (hmost : g.options.maxScriptAccess = some most) {visit : Visit}
    (hvisit : visit ∈ template.visits) : GrantsAtMost most visit.node :=
  scriptAccessViolation?_eq_none_iff.mp ((accepts_iff g template).mp h).2.2.2.1 visit hvisit most
    hmost

/-- A parameter below an object, as the check of the object leaves it. -/
theorem paramAtMost_of_accepts (h : accepts g template = true)
    (hmost : g.options.maxScriptAccess = some most) {visit param : Visit}
    (hvisit : visit ∈ template.visits) (hobject : visit.node.value.madeName? = some "object")
    (hparam : param ∈ visit.below) : ParamAtMost most param.node := by
  have hbelow : param.node ∈ Node.nodesOfAll visit.node.children :=
    Visit.map_node_below visit ▸ List.mem_map_of_mem hparam
  exact ((grantsAtMost_of_accepts h hmost hvisit).2 hobject).1 param.node hbelow

theorem settingsBounded_of_accepts (h : accepts g template = true)
    (hmost : g.options.maxScriptAccess = some most) : SettingsBounded most template := by
  constructor
  case embed =>
    intro visit hvisit e hvalue hname
    have hembed : visit.node.value.madeName? = some "embed" := by
      rw [hvalue, Value.madeName?, hname]
    have hsetting := ((grantsAtMost_of_accepts h hmost hvisit).1 hembed).2
    rwa [hvalue, Value.asElement?, Option.bind_some] at hsetting
  case dynamicEmbed =>
    intro visit hvisit name namespaceName sets hvalue hembed
    have hsetting := ((grantsAtMost_of_accepts h hmost hvisit).1 hembed).2
    rw [hvalue] at hsetting
    exact (settingAtMost_text_iff _).mp hsetting
  case embedMade =>
    intro visit hvisit hembed inner hinner hmakes
    obtain ⟨hbelow, hmade⟩ := makesAttribute_of_mayMake h hinner isPlain_scriptAccessName hmakes
    rw [((grantsAtMost_of_accepts h hmost hvisit).1 hembed).1 inner.node hbelow] at hmade
    cases hmade
  case param =>
    intro visit hvisit hobject param hparam e he
    have hsetting := (paramAtMost_of_accepts h hmost hvisit hobject hparam e
      (settingParam?_eq_some_iff.mpr he)).1
    cases hget : e.get? "value" with
    | none =>
      rw [hget] at hsetting
      exact absurd hsetting not_settingAtMost_empty
    | some setting =>
      rw [hget] at hsetting
      exact ⟨setting, rfl, hsetting⟩
  case paramMade =>
    intro visit hvisit hobject param hparam e he inner hinner hmakes
    obtain ⟨hbelow, hmade⟩ := makesAttribute_of_mayMake h hinner (by decide) hmakes
    rw [(paramAtMost_of_accepts h hmost hvisit hobject hparam e
      (settingParam?_eq_some_iff.mpr he)).2 inner.node hbelow] at hmade
    cases hmade
  case object =>
    intro visit hvisit hobject hnone
    rcases ((grantsAtMost_of_accepts h hmost hvisit).2 hobject).2 with ⟨c, hc, hsome⟩ | hdefault
    · obtain ⟨e, he⟩ := Option.isSome_iff_exists.mp hsome
      exact absurd (settingParam?_eq_some_iff.mp he) (hnone c hc e)
    · exact (settingAtMost_text_iff _).mp hdefault

/-- In a template that is accepted under a bound for script access the settings that are
written are within the bound and none is made.  The bound holds of all settings exactly if
none is copied. -/
theorem accepted_script_access (h : accepts g template = true)
    (hmost : g.options.maxScriptAccess = some most) :
    SettingsBounded most template ∧ CopiesKnown template ∧
      (ScriptAccessBounded most template ↔ NoSettingCopied template) :=
  have hbounded := settingsBounded_of_accepts h hmost
  ⟨hbounded, copiesKnown_of_accepts h, ScriptAccessBounded.copied,
    fun hcopied => ⟨hbounded, hcopied⟩⟩

end Accepted

/-- A tag with a setting and a value, whose movies must not grant more than a bound. -/
def settingGrant (most : ScriptAccess) : Grant where
  tag :=
    { name := ⟨"MOVIE"⟩
      attributes := .ofList [(⟨"allowscriptaccess"⟩, { name := ⟨"allowscriptaccess"⟩, type := .text }),
        (⟨"value"⟩, { name := ⟨"value"⟩, type := .text })] }
  lookup := FilterRegistry.default.lookup
  options := { maxScriptAccess := some most }

/-- A movie with a setting of its own, and one in an object that leaves it to a parameter. -/
def boundedMoviesSource : String :=
  "<embed AllowScriptAccess=\"Never\"/><object>" ++
    "<param name=\"allowScriptAccess\" value=\"never\"><i><xsl:copy-of select=\"@value\"/></i>" ++
    "</param></object>"

theorem accepted_script_access_bounded :
    ∃ template, Template.parse false boundedMoviesSource = .ok template ∧
      accepts (settingGrant .never) template = true ∧ ScriptAccessBounded .never template := by
  obtain ⟨template, hparse, h⟩ := exists_ok_of_any (p := fun template =>
      accepts (settingGrant .never) template && template.visits.all fun inner =>
        inner.node.value.copiedName?.isNone ||
          inner.holder?.any fun holder => holder.node.value.madeName? == some "i")
    (x := Template.parse false boundedMoviesSource) (by decide +kernel)
  simp only [Bool.and_eq_true, List.all_eq_true] at h
  obtain ⟨haccepts, hcopies⟩ := h
  have hi : ∀ owner inner name, inner ∈ template.visits → Copies owner inner name →
      owner.node.value.madeName? = some "i" := by
    rintro owner inner name hinner ⟨hholder, -, copied, hcopied, -⟩
    have hi := hcopies inner hinner
    rw [hcopied, hholder, Option.any_some] at hi
    simpa using hi
  refine ⟨template, hparse, haccepts, (accepted_script_access haccepts rfl).2.2.mpr ⟨?_, ?_⟩⟩
  · intro visit _ hembed inner hinner hcopy
    rw [hi visit inner _ hinner hcopy] at hembed
    exact absurd hembed (by decide)
  · rintro visit _ _ param _ e ⟨hvalue, hname, -⟩ inner hinner hcopy
    have hparam := hi param inner _ hinner hcopy
    rw [hvalue, Value.madeName?, hname] at hparam
    exact absurd hparam (by decide)

/-- The setting of the first movie is what the user writes, and so is that of the second
one. -/
def copiedSettingSource : String := "<embed><xsl:copy-of select=\"@allowscriptaccess\"/></embed>"

def copiedParamSettingSource : String :=
  "<object><param name=\"allowscriptaccess\" value=\"never\"><xsl:copy-of select=\"@value\"/>" ++
    "</param></object>"

theorem copied_setting_accepted :
    (∃ template, Template.parse false copiedSettingSource = .ok template ∧
      accepts (settingGrant .sameDomain) template = true ∧
      ¬ScriptAccessBounded .sameDomain template) ∧
    ∃ template, Template.parse false copiedParamSettingSource = .ok template ∧
      accepts (settingGrant .never) template = true ∧ ¬ScriptAccessBounded .never template := by
  constructor
  · obtain ⟨template, hparse, h⟩ := exists_ok_of_any (p := fun template =>
        accepts (settingGrant .sameDomain) template && template.visits.any fun inner =>
          inner.node.value.copiedName? == some scriptAccessName &&
            inner.holder?.any fun holder => holder.node.value.makesElement &&
              holder.node.value.madeName? == some "embed")
      (x := Template.parse false copiedSettingSource) (by decide +kernel)
    simp only [Bool.and_eq_true, List.any_eq_true, Option.any_eq_true, beq_iff_eq] at h
    obtain ⟨haccepts, inner, hinner, hcopied, visit, hholder, helement, hembed⟩ := h
    refine ⟨template, hparse, haccepts, fun hbounded => ?_⟩
    have hvisit := (Node.mem_of_mem_above hinner (List.mem_of_find?_eq_some hholder)).1
    exact hbounded.copied.embed visit hvisit hembed inner hinner
      ⟨hholder, helement, scriptAccessName, hcopied, Text.sameIgnoringCase_refl scriptAccessName⟩
  · obtain ⟨template, hparse, h⟩ := exists_ok_of_any (p := fun template =>
        accepts (settingGrant .never) template && template.visits.any fun inner =>
          inner.node.value.copiedName? == some "value" && inner.holder?.any fun holder =>
            holder.node.value.makesElement && (settingParam? holder.node).isSome &&
              holder.above.any fun object => object.node.value.madeName? == some "object")
      (x := Template.parse false copiedParamSettingSource) (by decide +kernel)
    simp only [Bool.and_eq_true, List.any_eq_true, Option.any_eq_true, Option.isSome_iff_exists,
      beq_iff_eq] at h
    obtain ⟨haccepts, inner, hinner, hcopied, param, hholder, ⟨helement, e, he⟩, object, habove,
      hobject⟩ := h
    refine ⟨template, hparse, haccepts, fun hbounded => ?_⟩
    have hparam := (Node.mem_of_mem_above hinner (List.mem_of_find?_eq_some hholder)).1
    obtain ⟨hvisit, hbelow⟩ := Node.mem_of_mem_above hparam habove
    exact hbounded.copied.param object hvisit hobject param hbelow e
      (settingParam?_eq_some_iff.mp he) inner hinner
      ⟨hholder, helement, "value", hcopied, Text.sameIgnoringCase_refl "value"⟩

end Safety
end TagGrammar
