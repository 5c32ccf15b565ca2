/-
The rule table is what the rules say.

`lastEnabled?` picks the tag that counts for a name, and `Describes` says of a table what
it holds for the tags that count, without bitfields, ordinals or the order in which the
rules are applied.  `compile_describes` is the main statement.
-/
import TagGrammar.Proofs.Bitfield
import TagGrammar.Proofs.Case
import TagGrammar.Proofs.RuleSet
import TagGrammar.RuleTable

namespace TagGrammar

namespace RuleTable

/-! ## The tags that count -/

/-- The last enabled tag of a name. -/
def lastEnabled? (tags : List Tag) (name : TagName) : Option Tag :=
  tags.reverse.find? fun t => !t.options.disabled && t.name == name

theorem name_of_lastEnabled? {tags : List Tag} {name : TagName} {t : Tag}
    (h : lastEnabled? tags name = some t) : t.name = name := by
  have hfound := List.find?_some h
  simp only [Bool.and_eq_true, beq_iff_eq] at hfound
  exact hfound.2

theorem mem_of_lastEnabled? {tags : List Tag} {name : TagName} {t : Tag}
    (h : lastEnabled? tags name = some t) : t ∈ tags :=
  List.mem_reverse.mp (List.mem_of_find?_eq_some h)

theorem mem_entries_enabled {tags : List Tag} {name : TagName} {t : Tag} :
    (name, t) ∈ (Dictionary.ofList
        ((tags.filter fun t => !t.options.disabled).map fun t => (t.name, t))).entries ↔
      lastEnabled? tags name = some t := by
  rw [Dictionary.mem_entries_ofList, ← List.map_reverse, ← List.filter_reverse, List.find?_map,
    List.find?_filter, Option.map_map]
  simp only [lastEnabled?, Function.comp_def, Option.map_id', Bool.beq_eq_decide_eq,
    Bool.decide_and, Bool.decide_eq_true]

theorem mem_enabledTags {tags : List Tag} {t : Tag} :
    t ∈ enabledTags tags ↔ lastEnabled? tags t.name = some t := by
  unfold enabledTags Dictionary.values
  rw [List.mem_map]
  constructor
  · rintro ⟨⟨name, t'⟩, hmem, rfl⟩
    have hlast := mem_entries_enabled.mp hmem
    rw [name_of_lastEnabled? hlast]
    exact hlast
  · intro h
    exact ⟨(t.name, t), mem_entries_enabled.mpr h, rfl⟩

/-- The names of the enabled tags in the order of their ordinals. -/
def enabledNames (tags : List Tag) : List TagName := (enabledTags tags).map Tag.name

theorem enabledNames_increasing (tags : List Tag) : Increasing (enabledNames tags) := by
  have hkeys := Dictionary.increasing_keys_ofList
    ((tags.filter fun t => !t.options.disabled).map fun t => (t.name, t))
  unfold enabledNames enabledTags Dictionary.values
  rw [List.map_map]
  unfold Dictionary.keys at hkeys
  rwa [List.map_congr_left (g := Prod.fst)]
  rintro ⟨name, t⟩ hmem
  exact name_of_lastEnabled? (mem_entries_enabled.mp hmem)

theorem mem_enabledNames {tags : List Tag} {name : TagName} :
    name ∈ enabledNames tags ↔ (lastEnabled? tags name).isSome = true := by
  unfold enabledNames
  rw [List.mem_map, Option.isSome_iff_exists]
  constructor
  · rintro ⟨t, ht, rfl⟩
    exact ⟨t, mem_enabledTags.mp ht⟩
  · rintro ⟨t, ht⟩
    have hname := name_of_lastEnabled? ht
    exact ⟨t, mem_enabledTags.mpr (hname ▸ ht), hname⟩

/-! ## Lookups -/

theorem indexOf?_eq_some_iff {names : List TagName} (h : names.Nodup) {name : TagName} {i : Nat} :
    indexOf? names name = some i ↔ names[i]? = some name := by
  rw [indexOf?, List.findIdx?_eq_some_iff_getElem]
  constructor
  · rintro ⟨hi, hname, -⟩
    rw [List.getElem?_eq_getElem hi, beq_iff_eq.mp hname]
  · intro hi
    obtain ⟨hlt, hname⟩ := List.getElem?_eq_some_iff.mp hi
    refine ⟨hlt, beq_iff_eq.mpr hname, fun j hji hj => ?_⟩
    have hj' : names[j] = names[i] := by rw [beq_iff_eq.mp hj, hname]
    exact absurd ((List.Nodup.getElem_inj_iff h).mp hj') (by omega)

theorem indexOf?_eq_none_iff {names : List TagName} {name : TagName} :
    indexOf? names name = none ↔ name ∉ names := by
  rw [indexOf?, List.findIdx?_eq_none_iff]
  constructor
  · intro h hm
    simpa using h name hm
  · intro h x hx
    exact beq_false_of_ne fun e => h (e ▸ hx)

theorem names_compile (tags : List Tag) : (compile tags).names = enabledNames tags := by
  refine List.ext_getElem? fun i => ?_
  simp only [names, compile, enabledNames, List.getElem?_map, List.getElem?_mapIdx,
    Option.map_map]
  rfl

theorem size_compile (tags : List Tag) : (compile tags).size = (enabledNames tags).length := by
  rw [← names_compile, names, List.length_map]
  rfl

theorem byOrdinal?_compile (tags : List Tag) (i : Nat) :
    (compile tags).byOrdinal? i =
      (enabledTags tags)[i]?.map (compileTag (enabledNames tags) i) := by
  simp only [byOrdinal?, compile, List.getElem?_mapIdx]
  rfl

theorem name?_compile (tags : List Tag) (i : Nat) :
    (compile tags).name? i = (enabledNames tags)[i]? := by
  rw [← names_compile]
  exact List.getElem?_map.symm

section Declared

variable {tags : List Tag} (h : ∀ t ∈ tags, t.name.IsDeclared)

include h

/-- All names of the table are in capitals, so the second lookup is the one that counts. -/
theorem ordinal?_compile (s : String) :
    (compile tags).ordinal? s = indexOf? (enabledNames tags) ⟨Text.upper s⟩ := by
  unfold ordinal?
  rw [names_compile]
  cases hs : indexOf? (enabledNames tags) ⟨s⟩ with
  | none => rfl
  | some i =>
    have hi := (indexOf?_eq_some_iff (enabledNames_increasing tags).nodup).mp hs
    obtain ⟨t, ht⟩ :=
      Option.isSome_iff_exists.mp (mem_enabledNames.mp (List.mem_of_getElem? hi))
    have hdeclared : (TagName.mk s).IsDeclared :=
      name_of_lastEnabled? ht ▸ h t (mem_of_lastEnabled? ht)
    have hupper : Text.upper s = s := hdeclared.upper_text
    rw [hupper, hs]

theorem ordinal?_eq_some_iff {s : String} {i : Nat} :
    (compile tags).ordinal? s = some i ↔ (compile tags).name? i = some ⟨Text.upper s⟩ := by
  rw [ordinal?_compile h, name?_compile,
    indexOf?_eq_some_iff (enabledNames_increasing tags).nodup]

theorem ordinal?_eq_none_iff {s : String} :
    (compile tags).ordinal? s = none ↔ lastEnabled? tags ⟨Text.upper s⟩ = none := by
  rw [ordinal?_compile h, indexOf?_eq_none_iff, mem_enabledNames, Bool.not_eq_true,
    Option.isSome_eq_false_iff, Option.isNone_iff_eq_none]

end Declared

/-! ## Bits -/

section Bits

variable {b : Bitfield} {indexes : List Nat} {value : Bool}

theorem width_setAll : (setAll b indexes value).width = b.width := by
  unfold setAll
  induction indexes generalizing b with
  | nil => rfl
  | cons i rest ih => rw [List.foldl_cons, ih, Bitfield.width_set]

theorem setAll_wellFormed (h : b.WellFormed) : (setAll b indexes value).WellFormed := by
  unfold setAll
  induction indexes generalizing b with
  | nil => exact h
  | cons i rest ih => exact ih (h.set i value)

theorem get_setAll (h : b.WellFormed) {j : Nat} (hj : j < b.width) :
    (setAll b indexes value).get j = if j ∈ indexes then value else b.get j := by
  unfold setAll
  induction indexes generalizing b with
  | nil => simp
  | cons i rest ih =>
    rw [List.foldl_cons, ih (h.set i value) (by rwa [Bitfield.width_set]),
      h.get_set_of_lt hj]
    by_cases hr : j ∈ rest
    · simp [hr]
    · by_cases hij : i = j
      · simp [hij]
      · have hji : ¬j = i := fun e => hij e.symm
        simp [hr, hij, hji]

end Bits

theorem width_initialBits (width : Nat) (policy : Policy) :
    (initialBits width policy).width = width := by
  cases policy <;> rfl

theorem initialBits_wellFormed (width : Nat) (policy : Policy) :
    (initialBits width policy).WellFormed := by
  cases policy with
  | allow => exact Bitfield.filled_wellFormed width
  | deny => exact Bitfield.new_wellFormed width

theorem get_initialBits {width j : Nat} (hj : j < width) (policy : Policy) :
    (initialBits width policy).get j = (policy == .allow) := by
  cases policy with
  | allow => exact Bitfield.get_filled hj
  | deny => exact Bitfield.get_new width j

section CompiledBits

variable {names : List TagName} (tag : Tag)

theorem descendantBits_wellFormed : (descendantBits names tag).WellFormed :=
  setAll_wellFormed (setAll_wellFormed (initialBits_wellFormed _ _))

theorem width_descendantBits : (descendantBits names tag).width = names.length := by
  rw [descendantBits, width_setAll, width_setAll, width_initialBits]

theorem width_childBits : (childBits names tag).width = names.length := by
  show (setAll _ _ _).width = names.length
  rw [width_setAll, width_setAll, width_setAll, width_initialBits]

theorem childBits_wellFormed : (childBits names tag).WellFormed := by
  have hbits := initialBits_wellFormed names.length tag.options.defaultChildRule
  refine (setAll_wellFormed (setAll_wellFormed (setAll_wellFormed hbits))).intersect
    (descendantBits_wellFormed tag) ?_
  rw [width_setAll, width_setAll, width_setAll, width_initialBits, width_descendantBits]

variable {tag} (hnames : names.Nodup) {j : Nat} {c : TagName} (hc : names[j]? = some c)

include hnames hc

/-- The ordinal of a name is among the targets of an action if the name is. -/
theorem mem_targetOrdinals_iff {action : RuleAction} :
    j ∈ targetOrdinals names tag action ↔ tag.rules.contains ⟨action, c⟩ = true := by
  unfold targetOrdinals
  rw [List.mem_filterMap, ← RuleSet.mem_targets]
  constructor
  · rintro ⟨target, htarget, hj⟩
    have hj' := (indexOf?_eq_some_iff hnames).mp hj
    rw [hc, Option.some.injEq] at hj'
    exact hj' ▸ htarget
  · intro htarget
    exact ⟨c, htarget, (indexOf?_eq_some_iff hnames).mpr hc⟩

theorem get_descendantBits :
    (descendantBits names tag).get j =
      if tag.rules.contains ⟨.denyDescendant, c⟩ then false
      else if tag.rules.contains ⟨.allowDescendant, c⟩ then true
      else tag.options.defaultDescendantRule == .allow := by
  have hj : j < names.length := (List.getElem?_eq_some_iff.mp hc).1
  have hinit := initialBits_wellFormed names.length tag.options.defaultDescendantRule
  unfold descendantBits
  rw [get_setAll (setAll_wellFormed hinit) (by rwa [width_setAll, width_initialBits]),
    get_setAll hinit (by rwa [width_initialBits]), get_initialBits hj]
  simp only [mem_targetOrdinals_iff hnames hc]

theorem get_childBits :
    (childBits names tag).get j = true ↔
      (descendantBits names tag).get j = true ∧
        tag.rules.contains ⟨.denyChild, c⟩ = false ∧
        tag.rules.contains ⟨.denyDescendant, c⟩ = false ∧
        (tag.rules.contains ⟨.allowChild, c⟩ = true ∨ tag.options.defaultChildRule = .allow) := by
  have hj : j < names.length := (List.getElem?_eq_some_iff.mp hc).1
  have hinit := initialBits_wellFormed names.length tag.options.defaultChildRule
  unfold childBits
  rw [(setAll_wellFormed (setAll_wellFormed (setAll_wellFormed hinit))).get_intersect
      (descendantBits_wellFormed tag)
      (by rw [width_setAll, width_setAll, width_setAll, width_initialBits, width_descendantBits]),
    get_setAll (setAll_wellFormed (setAll_wellFormed hinit))
      (by rwa [width_setAll, width_setAll, width_initialBits]),
    get_setAll (setAll_wellFormed hinit) (by rwa [width_setAll, width_initialBits]),
    get_setAll hinit (by rwa [width_initialBits]), get_initialBits hj]
  simp only [mem_targetOrdinals_iff hnames hc]
  cases tag.rules.contains ⟨.denyDescendant, c⟩ <;> cases tag.rules.contains ⟨.denyChild, c⟩ <;>
    cases tag.rules.contains ⟨.allowChild, c⟩ <;> simp [and_comm]

end CompiledBits

/-! ## What a table says -/

/-- The targets of one action of a tag that have a property, each once and in order. -/
structure Lists (p : Tag) (action : RuleAction) (counts : TagName → Prop) (l : List TagName) :
    Prop where
  increasing : Increasing l
  mem_iff : ∀ c, c ∈ l ↔ p.rules.contains ⟨action, c⟩ = true ∧ counts c

/-- Some tag of the name is enabled. -/
def Enabled (tags : List Tag) (name : TagName) : Prop :=
  (lastEnabled? tags name).isSome = true

/-- The entry of a tag in a table of some width. -/
structure DescribesTag (tags : List Tag) (width ordinal : Nat) (p : Tag) (e : CompiledTag) :
    Prop where
  name : e.name = p.name
  ordinal : e.ordinal = ordinal
  width_children : e.allowedChildren.width = width
  width_descendants : e.allowedDescendants.width = width
  disallowAsRoot : e.disallowAsRoot = p.options.disallowAsRoot
  nestingLimit : e.nestingLimit = p.options.nestingLimit
  tagLimit : e.tagLimit = p.options.tagLimit
  closeAncestor : Lists p .closeAncestor (Enabled tags) e.closeAncestor
  closeParent : Lists p .closeParent (Enabled tags) e.closeParent
  reopenChild : Lists p .reopenChild (Enabled tags) e.reopenChild
  requireAncestor : Lists p .requireAncestor (fun _ => True) e.requireAncestor
  requireParent : Lists p .requireParent (fun _ => True) e.requireParent

/-- What the rules of some tags say, as a property of a table. -/
structure Describes (tags : List Tag) (t : RuleTable) : Prop where
  names_increasing : Increasing t.names
  mem_names : ∀ name, name ∈ t.names ↔ Enabled tags name
  entry : ∀ i e, t.byOrdinal? i = some e →
    ∃ p, lastEnabled? tags e.name = some p ∧ DescribesTag tags t.size i p e
  name?_of_ordinal? : ∀ s i, t.ordinal? s = some i → t.name? i = some ⟨Text.upper s⟩
  ordinal?_of_name? : ∀ i name, t.name? i = some name → t.ordinal? name.text = some i
  ordinal?_case : ∀ s s', Text.sameIgnoringCase s s' = true → t.ordinal? s = t.ordinal? s'
  ordinal?_absent : ∀ s, t.ordinal? s = none ↔ ¬Enabled tags ⟨Text.upper s⟩
  descendant : ∀ p c, lastEnabled? tags p.name = some p → Enabled tags c →
    t.allowsDescendant p.name.text c.text =
      if p.rules.contains ⟨.denyDescendant, c⟩ then false
      else if p.rules.contains ⟨.allowDescendant, c⟩ then true
      else p.options.defaultDescendantRule == .allow
  child : ∀ p c, lastEnabled? tags p.name = some p → Enabled tags c →
    (t.allowsChild p.name.text c.text = true ↔
      t.allowsDescendant p.name.text c.text = true ∧
        p.rules.contains ⟨.denyChild, c⟩ = false ∧
        p.rules.contains ⟨.denyDescendant, c⟩ = false ∧
        (p.rules.contains ⟨.allowChild, c⟩ = true ∨ p.options.defaultChildRule = .allow))

theorem lists_targets (p : Tag) (action : RuleAction) :
    Lists p action (fun _ => True) (p.rules.targets action) where
  increasing := p.rules.increasing_targets action
  mem_iff c := by rw [RuleSet.mem_targets, and_true]

theorem lists_enabledTargets (tags : List Tag) (p : Tag) (action : RuleAction) :
    Lists p action (Enabled tags) (enabledTargets (enabledNames tags) p action) where
  increasing := (p.rules.increasing_targets action).filter _
  mem_iff c := by
    rw [enabledTargets, List.mem_filter, RuleSet.mem_targets, List.contains_iff_mem,
      mem_enabledNames, Enabled]

theorem describesTag_compileTag (tags : List Tag) (i : Nat) (p : Tag) :
    DescribesTag tags (compile tags).size i p (compileTag (enabledNames tags) i p) where
  name := rfl
  ordinal := rfl
  width_children := (width_childBits p).trans (size_compile tags).symm
  width_descendants := (width_descendantBits p).trans (size_compile tags).symm
  disallowAsRoot := rfl
  nestingLimit := rfl
  tagLimit := rfl
  closeAncestor := lists_enabledTargets tags p .closeAncestor
  closeParent := lists_enabledTargets tags p .closeParent
  reopenChild := lists_enabledTargets tags p .reopenChild
  requireAncestor := lists_targets p .requireAncestor
  requireParent := lists_targets p .requireParent

/-! ## Lookups of the tags that count -/

section Declared

variable {tags : List Tag} (h : ∀ t ∈ tags, t.name.IsDeclared)

include h

theorem upper_of_enabled {name : TagName} (hname : Enabled tags name) :
    Text.upper name.text = name.text := by
  obtain ⟨t, ht⟩ := Option.isSome_iff_exists.mp hname
  have hdeclared : t.name.IsDeclared := h t (mem_of_lastEnabled? ht)
  rw [name_of_lastEnabled? ht] at hdeclared
  exact hdeclared.upper_text

theorem exists_ordinal {name : TagName} (hname : Enabled tags name) :
    ∃ j, (compile tags).ordinal? name.text = some j ∧ (enabledNames tags)[j]? = some name := by
  obtain ⟨j, hj⟩ := List.mem_iff_getElem?.mp (mem_enabledNames.mpr hname)
  refine ⟨j, ?_, hj⟩
  rw [ordinal?_eq_some_iff h, name?_compile, upper_of_enabled h hname, hj]

/-- The entry of a tag that counts is the one compiled from it. -/
theorem exists_find? {p : Tag} (hp : lastEnabled? tags p.name = some p) :
    ∃ i, (compile tags).find? p.name.text = some (compileTag (enabledNames tags) i p) := by
  have henabled : Enabled tags p.name := Option.isSome_iff_exists.mpr ⟨p, hp⟩
  obtain ⟨i, hi, hname⟩ := exists_ordinal h henabled
  refine ⟨i, ?_⟩
  rw [enabledNames, List.getElem?_map, Option.map_eq_some_iff] at hname
  obtain ⟨p', hp', hname'⟩ := hname
  have hlast := mem_enabledTags.mp (List.mem_of_getElem? hp')
  rw [hname', hp, Option.some.injEq] at hlast
  rw [find?, hi, Option.bind_some, byOrdinal?_compile, hp', hlast]
  rfl

theorem allowsDescendant_compile {p : Tag} {c : TagName} (hp : lastEnabled? tags p.name = some p)
    (hc : Enabled tags c) :
    (compile tags).allowsDescendant p.name.text c.text =
      if p.rules.contains ⟨.denyDescendant, c⟩ then false
      else if p.rules.contains ⟨.allowDescendant, c⟩ then true
      else p.options.defaultDescendantRule == .allow := by
  obtain ⟨i, hi⟩ := exists_find? h hp
  obtain ⟨j, hj, hname⟩ := exists_ordinal h hc
  rw [allowsDescendant, hi, hj]
  exact get_descendantBits (enabledNames_increasing tags).nodup hname

theorem allowsChild_compile {p : Tag} {c : TagName} (hp : lastEnabled? tags p.name = some p)
    (hc : Enabled tags c) :
    (compile tags).allowsChild p.name.text c.text = true ↔
      (compile tags).allowsDescendant p.name.text c.text = true ∧
        p.rules.contains ⟨.denyChild, c⟩ = false ∧
        p.rules.contains ⟨.denyDescendant, c⟩ = false ∧
        (p.rules.contains ⟨.allowChild, c⟩ = true ∨ p.options.defaultChildRule = .allow) := by
  obtain ⟨i, hi⟩ := exists_find? h hp
  obtain ⟨j, hj, hname⟩ := exists_ordinal h hc
  rw [allowsChild, allowsDescendant, hi, hj]
  exact get_childBits (enabledNames_increasing tags).nodup hname

theorem describes_compile : Describes tags (compile tags) where
  names_increasing := by
    rw [names_compile]
    exact enabledNames_increasing tags
  mem_names name := by rw [names_compile, mem_enabledNames, Enabled]
  entry i e he := by
    rw [byOrdinal?_compile, Option.map_eq_some_iff] at he
    obtain ⟨p, hp, rfl⟩ := he
    exact ⟨p, mem_enabledTags.mp (List.mem_of_getElem? hp), describesTag_compileTag tags i p⟩
  name?_of_ordinal? s i hs := (ordinal?_eq_some_iff h).mp hs
  ordinal?_of_name? i name hi := by
    have hname : name ∈ enabledNames tags := by
      rw [name?_compile] at hi
      exact List.mem_of_getElem? hi
    rw [ordinal?_eq_some_iff h, upper_of_enabled h (mem_enabledNames.mp hname)]
    exact hi
  ordinal?_case s s' hs := by
    rw [ordinal?_compile h, ordinal?_compile h, Text.upper_eq_of_sameIgnoringCase hs]
  ordinal?_absent s := by
    rw [ordinal?_eq_none_iff h, Enabled, Bool.not_eq_true, Option.isSome_eq_false_iff,
      Option.isNone_iff_eq_none]
  descendant _ _ hp hc := allowsDescendant_compile h hp hc
  child _ _ hp hc := allowsChild_compile h hp hc

end Declared

/-! ## The order of the tags -/

theorem enabledTags_eq_filterMap (tags : List Tag) :
    enabledTags tags = (enabledNames tags).filterMap (lastEnabled? tags) := by
  have hself : (enabledTags tags).filterMap (fun t => lastEnabled? tags t.name) =
      (enabledTags tags).filterMap some := by
    refine List.filterMap_congr fun t ht => ?_
    exact mem_enabledTags.mp ht
  rw [enabledNames, List.filterMap_map]
  exact (hself.trans List.filterMap_some).symm

/-- The table is a function of the tags that count. -/
theorem compile_congr {tags tags' : List Tag} (h : lastEnabled? tags = lastEnabled? tags') :
    compile tags = compile tags' := by
  have hnames : enabledNames tags = enabledNames tags' := by
    refine (enabledNames_increasing tags).eq_of_mem_iff (enabledNames_increasing tags') fun n => ?_
    rw [mem_enabledNames, mem_enabledNames, h]
  have htags : enabledTags tags = enabledTags tags' := by
    rw [enabledTags_eq_filterMap, enabledTags_eq_filterMap, hnames, h]
  rw [compile, compile, htags]

/-- Among tags of different names the one that counts is the only one. -/
theorem lastEnabled?_eq_some_iff {tags : List Tag}
    (h : ((tags.filter fun t => !t.options.disabled).map Tag.name).Nodup) {name : TagName}
    {t : Tag} :
    lastEnabled? tags name = some t ↔ t ∈ tags ∧ t.options.disabled = false ∧ t.name = name := by
  have hmp : ∀ t, lastEnabled? tags name = some t →
      t ∈ tags ∧ t.options.disabled = false ∧ t.name = name := by
    intro t ht
    have hfound := List.find?_some ht
    simp only [Bool.and_eq_true, Bool.not_eq_true', beq_iff_eq] at hfound
    exact ⟨mem_of_lastEnabled? ht, hfound⟩
  refine ⟨hmp t, fun ⟨ht, henabled, hname⟩ => ?_⟩
  cases hlast : lastEnabled? tags name with
  | none =>
    have hnone := List.find?_eq_none.mp hlast t (List.mem_reverse.mpr ht)
    simp [henabled, hname] at hnone
  | some t' =>
    obtain ⟨ht', henabled', hname'⟩ := hmp t' hlast
    have hmem : t ∈ tags.filter fun t => !t.options.disabled :=
      List.mem_filter.mpr ⟨ht, by simp [henabled]⟩
    have hmem' : t' ∈ tags.filter fun t => !t.options.disabled :=
      List.mem_filter.mpr ⟨ht', by simp [henabled']⟩
    rw [List.inj_on_of_nodup_map h hmem' hmem (hname'.trans hname.symm)]

theorem compile_perm {tags tags' : List Tag} (hperm : tags.Perm tags')
    (h : ((tags.filter fun t => !t.options.disabled).map Tag.name).Nodup) :
    compile tags = compile tags' := by
  have h' : ((tags'.filter fun t => !t.options.disabled).map Tag.name).Nodup :=
    ((hperm.filter _).map _).nodup_iff.mp h
  refine compile_congr (funext fun name => Option.ext fun t => ?_)
  rw [lastEnabled?_eq_some_iff h, lastEnabled?_eq_some_iff h', hperm.mem_iff]

/-- The table says what the rules of the tags that count say, and nothing else of the tags
shows in it: not the disabled ones, not those that a later one of the name replaces, and
not their order if the enabled ones have different names. -/
theorem compile_describes {tags : List Tag} (h : ∀ t ∈ tags, t.name.IsDeclared) :
    Describes tags (compile tags) ∧
      (∀ tags', lastEnabled? tags = lastEnabled? tags' → compile tags = compile tags') ∧
      (((tags.filter fun t => !t.options.disabled).map Tag.name).Nodup →
        ∀ tags', tags.Perm tags' → compile tags = compile tags') :=
  ⟨describes_compile h, fun _ => compile_congr, fun hnodup _ hperm => compile_perm hperm hnodup⟩

/-- A tag declared twice, with rules against each other the second time, one that is
disabled and one that denies by default. -/
def conflictingTags : List Tag :=
  [{ name := ⟨"B"⟩ },
   { name := ⟨"A"⟩
     options := { defaultChildRule := .deny, defaultDescendantRule := .deny }
     rules := (RuleSet.empty.insert ⟨.allowDescendant, ⟨"B"⟩⟩).insert ⟨.allowChild, ⟨"C"⟩⟩ },
   { name := ⟨"C"⟩, options := { disabled := true } },
   { name := ⟨"B"⟩
     rules := RuleSet.empty.addAll
       [⟨.denyDescendant, ⟨"B"⟩⟩, ⟨.allowDescendant, ⟨"B"⟩⟩, ⟨.closeParent, ⟨"C"⟩⟩,
        ⟨.requireParent, ⟨"C"⟩⟩] }]

theorem isDeclared_conflictingTags : ∀ t ∈ conflictingTags, t.name.IsDeclared := by
  intro t ht
  rcases (by simpa [conflictingTags] using ht : _ ∨ _ ∨ _ ∨ _) with rfl | rfl | rfl | rfl
  · exact ⟨"b", by decide +kernel⟩
  · exact ⟨"a", by decide +kernel⟩
  · exact ⟨"c", by decide +kernel⟩
  · exact ⟨"b", by decide +kernel⟩

theorem compile_describes_conflictingTags :
    Describes conflictingTags (compile conflictingTags) ∧
      (compile conflictingTags).names = [⟨"A"⟩, ⟨"B"⟩] ∧
      (compile conflictingTags).allowsDescendant "a" "b" = true ∧
      (compile conflictingTags).allowsChild "a" "b" = false ∧
      (compile conflictingTags).allowsDescendant "b" "b" = false ∧
      compile conflictingTags.tail = compile conflictingTags.tail.reverse := by
  have h := isDeclared_conflictingTags
  have htail : ∀ t ∈ conflictingTags.tail, t.name.IsDeclared :=
    fun t ht => h t (List.mem_of_mem_tail ht)
  exact ⟨(compile_describes h).1, by decide +kernel, by decide +kernel, by decide +kernel,
    by decide +kernel,
    (compile_describes htail).2.2 (by decide +kernel) _ (List.reverse_perm _).symm⟩

end RuleTable
end TagGrammar
