/-
Derived rules pair by pair.

The rules of a tag are gathered over all its substitution points and all first children of
all targets at once, and of conflicting rules the strongest is kept afterwards.  `Derives`
says for one tag and one target which rules there are in the end.  It looks at the two
outlines alone, so what is derived for a pair of tags does not depend on the other tags
(`derive_describes`).
-/
import TagGrammar.Html.Derivation
import TagGrammar.Proofs.RuleSet
import TagGrammar.Template.Source

namespace TagGrammar

namespace RuleAction

/-- The actions of which at most one is kept for a target. -/
def isExclusive : RuleAction → Bool
  | denyDescendant | denyChild | allowChild => true
  | _ => false

end RuleAction

/-! ## Resolved rules -/

namespace RuleSet

theorem contains_ofList {l : List Rule} {r : Rule} : (ofList l).contains r = true ↔ r ∈ l := by
  have hfold : ∀ s : RuleSet, (l.foldl insert s).contains r = true ↔ r ∈ l ∨ s.contains r = true := by
    induction l with
    | nil => simp
    | cons x rest ih =>
      intro s
      rw [List.foldl_cons, ih, contains_insert, List.mem_cons, Bool.or_eq_true, beq_iff_eq,
        or_left_comm, or_assoc]
  rw [ofList, hfold, contains_empty]
  simp

theorem contains_foldl_erase {s : RuleSet} {weaker : RuleAction} {targets : List TagName}
    {r : Rule} :
    (targets.foldl (fun s target => s.erase ⟨weaker, target⟩) s).contains r = true ↔
      s.contains r = true ∧ ¬(r.action = weaker ∧ r.target ∈ targets) := by
  induction targets generalizing s with
  | nil => simp
  | cons target rest ih =>
    obtain ⟨action, target'⟩ := r
    rw [List.foldl_cons, ih, contains_erase, Bool.and_eq_true, bne_iff_ne, ne_eq, Rule.mk.injEq,
      List.mem_cons]
    tauto

theorem contains_yieldTo {s : RuleSet} {stronger weaker : RuleAction} {r : Rule} :
    (s.yieldTo stronger weaker).contains r = true ↔
      s.contains r = true ∧ ¬(r.action = weaker ∧ s.contains ⟨stronger, r.target⟩ = true) := by
  rw [yieldTo, contains_foldl_erase, mem_targets]

/-- A rule is kept unless there is a stronger one on its target. -/
theorem contains_resolveConflicts {s : RuleSet} {r : Rule} :
    s.resolveConflicts.contains r = true ↔ s.contains r = true ∧
      (r.action = .denyChild ∨ r.action = .allowChild →
        s.contains ⟨.denyDescendant, r.target⟩ = false) ∧
      (r.action = .allowChild → s.contains ⟨.denyChild, r.target⟩ = false) := by
  obtain ⟨action, target⟩ := r
  simp only [resolveConflicts, contains_yieldTo]
  cases action <;> cases s.contains ⟨.denyDescendant, target⟩ <;> simp

end RuleSet

namespace Html

/-! ## What two outlines say -/

section Pair

variable (o t : Outline)

/-- The tag forbids a category that the target uses. -/
def DeniesDescendant : Prop := o.deniedDescendants &&& t.usedCategories ≠ 0

/-- The tag has no place for content, or a first child of the target is not accepted at one. -/
def DeniesChild : Prop :=
  o.allowedChildren = [] ∨
    ∃ allowed ∈ o.allowedChildren, ∃ first ∈ t.firstChildren, allowed &&& first.2 = 0

/-- There is a place for content and a first child to put there. -/
def OffersPlace : Prop := o.allowedChildren ≠ [] ∧ t.firstChildren ≠ []

/-- A first child of the tag ends the element around some place for content of the target. -/
def ClosesParent : Prop :=
  ∃ first ∈ o.firstChildren, ∃ m ∈ element? first.1, ∃ last ∈ t.lastChildren, last ∈ m.closes

/-- The rules of a tag on a target. -/
def Derives : RuleAction → Prop
  | .denyDescendant => DeniesDescendant o t
  | .denyChild => ¬DeniesDescendant o t ∧ DeniesChild o t
  | .allowChild => ¬DeniesDescendant o t ∧ ¬DeniesChild o t ∧ OffersPlace o t
  | .closeParent => ClosesParent o t
  | _ => False

instance : Decidable (DeniesDescendant o t) := inferInstanceAs (Decidable (_ ≠ _))

instance : Decidable (DeniesChild o t) :=
  decidable_of_iff (o.allowedChildren.isEmpty || o.allowedChildren.any fun allowed =>
    t.firstChildren.any fun first => allowed &&& first.2 == 0) (by simp [DeniesChild])

instance : Decidable (OffersPlace o t) := inferInstanceAs (Decidable (_ ∧ _))

instance : Decidable (ClosesParent o t) :=
  decidable_of_iff (o.firstChildren.any fun first => (element? first.1).any fun m =>
    t.lastChildren.any fun last => m.closes.contains last)
    (by simp [ClosesParent, Option.any_eq_true])

instance : DecidablePred (Derives o t)
  | .denyDescendant => inferInstanceAs (Decidable (DeniesDescendant o t))
  | .denyChild => inferInstanceAs (Decidable (_ ∧ _))
  | .allowChild => inferInstanceAs (Decidable (_ ∧ _))
  | .closeParent => inferInstanceAs (Decidable (ClosesParent o t))
  | .allowDescendant | .closeAncestor | .reopenChild | .requireAncestor | .requireParent =>
    inferInstanceAs (Decidable False)

/-- The rules of a tag on a target before conflicts are resolved. -/
def Gathers : RuleAction → Prop
  | .denyDescendant => DeniesDescendant o t
  | .denyChild => DeniesChild o t
  | .allowChild => ∃ allowed ∈ o.allowedChildren, ∃ first ∈ t.firstChildren, allowed &&& first.2 ≠ 0
  | .closeParent => ClosesParent o t
  | _ => False

variable {o t}

/-- Where every first child is accepted at every place, one that is accepted is all it takes
to have a first child and a place. -/
theorem gathers_allowChild_iff (h : ¬DeniesChild o t) :
    Gathers o t .allowChild ↔ OffersPlace o t := by
  constructor
  · rintro ⟨allowed, hallowed, first, hfirst, -⟩
    exact ⟨List.ne_nil_of_mem hallowed, List.ne_nil_of_mem hfirst⟩
  · rintro ⟨hplace, hchild⟩
    obtain ⟨allowed, hallowed⟩ := List.exists_mem_of_ne_nil _ hplace
    obtain ⟨first, hfirst⟩ := List.exists_mem_of_ne_nil _ hchild
    exact ⟨allowed, hallowed, first, hfirst,
      fun hzero => h (Or.inr ⟨allowed, hallowed, first, hfirst, hzero⟩)⟩

theorem Derives.eq_of_isExclusive {action action' : RuleAction} (h : Derives o t action)
    (h' : Derives o t action') (hex : action.isExclusive = true)
    (hex' : action'.isExclusive = true) : action = action' := by
  cases action <;> cases hex <;> cases action' <;> cases hex' <;> simp_all [Derives]

end Pair

/-! ## What is gathered -/

section Gathered

variable {o : Outline} {targets : List OutlinedTag} {action : RuleAction} {name : TagName}

theorem mem_closeRules : ⟨action, name⟩ ∈ closeRules o targets ↔
    action = .closeParent ∧ ∃ t ∈ targets, t.1 = name ∧ ClosesParent o t.2 := by
  simp only [closeRules, List.mem_flatMap]
  constructor
  · rintro ⟨first, hfirst, hrule⟩
    split at hrule
    · cases hrule
    · rename_i m hm
      obtain ⟨t, ht, hrule⟩ := List.mem_flatMap.mp hrule
      obtain ⟨last, hlast, hrule⟩ := List.mem_map.mp hrule
      obtain ⟨hlast, hcloses⟩ := List.mem_filter.mp hlast
      obtain ⟨haction, hname⟩ := Rule.mk.inj hrule
      exact ⟨haction.symm, t, ht, hname, first, hfirst, m, hm, last, hlast,
        List.contains_iff_mem.mp hcloses⟩
  · rintro ⟨rfl, t, ht, rfl, first, hfirst, m, hm, last, hlast, hcloses⟩
    refine ⟨first, hfirst, ?_⟩
    rw [hm]
    exact List.mem_flatMap.mpr ⟨t, ht, List.mem_map.mpr
      ⟨last, List.mem_filter.mpr ⟨hlast, List.contains_iff_mem.mpr hcloses⟩, rfl⟩⟩

/-- The rule of a place for content and a first child. -/
theorem childRule_eq_iff {bits : Categories} {target : TagName} :
    (⟨if bits ≠ 0 then .allowChild else .denyChild, target⟩ : Rule) = ⟨action, name⟩ ↔
      target = name ∧ (.denyChild = action ∧ bits = 0 ∨ .allowChild = action ∧ bits ≠ 0) := by
  rw [Rule.mk.injEq, and_comm]
  refine and_congr_right fun _ => ?_
  by_cases hbits : bits = 0
  · simp [hbits]
  · rw [if_pos hbits]
    exact ⟨fun h => Or.inr ⟨h, hbits⟩, fun h => h.elim (fun h => absurd h.2 hbits) And.left⟩

/-- The rules of a tag without a place for content. -/
theorem mem_placelessRules :
    (⟨action, name⟩ ∈ if o.allowedChildren.isEmpty then
      targets.map fun t => (⟨.denyChild, t.1⟩ : Rule) else []) ↔
      o.allowedChildren = [] ∧ action = .denyChild ∧ ∃ t ∈ targets, t.1 = name := by
  cases o.allowedChildren with
  | nil =>
    rw [List.isEmpty_nil, if_pos rfl, List.mem_map]
    simp only [Rule.mk.injEq, true_and]
    constructor
    · rintro ⟨t, ht, rfl, hname⟩
      exact ⟨rfl, t, ht, hname⟩
    · rintro ⟨rfl, t, ht, hname⟩
      exact ⟨t, ht, rfl, hname⟩
  | cons allowed rest => simp

theorem mem_childRules : ⟨action, name⟩ ∈ childRules o targets ↔
    (action = .denyChild ∨ action = .allowChild) ∧
      ∃ t ∈ targets, t.1 = name ∧ Gathers o t.2 action := by
  simp only [childRules, List.mem_append, mem_placelessRules, List.mem_flatMap, List.mem_map]
  constructor
  · rintro (⟨hempty, rfl, t, ht, hname⟩ | ⟨allowed, hallowed, t, ht, first, hfirst, heq⟩)
    · exact ⟨Or.inl rfl, t, ht, hname, Or.inl hempty⟩
    · obtain ⟨hname, ⟨rfl, hbits⟩ | ⟨rfl, hbits⟩⟩ := childRule_eq_iff.mp heq
      · exact ⟨Or.inl rfl, t, ht, hname, Or.inr ⟨allowed, hallowed, first, hfirst, hbits⟩⟩
      · exact ⟨Or.inr rfl, t, ht, hname, allowed, hallowed, first, hfirst, hbits⟩
  · rintro ⟨rfl | rfl, t, ht, hname, hsays⟩
    · rcases hsays with hempty | ⟨allowed, hallowed, first, hfirst, hbits⟩
      · exact Or.inl ⟨hempty, rfl, t, ht, hname⟩
      · exact Or.inr ⟨allowed, hallowed, t, ht, first, hfirst,
          childRule_eq_iff.mpr ⟨hname, Or.inl ⟨rfl, hbits⟩⟩⟩
    · obtain ⟨allowed, hallowed, first, hfirst, hbits⟩ := hsays
      exact Or.inr ⟨allowed, hallowed, t, ht, first, hfirst,
        childRule_eq_iff.mpr ⟨hname, Or.inr ⟨rfl, hbits⟩⟩⟩

theorem mem_descendantRules : ⟨action, name⟩ ∈ descendantRules o targets ↔
    action = .denyDescendant ∧ ∃ t ∈ targets, t.1 = name ∧ DeniesDescendant o t.2 := by
  simp only [descendantRules, List.mem_map, List.mem_filter, decide_eq_true_eq, Rule.mk.injEq]
  constructor
  · rintro ⟨t, ⟨ht, hdenies⟩, rfl, hname⟩
    exact ⟨rfl, t, ht, hname, hdenies⟩
  · rintro ⟨rfl, t, ht, hname, hdenies⟩
    exact ⟨t, ⟨ht, hdenies⟩, rfl, hname⟩

/-- Every rule that is gathered is on a target and is said by the two outlines. -/
theorem mem_allRules : ⟨action, name⟩ ∈ allRules o targets ↔
    ∃ t ∈ targets, t.1 = name ∧ Gathers o t.2 action := by
  simp only [allRules, List.mem_append, mem_closeRules, mem_childRules, mem_descendantRules]
  cases action <;> simp [Gathers]

theorem exists_target_of_contains {rule : Rule}
    (h : (RuleSet.ofList (allRules o targets)).resolveConflicts.contains rule = true) :
    ∃ t ∈ targets, rule.target = t.1 := by
  have hmem := RuleSet.contains_ofList.mp (RuleSet.contains_resolveConflicts.mp h).1
  obtain ⟨t, ht, hname, -⟩ := mem_allRules.mp hmem
  exact ⟨t, ht, hname.symm⟩

variable (hnames : (targets.map Prod.fst).Nodup)

include hnames

theorem mem_allRules_of_mem {t : OutlinedTag} (ht : t ∈ targets) :
    ⟨action, t.1⟩ ∈ allRules o targets ↔ Gathers o t.2 action := by
  rw [mem_allRules]
  constructor
  · rintro ⟨t', ht', hname, hsays⟩
    rwa [← List.inj_on_of_nodup_map hnames ht' ht hname]
  · intro hsays
    exact ⟨t, ht, rfl, hsays⟩

theorem contains_resolved_iff {t : OutlinedTag} (ht : t ∈ targets) :
    (RuleSet.ofList (allRules o targets)).resolveConflicts.contains ⟨action, t.1⟩ = true ↔
      Derives o t.2 action := by
  simp only [RuleSet.contains_resolveConflicts, ← Bool.not_eq_true, RuleSet.contains_ofList,
    mem_allRules_of_mem hnames ht]
  cases action with
  | allowChild =>
    by_cases hchild : DeniesChild o t.2
    · simp [Derives, Gathers, hchild]
    · simp only [gathers_allowChild_iff hchild]
      simp [Derives, Gathers, hchild, and_comm]
  | denyChild => simp [Derives, Gathers, and_comm]
  | _ => simp [Derives, Gathers]

end Gathered

/-! ## What is derived -/

/-- What is derived for a tag that is the first one of its name. -/
def optionsFor (targets : List OutlinedTag) (rootRules : List Rule) (t : OutlinedTag) :
    TagName × DerivedOptions :=
  (t.1,
    { rules := (RuleSet.ofList (allRules t.2 targets)).resolveConflicts
      disallowAsRoot := rootRules.contains ⟨.denyChild, t.1⟩
      disabled := rootRules.contains ⟨.denyDescendant, t.1⟩
      transparent := t.2.transparent })

theorem rules_optionsFor (targets : List OutlinedTag) (rootRules : List Rule) (t : OutlinedTag) :
    (optionsFor targets rootRules t).2.rules =
      (RuleSet.ofList (allRules t.2 targets)).resolveConflicts := rfl

theorem optionsOf_eq_map {targets : List OutlinedTag} {rootRules : List Rule}
    {seen : List TagName} {l : List OutlinedTag} (hnames : (l.map Prod.fst).Nodup)
    (hseen : ∀ t ∈ l, t.1 ∉ seen) :
    optionsOf targets rootRules seen l = l.map (optionsFor targets rootRules) := by
  induction l generalizing seen with
  | nil => rfl
  | cons t rest ih =>
    obtain ⟨hnot, hrest⟩ := List.nodup_cons.mp (List.map_cons ▸ hnames)
    have hnew : seen.contains t.1 = false := by
      simpa using hseen t List.mem_cons_self
    have hnext : ∀ t' ∈ rest, t'.1 ∉ t.1 :: seen := by
      intro t' ht' hmem
      rcases List.mem_cons.mp hmem with heq | hmem
      · exact hnot (List.mem_map.mpr ⟨t', ht', heq⟩)
      · exact hseen t' (List.mem_cons_of_mem _ ht') hmem
    rw [optionsOf, ih hrest hnext, List.map_cons, optionsFor, hnew]
    rfl

/-- What the options take over from a tag does not depend on the tags before it. -/
theorem map_optionsOf {targets : List OutlinedTag} {rootRules : List Rule} {seen : List TagName}
    {l : List OutlinedTag} :
    (optionsOf targets rootRules seen l).map (fun e => (e.1, e.2.rules, e.2.transparent)) =
      l.map fun t =>
        (t.1, (RuleSet.ofList (allRules t.2 targets)).resolveConflicts, t.2.transparent) := by
  induction l generalizing seen with
  | nil => rfl
  | cons t rest ih => rw [optionsOf, List.map_cons, ih, List.map_cons]

/-- The outline of the template of a tag, which is its content alone if it has none. -/
def outlineOf (template : Option Node) : Outline := .of (template.getD Node.contentOnly)

/-- The outline of an element around its content. -/
def outlineOfRoot (name : String) : Outline := .of (rootTemplate name)

/-- What is derived for one of some tags, target by target. -/
structure DescribesTag (root : Option String) (tags : List (TagName × Option Node))
    (a : TagName × Option Node) (options : DerivedOptions) : Prop where
  rules : ∀ b ∈ tags, ∀ action,
    options.rules.contains ⟨action, b.1⟩ = true ↔ Derives (outlineOf a.2) (outlineOf b.2) action
  targets : ∀ rule ∈ options.rules.toList, ∃ b ∈ tags, rule.target = b.1
  exclusive : ∀ b ∈ tags, ∀ action action', action.isExclusive = true →
    action'.isExclusive = true → options.rules.contains ⟨action, b.1⟩ = true →
      options.rules.contains ⟨action', b.1⟩ = true → action = action'
  disabled : options.disabled = true ↔
    ∃ name, root = some name ∧ DeniesDescendant (outlineOfRoot name) (outlineOf a.2)
  disallowAsRoot : options.disallowAsRoot = true ↔
    ∃ name allowed, root = some name ∧ (outlineOfRoot name).allowedChildren = [allowed] ∧
      ∃ first ∈ (outlineOf a.2).firstChildren, allowed &&& first.2 = 0

/-- What is derived for some tags and no others. -/
structure Describes (root : Option String) (tags : List (TagName × Option Node))
    (derived : Dictionary TagName DerivedOptions) : Prop where
  names : ∀ name, derived.contains name = true ↔ ∃ a ∈ tags, a.1 = name
  tag : ∀ a ∈ tags, ∃ options, derived.find? a.1 = some options ∧ DescribesTag root tags a options

theorem allowedChildren_outlineOfRoot (name : String) :
    (outlineOfRoot name).allowedChildren = [acceptedAt [{ name }]] := rfl

/-- The root element has one place for content, so it denies a child exactly if it does not
accept it there. -/
theorem deniesChild_outlineOfRoot_iff {name : String} {t : Outline} :
    DeniesChild (outlineOfRoot name) t ↔
      ∃ allowed, (outlineOfRoot name).allowedChildren = [allowed] ∧
        ∃ first ∈ t.firstChildren, allowed &&& first.2 = 0 := by
  simp only [DeniesChild, allowedChildren_outlineOfRoot]
  simp

/-- The rules of the root element, if there is one. -/
def rootRulesOf (root : Option String) (targets : List OutlinedTag) : List Rule :=
  match root with
  | none => []
  | some name => allRules (outlineOfRoot name) targets

theorem mem_rootRulesOf {root : Option String} {targets : List OutlinedTag}
    (hnames : (targets.map Prod.fst).Nodup) {t : OutlinedTag} (ht : t ∈ targets)
    {action : RuleAction} :
    (rootRulesOf root targets).contains ⟨action, t.1⟩ = true ↔
      ∃ name, root = some name ∧ Gathers (outlineOfRoot name) t.2 action := by
  rw [List.contains_iff_mem]
  cases root with
  | none => simp [rootRulesOf]
  | some name => simp [rootRulesOf, mem_allRules_of_mem hnames ht]

/-- The tags with their outlines. -/
def outlined (tags : List (TagName × Option Node)) : List OutlinedTag :=
  tags.map fun t => (t.1, outlineOf t.2)

theorem map_fst_outlined (tags : List (TagName × Option Node)) :
    (outlined tags).map Prod.fst = tags.map Prod.fst := by
  rw [outlined, List.map_map]
  rfl

theorem mem_outlined {tags : List (TagName × Option Node)} {a : TagName × Option Node}
    (ha : a ∈ tags) : (a.1, outlineOf a.2) ∈ outlined tags := List.mem_map.mpr ⟨a, ha, rfl⟩

theorem find?_reverse_map {α β : Type} (f : α → β) (l : List (TagName × α)) (name : TagName) :
    ((l.map fun e => (e.1, f e.2)).reverse.find? fun e => e.1 = name).map Prod.snd =
      ((l.reverse.find? fun e => e.1 = name).map Prod.snd).map f := by
  rw [← List.map_reverse, List.find?_map, Option.map_map, Option.map_map]
  rfl

/-- What is declared as the template under a name.  Of several tags of one name the last one
counts. -/
def lastDeclared? (tags : List (TagName × Option Node)) (name : TagName) :
    Option (Option Node) :=
  (tags.reverse.find? fun a => a.1 = name).map Prod.snd

section Described

variable {root : Option String} {tags : List (TagName × Option Node)}

/-- All that can fail is to find the root element. -/
theorem derive_eq_ok_iff {derived : Dictionary TagName DerivedOptions} :
    derive root tags = .ok derived ↔
      (∀ name, root = some name → (element? name).isSome = true) ∧
        derived = .ofList
          (optionsOf (outlined tags) (rootRulesOf root (outlined tags)) [] (outlined tags)) := by
  cases root with
  | none =>
    show Except.ok _ = Except.ok derived ↔ _
    rw [Except.ok.injEq, eq_comm]
    exact (and_iff_right fun _ h => by cases h).symm
  | some name =>
    cases hm : element? name with
    | none =>
      have houtline : rootOutline (some name) = .error (.unknownHtmlElement name) := by
        rw [rootOutline, hm]
      rw [derive, houtline]
      refine iff_of_false (fun h => by cases h) fun h => ?_
      have hsome := h.1 name rfl
      rw [hm] at hsome
      cases hsome
    | some m =>
      have houtline : rootOutline (some name) = .ok (some (outlineOfRoot name)) := by
        rw [rootOutline, hm]
        rfl
      rw [derive, houtline]
      show Except.ok _ = Except.ok derived ↔ _
      rw [Except.ok.injEq, eq_comm]
      refine (and_iff_right fun name' h => ?_).symm
      rw [← Option.some.inj h, hm]
      rfl

/-- The rules of a name and its transparency are those of the last tag of the name. -/
theorem find?_of_derive {derived : Dictionary TagName DerivedOptions}
    (h : derive root tags = .ok derived) (name : TagName) :
    (derived.find? name).map (fun options => (options.rules, options.transparent)) =
      (lastDeclared? tags name).map fun template =>
        ((RuleSet.ofList (allRules (outlineOf template) (outlined tags))).resolveConflicts,
          (outlineOf template).transparent) := by
  obtain ⟨-, rfl⟩ := derive_eq_ok_iff.mp h
  rw [Dictionary.find?_ofList, ← find?_reverse_map fun o : DerivedOptions => (o.rules, o.transparent),
    map_optionsOf, lastDeclared?,
    find?_reverse_map fun o : Outline =>
      ((RuleSet.ofList (allRules o (outlined tags))).resolveConflicts, o.transparent),
    outlined, find?_reverse_map outlineOf, Option.map_map]
  rfl

variable (hnames : (tags.map Prod.fst).Nodup)

include hnames

theorem describesTag_optionsFor {a : TagName × Option Node} (ha : a ∈ tags) :
    DescribesTag root tags a
      (optionsFor (outlined tags) (rootRulesOf root (outlined tags)) (a.1, outlineOf a.2)).2 := by
  have hnodup : ((outlined tags).map Prod.fst).Nodup := (map_fst_outlined tags).symm ▸ hnames
  have hrules : ∀ b ∈ tags, ∀ action,
      (RuleSet.ofList (allRules (outlineOf a.2) (outlined tags))).resolveConflicts.contains
        ⟨action, b.1⟩ = true ↔ Derives (outlineOf a.2) (outlineOf b.2) action :=
    fun b hb action => contains_resolved_iff (t := (b.1, outlineOf b.2)) hnodup (mem_outlined hb)
  constructor
  case rules =>
    rw [rules_optionsFor]
    exact hrules
  case targets =>
    intro rule hrule
    rw [rules_optionsFor] at hrule
    obtain ⟨t, ht, htarget⟩ := exists_target_of_contains (RuleSet.contains_iff.mpr hrule)
    obtain ⟨b, hb, rfl⟩ := List.mem_map.mp ht
    exact ⟨b, hb, htarget⟩
  case exclusive =>
    rw [rules_optionsFor]
    intro b hb action action' hex hex' h h'
    exact Derives.eq_of_isExclusive ((hrules b hb action).mp h) ((hrules b hb action').mp h')
      hex hex'
  case disabled => exact mem_rootRulesOf hnodup (mem_outlined ha)
  case disallowAsRoot =>
    refine (mem_rootRulesOf hnodup (mem_outlined ha)).trans (exists_congr fun name => ?_)
    rw [exists_and_left]
    exact and_congr_right fun _ => deniesChild_outlineOfRoot_iff

/-- Each tag has an entry of its own, since the names differ. -/
theorem find?_derived_iff {rootRules : List Rule} {name : TagName} {options : DerivedOptions} :
    (Dictionary.ofList (optionsOf (outlined tags) rootRules [] (outlined tags))).find? name =
        some options ↔
      ∃ a ∈ tags, (name, options) = optionsFor (outlined tags) rootRules (a.1, outlineOf a.2) := by
  have hnodup : ((outlined tags).map Prod.fst).Nodup := (map_fst_outlined tags).symm ▸ hnames
  have hkeys : (((outlined tags).map (optionsFor (outlined tags) rootRules)).map
      Prod.fst).Nodup := by
    rw [List.map_map]
    exact hnodup
  rw [optionsOf_eq_map hnodup fun _ _ => List.not_mem_nil, Dictionary.find?_ofList_eq_some_iff hkeys,
    List.mem_map]
  constructor
  · rintro ⟨t, ht, heq⟩
    obtain ⟨a, ha, rfl⟩ := List.mem_map.mp ht
    exact ⟨a, ha, heq.symm⟩
  · rintro ⟨a, ha, heq⟩
    exact ⟨_, mem_outlined ha, heq.symm⟩

theorem describes_of_derive {derived : Dictionary TagName DerivedOptions}
    (h : derive root tags = .ok derived) : Describes root tags derived := by
  obtain ⟨-, rfl⟩ := derive_eq_ok_iff.mp h
  constructor
  case names =>
    intro name
    rw [Dictionary.contains, Option.isSome_iff_exists]
    constructor
    · rintro ⟨options, hoptions⟩
      obtain ⟨a, ha, heq⟩ := (find?_derived_iff hnames).mp hoptions
      exact ⟨a, ha, (congrArg Prod.fst heq).symm⟩
    · rintro ⟨a, ha, rfl⟩
      exact ⟨_, (find?_derived_iff hnames).mpr ⟨a, ha, rfl⟩⟩
  case tag =>
    exact fun a ha => ⟨_, (find?_derived_iff hnames).mpr ⟨a, ha, rfl⟩,
      describesTag_optionsFor hnames ha⟩

end Described

/-- A rule is derived for the tag of a name. -/
def HasRule (derived : Dictionary TagName DerivedOptions) (name : TagName) (rule : Rule) : Prop :=
  ∃ options, derived.find? name = some options ∧ options.rules.contains rule = true

theorem Describes.hasRule_iff {root : Option String} {tags : List (TagName × Option Node)}
    {derived : Dictionary TagName DerivedOptions} (h : Describes root tags derived)
    {a b : TagName × Option Node} (ha : a ∈ tags) (hb : b ∈ tags) {action : RuleAction} :
    HasRule derived a.1 ⟨action, b.1⟩ ↔ Derives (outlineOf a.2) (outlineOf b.2) action := by
  obtain ⟨options, hoptions, htag⟩ := h.tag a ha
  rw [← htag.rules b hb action, HasRule, hoptions]
  simp

/-- Rules are derived pair by pair.  What is derived for a tag and a target depends on their
two templates alone, whatever the other tags and the root element are. -/
theorem derive_describes {root : Option String} {tags : List (TagName × Option Node)}
    (hnames : (tags.map Prod.fst).Nodup)
    (hroot : ∀ name, root = some name → (element? name).isSome = true) :
    ∃ derived, derive root tags = .ok derived ∧ Describes root tags derived ∧
      ∀ root' tags' derived', (tags'.map Prod.fst).Nodup → derive root' tags' = .ok derived' →
        ∀ a ∈ tags, ∀ b ∈ tags, ∀ a' ∈ tags', ∀ b' ∈ tags',
          a.2.getD Node.contentOnly = a'.2.getD Node.contentOnly →
          b.2.getD Node.contentOnly = b'.2.getD Node.contentOnly → ∀ action,
            HasRule derived a.1 ⟨action, b.1⟩ ↔ HasRule derived' a'.1 ⟨action, b'.1⟩ := by
  refine ⟨_, derive_eq_ok_iff.mpr ⟨hroot, rfl⟩, ?_⟩
  have hdescribes := describes_of_derive hnames (derive_eq_ok_iff.mpr ⟨hroot, rfl⟩)
  refine ⟨hdescribes, ?_⟩
  intro root' tags' derived' hnames' hderive a ha b hb a' ha' b' hb' hA hB action
  have hdescribes' := describes_of_derive hnames' hderive
  rw [hdescribes.hasRule_iff ha hb, hdescribes'.hasRule_iff ha' hb', outlineOf, outlineOf, hA, hB]
  rfl

/-- A list with its items, links and a tag without a template. -/
def linkedTags : List (TagName × Option Node) :=
  [(⟨"LI"⟩, some (rootTemplate "li")), (⟨"UL"⟩, some (rootTemplate "ul")),
   (⟨"URL"⟩, some (rootTemplate "a")), (⟨"PLAIN"⟩, none)]

/-- Items go into lists and end one another, lists do not go into lists, links not into
links, and in a link there is no other. -/
theorem derive_describes_linkedTags :
    (linkedTags.map Prod.fst).Nodup ∧ (element? "a").isSome = true ∧
      ∃ derived, derive (some "a") linkedTags = .ok derived ∧
        Describes (some "a") linkedTags derived ∧
        HasRule derived ⟨"UL"⟩ ⟨.allowChild, ⟨"LI"⟩⟩ ∧
        HasRule derived ⟨"LI"⟩ ⟨.closeParent, ⟨"LI"⟩⟩ ∧
        HasRule derived ⟨"UL"⟩ ⟨.denyChild, ⟨"UL"⟩⟩ ∧
        HasRule derived ⟨"URL"⟩ ⟨.denyDescendant, ⟨"URL"⟩⟩ ∧
        ∃ options, derived.find? ⟨"URL"⟩ = some options ∧ options.disabled = true := by
  have hnames : (linkedTags.map Prod.fst).Nodup := by decide
  have hroot : (element? "a").isSome = true := by decide +kernel
  have hknown : ∀ name, some "a" = some name → (element? name).isSome = true :=
    fun name hname => Option.some.inj hname ▸ hroot
  obtain ⟨derived, hderive, hdescribes, -⟩ := derive_describes hnames hknown
  have hrule {a b : TagName × Option Node} (ha : a ∈ linkedTags) (hb : b ∈ linkedTags)
      {action : RuleAction} (h : Derives (outlineOf a.2) (outlineOf b.2) action) :
      HasRule derived a.1 ⟨action, b.1⟩ := (hdescribes.hasRule_iff ha hb).mpr h
  have hli : (⟨"LI"⟩, some (rootTemplate "li")) ∈ linkedTags := by simp [linkedTags]
  have hul : (⟨"UL"⟩, some (rootTemplate "ul")) ∈ linkedTags := by simp [linkedTags]
  have hurl : (⟨"URL"⟩, some (rootTemplate "a")) ∈ linkedTags := by simp [linkedTags]
  obtain ⟨options, hoptions, htag⟩ := hdescribes.tag _ hurl
  exact ⟨hnames, hroot, derived, hderive, hdescribes, hrule hul hli (by decide +kernel),
    hrule hli hli (by decide +kernel), hrule hul hul (by decide +kernel),
    hrule hurl hurl (by decide +kernel), options, hoptions,
    htag.disabled.mpr ⟨"a", rfl, by decide +kernel⟩⟩

end Html
end TagGrammar
