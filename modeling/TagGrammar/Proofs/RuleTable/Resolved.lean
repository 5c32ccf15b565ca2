/-
Resolved rules in the rule table.

Where rules are derived, a stronger rule takes the weaker ones on its target out of the set;
where they are compiled, denials are put down after permissions.  The rules of three actions
exclude each other on a target, and both go by one order of these actions, `precedence`.  A
weaker rule in a set has therefore no effect on the table, and of the permissions on
descendants, which are not resolved, all are still there.
-/
import TagGrammar.Proofs.Html.Derivation
import TagGrammar.Proofs.RuleTable

namespace TagGrammar
namespace RuleSet

/-- The actions that exclude each other on a target, the strongest first. -/
def precedence : List RuleAction := [.denyDescendant, .denyChild, .allowChild]

/-- The strongest of the rules of a target that exclude each other. -/
def strongest? (s : RuleSet) (target : TagName) : Option RuleAction :=
  precedence.find? fun action => s.contains ⟨action, target⟩

/-- A set without the rules that yield to stronger ones. -/
structure Resolves (s resolved : RuleSet) : Prop where
  /-- Of the rules that exclude each other a target keeps the strongest that it had. -/
  strongest : ∀ action target, action.isExclusive = true →
    (resolved.contains ⟨action, target⟩ = true ↔ s.strongest? target = some action)
  single : ∀ a b target, a.isExclusive = true → b.isExclusive = true →
    resolved.contains ⟨a, target⟩ = true → resolved.contains ⟨b, target⟩ = true → a = b
  others : ∀ action target, action.isExclusive = false →
    resolved.contains ⟨action, target⟩ = s.contains ⟨action, target⟩

variable {s s' : RuleSet} {action : RuleAction} {target : TagName}

theorem strongest?_eq : s.strongest? target =
    if s.contains ⟨.denyDescendant, target⟩ then some .denyDescendant
    else if s.contains ⟨.denyChild, target⟩ then some .denyChild
    else if s.contains ⟨.allowChild, target⟩ then some .allowChild
    else none := by
  unfold strongest? precedence
  simp only [List.find?_cons, List.find?_nil]
  cases s.contains ⟨.denyDescendant, target⟩ <;> cases s.contains ⟨.denyChild, target⟩ <;>
    cases s.contains ⟨.allowChild, target⟩ <;> rfl

theorem contains_resolveConflicts_iff_strongest (h : action.isExclusive = true) :
    s.resolveConflicts.contains ⟨action, target⟩ = true ↔ s.strongest? target = some action := by
  rw [contains_resolveConflicts, strongest?_eq]
  cases action with
  | denyDescendant | denyChild | allowChild =>
    cases s.contains ⟨.denyDescendant, target⟩ <;> cases s.contains ⟨.denyChild, target⟩ <;>
      cases s.contains ⟨.allowChild, target⟩ <;> simp
  | _ => cases h

theorem contains_resolveConflicts_of_ne (hdeny : action ≠ .denyChild)
    (hallow : action ≠ .allowChild) :
    s.resolveConflicts.contains ⟨action, target⟩ = s.contains ⟨action, target⟩ := by
  rw [Bool.eq_iff_iff, contains_resolveConflicts]
  simp [hdeny, hallow]

theorem resolves_resolveConflicts (s : RuleSet) : Resolves s s.resolveConflicts where
  strongest _ _ h := contains_resolveConflicts_iff_strongest h
  single a b target ha hb hina hinb := by
    have hina := (contains_resolveConflicts_iff_strongest ha).mp hina
    have hinb := (contains_resolveConflicts_iff_strongest hb).mp hinb
    exact Option.some.inj (hina.symm.trans hinb)
  others action target h := by
    refine contains_resolveConflicts_of_ne ?_ ?_
    · rintro rfl
      cases h
    · rintro rfl
      cases h

/-- Nothing is there that would make another rule yield again. -/
theorem resolveConflicts_self (s : RuleSet) :
    s.resolveConflicts.resolveConflicts = s.resolveConflicts := by
  have habsent : ∀ {r : Rule}, s.contains r = false → s.resolveConflicts.contains r = false := by
    intro r h
    rw [← Bool.not_eq_true] at h ⊢
    exact fun hr => h (contains_resolveConflicts.mp hr).1
  refine ext_contains fun r => ?_
  rw [contains_resolveConflicts (s := s.resolveConflicts)]
  refine ⟨And.left, fun hr => ⟨hr, fun hweaker => ?_, fun hallow => ?_⟩⟩
  · exact habsent ((contains_resolveConflicts.mp hr).2.1 hweaker)
  · exact habsent ((contains_resolveConflicts.mp hr).2.2 hallow)

theorem targets_congr
    (h : ∀ target, s.contains ⟨action, target⟩ = s'.contains ⟨action, target⟩) :
    s.targets action = s'.targets action := by
  refine (s.increasing_targets action).eq_of_mem_iff (s'.increasing_targets action) fun target => ?_
  rw [mem_targets, mem_targets, h target]

theorem targets_resolveConflicts (hdeny : action ≠ .denyChild) (hallow : action ≠ .allowChild) :
    s.resolveConflicts.targets action = s.targets action :=
  targets_congr fun _ => contains_resolveConflicts_of_ne hdeny hallow

end RuleSet

def Tag.resolved (t : Tag) : Tag := { t with rules := t.rules.resolveConflicts }

namespace RuleTable

section Entry

variable {names : List TagName} (tag : Tag)

theorem descendantBits_resolved : descendantBits names tag.resolved = descendantBits names tag := by
  simp only [descendantBits, targetOrdinals, Tag.resolved]
  rw [RuleSet.targets_resolveConflicts (by decide) (by decide),
    RuleSet.targets_resolveConflicts (by decide) (by decide)]

/-- Where a denial is, no permission and no weaker denial counts. -/
theorem childBits_resolved (hnames : names.Nodup) :
    childBits names tag.resolved = childBits names tag := by
  refine (childBits_wellFormed tag.resolved).eq_of_get (childBits_wellFormed tag)
    ((width_childBits _).trans (width_childBits _).symm) fun j hj => ?_
  rw [width_childBits] at hj
  have hc : names[j]? = some names[j] := List.getElem?_eq_getElem hj
  rw [Bool.eq_iff_iff, get_childBits hnames hc, get_childBits hnames hc, descendantBits_resolved]
  simp only [Tag.resolved, ← Bool.not_eq_true, RuleSet.contains_resolveConflicts]
  -- the rules on this target decide the bit
  cases tag.rules.contains ⟨.denyDescendant, names[j]⟩ <;>
    cases tag.rules.contains ⟨.denyChild, names[j]⟩ <;>
    cases tag.rules.contains ⟨.allowChild, names[j]⟩ <;> simp

theorem compileTag_resolved (hnames : names.Nodup) (ordinal : Nat) :
    compileTag names ordinal tag.resolved = compileTag names ordinal tag := by
  have htargets : ∀ action, action ≠ .denyChild → action ≠ .allowChild →
      tag.resolved.rules.targets action = tag.rules.targets action :=
    fun _ hdeny hallow => RuleSet.targets_resolveConflicts hdeny hallow
  simp (disch := decide) only [compileTag, enabledTargets, childBits_resolved tag hnames,
    descendantBits_resolved, htargets]
  rfl

end Entry

theorem lastEnabled?_resolved (tags : List Tag) (name : TagName) :
    lastEnabled? (tags.map Tag.resolved) name = (lastEnabled? tags name).map Tag.resolved := by
  rw [lastEnabled?, ← List.map_reverse, List.find?_map]
  rfl

theorem enabledNames_resolved (tags : List Tag) :
    enabledNames (tags.map Tag.resolved) = enabledNames tags := by
  refine (enabledNames_increasing _).eq_of_mem_iff (enabledNames_increasing tags) fun name => ?_
  rw [mem_enabledNames, mem_enabledNames, lastEnabled?_resolved, Option.isSome_map]

theorem enabledTags_resolved (tags : List Tag) :
    enabledTags (tags.map Tag.resolved) = (enabledTags tags).map Tag.resolved := by
  rw [enabledTags_eq_filterMap, enabledTags_eq_filterMap, enabledNames_resolved,
    List.map_filterMap]
  exact List.filterMap_congr fun name _ => lastEnabled?_resolved tags name

/-- Whatever rules yield to stronger ones, the table is the same without them. -/
theorem compile_map_resolved (tags : List Tag) :
    compile (tags.map Tag.resolved) = compile tags := by
  have hnames := enabledNames_resolved tags
  have hentries : (enabledTags (tags.map Tag.resolved)).mapIdx (compileTag (enabledNames tags)) =
      (enabledTags tags).mapIdx (compileTag (enabledNames tags)) := by
    refine List.ext_getElem? fun i => ?_
    rw [enabledTags_resolved, List.getElem?_mapIdx, List.getElem?_mapIdx, List.getElem?_map,
      Option.map_map]
    refine congrArg (Option.map · (enabledTags tags)[i]?) (funext fun tag => ?_)
    exact compileTag_resolved tag (enabledNames_increasing tags).nodup i
  unfold enabledNames at hnames hentries
  rw [compile, compile, hnames, hentries]

/-- Resolving the rules of tags leaves their table as it is.  Of the rules that exclude each other
on a target one is left, the strongest, all other rules stay, and a second time nothing changes. -/
theorem resolveConflicts_keeps_table :
    (∀ tags : List Tag, compile (tags.map Tag.resolved) = compile tags) ∧
      ∀ s : RuleSet, RuleSet.Resolves s s.resolveConflicts ∧
        s.resolveConflicts.resolveConflicts = s.resolveConflicts :=
  ⟨compile_map_resolved, fun s => ⟨s.resolves_resolveConflicts, s.resolveConflicts_self⟩⟩

end RuleTable
end TagGrammar
