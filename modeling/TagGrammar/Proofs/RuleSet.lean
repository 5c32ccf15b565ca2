/-
Sets of rules as plain sets.

A set of rules keeps the targets of each action, and equality, emptiness and the number of rules
look at that dictionary.  They are right because no change leaves an action without targets:
then what is found under an action is told by its targets (`find?_groups`), and two sets of the
same rules are equal (`ext_contains`).  Each change is told by the rules contained afterwards, so
that any run of changes answers as the same run on a plain set of rules (`run_represents`).
-/
import Mathlib.Data.Finset.Card
import TagGrammar.Proofs.Dictionary
import TagGrammar.Rule

namespace TagGrammar

/-! ## The order of rules -/

/-- Rules are listed by action and then by target. -/
def Rule.Before (a b : Rule) : Prop :=
  a.action < b.action ∨ a.action = b.action ∧ a.target < b.target

theorem Rule.Before.ne {a b : Rule} (h : a.Before b) : a ≠ b := by
  rintro rfl
  rcases h with haction | ⟨-, htarget⟩
  · exact StrictTotal.irrefl a.action haction
  · exact StrictTotal.irrefl a.target htarget

/-- A rule declares itself and the child rule that it implies. -/
def Rule.Declares (rule r : Rule) : Prop :=
  r = rule ∨ rule.action.implied? = some r.action ∧ r.target = rule.target

theorem OrderedSet.eq_empty {α : Type} [LT α] {s : OrderedSet α} (h : s.isEmpty = true) :
    s = {} := by
  obtain ⟨members, increasing⟩ := s
  obtain rfl : members = [] := List.isEmpty_iff.mp h
  rfl

namespace RuleSet

variable {s s' : RuleSet} {rule r : Rule} {action other : RuleAction} {target : TagName}

/-! ## The targets of an action -/

theorem contains_eq (s : RuleSet) (r : Rule) :
    s.contains r = (s.targetSet r.action).contains r.target := by
  unfold contains targetSet
  cases s.groups.find? r.action with
  | none => rfl
  | some targets => rfl

theorem mem_targets : target ∈ s.targets action ↔ s.contains ⟨action, target⟩ = true := by
  rw [contains_eq, targets, OrderedSet.contains, List.contains_iff_mem]

theorem increasing_targets (s : RuleSet) (action : RuleAction) :
    Increasing (s.targets action) := (s.targetSet action).increasing

/-- No action is kept without targets. -/
theorem find?_groups (s : RuleSet) (action : RuleAction) :
    s.groups.find? action =
      if (s.targetSet action).isEmpty then none else some (s.targetSet action) := by
  unfold targetSet
  cases hfind : s.groups.find? action with
  | none => rfl
  | some targets =>
    have hmem := (Dictionary.findIn_eq_some_iff s.increasing).mp hfind
    have hfilled := s.filled targets (List.mem_map_of_mem hmem)
    rw [Option.getD_some, hfilled]
    rfl

theorem targetSet_withTargets {targets : OrderedSet TagName} (h : targets.isEmpty = false) :
    (s.withTargets action targets h).targetSet other =
      if other = action then targets else s.targetSet other := by
  unfold targetSet withTargets
  by_cases haction : other = action
  · rw [if_pos haction, haction, Dictionary.find?_insert_self, Option.getD_some]
  · rw [if_neg haction, Dictionary.find?_insert_of_ne (Ne.symm haction)]

theorem targetSet_withoutAction :
    (s.withoutAction action).targetSet other =
      if other = action then {} else s.targetSet other := by
  unfold targetSet withoutAction
  rw [Dictionary.find?_erase]
  by_cases haction : other = action
  · rw [if_pos haction, if_pos haction, Option.getD_none]
  · rw [if_neg haction, if_neg haction]

/-- Whether or not the action loses its last target, it is left with the others. -/
theorem targetSet_erase :
    (s.erase rule).targetSet other =
      if other = rule.action then (s.targetSet other).erase rule.target
      else s.targetSet other := by
  unfold erase eraseFound
  cases hfind : s.groups.find? rule.action with
  | none =>
    by_cases haction : other = rule.action
    · rw [if_pos haction, haction, targetSet, hfind]
      rfl
    · rw [if_neg haction]
  | some targets =>
    have htargets : s.targetSet rule.action = targets := by rw [targetSet, hfind, Option.getD_some]
    dsimp only
    split
    · rw [targetSet_withTargets]
      split
      · rename_i haction
        rw [haction, htargets]
      · rfl
    · rename_i hempty
      rw [targetSet_withoutAction]
      split
      · rename_i haction
        rw [haction, htargets]
        exact (OrderedSet.eq_empty (by simpa using hempty)).symm
      · rfl

theorem targetSet_eraseTarget :
    (s.eraseTarget target).targetSet action = (s.targetSet action).erase target := by
  unfold targetSet eraseTarget
  rw [Dictionary.find?_retain (Dictionary.increasing_keys_mapValues s.increasing _),
    Dictionary.find?_mapValues]
  cases s.groups.find? action with
  | none => rfl
  | some targets =>
    rw [Option.map_some, Option.filter_some]
    split
    · rfl
    · rename_i hempty
      exact (OrderedSet.eq_empty (by simpa using hempty)).symm

/-! ## The rules contained after a change -/

theorem contains_empty (r : Rule) : empty.contains r = false := rfl

theorem contains_insert (s : RuleSet) (rule r : Rule) :
    (s.insert rule).contains r = (r == rule || s.contains r) := by
  obtain ⟨action, target⟩ := rule
  obtain ⟨other, target'⟩ := r
  rw [contains_eq, contains_eq, insert, insertNew, targetSet_withTargets, Bool.eq_iff_iff]
  by_cases haction : other = action
  · subst haction
    rw [if_pos rfl, OrderedSet.contains_insert]
    simp
  · rw [if_neg haction]
    simp [haction]

theorem contains_erase (s : RuleSet) (rule r : Rule) :
    (s.erase rule).contains r = (r != rule && s.contains r) := by
  obtain ⟨action, target⟩ := rule
  obtain ⟨other, target'⟩ := r
  rw [contains_eq, contains_eq, targetSet_erase, Bool.eq_iff_iff]
  by_cases haction : other = action
  · subst haction
    rw [if_pos rfl, OrderedSet.contains_erase]
    simp
  · rw [if_neg haction]
    simp [haction]

theorem contains_eraseTarget (s : RuleSet) (target : TagName) (r : Rule) :
    (s.eraseTarget target).contains r = (r.target != target && s.contains r) := by
  rw [contains_eq, contains_eq, targetSet_eraseTarget, OrderedSet.contains_erase]

theorem contains_add : (s.add rule).contains r = true ↔ rule.Declares r ∨ s.contains r = true := by
  obtain ⟨action, target⟩ := r
  unfold add Rule.Declares
  split
  · rename_i implied himplied
    rw [contains_insert, contains_insert, himplied]
    simp only [Bool.or_eq_true, beq_iff_eq, Rule.mk.injEq, Option.some.injEq, or_assoc]
    simp only [@eq_comm _ implied action]
  · rename_i hnone
    rw [contains_insert, hnone]
    simp

theorem contains_addAll {rules : List Rule} :
    (s.addAll rules).contains r = true ↔
      (∃ rule ∈ rules, rule.Declares r) ∨ s.contains r = true := by
  unfold addAll
  induction rules generalizing s with
  | nil => simp
  | cons rule rest ih =>
    rw [List.foldl_cons, ih, contains_add, List.exists_mem_cons_iff, or_left_comm, or_assoc]

/-! ## All rules -/

theorem contains_iff : s.contains r = true ↔ r ∈ s.toList := by
  obtain ⟨action, target⟩ := r
  have hgroup (targets : OrderedSet TagName) :
      s.groups.find? action = some targets ↔ (action, targets) ∈ s.groups.entries :=
    Dictionary.findIn_eq_some_iff s.increasing
  simp only [contains, toList, Option.any_eq_true, hgroup, List.mem_flatMap, List.mem_map,
    OrderedSet.contains, List.contains_iff_mem]
  constructor
  · rintro ⟨targets, hentry, htarget⟩
    exact ⟨_, hentry, target, htarget, rfl⟩
  · rintro ⟨⟨action', targets⟩, hentry, target', htarget, heq⟩
    cases heq
    exact ⟨targets, hentry, htarget⟩

/-- The rules of one action are in the order of their targets, and actions are in order. -/
theorem pairwise_toList (s : RuleSet) : s.toList.Pairwise Rule.Before := by
  refine List.pairwise_flatMap.mpr ⟨fun g _ => ?_, ?_⟩
  · refine List.pairwise_map.mpr (List.Pairwise.imp ?_ g.2.increasing)
    exact fun htarget => Or.inr ⟨rfl, htarget⟩
  · refine List.Pairwise.imp ?_ (List.pairwise_map.mp s.increasing)
    intro g g' haction r hr r' hr'
    obtain ⟨target, -, rfl⟩ := List.mem_map.mp hr
    obtain ⟨target', -, rfl⟩ := List.mem_map.mp hr'
    exact Or.inl haction

theorem nodup_toList (s : RuleSet) : s.toList.Nodup :=
  List.Pairwise.imp Rule.Before.ne s.pairwise_toList

theorem size_eq (s : RuleSet) : s.size = s.toList.length := by
  unfold size toList Dictionary.values
  induction s.groups.entries with
  | nil => rfl
  | cons g rest ih =>
    rw [List.map_cons, List.foldr_cons, List.flatMap_cons, List.length_append, List.length_map, ih]
    rfl

/-- A set with a group has a rule, since the group has a target. -/
theorem isEmpty_iff : s.isEmpty = true ↔ ∀ r, s.contains r = false := by
  constructor
  · intro h r
    have hfind : s.groups.find? r.action = none := by
      rw [Dictionary.find?, List.isEmpty_iff.mp h]
      rfl
    rw [contains, hfind]
    rfl
  · intro h
    by_contra hne
    have hgroups : s.groups.entries ≠ [] := fun hnil => hne (List.isEmpty_iff.mpr hnil)
    obtain ⟨⟨action, targets⟩, hentry⟩ := List.exists_mem_of_ne_nil _ hgroups
    have hfilled := s.filled targets (List.mem_map_of_mem hentry)
    obtain ⟨target, htarget⟩ :=
      List.exists_mem_of_ne_nil _ (List.isEmpty_eq_false_iff.mp hfilled)
    have hmem : (⟨action, target⟩ : Rule) ∈ s.toList :=
      List.mem_flatMap.mpr ⟨_, hentry, List.mem_map_of_mem htarget⟩
    rw [← contains_iff, h] at hmem
    cases hmem

/-- Two sets of the same rules have the same groups. -/
theorem ext_contains (h : ∀ r, s.contains r = true ↔ s'.contains r = true) : s = s' := by
  have htargets : ∀ action, s.targetSet action = s'.targetSet action := by
    intro action
    have hmembers : s.targets action = s'.targets action := by
      refine (s.increasing_targets action).eq_of_mem_iff (s'.increasing_targets action) fun t => ?_
      rw [mem_targets, mem_targets, h]
    unfold targets at hmembers
    cases hs : s.targetSet action
    cases hs' : s'.targetSet action
    rw [hs, hs'] at hmembers
    cases hmembers
    rfl
  have hgroups : s.groups = s'.groups := by
    refine Dictionary.eq_of_find? s.increasing s'.increasing fun action => ?_
    rw [find?_groups, find?_groups, htargets action]
  cases s
  cases s'
  cases hgroups
  rfl

/-! ## What the changes answer -/

/-- A rule is taken out of the group of its action, and missed if there is no such group. -/
theorem eraseFound_fst (s : RuleSet) (rule : Rule) : (s.eraseFound rule).1 = s.contains rule := by
  unfold eraseFound contains
  cases s.groups.find? rule.action with
  | none => rfl
  | some targets => rfl

theorem insertNew_fst (s : RuleSet) (rule : Rule) : (s.insertNew rule).1 = !s.contains rule := by
  rw [contains_eq]
  rfl

/-- A set of rules that answers like a plain set of rules. -/
structure Represents (s : RuleSet) (rules : Finset Rule) : Prop where
  contains : ∀ r, s.contains r = true ↔ r ∈ rules
  isNew : ∀ r, (s.insertNew r).1 = true ↔ r ∉ rules
  found : ∀ r, (s.eraseFound r).1 = true ↔ r ∈ rules
  targets : ∀ action target, target ∈ s.targets action ↔ ⟨action, target⟩ ∈ rules
  /-- Every rule is listed, -/
  listed : ∀ r, r ∈ s.toList ↔ r ∈ rules
  /-- once, -/
  once : s.toList.Nodup
  /-- and by action and then by target. -/
  ordered : s.toList.Pairwise Rule.Before
  size : s.size = rules.card
  isEmpty : s.isEmpty = true ↔ rules = ∅

theorem represents_of_contains {rules : Finset Rule} (h : ∀ r, s.contains r = true ↔ r ∈ rules) :
    Represents s rules where
  contains := h
  isNew r := by rw [insertNew_fst, Bool.not_eq_true', ← Bool.not_eq_true, h]
  found r := by rw [eraseFound_fst, h]
  targets action target := by rw [mem_targets, h]
  listed r := by rw [← contains_iff, h]
  once := s.nodup_toList
  ordered := s.pairwise_toList
  size := by
    have hrules : s.toList.toFinset = rules := by
      ext r
      rw [List.mem_toFinset, ← contains_iff, h]
    rw [size_eq, ← hrules, List.toFinset_card_of_nodup s.nodup_toList]
  isEmpty := by simp [isEmpty_iff, Finset.eq_empty_iff_forall_notMem, ← h]

/-! ## Runs of changes -/

/-- A change of a set of rules. -/
inductive Change where
  | add (rule : Rule)
  | insert (rule : Rule)
  | erase (rule : Rule)
  | eraseTarget (target : TagName)
  | addAll (rules : List Rule)

def perform (s : RuleSet) : Change → RuleSet
  | .add rule => s.add rule
  | .insert rule => s.insert rule
  | .erase rule => s.erase rule
  | .eraseTarget target => s.eraseTarget target
  | .addAll rules => s.addAll rules

/-- The set of rules that some changes make of none. -/
def run (changes : List Change) : RuleSet := changes.foldl perform empty

/-- A rule with the child rule that it implies. -/
def withImplied (rule : Rule) : Finset Rule :=
  match rule.action.implied? with
  | some action => {⟨action, rule.target⟩, rule}
  | none => {rule}

/-- A change of a plain set of rules. -/
def performPlain (rules : Finset Rule) : Change → Finset Rule
  | .add rule => rules ∪ withImplied rule
  | .insert rule => {rule} ∪ rules
  | .erase rule => rules.erase rule
  | .eraseTarget target => rules.filter fun r => r.target ≠ target
  | .addAll added => added.foldl (fun rules rule => rules ∪ withImplied rule) rules

/-- The plain set of rules that some changes make of none. -/
def runPlain (changes : List Change) : Finset Rule := changes.foldl performPlain ∅

theorem mem_withImplied : r ∈ withImplied rule ↔ rule.Declares r := by
  obtain ⟨action, target⟩ := r
  unfold withImplied Rule.Declares
  cases rule.action.implied? with
  | none => simp
  | some implied => simp [or_comm, eq_comm]

theorem mem_foldl_withImplied {added : List Rule} {rules : Finset Rule} :
    r ∈ added.foldl (fun rules rule => rules ∪ withImplied rule) rules ↔
      (∃ rule ∈ added, rule.Declares r) ∨ r ∈ rules := by
  induction added generalizing rules with
  | nil => simp
  | cons rule rest ih =>
    rw [List.foldl_cons, ih, Finset.mem_union, mem_withImplied, List.exists_mem_cons_iff,
      or_comm (a := r ∈ rules), or_left_comm, or_assoc]

/-- A change of a set of rules is the same change of its plain set. -/
theorem contains_perform {rules : Finset Rule} (h : ∀ r, s.contains r = true ↔ r ∈ rules)
    (change : Change) (r : Rule) :
    (s.perform change).contains r = true ↔ r ∈ performPlain rules change := by
  cases change with
  | add rule =>
    rw [perform, performPlain, contains_add, Finset.mem_union, mem_withImplied, h, or_comm]
  | insert rule =>
    rw [perform, performPlain, contains_insert, Finset.mem_union, Finset.mem_singleton,
      Bool.or_eq_true, beq_iff_eq, h]
  | erase rule =>
    rw [perform, performPlain, contains_erase, Finset.mem_erase, Bool.and_eq_true, bne_iff_ne, h]
  | eraseTarget target =>
    rw [perform, performPlain, contains_eraseTarget, Finset.mem_filter, Bool.and_eq_true,
      bne_iff_ne, h, and_comm]
  | addAll added => rw [perform, performPlain, contains_addAll, mem_foldl_withImplied, h]

theorem contains_run (changes : List Change) (r : Rule) :
    (run changes).contains r = true ↔ r ∈ runPlain changes := by
  -- The two runs go on side by side, whatever they have come to.
  have hfold : ∀ (s : RuleSet) (rules : Finset Rule), (∀ r, s.contains r = true ↔ r ∈ rules) →
      ∀ r, (changes.foldl perform s).contains r = true ↔ r ∈ changes.foldl performPlain rules := by
    induction changes with
    | nil => exact fun s rules h => h
    | cons change rest ih => exact fun s rules h => ih _ _ (contains_perform h change)
  refine hfold empty ∅ (fun r => ?_) r
  rw [contains_empty]
  simp

/-- Any run of changes answers as the same run on a plain set of rules, and two runs end in equal
sets of rules if these contain the same rules. -/
theorem run_represents (changes : List Change) :
    Represents (run changes) (runPlain changes) ∧
      ∀ changes', run changes = run changes' ↔
        ∀ r, (run changes).contains r = (run changes').contains r := by
  refine ⟨represents_of_contains (contains_run changes), fun changes' => ⟨?_, ?_⟩⟩
  · exact fun h r => by rw [h]
  · exact fun h => ext_contains fun r => by rw [h]

end RuleSet
end TagGrammar
