/-
Rules between tags.

A rule is an action of a tag on a target tag.  The rules of a tag are a set of such
pairs, held as a dictionary of the targets of each action.  No action is kept without
targets, so two sets of the same rules are equal.  Permissions and denials of
descendants are declared together with the child rule that they imply.
-/
import TagGrammar.Declaration
import TagGrammar.Dictionary

namespace TagGrammar

/-- What a rule does to its target.  The order of the constructors is the order in
which rules are listed. -/
inductive RuleAction where
  | allowChild
  | allowDescendant
  | closeAncestor
  | closeParent
  | denyChild
  | denyDescendant
  | reopenChild
  | requireAncestor
  | requireParent
deriving DecidableEq

namespace RuleAction

def all : List RuleAction :=
  [allowChild, allowDescendant, closeAncestor, closeParent, denyChild, denyDescendant,
   reopenChild, requireAncestor, requireParent]

/-- The place of an action in the order of actions. -/
def rank : RuleAction → Nat
  | allowChild => 0
  | allowDescendant => 1
  | closeAncestor => 2
  | closeParent => 3
  | denyChild => 4
  | denyDescendant => 5
  | reopenChild => 6
  | requireAncestor => 7
  | requireParent => 8

def text : RuleAction → String
  | allowChild => "allowChild"
  | allowDescendant => "allowDescendant"
  | closeAncestor => "closeAncestor"
  | closeParent => "closeParent"
  | denyChild => "denyChild"
  | denyDescendant => "denyDescendant"
  | reopenChild => "reopenChild"
  | requireAncestor => "requireAncestor"
  | requireParent => "requireParent"

/-- The action with a given name, which must match to the letter. -/
def ofString? (s : String) : Option RuleAction := all.find? fun action => action.text == s

/-- Read the action of a rule to be declared. -/
def declare (s : String) : Except DeclarationError RuleAction :=
  match ofString? s with
  | some action => .ok action
  | none => .error (.unknownRuleAction s)

/-- What a rule on descendants says about children. -/
def implied? : RuleAction → Option RuleAction
  | allowDescendant => some allowChild
  | denyDescendant => some denyChild
  | _ => none

/-- The actions that decide which tags are allowed inside a tag. -/
def isPermission : RuleAction → Bool
  | allowChild | allowDescendant | denyChild | denyDescendant => true
  | _ => false

theorem mem_all (a : RuleAction) : a ∈ all := by cases a <;> decide

theorem rank_inj {a b : RuleAction} (h : a.rank = b.rank) : a = b := by
  cases a <;> cases b <;> simp_all [rank]

instance : LT RuleAction := ⟨fun a b => a.rank < b.rank⟩

instance : DecidableLT RuleAction := fun a b => inferInstanceAs (Decidable (a.rank < b.rank))

instance : StrictTotal RuleAction where
  irrefl a := Nat.lt_irrefl a.rank
  trans := Nat.lt_trans
  total h hne := Nat.lt_of_le_of_ne (Nat.not_lt.mp h) fun e => hne (rank_inj e).symm

end RuleAction

/-- An action and the tag it is on. -/
structure Rule where
  action : RuleAction
  target : TagName
deriving DecidableEq

/-- A set of rules: for each action that has any, the targets of the action. -/
structure RuleSet where
  groups : Dictionary RuleAction (OrderedSet TagName) := .empty
  increasing : Increasing groups.keys := by exact Increasing.nil
  filled : ∀ targets ∈ groups.values, targets.isEmpty = false := by
    exact fun _ h => absurd h List.not_mem_nil
deriving DecidableEq

namespace RuleSet

def empty : RuleSet := {}

/-- The targets of an action, none if it has no group. -/
def targetSet (s : RuleSet) (action : RuleAction) : OrderedSet TagName :=
  (s.groups.find? action).getD {}

/-- The targets of an action, in order. -/
def targets (s : RuleSet) (action : RuleAction) : List TagName := (s.targetSet action).members

def contains (s : RuleSet) (rule : Rule) : Bool :=
  (s.groups.find? rule.action).any fun targets => targets.contains rule.target

/-- All rules, grouped by action. -/
def toList (s : RuleSet) : List Rule :=
  s.groups.entries.flatMap fun g => g.2.members.map (Rule.mk g.1)

def size (s : RuleSet) : Nat := s.groups.values.foldr (fun targets n => targets.size + n) 0

def isEmpty (s : RuleSet) : Bool := s.groups.isEmpty

/-- The set with other targets of an action, which are some. -/
def withTargets (s : RuleSet) (action : RuleAction) (targets : OrderedSet TagName)
    (h : targets.isEmpty = false) : RuleSet where
  groups := s.groups.insert action targets
  increasing := Dictionary.increasing_keys_insert s.increasing action targets
  filled targets' hmem := by
    rcases Dictionary.eq_or_mem_of_mem_values_insert hmem with rfl | hmem
    · exact h
    · exact s.filled targets' hmem

/-- The set without the rules of an action. -/
def withoutAction (s : RuleSet) (action : RuleAction) : RuleSet where
  groups := s.groups.erase action
  increasing := Dictionary.increasing_keys_erase s.increasing action
  filled targets hmem := s.filled targets (Dictionary.mem_values_of_erase hmem)

/-- Put in one rule, and no rule that it implies, and tell whether it is new. -/
def insertNew (s : RuleSet) (rule : Rule) : Bool × RuleSet :=
  let targets := s.targetSet rule.action
  (!targets.contains rule.target,
    s.withTargets rule.action (targets.insert rule.target) (OrderedSet.isEmpty_insert _ _))

/-- The set with one rule put in, and no rule that it implies. -/
def insert (s : RuleSet) (rule : Rule) : RuleSet := (s.insertNew rule).2

/-- Declare a rule together with the child rule that it implies. -/
def add (s : RuleSet) (rule : Rule) : RuleSet :=
  match rule.action.implied? with
  | some action => (s.insert ⟨action, rule.target⟩).insert rule
  | none => s.insert rule

/-- Declare the rules of a list one after the other. -/
def addAll (s : RuleSet) (rules : List Rule) : RuleSet := rules.foldl add s

/-- Take out one rule, and no rule that it implied, and tell whether it was there.  An
action whose last target is taken out goes with it. -/
def eraseFound (s : RuleSet) (rule : Rule) : Bool × RuleSet :=
  match s.groups.find? rule.action with
  | none => (false, s)
  | some targets =>
    let rest := targets.erase rule.target
    (targets.contains rule.target,
      if h : rest.isEmpty = false then s.withTargets rule.action rest h
      else s.withoutAction rule.action)

/-- The set without one rule.  A rule that it implied stays. -/
def erase (s : RuleSet) (rule : Rule) : RuleSet := (s.eraseFound rule).2

/-- The set without the rules on a target. -/
def eraseTarget (s : RuleSet) (target : TagName) : RuleSet where
  groups := (s.groups.mapValues fun _ targets => targets.erase target).retain
    fun targets => !targets.isEmpty
  increasing := Dictionary.increasing_keys_retain
    (Dictionary.increasing_keys_mapValues s.increasing _) _
  filled targets hmem := by simpa using Dictionary.of_mem_values_retain hmem

end RuleSet
end TagGrammar
