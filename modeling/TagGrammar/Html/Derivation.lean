/-
Rules derived from the content model.

The outlines of all templates are compared pairwise.  A tag denies descendants that
use a category forbidden at one of its substitution points, denies children that are
not accepted at one of them, and ends a parent whose last element its own first element
ends.  Of conflicting rules on one target the strongest stays: a denial of descendants,
then a denial of children, then a permission.
-/
import TagGrammar.Dictionary
import TagGrammar.Html.Outline
import TagGrammar.Rule

namespace TagGrammar

namespace RuleSet

/-- The set without the rules of an action on targets that a stronger action has too. -/
def yieldTo (s : RuleSet) (stronger weaker : RuleAction) : RuleSet :=
  (s.targets stronger).foldl (fun s target => s.erase ⟨weaker, target⟩) s

/-- Keep for each target the strongest of its rules on what is allowed. -/
def resolveConflicts (s : RuleSet) : RuleSet :=
  ((s.yieldTo .denyDescendant .denyChild).yieldTo .denyDescendant .allowChild).yieldTo
    .denyChild .allowChild

/-- The set of the rules of a list. -/
def ofList (rules : List Rule) : RuleSet := rules.foldl insert empty

end RuleSet

namespace Html

/-- What is derived for a tag. -/
structure DerivedOptions where
  rules : RuleSet := .empty
  /-- The root element does not accept the tag as a child. -/
  disallowAsRoot : Bool := false
  /-- The root element does not accept the tag as a descendant. -/
  disabled : Bool := false
  transparent : Bool := false
deriving DecidableEq

/-- A tag with the outline of its template. -/
abbrev OutlinedTag := TagName × Outline

/-- The parents that the start of a tag ends. -/
def closeRules (o : Outline) (targets : List OutlinedTag) : List Rule :=
  o.firstChildren.flatMap fun first =>
    match element? first.1 with
    | none => []
    | some m => targets.flatMap fun t =>
      (t.2.lastChildren.filter m.closes.contains).map fun _ => ⟨.closeParent, t.1⟩

/-- What a tag says about children: one rule for each pair of a substitution point and
a first child, and denials alone if there is no substitution point. -/
def childRules (o : Outline) (targets : List OutlinedTag) : List Rule :=
  (if o.allowedChildren.isEmpty then targets.map fun t => ⟨.denyChild, t.1⟩ else []) ++
    o.allowedChildren.flatMap fun allowed => targets.flatMap fun t =>
      t.2.firstChildren.map fun first =>
        ⟨if allowed &&& first.2 ≠ 0 then .allowChild else .denyChild, t.1⟩

/-- What a tag says about descendants. -/
def descendantRules (o : Outline) (targets : List OutlinedTag) : List Rule :=
  (targets.filter fun t => o.deniedDescendants &&& t.2.usedCategories ≠ 0).map
    fun t => ⟨.denyDescendant, t.1⟩

/-- All rules of a tag on some targets, conflicting ones included. -/
def allRules (o : Outline) (targets : List OutlinedTag) : List Rule :=
  closeRules o targets ++ childRules o targets ++ descendantRules o targets

/-- The options of the tags of a list.  What the root element refuses is recorded for
the first tag of a name. -/
def optionsOf (targets : List OutlinedTag) (rootRules : List Rule) :
    List TagName → List OutlinedTag → List (TagName × DerivedOptions)
  | _, [] => []
  | seen, (name, o) :: rest =>
    let refused := fun action => !seen.contains name && rootRules.contains ⟨action, name⟩
    (name,
      { rules := (RuleSet.ofList (allRules o targets)).resolveConflicts
        disallowAsRoot := refused .denyChild
        disabled := refused .denyDescendant
        transparent := o.transparent })
      :: optionsOf targets rootRules (name :: seen) rest

/-- The template of an element around its content. -/
def rootTemplate (name : String) : Node :=
  { value := .root
    children := [{ value := .element { name }, children := [{ value := .applyTemplates none }] }] }

/-- The outline of the root element, which must be in the content model. -/
def rootOutline : Option String → Except DeclarationError (Option Outline)
  | none => .ok none
  | some name =>
    match element? name with
    | none => .error (.unknownHtmlElement name)
    | some _ => .ok (some (.of (rootTemplate name)))

/-- Derive the options of some tags from their templates.  A tag without a template is
its content alone; of several tags of one name the last one counts. -/
def derive (root : Option String) (tags : List (TagName × Option Node)) :
    Except DeclarationError (Dictionary TagName DerivedOptions) := do
  let root ← rootOutline root
  let outlined := tags.map fun t => (t.1, Outline.of (t.2.getD Node.contentOnly))
  let rootRules := match root with
    | some o => allRules o outlined
    | none => []
  .ok (Dictionary.ofList (optionsOf outlined rootRules [] outlined))

end Html
end TagGrammar
