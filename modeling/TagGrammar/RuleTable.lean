/-
The compiled rule table.

The enabled tags are sorted by name and numbered.  Each entry of the table holds
two bitfields over these numbers, the tags allowed as children and those allowed
as descendants, and the rules that the reader of a document applies itself.  In
the bitfields a denial wins over a permission, a permission over the default
policy, and no tag is allowed as a child that is not allowed as a descendant.
-/
import TagGrammar.Bitfield
import TagGrammar.Tag

namespace TagGrammar

/-- The compiled rules of one enabled tag. -/
structure CompiledTag where
  name : TagName
  ordinal : Nat
  allowedChildren : Bitfield
  allowedDescendants : Bitfield
  disallowAsRoot : Bool
  nestingLimit : Nat
  tagLimit : Nat
  closeAncestor : List TagName
  closeParent : List TagName
  reopenChild : List TagName
  /-- As declared, whether or not the targets are enabled. -/
  requireAncestor : List TagName
  /-- As declared, whether or not the targets are enabled. -/
  requireParent : List TagName
deriving DecidableEq

/-- The compiled tags in the order of their ordinals. -/
structure RuleTable where
  tags : List CompiledTag := []
deriving DecidableEq

namespace RuleTable

def size (t : RuleTable) : Nat := t.tags.length

def isEmpty (t : RuleTable) : Bool := t.tags.isEmpty

/-- The place of a name in a list of names. -/
def indexOf? (names : List TagName) (name : TagName) : Option Nat := names.findIdx? (· == name)

/-- The names of the tags in the order of their ordinals. -/
def names (t : RuleTable) : List TagName := t.tags.map CompiledTag.name

/-- The ordinal of a tag, under its name as written or else in capitals. -/
def ordinal? (t : RuleTable) (name : String) : Option Nat :=
  match indexOf? t.names ⟨name⟩ with
  | some i => some i
  | none => indexOf? t.names ⟨Text.upper name⟩

/-- The compiled tag with a given ordinal. -/
def byOrdinal? (t : RuleTable) (ordinal : Nat) : Option CompiledTag := t.tags[ordinal]?

/-- The compiled tag of a name. -/
def find? (t : RuleTable) (name : String) : Option CompiledTag :=
  (t.ordinal? name).bind t.byOrdinal?

/-- The name of the tag with a given ordinal. -/
def name? (t : RuleTable) (ordinal : Nat) : Option TagName :=
  (t.byOrdinal? ordinal).map CompiledTag.name

/-- Whether a tag may be a child of another.  Tags outside the table allow nothing
and are allowed nowhere. -/
def allowsChild (t : RuleTable) (parent child : String) : Bool :=
  match t.find? parent, t.ordinal? child with
  | some p, some c => p.allowedChildren.get c
  | _, _ => false

/-- Whether a tag may be a descendant of another. -/
def allowsDescendant (t : RuleTable) (ancestor descendant : String) : Bool :=
  match t.find? ancestor, t.ordinal? descendant with
  | some a, some d => a.allowedDescendants.get d
  | _, _ => false

/-! ## Compilation -/

/-- The enabled tags in the order of their names, the last one of each name. -/
def enabledTags (tags : List Tag) : List Tag :=
  (Dictionary.ofList ((tags.filter fun t => !t.options.disabled).map fun t => (t.name, t))).values

/-- The bitfield that holds for the tags no rule names. -/
def initialBits (width : Nat) : Policy → Bitfield
  | .allow => .filled width
  | .deny => .new width

/-- Give the bits at some indexes one value. -/
def setAll (b : Bitfield) (indexes : List Nat) (value : Bool) : Bitfield :=
  indexes.foldl (fun b i => b.set i value) b

/-- The ordinals of the enabled targets of an action. -/
def targetOrdinals (names : List TagName) (tag : Tag) (action : RuleAction) : List Nat :=
  (tag.rules.targets action).filterMap (indexOf? names)

/-- The descendants a tag allows: permissions first, so that denials win. -/
def descendantBits (names : List TagName) (tag : Tag) : Bitfield :=
  let on := targetOrdinals names tag
  let bits := initialBits names.length tag.options.defaultDescendantRule
  setAll (setAll bits (on .allowDescendant) true) (on .denyDescendant) false

/-- The children a tag allows, which it must also allow as descendants. -/
def childBits (names : List TagName) (tag : Tag) : Bitfield :=
  let on := targetOrdinals names tag
  let bits := initialBits names.length tag.options.defaultChildRule
  let bits := setAll (setAll bits (on .allowChild) true) (on .denyChild) false
  (setAll bits (on .denyDescendant) false).intersect (descendantBits names tag)

/-- The enabled targets of an action by name. -/
def enabledTargets (names : List TagName) (tag : Tag) (action : RuleAction) : List TagName :=
  (tag.rules.targets action).filter names.contains

def compileTag (names : List TagName) (ordinal : Nat) (tag : Tag) : CompiledTag where
  name := tag.name
  ordinal := ordinal
  allowedChildren := childBits names tag
  allowedDescendants := descendantBits names tag
  disallowAsRoot := tag.options.disallowAsRoot
  nestingLimit := tag.options.nestingLimit
  tagLimit := tag.options.tagLimit
  closeAncestor := enabledTargets names tag .closeAncestor
  closeParent := enabledTargets names tag .closeParent
  reopenChild := enabledTargets names tag .reopenChild
  requireAncestor := tag.rules.targets .requireAncestor
  requireParent := tag.rules.targets .requireParent

/-- The rule table of some tags. -/
def compile (tags : List Tag) : RuleTable :=
  let enabled := enabledTags tags
  ⟨enabled.mapIdx (compileTag (enabled.map Tag.name))⟩

/-! ## Rebuilding -/

/-- Why a list of compiled tags is not a table. -/
inductive Inconsistency where
  | wrongOrdinal (tag : TagName) (found expected : Nat)
  | repeatedName (tag : TagName)
  | wrongWidth (tag : TagName) (expected : Nat)
deriving DecidableEq

def Inconsistency.message : Inconsistency → String
  | wrongOrdinal tag found expected =>
    s!"Invalid rule table: tag '{tag.text}' has ordinal {found}, expected {expected}"
  | repeatedName tag => s!"Invalid rule table: tag '{tag.text}' appears more than once"
  | wrongWidth tag expected =>
    s!"Invalid rule table: bitfields of tag '{tag.text}' are not {expected} bits wide"

/-- Look at the tags in the order of their ordinals for the first that does not fit
into a table of a given width after the tags with the given names. -/
def checkEntries (width : Nat) : List TagName → List CompiledTag → Except Inconsistency Unit
  | _, [] => .ok ()
  | seen, tag :: rest =>
    if tag.ordinal ≠ seen.length then .error (.wrongOrdinal tag.name tag.ordinal seen.length)
    else if seen.contains tag.name then .error (.repeatedName tag.name)
    else if tag.allowedChildren.width ≠ width || tag.allowedDescendants.width ≠ width then
      .error (.wrongWidth tag.name width)
    else checkEntries width (seen ++ [tag.name]) rest

/-- The table that some compiled tags make, in whatever order they come.  The
ordinals must number them from zero, the names must differ and every bitfield must
have one bit for each tag. -/
def ofEntries (tags : List CompiledTag) : Except Inconsistency RuleTable :=
  let sorted := tags.mergeSort fun a b => a.ordinal ≤ b.ordinal
  (checkEntries tags.length [] sorted).map fun _ => ⟨sorted⟩

end RuleTable
end TagGrammar
