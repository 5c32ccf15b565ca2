/-
Reading and writing serialized rules and options.

Decoding is strict in shapes and lenient in extras: a field of the wrong kind or
out of range is refused, a member that no field has is ignored.  A structure may
also be a list of its fields in order.  Options may leave fields out, which then
take their defaults; the fields of a compiled tag and of a bitfield are all
required.  The padding of a bitfield is cleared and a rule table is checked, and
each of these refusals has a cause of its own.
-/
import TagGrammar.RuleTable
import TagGrammar.Safety.ScriptAccess
import TagGrammar.Serialized.Datum

namespace TagGrammar

/-- Why data are refused. -/
inductive DecodeError where
  /-- The data have not the shape of what they are read as. -/
  | shape
  /-- A bitfield with too many or too few words for its width. -/
  | wordCount (width found : Nat)
  /-- Compiled tags that do not make a table. -/
  | table (cause : RuleTable.Inconsistency)
deriving DecidableEq

/-- The wording of a refusal.  A wrong shape is not described further. -/
def DecodeError.message? : DecodeError → Option String
  | shape => none
  | wordCount width found =>
    some s!"a bitfield of {width} bits needs {Bitfield.wordCount width} words, got {found}"
  | table cause => some cause.message

namespace Datum

abbrev Decoder (α : Type) := Datum → Except DecodeError α

def decodeBool : Decoder Bool
  | .bool b => .ok b
  | _ => .error .shape

def decodeText : Decoder String
  | .text s => .ok s
  | _ => .error .shape

/-- An integer from zero up to a limit, the limit excluded. -/
def decodeBelow (limit : Nat) : Decoder Nat
  | .integer (.ofNat n) => if n < limit then .ok n else .error .shape
  | _ => .error .shape

/-- A count of things in memory. -/
def decodeCount : Decoder Nat := decodeBelow (1 <<< 64)

/-- The limit of a tag. -/
def decodeLimit : Decoder Nat := decodeBelow (1 <<< 32)

def decodeWord : Decoder Word := fun d => (decodeBelow (1 <<< 64) d).map (BitVec.ofNat 64)

def decodeAll {α : Type} (item : Decoder α) : List Datum → Except DecodeError (List α)
  | [] => .ok []
  | d :: rest => do
    let a ← item d
    let as ← decodeAll item rest
    .ok (a :: as)

def decodeList {α : Type} (item : Decoder α) : Decoder (List α)
  | .list items => decodeAll item items
  | _ => .error .shape

def decodeOptional {α : Type} (item : Decoder α) : Decoder (Option α)
  | .null => .ok none
  | d => (item d).map some

/-- A constructor without fields: its name, or a record with that name alone and
nothing under it. -/
def decodeChoice {α : Type} (ofName? : String → Option α) : Decoder α
  | .text s => match ofName? s with
    | some a => .ok a
    | none => .error .shape
  | .record [(s, .null)] => match ofName? s with
    | some a => .ok a
    | none => .error .shape
  | _ => .error .shape

/-- The data of the fields of a structure.  A record gives them by name, a list by
place. -/
def fields? (names : List String) : Datum → Option (List (Option Datum))
  | .record members => some (names.map fun name => member? name members)
  | .list items => some ((List.range names.length).map fun i => items[i]?)
  | _ => none

/-- Refuse a list that is longer than the fields of a structure are. -/
def noMoreThan (names : List String) : Datum → Except DecodeError Unit
  | .list items => if items.length ≤ names.length then .ok () else .error .shape
  | _ => .ok ()

/-- A field that must be there. -/
def required {α : Type} (item : Decoder α) : Option Datum → Except DecodeError α
  | some d => item d
  | none => .error .shape

/-- A field that takes a default if it is left out. -/
def defaulting {α : Type} (value : α) (item : Decoder α) : Option Datum → Except DecodeError α
  | some d => item d
  | none => .ok value

def decodePolicy : Decoder Policy := decodeChoice fun s => [.allow, .deny].find? (·.text == s)

def decodeAction : Decoder RuleAction := decodeChoice RuleAction.ofString?

/-- A setting for script access, whose name must match to the letter. -/
def decodeScriptAccess : Decoder ScriptAccess :=
  decodeChoice fun s => [.never, .sameDomain, .always].find? (·.text == s)

/-- The name of a tag, which may be any text. -/
def decodeTagName : Decoder TagName := fun d => (decodeText d).map TagName.mk

/-- The name of an attribute, which may be any text. -/
def decodeAttributeName : Decoder AttributeName := fun d => (decodeText d).map AttributeName.mk

def tagOptionsFields : List String :=
  ["default_child_rule", "default_descendant_rule", "disallow_as_root", "disabled",
   "nesting_limit", "tag_limit", "transparent"]

def decodeTagOptions : Decoder TagOptions := fun d =>
  let base : TagOptions := {}
  match fields? tagOptionsFields d with
  | some [child, descendant, root, off, nesting, tags, clear] => do
    let defaultChildRule ← defaulting base.defaultChildRule decodePolicy child
    let defaultDescendantRule ← defaulting base.defaultDescendantRule decodePolicy descendant
    let disallowAsRoot ← defaulting base.disallowAsRoot decodeBool root
    let disabled ← defaulting base.disabled decodeBool off
    let nestingLimit ← defaulting base.nestingLimit decodeLimit nesting
    let tagLimit ← defaulting base.tagLimit decodeLimit tags
    let transparent ← defaulting base.transparent decodeBool clear
    noMoreThan tagOptionsFields d
    .ok { defaultChildRule, defaultDescendantRule, disallowAsRoot, disabled, nestingLimit,
          tagLimit, transparent }
  | _ => .error .shape

def checkOptionsFields : List String := ["max_script_access", "fixed_url_exemption"]

def decodeCheckOptions : Decoder CheckOptions := fun d =>
  let base : CheckOptions := {}
  match fields? checkOptionsFields d with
  | some [most, exemption] => do
    let maxScriptAccess ←
      defaulting base.maxScriptAccess (decodeOptional decodeScriptAccess) most
    let fixedUrlExemption ← defaulting base.fixedUrlExemption decodeScriptAccess exemption
    noMoreThan checkOptionsFields d
    .ok { maxScriptAccess, fixedUrlExemption }
  | _ => .error .shape

def bitfieldFields : List String := ["len", "words"]

/-- A bitfield.  Its words must be as many as its width takes, and padding that is
set in them is cleared. -/
def decodeBitfield : Decoder Bitfield := fun d =>
  match fields? bitfieldFields d with
  | some [len, words] => do
    let width ← required decodeCount len
    let words ← required (decodeList decodeWord) words
    noMoreThan bitfieldFields d
    match Bitfield.ofWords? width words with
    | some b => .ok b
    | none => .error (.wordCount width words.length)
  | _ => .error .shape

def compiledTagFields : List String :=
  ["name", "ordinal", "allowed_children", "allowed_descendants", "disallow_as_root",
   "nesting_limit", "tag_limit", "close_ancestor", "close_parent", "reopen_child",
   "require_ancestor", "require_parent"]

/-- The members of a record are read in the order of their names, so that a faulty
bitfield is found before any other fault of a compiled tag. -/
def bitfieldsFirst (children descendants : Option Datum) : Decoder Unit
  | .record _ => do
    let _ ← (children.toList ++ descendants.toList).mapM decodeBitfield
    .ok ()
  | _ => .ok ()

/-- A compiled tag, all of whose fields must be there. -/
def decodeCompiledTag : Decoder CompiledTag := fun d =>
  let targets := required (decodeList decodeTagName)
  match fields? compiledTagFields d with
  | some [name, ordinal, children, descendants, root, nesting, tags, ancestor, parent, child,
      needAncestor, needParent] => do
    bitfieldsFirst children descendants d
    let name ← required decodeTagName name
    let ordinal ← required decodeCount ordinal
    let allowedChildren ← required decodeBitfield children
    let allowedDescendants ← required decodeBitfield descendants
    let disallowAsRoot ← required decodeBool root
    let nestingLimit ← required decodeLimit nesting
    let tagLimit ← required decodeLimit tags
    let closeAncestor ← targets ancestor
    let closeParent ← targets parent
    let reopenChild ← targets child
    let requireAncestor ← targets needAncestor
    let requireParent ← targets needParent
    noMoreThan compiledTagFields d
    .ok { name, ordinal, allowedChildren, allowedDescendants, disallowAsRoot, nestingLimit,
          tagLimit, closeAncestor, closeParent, reopenChild, requireAncestor, requireParent }
  | _ => .error .shape

/-- A rule table: the list of its compiled tags, in any order. -/
def decodeRuleTable : Decoder RuleTable := fun d => do
  let tags ← decodeList decodeCompiledTag d
  match RuleTable.ofEntries tags with
  | .ok t => .ok t
  | .error cause => .error (.table cause)

end Datum
end TagGrammar
