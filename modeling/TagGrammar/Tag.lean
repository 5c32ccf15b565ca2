/-
Tags.

A tag is declared with its options, its rules on other tags, its attributes and
the template it renders as.  An attribute has a type; every type but plain text
comes with a built-in filter that the chain of the attribute starts with.
-/
import TagGrammar.Dictionary
import TagGrammar.Rule
import TagGrammar.Template.Node

namespace TagGrammar

/-- What holds for the tags that no rule names. -/
inductive Policy where
  | allow
  | deny
deriving DecidableEq

def Policy.text : Policy → String
  | allow => "allow"
  | deny => "deny"

/-- The options of a tag. -/
structure TagOptions where
  /-- Whether the tags that no rule on children names may be children. -/
  defaultChildRule : Policy := .allow
  /-- Whether the tags that no rule on descendants names may be descendants. -/
  defaultDescendantRule : Policy := .allow
  disallowAsRoot : Bool := false
  /-- A disabled tag is left out of the rule table. -/
  disabled : Bool := false
  nestingLimit : Nat := 10
  tagLimit : Nat := 100
  /-- The tag renders as an element whose content model is that of its parent. -/
  transparent : Bool := false
deriving DecidableEq

/-- The type of an attribute. -/
inductive AttributeType where
  | text
  | alnum
  | color
  | email
  | float
  | identifier
  | int
  | ip
  | number
  | range
  | simpletext
  | uint
  | url
deriving DecidableEq

/-- The built-in filter of a type. -/
def AttributeType.filter? : AttributeType → Option String
  | text => none
  | alnum => some "#alnum"
  | color => some "#color"
  | email => some "#email"
  | float => some "#float"
  | identifier => some "#identifier"
  | int => some "#int"
  | ip => some "#ip"
  | number => some "#number"
  | range => some "#range"
  | simpletext => some "#simpletext"
  | uint => some "#uint"
  | url => some "#url"

/-- An attribute of a tag. -/
structure TagAttribute where
  name : AttributeName
  type : AttributeType
  required : Bool := true
  defaultValue : Option String := none
  /-- The filters a value passes through, in order. -/
  filterChain : List String := type.filter?.toList
deriving DecidableEq

/-- A tag with all that is declared for it. -/
structure Tag where
  name : TagName
  options : TagOptions := {}
  rules : RuleSet := .empty
  attributes : Dictionary AttributeName TagAttribute := .empty
  template : Option Node := none

namespace Tag

/-- A tag of a given name with nothing declared for it yet. -/
def declare (name : String) : Except DeclarationError Tag :=
  (TagName.declare name).map fun name => { name }

/-- Declare an attribute, whose chain starts with the filter of its type. -/
def addAttribute (t : Tag) (name : String) (type : AttributeType) :
    Except DeclarationError (TagAttribute × Tag) := do
  let name ← AttributeName.declare name
  if t.attributes.contains name then .error (.attributeExists t.name name)
  else
    let attr : TagAttribute := { name, type }
    .ok (attr, { t with attributes := t.attributes.insert name attr })

/-- Take back the declaration of an attribute. -/
def removeAttribute (t : Tag) (name : String) : Except DeclarationError (TagAttribute × Tag) := do
  let name ← AttributeName.declare name
  match t.attributes.find? name with
  | some attr => .ok (attr, { t with attributes := t.attributes.erase name })
  | none => .error (.unknownAttribute t.name name)

/-- The attribute of a name as written, or else in small letters. -/
def findAttribute? (t : Tag) (name : String) : Option TagAttribute :=
  match t.attributes.find? ⟨name⟩ with
  | some attr => some attr
  | none => t.attributes.find? ⟨Text.lower name⟩

/-- Change the attribute of a name in any case, and give its new form. -/
def updateAttribute? (t : Tag) (name : String) (f : TagAttribute → TagAttribute) :
    Option (TagAttribute × Tag) :=
  let key : AttributeName := ⟨Text.lower name⟩
  (t.attributes.find? key).map fun attr =>
    (f attr, { t with attributes := t.attributes.modify key f })

end Tag
end TagGrammar
