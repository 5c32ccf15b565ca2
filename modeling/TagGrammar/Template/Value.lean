/-
What the nodes of a template are.

A template is XML in which the elements of one namespace are instructions.  Those
with a meaning for the checks have a constructor of their own; the others are
kept as `instruction` with their attributes.  `expressionSites` lists where a
value holds an expression and how it is written there.
-/
import TagGrammar.Template.Element

namespace TagGrammar

/-- The value of a node. -/
inductive Value where
  /-- Holds the content of the template. -/
  | root
  /-- A literal element. -/
  | element (element : Element)
  /-- An instruction that makes an element.  Name and namespace are value templates. -/
  | dynamicElement (name : String) (namespaceName useAttributeSets : Option String)
  /-- An instruction that makes an attribute of the element around it. -/
  | attributeConstructor (name : String) (namespaceName : Option String)
  /-- Text, or the text instruction if verbatim, whose content is never changed. -/
  | text (text : String) (unescaped verbatim : Bool)
  /-- An instruction that inserts the string value of an expression. -/
  | valueOf (select : String) (unescaped : Bool)
  /-- An instruction that inserts a copy of the nodes an expression selects. -/
  | copyOf (select : String)
  /-- An instruction that copies the current node without its content. -/
  | copy
  /-- Content under a condition. -/
  | onlyIf (test : String)
  /-- A choice among branches. -/
  | choose
  /-- A branch of a choice. -/
  | when (test : String)
  /-- The branch of a choice that is left. -/
  | otherwise
  /-- Content repeated for every node an expression selects. -/
  | forEach (select : String)
  /-- The place where the content of the tag goes. -/
  | applyTemplates (select : Option String)
  /-- A literal processing instruction. -/
  | processingInstruction (target : String) (data : Option String)
  /-- An instruction that makes a processing instruction.  The name is a value template. -/
  | processingInstructionConstructor (name : String)
  /-- A literal comment with its text, or the comment instruction. -/
  | comment (text : String) (literal : Bool)
  /-- Any other instruction, by its local name. -/
  | instruction (name : String) (attributes : List (String × String))
deriving DecidableEq

/-- How an expression is written. -/
inductive ExpressionKind where
  /-- The whole attribute is an expression. -/
  | expression
  /-- The attribute is text with expressions in braces. -/
  | valueTemplate
deriving DecidableEq

/-- A place where a value holds an expression. -/
structure ExpressionSite where
  kind : ExpressionKind
  /-- The attribute that holds the expression. -/
  holder : String
  source : String
deriving DecidableEq

namespace Value

/-- New text, escaped and open to rewriting. -/
def plainText (s : String) : Value := .text s false false

/-- An escaped insertion of a string value. -/
def insertion (select : String) : Value := .valueOf select false

/-- A node written as an instruction. -/
def isInstruction : Value → Bool
  | root | element _ | processingInstruction _ _ => false
  | comment _ literal => !literal
  | text _ _ verbatim => verbatim
  | _ => true

/-- The literal element, if the value is one. -/
def asElement? : Value → Option Element
  | element e => some e
  | _ => none

/-- The name of a literal HTML element in small letters. -/
def htmlName? (v : Value) : Option String := v.asElement?.bind Element.htmlName?

/-- The attributes of an unspecified instruction that hold whole expressions. -/
def expressionAttributes : List String := ["select", "test", "value", "use", "count", "from"]

def nameSites (name : String) (namespaceName : Option String) : List ExpressionSite :=
  ⟨.valueTemplate, "name", name⟩ ::
    (namespaceName.map fun uri => ⟨.valueTemplate, "namespace", uri⟩).toList

/-- Every place where the value holds an expression, in source order. -/
def expressionSites : Value → List ExpressionSite
  | element e => e.attributes.map fun a => ⟨.valueTemplate, a.1, a.2⟩
  | dynamicElement name namespaceName _ => nameSites name namespaceName
  | attributeConstructor name namespaceName => nameSites name namespaceName
  | valueOf select _ => [⟨.expression, "select", select⟩]
  | copyOf select | forEach select => [⟨.expression, "select", select⟩]
  | onlyIf test | when test => [⟨.expression, "test", test⟩]
  | applyTemplates (some select) => [⟨.expression, "select", select⟩]
  | processingInstructionConstructor name => [⟨.valueTemplate, "name", name⟩]
  | instruction _ attributes => attributes.map fun a =>
    ⟨if expressionAttributes.contains a.1 then .expression else .valueTemplate, a.1, a.2⟩
  | _ => []

end Value
end TagGrammar
