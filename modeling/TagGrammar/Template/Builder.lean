/-
Building a template from markup.

The builder reads tokens one by one and keeps the elements that are open, innermost
first, each with the content read so far.  Prefixes are resolved against the
declarations of the element itself and then of those around it, so a declaration has
no effect outside its element.  An element of the instruction namespace becomes the
instruction of its local name, whatever prefix it was written with.  Text next to
text is joined, and text of blanks alone is dropped unless it is to be kept or stands
in a text instruction.
-/
import TagGrammar.Markup.Entity
import TagGrammar.Markup.Token
import TagGrammar.Template.Node
import TagGrammar.Text.Blank

namespace TagGrammar

open Markup (QName Token)

/-- Why a source is not a template. -/
inductive ParseError where
  | markup (fault : Markup.XmlError Markup.Position)
  | invalidCloseTag (expected found : QName)
  | unexpectedCloseTag (found : QName)
  | unclosedElement (element : QName)
  | unknownPrefix (name : String)
  | badReference (cause : Markup.ReferenceError)
  | missingAttribute (element name : String)
  /-- The bytes of the source are not text in the encoding of the given name. -/
  | undecodable (encoding : String)
deriving DecidableEq

/-- The wording of each cause. -/
def ParseError.message : ParseError → String
  | markup fault => s!"Invalid XML: {fault.message}"
  | invalidCloseTag expected found =>
    s!"Invalid close tag '{found.text}', expected '{expected.text}'"
  | unexpectedCloseTag found => s!"Unexpected close tag '{found.text}'"
  | unclosedElement element => s!"Premature end of data in tag '{element.text}'"
  | unknownPrefix name => s!"Unknown namespace prefix '{name}'"
  | badReference (.unclosed rest) => s!"Unclosed entity '&{rest}'"
  | badReference (.unknown name) => s!"Invalid entity '&{name};'"
  | missingAttribute element name => s!"Missing attribute '{name}' on 'xsl:{element}'"
  | undecodable encoding => s!"Cannot decode template as {encoding}"

namespace Builder

/-- The namespace of the prefix that is declared everywhere. -/
def xmlNamespace : String := "http://www.w3.org/XML/1998/namespace"

/-- Declared prefixes with the namespaces they stand for, nearest declaration first.
An empty namespace means none. -/
abbrev Declarations := List (String × String)

/-- The namespace of a prefix.  Without a declaration the empty prefix has none. -/
def namespaceOf (declarations : Declarations) (lead : String) :
    Except ParseError (Option String) :=
  match declarations.find? fun d => d.1 == lead with
  | some (_, uri) => .ok (if uri.isEmpty then none else some uri)
  | none =>
    if lead.isEmpty then .ok none
    else if lead == "xsl" then .ok (some xslNamespace)
    else if lead == "xml" then .ok (some xmlNamespace)
    else .error (.unknownPrefix lead)

/-- An attribute of a start tag, its references resolved. -/
structure TagAttr where
  name : QName
  value : String
deriving DecidableEq

/-- A start tag whose attributes are being read. -/
structure StartTag where
  name : QName
  attributes : List TagAttr := []
  /-- The declarations of the tag, the last one first. -/
  declarations : Declarations := []
deriving DecidableEq

/-- An open element with its content so far, the last child first. -/
structure Frame where
  name : QName
  value : Value
  unescaped : Bool
  declarations : Declarations
  children : List Node := []

/-- What has been built: the open elements, innermost first, and the content of the
root, the last child first. -/
structure State where
  frames : List Frame := []
  content : List Node := []
  pending : Option StartTag := none

/-- All declarations in scope inside the open elements, nearest first. -/
def scopeOf (frames : List Frame) : Declarations := frames.flatMap Frame.declarations

/-! ## Start tags -/

/-- The first attribute with a given name and no prefix. -/
def plainAttr? (attributes : List TagAttr) (name : String) : Option String :=
  (attributes.find? fun a => a.name.lead.isEmpty && a.name.name == name).map TagAttr.value

/-- An attribute that an instruction must have. -/
def requiredAttr (tag : StartTag) (name : String) : Except ParseError String :=
  match plainAttr? tag.attributes name with
  | some value => .ok value
  | none => .error (.missingAttribute tag.name.name name)

/-- The request not to escape output, whatever its value. -/
def escapingAttribute : String := "disable-output-escaping"

/-- The value of an instruction. -/
def instructionValue (tag : StartTag) : Except ParseError Value :=
  let optional := plainAttr? tag.attributes
  let raw := (optional escapingAttribute).isSome
  match tag.name.name with
  | "element" => (requiredAttr tag "name").map fun name =>
      .dynamicElement name (optional "namespace") (optional "use-attribute-sets")
  | "attribute" => (requiredAttr tag "name").map fun name =>
      .attributeConstructor name (optional "namespace")
  | "text" => .ok (.text "" raw true)
  | "value-of" => (requiredAttr tag "select").map fun select => .valueOf select raw
  | "copy-of" => (requiredAttr tag "select").map .copyOf
  | "copy" => .ok .copy
  | "if" => (requiredAttr tag "test").map .onlyIf
  | "choose" => .ok .choose
  | "when" => (requiredAttr tag "test").map .when
  | "otherwise" => .ok .otherwise
  | "for-each" => (requiredAttr tag "select").map .forEach
  | "apply-templates" => .ok (.applyTemplates (optional "select"))
  | "processing-instruction" => (requiredAttr tag "name").map .processingInstructionConstructor
  | "comment" => .ok (.comment "" false)
  | name => .ok (.instruction name (tag.attributes.map fun a => (a.name.text, a.value)))

/-- The attributes of a literal element under the names they are kept with.  The
prefix of the instruction namespace is written in one way, all others as found. -/
def literalAttributes (scope : Declarations) :
    List TagAttr → Except ParseError (List (String × String))
  | [] => .ok []
  | a :: rest => do
    let name ←
      if a.name.lead.isEmpty then .ok a.name.name
      else (namespaceOf scope a.name.lead).map fun uri =>
        if uri == some xslNamespace then "xsl:" ++ a.name.name else a.name.text
    let rest ← literalAttributes scope rest
    .ok ((name, a.value) :: rest)

/-- The frame that a start tag opens inside some declarations. -/
def frameOf (outer : Declarations) (tag : StartTag) : Except ParseError Frame := do
  let scope := tag.declarations ++ outer
  let uri ← namespaceOf scope tag.name.lead
  if uri == some xslNamespace then
    let value ← instructionValue tag
    let unescaped := (plainAttr? tag.attributes escapingAttribute).isSome
    .ok { name := tag.name, value, unescaped, declarations := tag.declarations }
  else
    let attributes ← literalAttributes scope tag.attributes
    let value : Value := .element { name := tag.name.name, namespaceName := uri, attributes }
    .ok { name := tag.name, value, unescaped := false, declarations := tag.declarations }

/-- A start tag with one more attribute, which may be a declaration. -/
def StartTag.withAttr (tag : StartTag) (name : QName) (value : String) : StartTag :=
  if name.lead.isEmpty && name.name == "xmlns" then
    { tag with declarations := ("", value) :: tag.declarations }
  else if name.lead == "xmlns" then
    { tag with declarations := (name.name, value) :: tag.declarations }
  else { tag with attributes := tag.attributes ++ [⟨name, value⟩] }

/-! ## Content -/

/-- The node of an element that is closed. -/
def Frame.node (f : Frame) : Node := ⟨f.value, f.unescaped, f.children.reverse⟩

/-- Add a node to the content of the innermost open element. -/
def addNode (n : Node) (s : State) : State :=
  match s.frames with
  | [] => { s with content := n :: s.content }
  | f :: rest => { s with frames := { f with children := n :: f.children } :: rest }

/-- A text of blanks alone. -/
def isBlankText (text : String) : Bool := text.toList.all Text.isBlank

/-- Content, the last child first, with text put after it.  It is joined to text that
is there, but not to a text instruction. -/
def withText (text : String) : List Node → List Node
  | ⟨.text t raw false, unescaped, children⟩ :: rest =>
    ⟨.text (t ++ text) raw false, unescaped, children⟩ :: rest
  | nodes => { value := .plainText text } :: nodes

/-- Add text to the content of the innermost open element.  Inside a text instruction
it belongs to the instruction. -/
def addText (keepBlanks : Bool) (text : String) (s : State) : State :=
  match s.frames with
  | [] =>
    if !keepBlanks && isBlankText text then s
    else { s with content := withText text s.content }
  | f :: rest =>
    match f.value with
    | .text t raw verbatim =>
      { s with frames := { f with value := .text (t ++ text) raw verbatim } :: rest }
    | _ =>
      if !keepBlanks && isBlankText text then s
      else { s with frames := { f with children := withText text f.children } :: rest }

/-- The start tag that is being read ends. -/
def endStartTag (isEmpty : Bool) (s : State) : Except ParseError State :=
  match s.pending with
  | none => .ok s
  | some tag => do
    let f ← frameOf (scopeOf s.frames) tag
    let s := { s with pending := none }
    .ok (if isEmpty then addNode f.node s else { s with frames := f :: s.frames })

/-- A close tag ends the innermost open element, whose name it must repeat. -/
def closeElement (found : QName) (s : State) : Except ParseError State :=
  match s.frames with
  | [] => .error (.unexpectedCloseTag found)
  | f :: rest =>
    if f.name = found then .ok (addNode f.node { s with frames := rest })
    else .error (.invalidCloseTag f.name found)

def resolved (text : String) : Except ParseError String :=
  (Markup.resolveReferences text).mapError .badReference

/-- Take in one token. -/
def step (keepBlanks : Bool) (s : State) : Token → Except ParseError State
  | .elementStart name => .ok { s with pending := some { name } }
  | .attr name value => (resolved value).map fun value =>
      { s with pending := s.pending.map fun tag => tag.withAttr name value }
  | .openEnd => endStartTag false s
  | .emptyEnd => endStartTag true s
  | .close name => closeElement name s
  | .text text => (resolved text).map fun text => addText keepBlanks text s
  | .cdata text => .ok (addText keepBlanks text s)
  | .comment text => .ok (addNode { value := .comment text true } s)
  | .processingInstruction target data =>
    .ok (addNode { value := .processingInstruction target data } s)

/-- Take in tokens one by one. -/
def steps (keepBlanks : Bool) (tokens : List Token) (s : State) : Except ParseError State :=
  tokens.foldlM (step keepBlanks) s

/-- The template that has been built, if no element is open. -/
def finish (s : State) : Except ParseError Node :=
  match s.frames with
  | [] => .ok { value := .root, children := s.content.reverse }
  | f :: _ => .error (.unclosedElement f.name)

/-- The template that some tokens make. -/
def build (keepBlanks : Bool) (tokens : List Token) : Except ParseError Node := do
  let s ← steps keepBlanks tokens {}
  finish s

end Builder

namespace Template

/-- Read a template from its source, with a way to cut it into tokens.  Faults of the markup
count only after those of the tokens before them. -/
def parseWith (tokenizer : Markup.Tokenizer) (keepBlanks : Bool) (source : String) :
    Except ParseError Node := do
  let (tokens, fault) := tokenizer source
  let s ← Builder.steps keepBlanks tokens {}
  match fault with
  | some fault => .error (.markup fault)
  | none => Builder.finish s

end Template
end TagGrammar
