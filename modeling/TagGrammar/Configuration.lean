/-
Configurations.

A configuration holds the declared tags with what they need to be checked and compiled.
Every call gives a result and the configuration after it.  A template is checked when it is
set and again when the rule table is compiled, since attributes, filters and options may
have changed in between; one that was set without a check is trusted until it is replaced.
Trust is kept beside the tags, by name.
-/
import TagGrammar.Html.Derivation
import TagGrammar.RuleTable
import TagGrammar.Safety.Check
import TagGrammar.Template.Normalizer
import TagGrammar.Template.Source

namespace TagGrammar

/-- Why a call is refused. -/
inductive ConfigurationError where
  | declaration (cause : DeclarationError)
  | parse (cause : ParseError)
  | normalization (cause : PassError)
  /-- The template of a tag is not accepted. -/
  | rejected (tag : TagName) (violation : Safety.Violation)

namespace ConfigurationError

def message : ConfigurationError → String
  | declaration cause => cause.message
  | parse cause => cause.message
  | normalization cause => cause.message
  | rejected tag violation =>
    s!"Unsafe template for tag '{tag.text}': {violation.hazard.message}"

end ConfigurationError

/-- Tags and all that is needed to build their rule table. -/
structure Configuration where
  tags : Dictionary TagName Tag := .empty
  /-- The tags whose template was set without a check. -/
  trusted : List TagName := []
  filters : FilterRegistry := .default
  /-- The rewriting of every template that is set. -/
  normalizer : List Pass := Normalizer.default
  checkOptions : CheckOptions := {}

/-- What a call gives, and the configuration after it. -/
structure Outcome (α : Type) where
  result : Except ConfigurationError α
  config : Configuration

namespace Configuration

/-- The outcome of a call that is refused. -/
def refuse {α : Type} (c : Configuration) (cause : ConfigurationError) : Outcome α :=
  ⟨.error cause, c⟩

/-- Go on with what a declaration gives, or refuse the call. -/
def declaring {α β : Type} (c : Configuration) (declared : Except DeclarationError α)
    (next : α → Outcome β) : Outcome β :=
  match declared with
  | .ok a => next a
  | .error cause => c.refuse (.declaration cause)

/-! ## Tags -/

/-- The tag of a name in any case. -/
def tag? (c : Configuration) (name : String) : Option Tag :=
  (TagName.ofString? name).bind c.tags.find?

/-- Declare a tag. -/
def addTag (c : Configuration) (name : String) : Outcome TagName :=
  c.declaring (TagName.declare name) fun name =>
    if c.tags.contains name then c.refuse (.declaration (.tagExists name))
    else ⟨.ok name, { c with tags := c.tags.insert name { name } }⟩

/-- Trust the template of a name. -/
def entrust (c : Configuration) (name : TagName) : Configuration :=
  { c with trusted := c.trusted.insert name }

/-- Take back the trust in the template of a name. -/
def distrust (c : Configuration) (name : TagName) : Configuration :=
  { c with trusted := c.trusted.filter (· ≠ name) }

/-- Take back the declaration of a tag.  The trust in the name is taken back first, whether
or not there is a tag of the name. -/
def removeTag (c : Configuration) (name : String) : Outcome Tag :=
  c.declaring (TagName.declare name) fun name =>
    let c := c.distrust name
    match c.tags.find? name with
    | none => c.refuse (.declaration (.unknownTag name))
    | some tag => ⟨.ok tag, { c with tags := c.tags.erase name }⟩

/-- Change a tag in any way, if there is one of the name. -/
def editTag? {α : Type} (c : Configuration) (name : String) (edit : Tag → α × Tag) :
    Option (α × Configuration) :=
  (TagName.ofString? name).bind fun name =>
    (c.tags.find? name).map fun tag =>
      let (a, tag) := edit tag
      (a, { c with tags := c.tags.modify name fun _ => tag })

/-- Make a declaration on a tag, which must exist. -/
def onTag {α : Type} (c : Configuration) (name : String)
    (edit : Tag → Except DeclarationError (α × Tag)) : Outcome α :=
  c.declaring (TagName.declare name) fun name =>
    match c.tags.find? name with
    | none => c.refuse (.declaration (.unknownTag name))
    | some tag => c.declaring (edit tag) fun (a, tag) =>
      ⟨.ok a, { c with tags := c.tags.modify name fun _ => tag }⟩

/-! ## Attributes and filters -/

def addAttribute (c : Configuration) (tag name : String) (type : AttributeType) :
    Outcome TagAttribute :=
  c.onTag tag fun t => t.addAttribute name type

def removeAttribute (c : Configuration) (tag name : String) : Outcome TagAttribute :=
  c.onTag tag fun t => t.removeAttribute name

/-- The name of a filter that is known. -/
def knownFilter (c : Configuration) (name : String) : Except DeclarationError String :=
  (FilterName.declare name).bind fun filter =>
    if c.filters.lookup.knows filter then .ok filter else .error (.unknownFilter filter)

/-- Put other filters in the place of those of an attribute.  Every filter must be
known. -/
def setFilterChain (c : Configuration) (tag name : String) (filters : List String) :
    Outcome Unit :=
  c.declaring (filters.mapM c.knownFilter) fun filterChain =>
    c.onTag tag fun t =>
      match t.updateAttribute? name fun attr => { attr with filterChain } with
      | some (_, t) => .ok ((), t)
      | none => (AttributeName.declare name).bind fun name =>
        .error (.unknownAttribute t.name name)

def registerFilter (c : Configuration) (name : String) (contexts : SafeContexts) :
    Outcome Unit :=
  c.declaring (c.filters.register name contexts) fun filters => ⟨.ok (), { c with filters }⟩

/-! ## Rules -/

/-- Declare a rule of a tag and the rule it implies.  The target need not exist. -/
def declareRule (c : Configuration) (tag : String) (action : RuleAction) (target : String) :
    Outcome Unit :=
  c.declaring (TagName.declare target) fun target =>
    c.onTag tag fun t => .ok ((), { t with rules := t.rules.add ⟨action, target⟩ })

/-- Take back one rule of a tag and tell whether it was there. -/
def withdrawRule (c : Configuration) (tag : String) (action : RuleAction) (target : String) :
    Outcome Bool :=
  c.declaring (TagName.declare target) fun target =>
    c.onTag tag fun t =>
      let (found, rules) := t.rules.eraseFound ⟨action, target⟩
      .ok (found, { t with rules })

/-- Declare a rule by the name of its action. -/
def addRule (c : Configuration) (tag action target : String) : Outcome Unit :=
  c.declaring (RuleAction.declare action) fun action => c.declareRule tag action target

/-- Take back a rule by the name of its action, for a caller that has not read the name.  The
call on a configuration is `withdrawRule`. -/
def removeRule (c : Configuration) (tag action target : String) : Outcome Bool :=
  c.declaring (RuleAction.declare action) fun action => c.withdrawRule tag action target

/-- A tag with what was derived for it. -/
def withDerived (derived : Html.DerivedOptions) (t : Tag) : Tag :=
  { t with
    rules := t.rules.addAll derived.rules.toList
    options := { t.options with
      disallowAsRoot := t.options.disallowAsRoot || derived.disallowAsRoot
      disabled := t.options.disabled || derived.disabled
      transparent := t.options.transparent || derived.transparent } }

/-- Add the rules that follow from the content models of the templates, below a root
element if one is given. -/
def addHtmlRules (c : Configuration) (root : Option String) : Outcome Unit :=
  c.declaring (Html.derive root (c.tags.values.map fun t => (t.name, t.template)))
    fun derived => ⟨.ok (), { c with tags := derived.entries.foldl (fun tags d =>
      tags.modify d.1 (withDerived d.2)) c.tags }⟩

/-! ## Templates -/

/-- What the template of a tag is granted. -/
def grant (c : Configuration) (tag : Tag) : Safety.Grant :=
  { tag, lookup := c.filters.lookup, options := c.checkOptions }

/-- Put a template in the place of that of a tag. -/
def store (c : Configuration) (tag : String) (template : Node) : Outcome Unit :=
  c.onTag tag fun t => .ok ((), { t with template := some template })

/-- Read and normalize the template of a tag, check it unless it is to be trusted, and
store it.  Whether it is trusted is noted before it is stored. -/
def setTemplateWith (tokenizer : Markup.Tokenizer) (c : Configuration) (tag source : String)
    (trust keepBlanks : Bool) : Outcome Unit :=
  match Template.parseWith tokenizer keepBlanks source with
  | .error cause => c.refuse (.parse cause)
  | .ok parsed =>
    match Normalizer.run c.normalizer parsed with
    | .error cause => c.refuse (.normalization cause)
    | .ok template =>
      c.declaring (TagName.declare tag) fun name =>
        match c.tags.find? name with
        | none => c.refuse (.declaration (.unknownTag name))
        | some tag =>
          match if trust then none else Safety.violation? (c.grant tag) template with
          | some violation => c.refuse (.rejected name violation)
          | none =>
            (if trust then c.entrust name else c.distrust name).store name.text template

/-- Read, check and store the template of a tag. -/
def setTemplate (c : Configuration) (tag source : String) (trust keepBlanks : Bool) :
    Outcome Unit :=
  c.setTemplateWith Markup.tokenize tag source trust keepBlanks

/-! ## The rule table -/

/-- The violation in the template of a tag, if it has one that is not trusted. -/
def tagViolation? (c : Configuration) (tag : Tag) : Option Safety.Violation :=
  if c.trusted.contains tag.name then none
  else tag.template.bind (Safety.violation? (c.grant tag))

/-- Build the rule table.  The first tag in the order of names whose template is not
accepted is the cause of a refusal. -/
def compile (c : Configuration) : Except ConfigurationError RuleTable :=
  let refused := c.tags.values.findSome? fun tag =>
    (c.tagViolation? tag).map (ConfigurationError.rejected tag.name)
  match refused with
  | some cause => .error cause
  | none => .ok (RuleTable.compile c.tags.values)

end Configuration
end TagGrammar
