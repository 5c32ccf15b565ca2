/-
Why a template is refused.

A hazard is what is wrong, a violation is a hazard at a node.
-/
import TagGrammar.Filter
import TagGrammar.Safety.ScriptAccess
import TagGrammar.Template.Node

namespace TagGrammar
namespace Safety

/-- What makes a template unsafe, or keeps it from being known to be safe. -/
inductive Hazard where
  | phpTag
  | dynamicProcessingInstruction
  | attributeSets
  | disableOutputEscaping
  /-- An instruction whose output cannot be told. -/
  | unassessableInstruction (name : String)
  | documentFunction
  | dynamicElementName (name : String)
  | dynamicAttributeName (name : String)
  | dynamicParamName
  | nonFixedUrl (element name : String)
  | dynamicNonFixedUrl (element name : String)
  | dynamicFlashAttribute
  | unassessableScriptAccess (setting : String)
  | unknownScriptAccess (setting : String)
  | scriptAccessExceeds (setting : String) (most : ScriptAccess)
  /-- Content goes into a script or a style sheet. -/
  | unfilteredElement (name : String)
  | unfilteredDynamicElement (name : String)
  | unfilteredDynamicAttribute (name : String)
  | applyTemplatesSelect (select : String)
  | unassessableExpression (source : String)
  | undefinedAttribute (name : String)
  | unfilteredAttribute (name : String) (sink : Sink)
  | copyOfSelect (select : String)
  | forEachContext
deriving DecidableEq

/-- The wording of each hazard. -/
def Hazard.message : Hazard → String
  | phpTag => "PHP tags are not allowed"
  | dynamicProcessingInstruction => "Dynamic processing instructions are not allowed"
  | attributeSets => "Cannot assess the safety of attribute sets"
  | disableOutputEscaping => "The template contains a 'disable-output-escaping' attribute"
  | unassessableInstruction name => s!"Cannot assess the safety of an 'xsl:{name}' element"
  | documentFunction => "An XPath expression uses the document() function"
  | dynamicElementName name => s!"Cannot assess 'xsl:element' name '{name}'"
  | dynamicAttributeName name => s!"Cannot assess 'xsl:attribute' name '{name}'"
  | dynamicParamName =>
    "Cannot assess the safety of a 'param' element with a dynamically generated name"
  | nonFixedUrl element name =>
    s!"The template contains a '{element}' element with a non-fixed URL attribute '{name}'"
  | dynamicNonFixedUrl element name =>
    s!"The template contains a '{element}' element with a dynamically generated " ++
      s!"'{name}' attribute that does not use a fixed URL"
  | dynamicFlashAttribute => "Cannot assess the safety of dynamic attributes"
  | unassessableScriptAccess setting => s!"Cannot assess AllowScriptAccess setting '{setting}'"
  | unknownScriptAccess setting => ScriptAccess.unknownMessage setting
  | scriptAccessExceeds setting most =>
    s!"AllowScriptAccess setting '{setting}' exceeds restricted value '{most.text}'"
  | unfilteredElement name => s!"A '{name}' element lets unfiltered data through"
  | unfilteredDynamicElement name =>
    s!"A dynamically generated '{name}' element lets unfiltered data through"
  | unfilteredDynamicAttribute name =>
    s!"A dynamically generated '{name}' attribute lets unfiltered data through"
  | applyTemplatesSelect select =>
    s!"Cannot assess the safety of 'xsl:apply-templates' select expression '{select}'"
  | unassessableExpression source =>
    s!"Cannot assess the safety of XPath expression '{source}'"
  | undefinedAttribute name => s!"Undefined attribute '{name}'"
  | unfilteredAttribute name sink =>
    s!"Attribute '{name}' is not properly filtered to be used in {sink.text}"
  | copyOfSelect select => s!"Cannot assess 'xsl:copy-of' select expression '{select}' to be safe"
  | forEachContext => "Cannot evaluate context node due to 'xsl:for-each'"

/-- A hazard and the node it was found at. -/
structure Violation where
  hazard : Hazard
  path : Path
deriving DecidableEq

end Safety
end TagGrammar
