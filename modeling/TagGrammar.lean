import TagGrammar.Configuration
import TagGrammar.Proofs.Safety.Expressions
import TagGrammar.Serialized.Decoding
import TagGrammar.Serialized.Encoding
import TagGrammar.Template.Edit
import TagGrammar.Template.Source
import TagGrammar.Proofs.Bitfield
import TagGrammar.Proofs.Case
import TagGrammar.Proofs.Dictionary
import TagGrammar.Proofs.RuleTable
import TagGrammar.Proofs.Safety.Flow
import TagGrammar.Proofs.Safety.FixedUrl
import TagGrammar.Proofs.Safety.Prefixes
import TagGrammar.Proofs.Safety.Normalized
import TagGrammar.Proofs.Html.Derivation
import TagGrammar.Proofs.Safety.ParamNames
import TagGrammar.Proofs.Safety.MadeAttributes
import TagGrammar.Proofs.Configuration.Calls
import TagGrammar.Proofs.Configuration.Trust
import TagGrammar.Proofs.Configuration.ContentModel
import TagGrammar.Proofs.Safety.Granted
import TagGrammar.Proofs.Safety.Recased
import TagGrammar.Proofs.RuleTable.Rebuilt
import TagGrammar.Proofs.XPath.Displayed
import TagGrammar.Proofs.RuleTable.Invariants
import TagGrammar.Proofs.XPath.Roots
import TagGrammar.Proofs.Markup.Nesting
import TagGrammar.Proofs.Markup.Tokenized
import TagGrammar.Proofs.Template.Nesting
import TagGrammar.Proofs.Template.Renormalized
import TagGrammar.Proofs.Template.Blocks
import TagGrammar.Proofs.RuleTable.Resolved
import TagGrammar.Proofs.XPath.Sources
import TagGrammar.Proofs.Safety.Origin
import TagGrammar.Proofs.ValueTemplate.Rendered
import TagGrammar.Proofs.Html.Outline
import TagGrammar.Proofs.Html.ImpliedEnds
import TagGrammar.Proofs.Template.Converted
import TagGrammar.Proofs.Template.Scopes
import TagGrammar.Proofs.Template.TextRuns
import TagGrammar.Proofs.Template.Inserted
import TagGrammar.Proofs.Template.Bytes
import TagGrammar.Proofs.Bitfield.Indexes
import TagGrammar.Proofs.XPath.Equalities
import TagGrammar.Proofs.Markup.References
import TagGrammar.Proofs.XPath.Spacing
import TagGrammar.Proofs.Safety.QuickTest
