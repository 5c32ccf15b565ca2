/-
Rewriting a template before it is checked.

A normalizer is a list of passes run one after the other.  The default one turns curly
references into instructions first, so that the passes after it see the instructions.
Besides the passes of the library any other rewriting may be run.  Only the pass that
replaces text can fail, and only on a template in which an earlier pass has made text of
an instruction with content.
-/
import TagGrammar.Template.Branches
import TagGrammar.Template.Curly
import TagGrammar.Template.InlineLiteral

namespace TagGrammar

/-- A rewriting of a template. -/
inductive Pass where
  | convertCurly
  | inlineLiterals
  | mergeBranches
  /-- A rewriting from outside. -/
  | custom (rewrite : Node → Node)

/-- Why a pass fails on a template. -/
inductive PassError where
  /-- Text to be replaced is inside other text to be replaced. -/
  | nestedReplacement
deriving DecidableEq

def PassError.message : PassError → String
  | nestedReplacement => "text to be replaced is inside other text to be replaced"

/-- The template after a pass. -/
def Pass.run : Pass → Node → Except PassError Node
  | convertCurly, n =>
    if Curly.hasNestedReplacement n then .error .nestedReplacement else .ok (Curly.convert n)
  | inlineLiterals, n => .ok (InlineLiteral.inline n)
  | mergeBranches, n => .ok (Branches.mergeEverywhere n)
  | custom rewrite, n => .ok (rewrite n)

namespace Normalizer

/-- The passes that are run on every template unless others are chosen. -/
def default : List Pass := [.convertCurly, .inlineLiterals, .mergeBranches]

/-- Run passes in order, up to the first that fails. -/
def run (passes : List Pass) (template : Node) : Except PassError Node :=
  passes.foldlM (fun t pass => pass.run t) template

end Normalizer
end TagGrammar
