/-
What a template is granted.

A template is checked against the attributes of its tag, against what the filters
promise and under the options of the check.  The value of an attribute may go where
some filter of its chain makes it safe, and an attribute that is not declared may go
nowhere.
-/
import TagGrammar.Filter
import TagGrammar.Safety.ScriptAccess
import TagGrammar.Tag

namespace TagGrammar
namespace Safety

/-- What a check goes by. -/
structure Grant where
  /-- The tag whose attributes the template may refer to. -/
  tag : Tag
  /-- What each filter promises. -/
  lookup : FilterLookup
  options : CheckOptions := {}

namespace Grant

/-- An attribute of the tag, in any case. -/
def declares (g : Grant) (name : String) : Bool := (g.tag.findAttribute? name).isSome

/-- Whether an attribute of the tag passes a filter that makes it safe for a sink. -/
def isFiltered (g : Grant) (name : String) (sink : Sink) : Bool :=
  (g.tag.findAttribute? name).any fun attr =>
    attr.filterChain.any fun filter => g.lookup.isSafe filter sink

theorem isFiltered_iff {g : Grant} {name : String} {sink : Sink} :
    g.isFiltered name sink = true ↔
      ∃ attr, g.tag.findAttribute? name = some attr ∧
        ∃ filter ∈ attr.filterChain, g.lookup.isSafe filter sink = true := by
  simp only [isFiltered, Option.any_eq_true, List.any_eq_true]

/-- An attribute that is filtered is declared. -/
theorem declares_of_isFiltered {g : Grant} {name : String} {sink : Sink}
    (h : g.isFiltered name sink = true) : g.declares name = true := by
  obtain ⟨attr, hattr, -⟩ := isFiltered_iff.mp h
  rw [declares, hattr, Option.isSome_some]

end Grant
end Safety
end TagGrammar
