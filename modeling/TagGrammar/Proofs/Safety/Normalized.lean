/-
What a template was before normalization if it is accepted after it.

The check sees a template after references were replaced, constants made text and branches
merged.  Everything but a merged branch is left to be seen, or was nothing to be refused.  Of
a branch that was merged with another one the content is seen, but what it asks for its
output is dropped, and its test is read joined to others, as which it may be an expression
though it is none alone.  If all branches have their output escaped and tests that are
expressions, no call is lost in the joined ones, so nothing that must be refused was there
(`assessable_of_accepts_normalized`).
-/
import TagGrammar.Proofs.Safety.Expressions
import TagGrammar.Proofs.Template.Merged
import TagGrammar.Proofs.Template.References
import TagGrammar.Proofs.XPath.JoinedCalls
import TagGrammar.Template.Normalizer

namespace TagGrammar
open Branches (JoinedIn TestsIn mergeEverywhere test? test?_congr test?_eq_some_iff)
open InlineLiteral (constantText? inlined)
open XPath (Expr ReadsWithout)

/-- The output of the node is escaped, and all of its expressions are read and none of them
reads another document. -/
def Node.IsAssessable (n : Node) : Prop :=
  n.disablesEscaping = false ∧
    ∀ site ∈ n.value.expressionSites, site.All (ReadsWithout "document")

namespace Safety

variable {template m n : Node} {test : String}

theorem isAssessable_congr (h : m.own = n.own) (hm : m.IsAssessable) : n.IsAssessable := by
  obtain ⟨hvalue, hmark⟩ := Prod.mk.inj h
  unfold Node.IsAssessable
  rw [← hvalue, ← hmark]
  exact hm

theorem isAssessable_of_accepts {g : Grant} (h : accepts g template = true) :
    ∀ n ∈ template.nodes, n.IsAssessable := by
  intro n hn
  obtain ⟨hstructure, hexpressions, -⟩ := (accepts_iff g template).mp h
  refine ⟨?_, (expressionViolation?_eq_none_iff template).mp hexpressions n hn⟩
  rw [← Node.map_node_visits] at hn
  obtain ⟨visit, hvisit, rfl⟩ := List.mem_map.mp hn
  unfold structureViolation? at hstructure
  rw [List.findSome?_eq_none_iff] at hstructure
  have hnone := Option.map_eq_none_iff.mp (hstructure visit hvisit)
  unfold structureHazard? at hnone
  split at hnone
  · cases hnone
  · rename_i hmark
    simpa using hmark

theorem isAssessable_branch (h : test? n = some test) :
    n.IsAssessable ↔ n.disablesEscaping = false ∧ ReadsWithout "document" test := by
  unfold Node.IsAssessable
  rw [test?_eq_some_iff.mp h]
  simp [Value.expressionSites, ExpressionSite.All]

/-! ## Constants -/

theorem readsWithout_of_constantText? {source text : String} (function : String)
    (h : constantText? source = some text) : ReadsWithout function source := by
  unfold constantText? at h
  split at h
  · rename_i e he
    refine readsWithout_iff.mpr ⟨e, he, ?_⟩
    cases e with
    | literal value | number value => rfl
    | _ => cases h
  · cases h

theorem inlined_cases (v : Value) :
    inlined v = v ∨ ∃ select text, v = .valueOf select false ∧
      constantText? select = some text ∧ inlined v = .plainText text := by
  unfold inlined
  split
  · split
    · rename_i select _ text htext
      exact Or.inr ⟨select, text, rfl, htext, rfl⟩
    · exact Or.inl rfl
  · exact Or.inl rfl

/-- An inserted constant that becomes text was nothing to be refused. -/
theorem isAssessable_of_inlined (h : (n.mapValues inlined).IsAssessable) : n.IsAssessable := by
  rcases inlined_cases n.value with hsame | ⟨select, text, hvalue, htext, hinlined⟩
  · refine isAssessable_congr (Node.own_congr ?_ (Node.unescaped_mapValues inlined n)) h
    rw [Node.value_mapValues, hsame]
  · obtain ⟨hmark, -⟩ := h
    unfold Node.disablesEscaping at hmark
    rw [Node.value_mapValues, hinlined, Node.unescaped_mapValues] at hmark
    constructor
    · unfold Node.disablesEscaping
      rw [hvalue]
      exact hmark
    · rw [hvalue]
      intro site hsite
      obtain rfl := List.mem_singleton.mp hsite
      exact readsWithout_of_constantText? "document" htext

theorem test?_mapValues_inlined (n : Node) : test? (n.mapValues inlined) = test? n := by
  unfold test?
  rw [Node.value_mapValues]
  rcases inlined_cases n.value with hsame | ⟨select, text, hvalue, -, hinlined⟩
  · rw [hsame]
  · rw [hvalue] at hinlined ⊢
    rw [hinlined]
    rfl

theorem own_mapValues_inlined (h : test? n = some test) : (n.mapValues inlined).own = n.own := by
  refine Node.own_congr ?_ (Node.unescaped_mapValues inlined n)
  rw [Node.value_mapValues, test?_eq_some_iff.mp h]
  rfl

/-! ## Branches -/

/-- Every branch has its output escaped and a test that is an expression. -/
def BranchesRead (template : Node) : Prop :=
  ∀ n ∈ template.nodes, ∀ test, n.value = .when test →
    n.disablesEscaping = false ∧ ∃ e, Expr.parse test = .ok e

theorem branchesRead_iff :
    BranchesRead template ↔ (template.nodes.all fun n => (test? n).all fun test =>
      !n.disablesEscaping && (Expr.parse test).toOption.isSome) = true := by
  have parses : ∀ test, (Expr.parse test).toOption.isSome = true ↔
      ∃ e, Expr.parse test = .ok e := by
    intro test
    cases Expr.parse test <;> simp [Except.toOption]
  simp [BranchesRead, List.all_eq_true, Option.all_eq_true, test?_eq_some_iff, parses]

instance : Decidable (BranchesRead template) := decidable_of_iff _ branchesRead_iff.symm

theorem branchesRead_of_isAssessable (h : ∀ n ∈ template.nodes, n.IsAssessable) :
    BranchesRead template := by
  intro n hn test hvalue
  obtain ⟨hmark, hreads⟩ := (isAssessable_branch (test?_eq_some_iff.mpr hvalue)).mp (h n hn)
  obtain ⟨e, he, -⟩ := readsWithout_iff.mp hreads
  exact ⟨hmark, e, he⟩

/-- No call is lost in joined tests that are expressions. -/
theorem isAssessable_of_joinedIn (hread : BranchesRead template) (hn : n ∈ template.nodes)
    (hjoined : JoinedIn template.nodes m n) (hm : m.IsAssessable) : n.IsAssessable := by
  obtain ⟨t, tests, ht, hmem, -, htests, hjoin⟩ := hjoined
  obtain ⟨-, hreads⟩ := (isAssessable_branch hjoin).mp hm
  obtain ⟨joined, hparse, hcalls⟩ := readsWithout_iff.mp hreads
  have hparses : ∀ s ∈ tests, ∃ e, Expr.parse s = .ok e := by
    intro s hs
    obtain ⟨k, hk, hks⟩ := htests.mem s hs
    exact (hread k hk s (test?_eq_some_iff.mp hks)).2
  obtain ⟨hmark, e, he⟩ := hread n hn t (test?_eq_some_iff.mp ht)
  have hnone : XPath.Lexer.namedOperator? "document" = none := by decide
  have hcalls := Expr.calls_of_intercalate hparses hparse hnone hcalls t hmem e he
  exact (isAssessable_branch ht).mpr ⟨hmark, readsWithout_iff.mpr ⟨e, he, hcalls⟩⟩

/-! ## Normalization -/

/-- What references and constants become stands for what they were, with the same test if
there is one.  Only plain text has nothing that stands for it. -/
theorem exists_rewritten (hplain : ∀ n ∈ template.nodes, n.IsPlainLeaf)
    (hn : n ∈ template.nodes) :
    n.IsAssessable ∨ ∃ m ∈ (InlineLiteral.inline (Curly.convert template)).nodes,
      test? m = test? n ∧ (m.IsAssessable → n.IsAssessable) := by
  rcases Curly.foundIn_convert hplain n hn with ⟨text, rfl⟩ | ⟨k, hk, hown⟩
  · exact Or.inl ⟨rfl, fun site hsite => absurd hsite List.not_mem_nil⟩
  · refine Or.inr ⟨k.mapValues inlined, ?_, ?_, fun hm => ?_⟩
    · unfold InlineLiteral.inline
      rw [Node.nodes_mapValues]
      exact List.mem_map_of_mem hk
    · rw [test?_mapValues_inlined, test?_congr hown]
    · exact isAssessable_congr hown (isAssessable_of_inlined hm)

theorem branch_foundIn_rewritten (hm : m ∈ (InlineLiteral.inline (Curly.convert template)).nodes)
    (htest : test? m = some test) : Node.FoundIn template.nodes m := by
  unfold InlineLiteral.inline at hm
  rw [Node.nodes_mapValues] at hm
  obtain ⟨k, hk, rfl⟩ := List.mem_map.mp hm
  rw [test?_mapValues_inlined] at htest
  obtain ⟨n, hn, hown⟩ := Curly.branch_foundIn hk (test?_eq_some_iff.mp htest)
  exact ⟨n, hn, hown.trans (own_mapValues_inlined htest).symm⟩

theorem run_default (hplain : ∀ n ∈ template.nodes, n.IsPlainLeaf) :
    Normalizer.run Normalizer.default template =
      .ok (mergeEverywhere (InlineLiteral.inline (Curly.convert template))) := by
  simp [Normalizer.run, Normalizer.default, Pass.run,
    Curly.hasNestedReplacement_eq_false hplain]
  rfl

/-- A template that is parsed is normalized.  If what comes out is accepted, a node that had
anything to be refused is a branch that was merged with another one, and there is none
exactly if all branches have their output escaped and tests that are expressions. -/
theorem assessable_of_accepts_normalized {tokenizer : Markup.Tokenizer} {keepBlanks : Bool}
    {source : String} (h : Template.parseWith tokenizer keepBlanks source = .ok template) :
    ∃ normalized, Normalizer.run Normalizer.default template = .ok normalized ∧
      ∀ g, accepts g normalized = true →
        (∀ n ∈ template.nodes,
          n.IsAssessable ∨ ∃ m ∈ normalized.nodes, JoinedIn template.nodes m n) ∧
        ((∀ n ∈ template.nodes, n.IsAssessable) ↔ BranchesRead template) := by
  have hplain := Template.isPlainLeaf_of_parse h
  refine ⟨_, run_default hplain, fun g haccepts => ?_⟩
  have hmerged := isAssessable_of_accepts haccepts
  have seen : ∀ n ∈ template.nodes, n.IsAssessable ∨
      ∃ m ∈ (mergeEverywhere (InlineLiteral.inline (Curly.convert template))).nodes,
        JoinedIn template.nodes m n := by
    intro n hn
    rcases exists_rewritten hplain hn with hplainText | ⟨k, hk, htest, himp⟩
    · exact Or.inl hplainText
    obtain ⟨m, hm, hshows⟩ := Branches.exists_shows_mergeEverywhere _ k hk
    rcases hshows with hown | ⟨t, tests, ht, hmem, hlong, htests, hjoin⟩
    · exact Or.inl (himp (isAssessable_congr hown (hmerged m hm)))
    · have htests' : TestsIn template.nodes tests :=
        htests.of_branches fun b hb s hs => branch_foundIn_rewritten hb hs
      exact Or.inr ⟨m, hm, t, tests, htest.symm.trans ht, hmem, hlong, htests', hjoin⟩
  refine ⟨seen, branchesRead_of_isAssessable, fun hread n hn => ?_⟩
  rcases seen n hn with hassessable | ⟨m, hm, hjoined⟩
  · exact hassessable
  · exact isAssessable_of_joinedIn hread hn hjoined (hmerged m hm)

theorem exists_normalized {keepBlanks : Bool} {source : String} {g : Grant} {p : Node → Bool}
    (h : (Template.parse keepBlanks source).toOption.any (fun t =>
      (Normalizer.run Normalizer.default t).toOption.any (accepts g) && p t) = true) :
    ∃ template normalized, Template.parse keepBlanks source = .ok template ∧
      Normalizer.run Normalizer.default template = .ok normalized ∧
        accepts g normalized = true ∧ p template = true := by
  obtain ⟨template, hparse, h⟩ := exists_ok_of_any h
  obtain ⟨hrun, hp⟩ := Bool.and_eq_true_iff.mp h
  obtain ⟨normalized, hrun, haccepts⟩ := exists_ok_of_any hrun
  exact ⟨template, normalized, hparse, hrun, haccepts, hp⟩

def branchesOfOneContent : String :=
  "<xsl:choose><xsl:when test='@a=1'>P {@b}</xsl:when><xsl:when test='@a=2'>P {@b}</xsl:when>" ++
    "<xsl:otherwise><xsl:value-of select='5'/></xsl:otherwise></xsl:choose>"

theorem assessable_of_accepts_normalized_merged :
    ∃ template normalized, Template.parse false branchesOfOneContent = .ok template ∧
      Normalizer.run Normalizer.default template = .ok normalized ∧
      accepts ⟨{ name := ⟨"B"⟩ }, FilterRegistry.default.lookup, {}⟩ normalized = true ∧
      ∀ n ∈ template.nodes, n.IsAssessable := by
  obtain ⟨template, normalized, hparse, hrun, haccepts, hread⟩ :
      ∃ template normalized, Template.parse false branchesOfOneContent = .ok template ∧
        Normalizer.run Normalizer.default template = .ok normalized ∧
        accepts ⟨{ name := ⟨"B"⟩ }, FilterRegistry.default.lookup, {}⟩ normalized = true ∧
        decide (BranchesRead template) = true := exists_normalized (by decide +kernel)
  refine ⟨template, normalized, hparse, hrun, haccepts, ?_⟩
  obtain ⟨normalized', hrun', h⟩ := assessable_of_accepts_normalized hparse
  obtain rfl : normalized = normalized' := Except.ok.inj (hrun.symm.trans hrun')
  exact (h _ haccepts).2.mpr (of_decide_eq_true hread)

def secondUnescaped : String :=
  "<xsl:choose><xsl:when test='@a=1'>P</xsl:when>" ++
    "<xsl:when test='@a=2' disable-output-escaping='yes'>P</xsl:when></xsl:choose>"

def loneApostrophes : String :=
  "<xsl:choose><xsl:when test=\"'\">P</xsl:when><xsl:when test=\"'\">P</xsl:when></xsl:choose>"

/-- Of two merged branches the second may disable escaping, and of two tests that are joined
neither need be an expression. -/
theorem merged_branch_unseen :
    (∃ template normalized, Template.parse false secondUnescaped = .ok template ∧
      Normalizer.run Normalizer.default template = .ok normalized ∧
      accepts ⟨{ name := ⟨"B"⟩ }, FilterRegistry.default.lookup, {}⟩ normalized = true ∧
      template.nodes.any Node.disablesEscaping = true) ∧
    ∃ template normalized, Template.parse false loneApostrophes = .ok template ∧
      Normalizer.run Normalizer.default template = .ok normalized ∧
      accepts ⟨{ name := ⟨"B"⟩ }, FilterRegistry.default.lookup, {}⟩ normalized = true ∧
      (template.nodes.any fun n => (test? n).any fun test =>
        (Expr.parse test).toOption.isNone) = true :=
  ⟨exists_normalized (by decide +kernel), exists_normalized (by decide +kernel)⟩

end Safety
end TagGrammar
