/-
Calls in an expression are calls in its text.

The check for calls looks at the abstract form of an expression, so it would miss a call
that some production of the grammar takes and drops.  None does: the tokens that derive a
phrase hold the name of a function exactly if the phrase calls the function.
-/
import TagGrammar.Proofs.XPath.Derived
import TagGrammar.Proofs.XPath.Lexer
import TagGrammar.XPath.Analysis

namespace TagGrammar
namespace XPath

/-- The lexer takes only the names of node types for node types. -/
theorem knownTypes_of_tokenize {source : String} {ts : List Token}
    (h : tokenize source = .ok ts) : KnownTypes ts :=
  fun _ hname => Lexer.tokensFrom_spelled h _ hname

/-- A text is an expression if its tokens derive one. -/
theorem Expr.parse_eq_ok_iff {source : String} {e : Expr} :
    Expr.parse source = .ok e ↔
      ∃ ts, tokenize source = .ok ts ∧ Derives ts (.operation 0 e) := by
  unfold Expr.parse
  rw [bind_eq_ok_iff]
  refine exists_congr fun ts => and_congr_right fun hts => ?_
  rw [bind_eq_ok_iff]
  constructor
  · rintro ⟨⟨e', rest⟩, h, hrest⟩
    cases rest with
    | nil =>
      cases hrest
      exact Parser.derives_of_expr (knownTypes_of_tokenize hts) h
    | cons t rest => cases hrest
  · intro h
    exact ⟨_, h.expr_eq_ok, rfl⟩

/-- Whether a phrase calls a function. -/
def Phrase.calls (f : String) : Phrase → Bool
  | operation _ e | path e | primary e => e.calls f
  | steps ss | trailing ss => Expr.anyStepCalls f ss
  | step s => Expr.stepCalls f s
  | test _ => false
  | predicates es | arguments es => Expr.anyCalls f es

theorem Derives.calls_iff {ts : List Token} {phrase : Phrase} (h : Derives ts phrase)
    (f : String) : phrase.calls f = true ↔ Token.functionName f ∈ ts := by
  induction h with
  | emptyCall | call =>
    simp_all [Phrase.calls, Expr.calls, Expr.anyCalls, @eq_comm _ f]
  | _ =>
    simp_all [Phrase.calls, Expr.calls, Expr.anyCalls, Expr.stepCalls, Expr.anyStepCalls, or_assoc]

/-- A text that is read as an expression has tokens, and they hold the name of a
function exactly if the expression calls the function. -/
theorem Expr.calls_iff_mem_tokens {source : String} {e : Expr}
    (h : Expr.parse source = .ok e) :
    ∃ tokens, tokenize source = .ok tokens ∧
      ∀ f, e.calls f = true ↔ Token.functionName f ∈ tokens := by
  obtain ⟨ts, htokens, hderives⟩ := parse_eq_ok_iff.mp h
  exact ⟨ts, htokens, hderives.calls_iff⟩

end XPath
end TagGrammar
