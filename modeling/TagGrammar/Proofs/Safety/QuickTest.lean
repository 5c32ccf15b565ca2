/-
The quick test for expressions.

`hasExpression` counts runs of opening braces over the whole text, inside expressions and quotes
as well, while a value template is read with a state.  The two agree because up to the first run
of odd length they go through the text in step: literal text takes opening braces two at a time,
so what is left of a run there has the parity of the run.  The one brace that is left of an odd
run opens an expression, and the quick test has answered by then, whatever follows.
-/
import TagGrammar.Proofs.ValueTemplate
import TagGrammar.Safety.Sinks

namespace TagGrammar
namespace Safety

open ValueTemplate (parse partsFrom withLiteral isLiteral)

variable {c : Char} {cs rest : List Char} {parts : List ValuePart}

/-! ## Runs of braces -/

theorem hasOddRun_pair (odd : Bool) (rest : List Char) :
    hasOddRun odd ('{' :: '{' :: rest) = hasOddRun odd rest := by
  rw [hasOddRun, if_pos rfl, hasOddRun, if_pos rfl, Bool.not_not]

theorem hasOddRun_cons (hc : c ≠ '{') (rest : List Char) :
    hasOddRun false (c :: rest) = hasOddRun false rest := by
  rw [hasOddRun, if_neg hc, Bool.false_or]

/-- A run that ends after an odd number of braces decides the test. -/
theorem hasOddRun_single (hrest : ∀ rest', rest ≠ '{' :: rest') :
    hasOddRun false ('{' :: rest) = true := by
  rw [hasOddRun, if_pos rfl, Bool.not_false]
  cases rest with
  | nil => rfl
  | cons c rest =>
    have hc : c ≠ '{' := by
      rintro rfl
      exact hrest rest rfl
    rw [hasOddRun, if_neg hc, Bool.true_or]

/-! ## What reading says -/

theorem isLiteral_eq_false_iff :
    isLiteral parts = false ↔ ∃ source, ValuePart.expression source ∈ parts := by
  rw [isLiteral, List.all_eq_false]
  constructor
  · rintro ⟨part, hmem, hpart⟩
    cases part with
    | literal text => exact absurd rfl hpart
    | expression source => exact ⟨source, hmem⟩
  · rintro ⟨source, hmem⟩
    exact ⟨_, hmem, Bool.false_ne_true⟩

theorem isLiteral_withLiteral (literal : List Char) (parts : List ValuePart) :
    isLiteral (withLiteral literal parts) = isLiteral parts := by
  unfold withLiteral
  split
  · rfl
  · rw [isLiteral, List.all_cons, Bool.true_and, isLiteral]

/-- An answer of the quick test that fits the result of reading: a text that is refused for an
expression without an end has one, and nothing is said of a closing brace that stands alone. -/
def Fits (quick : Bool) : Except ValueTemplateError (List ValuePart) → Prop
  | .ok parts => quick = true ↔ isLiteral parts = false
  | .error .unterminatedExpression => quick = true
  | .error .unmatchedCloseBrace => True

/-- The quick test fits what is read of the same text, whatever literal text stands before it. -/
theorem fits_partsFrom (literal cs : List Char) :
    Fits (hasOddRun false cs) (partsFrom literal cs) := by
  fun_induction partsFrom literal cs with
  | case1 literal =>
    show hasOddRun false [] = true ↔ _
    rw [isLiteral_withLiteral]
    decide
  | case2 literal rest ih => rwa [hasOddRun_pair]
  | case3 literal rest ih => rwa [hasOddRun_cons (by decide), hasOddRun_cons (by decide)]
  | case4 => trivial
  | case5 literal rest hsingle hend => exact hasOddRun_single hsingle
  | case6 literal rest hsingle source rest' hend _ ih =>
    rw [hasOddRun_single hsingle]
    cases partsFrom [] rest' with
    | error cause => cases cause <;> trivial
    | ok parts =>
      show true = true ↔ isLiteral (withLiteral literal (.expression _ :: parts)) = false
      rw [isLiteral_withLiteral, isLiteral_eq_false_iff]
      exact iff_of_true rfl ⟨_, List.mem_cons_self⟩
  | case7 literal c rest _ _ hclose hopen ih => rwa [hasOddRun_cons hopen]

/-- The quick test agrees with the reader of value templates: where a text is read, it tells
whether there is an expression among the parts, and it finds one where an expression has no
end. -/
theorem hasExpression_agrees (value : String) :
    (∀ parts, parse value = .ok parts →
      (hasExpression value = true ↔ ∃ source, ValuePart.expression source ∈ parts) ∧
        (hasExpression value = true ↔ isLiteral parts = false)) ∧
      (parse value = .error .unterminatedExpression → hasExpression value = true) := by
  have hfits : Fits (hasExpression value) (parse value) := fits_partsFrom [] value.toList
  constructor
  · intro parts hparts
    rw [hparts] at hfits
    exact ⟨hfits.trans isLiteral_eq_false_iff, hfits⟩
  · intro herror
    rw [herror] at hfits
    exact hfits

/-- The value `{{{concat('{}}', @x)}`: after a brace that is text, an expression with braces in
a quote. -/
def quotedBraces : String := "\x7b\x7b\x7bconcat('\x7b\x7d\x7d', @x)\x7d"

/-- The value `{{{'}`, in which a quote runs to the end. -/
def openQuote : String := "\x7b\x7b\x7b'\x7d"

/-- Braces in a quote count for the quick test but end no expression, and doubled ones count for
neither. -/
theorem hasExpression_agrees_quotedBraces :
    (∃ parts, parse quotedBraces = .ok parts ∧ hasExpression quotedBraces = true ∧
      (∃ source, ValuePart.expression source ∈ parts) ∧ isLiteral parts = false) ∧
    (∃ parts, parse "{{a}}" = .ok parts ∧ hasExpression "{{a}}" = false ∧
      isLiteral parts = true) ∧
    parse openQuote = .error .unterminatedExpression ∧ hasExpression openQuote = true := by
  refine ⟨?_, ?_, ?_⟩
  · have hparts : parse quotedBraces =
        .ok [.literal "\x7b", .expression "concat('\x7b\x7d\x7d', @x)"] := by decide +kernel
    obtain ⟨hexpression, hliteral⟩ := (hasExpression_agrees _).1 _ hparts
    have hquick : hasExpression quotedBraces = true := by decide
    exact ⟨_, hparts, hquick, hexpression.mp hquick, hliteral.mp hquick⟩
  · have hparts : parse "{{a}}" = .ok [.literal "{a}"] := by decide +kernel
    have hliteral := ((hasExpression_agrees _).1 _ hparts).2
    refine ⟨_, hparts, ?_, rfl⟩
    rw [← Bool.not_eq_true, hliteral]
    decide
  · have herror : parse openQuote = .error .unterminatedExpression := by decide +kernel
    exact ⟨herror, (hasExpression_agrees _).2 herror⟩

end Safety
end TagGrammar
