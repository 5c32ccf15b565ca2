/-
The value template that is written for some parts.

Reading a value template and writing its parts are each other's inverse, on the parts that
are in normal form: no literal is empty, no two literals stand side by side, and every
expression ends at the first brace after it that is outside quotes.  So the parts of a
source are the one normal form whose rendering is that source
(`parse_eq_ok_iff_rendered`).
-/
import TagGrammar.Proofs.ValueTemplate

namespace TagGrammar
namespace ValueTemplate

variable {cs e rest literal : List Char} {q : Option Char} {parts : List ValuePart}
  {source text : String}

/-! ## Quotes -/

/-- The quote that is open after one more character. -/
def quoteStep (q : Option Char) (c : Char) : Option Char :=
  match q with
  | none => if c = '"' ∨ c = '\'' then some c else none
  | some q => if c = q then none else some q

/-- Read from where a quote may be open, some characters end outside quotes and have no
closing brace there. -/
structure ClosesAfter (q : Option Char) (e : List Char) : Prop where
  quoted : ∀ before after, e = before ++ '}' :: after → before.foldl quoteStep q ≠ none
  closed : e.foldl quoteStep q = none

theorem closesAfter_nil : ClosesAfter q [] ↔ q = none := by
  constructor
  · exact ClosesAfter.closed
  · rintro rfl
    exact ⟨fun before after h => absurd h (by simp), rfl⟩

theorem closesAfter_cons {c : Char} :
    ClosesAfter q (c :: e) ↔ (c = '}' → q ≠ none) ∧ ClosesAfter (quoteStep q c) e := by
  constructor
  · rintro ⟨hquoted, hclosed⟩
    refine ⟨?_, ?_, hclosed⟩
    · rintro rfl
      exact hquoted [] e rfl
    · rintro before after rfl
      exact hquoted (c :: before) after rfl
  · rintro ⟨hfirst, hquoted, hclosed⟩
    refine ⟨fun before after h => ?_, hclosed⟩
    cases before with
    | nil =>
      obtain ⟨rfl, rfl⟩ := List.cons.inj h
      exact hfirst rfl
    | cons b before =>
      obtain ⟨rfl, rfl⟩ := List.cons.inj h
      exact hquoted before after rfl

/-- Any character but a brace outside quotes belongs to the expression. -/
theorem expressionEnd_cons {c : Char} (h : c = '}' → q ≠ none) :
    expressionEnd q (c :: rest) =
      (expressionEnd (quoteStep q c) rest).map fun r => (c :: r.1, r.2) := by
  cases q with
  | none => rw [expressionEnd, if_neg fun hc => h hc rfl, quoteStep]
  | some q => rw [expressionEnd, quoteStep]

theorem expressionEnd_append (h : ClosesAfter q e) (rest : List Char) :
    expressionEnd q (e ++ '}' :: rest) = some (e, rest) := by
  induction e generalizing q with
  | nil =>
    obtain rfl := closesAfter_nil.mp h
    rw [List.nil_append, expressionEnd, if_pos rfl]
  | cons c e ih =>
    obtain ⟨hinside, hcloses⟩ := closesAfter_cons.mp h
    rw [List.cons_append, expressionEnd_cons hinside, ih hcloses]
    rfl

theorem closesAfter_of_expressionEnd (h : expressionEnd q cs = some (e, rest)) :
    cs = e ++ '}' :: rest ∧ ClosesAfter q e := by
  induction cs generalizing q e with
  | nil => cases q <;> cases h
  | cons c cs ih =>
    by_cases hend : c = '}' ∧ q = none
    · obtain ⟨rfl, rfl⟩ := hend
      rw [expressionEnd, if_pos rfl, Option.some.injEq, Prod.mk.injEq] at h
      obtain ⟨rfl, rfl⟩ := h
      exact ⟨rfl, closesAfter_nil.mpr rfl⟩
    · have hinside : c = '}' → q ≠ none := fun hc hq => hend ⟨hc, hq⟩
      rw [expressionEnd_cons hinside, Option.map_eq_some_iff] at h
      obtain ⟨⟨e', rest'⟩, hnext, heq⟩ := h
      obtain ⟨rfl, rfl⟩ := Prod.mk.inj heq
      obtain ⟨rfl, hcloses⟩ := ih hnext
      exact ⟨rfl, closesAfter_cons.mpr ⟨hinside, hcloses⟩⟩

/-! ## Normal form -/

/-- What can stand between two single braces as one expression. -/
structure IsExpression (e : List Char) : Prop where
  start : e.head? ≠ some '{'
  closes : ClosesAfter none e

/-- No literal is empty or stands next to another one. -/
structure Spaced (parts : List ValuePart) : Prop where
  filled : ∀ text, .literal text ∈ parts → text ≠ ""
  apart : ∀ text text', ¬[.literal text, .literal text'] <:+: parts

/-- Parts as they come of a value template. -/
structure IsNormal (parts : List ValuePart) : Prop extends Spaced parts where
  expressions : ∀ source, .expression source ∈ parts → IsExpression source.toList

/-- The first part is a literal. -/
def StartsLiteral : List ValuePart → Prop
  | .literal _ :: _ => True
  | _ => False

theorem spaced_nil : Spaced [] := by
  constructor <;> simp

theorem spaced_expression : Spaced (.expression source :: parts) ↔ Spaced parts := by
  constructor
  · rintro ⟨hfilled, hapart⟩
    exact ⟨fun text h => hfilled text (List.mem_cons_of_mem _ h),
      fun text text' h => hapart text text' (List.infix_cons h)⟩
  · rintro ⟨hfilled, hapart⟩
    constructor
    · simpa using hfilled
    · intro text text'
      rw [List.infix_cons_iff]
      simpa using hapart text text'

theorem spaced_literal :
    Spaced (.literal text :: parts) ↔ text ≠ "" ∧ ¬StartsLiteral parts ∧ Spaced parts := by
  constructor
  · rintro ⟨hfilled, hapart⟩
    refine ⟨hfilled text List.mem_cons_self, ?_, ?_, ?_⟩
    · intro hstarts
      match parts, hstarts with
      | .literal text' :: parts, _ => exact hapart text text' ⟨[], parts, rfl⟩
    · exact fun text h => hfilled text (List.mem_cons_of_mem _ h)
    · exact fun text text' h => hapart text text' (List.infix_cons h)
  · rintro ⟨htext, hstarts, hfilled, hapart⟩
    constructor
    · simpa [htext] using hfilled
    · intro text₁ text₂
      rw [List.infix_cons_iff]
      rintro (hstart | hinfix)
      · obtain ⟨after, heq⟩ := hstart
        obtain ⟨-, rfl⟩ := List.cons.inj heq
        exact hstarts trivial
      · exact hapart text₁ text₂ hinfix

theorem isNormal_nil : IsNormal [] := ⟨spaced_nil, by simp⟩

theorem isNormal_expression :
    IsNormal (.expression source :: parts) ↔ IsExpression source.toList ∧ IsNormal parts := by
  constructor
  · rintro ⟨hspaced, hexpressions⟩
    exact ⟨hexpressions source List.mem_cons_self, spaced_expression.mp hspaced,
      fun source h => hexpressions source (List.mem_cons_of_mem _ h)⟩
  · rintro ⟨hsource, hspaced, hexpressions⟩
    exact ⟨spaced_expression.mpr hspaced, by simpa [hsource] using hexpressions⟩

theorem isNormal_literal :
    IsNormal (.literal text :: parts) ↔ text ≠ "" ∧ ¬StartsLiteral parts ∧ IsNormal parts := by
  constructor
  · rintro ⟨hspaced, hexpressions⟩
    obtain ⟨htext, hstarts, hspaced⟩ := spaced_literal.mp hspaced
    exact ⟨htext, hstarts, hspaced, fun source h => hexpressions source (List.mem_cons_of_mem _ h)⟩
  · rintro ⟨htext, hstarts, hspaced, hexpressions⟩
    exact ⟨spaced_literal.mpr ⟨htext, hstarts, hspaced⟩, by simpa using hexpressions⟩

/-- Literal text that was read goes before an expression as one part, if there is any. -/
theorem IsNormal.withLiteral (h : IsNormal parts) (hstarts : ¬StartsLiteral parts) :
    IsNormal (withLiteral literal parts) := by
  unfold ValueTemplate.withLiteral
  split
  · exact h
  · rename_i hne
    refine isNormal_literal.mpr ⟨?_, hstarts, h⟩
    simpa using hne

/-! ## Reading what is written -/

theorem doubleBraces_append (a b : List Char) :
    doubleBraces (a ++ b) = doubleBraces a ++ doubleBraces b := by
  induction a with
  | nil => rfl
  | cons c a ih =>
    rw [List.cons_append, doubleBraces, doubleBraces, ih]
    split <;> rfl

/-- What is written for some parts with literal text before them, if nothing is for none. -/
theorem flatMap_withLiteral {f : ValuePart → List Char} (hempty : f (.literal "") = [])
    (literal : List Char) (parts : List ValuePart) :
    (withLiteral literal parts).flatMap f =
      f (.literal (String.ofList literal)) ++ parts.flatMap f := by
  unfold withLiteral
  split
  · rename_i hnone
    rw [List.isEmpty_iff.mp hnone]
    exact (congrArg (· ++ parts.flatMap f) hempty).symm
  · rw [List.flatMap_cons]

/-- Doubled braces are read as the text they stand for. -/
theorem partsFrom_doubleBraces (text literal rest : List Char) :
    partsFrom literal (doubleBraces text ++ rest) = partsFrom (literal ++ text) rest := by
  induction text generalizing literal with
  | nil => rw [doubleBraces, List.nil_append, List.append_nil]
  | cons c text ih =>
    have hnext := ih (literal ++ [c])
    rw [List.append_assoc, List.singleton_append] at hnext
    rw [← hnext, doubleBraces]
    by_cases hbrace : c = '{' ∨ c = '}'
    · rw [if_pos hbrace, List.cons_append, List.cons_append]
      rcases hbrace with rfl | rfl <;> rw [partsFrom]
    · rw [if_neg hbrace, List.cons_append, partsFrom_cons (not_or.mp hbrace)]

/-- What is between two single braces is read as one expression. -/
theorem partsFrom_expression (he : IsExpression e) (literal rest : List Char) :
    partsFrom literal ('{' :: (e ++ '}' :: rest)) =
      (partsFrom [] rest).map fun parts =>
        withLiteral literal (.expression (String.ofList e) :: parts) := by
  have hend := expressionEnd_append he.closes rest
  have hstart : (e ++ '}' :: rest).head? ≠ some '{' := by
    cases e with
    | nil => simp
    | cons c e => exact he.start
  generalize e ++ '}' :: rest = cs at hend hstart ⊢
  rw [partsFrom]
  · split
    · rename_i hnone
      rw [hnone] at hend
      cases hend
    · rename_i source rest' hsome
      rw [hsome] at hend
      cases hend
      rfl
  · rintro rest' rfl
    exact hstart rfl

/-- Parts in normal form are read from what is written for them, after literal text if no
literal is next. -/
theorem partsFrom_flatMap_renderPart (h : IsNormal parts)
    (hliteral : StartsLiteral parts → literal = []) :
    partsFrom literal (parts.flatMap renderPart) = .ok (withLiteral literal parts) := by
  induction parts generalizing literal with
  | nil => rw [List.flatMap_nil, partsFrom]
  | cons part parts ih =>
    rw [List.flatMap_cons]
    cases part with
    | literal text =>
      obtain ⟨htext, hstarts, hparts⟩ := isNormal_literal.mp h
      obtain rfl := hliteral trivial
      have hfilled : text.toList.isEmpty = false := by simpa using htext
      rw [renderPart, partsFrom_doubleBraces, ih hparts fun hnext => absurd hnext hstarts,
        List.nil_append, withLiteral, hfilled, withLiteral, String.ofList_toList]
      rfl
    | expression source =>
      obtain ⟨hsource, hparts⟩ := isNormal_expression.mp h
      rw [renderPart, List.cons_append, List.append_assoc, List.singleton_append,
        partsFrom_expression hsource, ih hparts fun _ => rfl, String.ofList_toList]
      rfl

theorem isNormal_of_partsFrom (h : partsFrom literal cs = .ok parts) :
    parts.flatMap renderPart = doubleBraces literal ++ cs ∧ IsNormal parts := by
  fun_induction partsFrom literal cs generalizing parts with
  | case1 literal =>
    obtain rfl := Except.ok.inj h
    refine ⟨?_, isNormal_nil.withLiteral id⟩
    rw [flatMap_withLiteral rfl, renderPart, String.toList_ofList]
    rfl
  | case2 literal rest ih | case3 literal rest ih =>
    obtain ⟨hrender, hnormal⟩ := ih h
    refine ⟨?_, hnormal⟩
    rw [hrender, doubleBraces_append, List.append_assoc]
    rfl
  | case4 | case5 => cases h
  | case6 literal rest hsingle source rest' hend _ ih =>
    obtain ⟨parts', hparts, hok⟩ := bind_eq_ok_iff.mp h
    obtain rfl := Except.ok.inj hok
    obtain ⟨hrender, hnormal⟩ := ih hparts
    obtain ⟨rfl, hcloses⟩ := closesAfter_of_expressionEnd hend
    have hsource : IsExpression source := by
      refine ⟨fun hstart => ?_, hcloses⟩
      obtain ⟨source', rfl⟩ := List.head?_eq_some_iff.mp hstart
      exact hsingle _ rfl
    refine ⟨?_, (isNormal_expression.mpr ⟨?_, hnormal⟩).withLiteral id⟩
    · rw [flatMap_withLiteral rfl, List.flatMap_cons, hrender, renderPart, renderPart,
        String.toList_ofList, String.toList_ofList]
      simp [doubleBraces]
    · rwa [String.toList_ofList]
  | case7 literal c rest _ _ hclose hopen ih =>
    obtain ⟨hrender, hnormal⟩ := ih h
    refine ⟨?_, hnormal⟩
    rw [hrender, doubleBraces_append, List.append_assoc]
    rw [doubleBraces, if_neg (not_or.mpr ⟨hopen, hclose⟩)]
    rfl

/-- Reading a value template and writing its parts are each other's inverse, on parts in
normal form. -/
theorem parse_eq_ok_iff_rendered (source : String) (parts : List ValuePart) :
    parse source = .ok parts ↔ render parts = source ∧ IsNormal parts := by
  constructor
  · intro h
    obtain ⟨hrender, hnormal⟩ := isNormal_of_partsFrom h
    refine ⟨?_, hnormal⟩
    rw [render, hrender]
    exact String.ofList_toList
  · rintro ⟨rfl, hnormal⟩
    rw [parse, render, String.toList_ofList]
    exact partsFrom_flatMap_renderPart hnormal fun _ => rfl

end ValueTemplate
end TagGrammar
