/-
Value templates: text with expressions in braces.

The value of an attribute is literal text, in which a brace is written twice, mixed
with expressions between single braces.  A brace inside a quoted part of an
expression does not end it.  `render` is the other direction, and the parts of a
value are determined by it.
-/

namespace TagGrammar

/-- A part of a value template. -/
inductive ValuePart where
  | literal (text : String)
  | expression (source : String)
deriving DecidableEq

/-- Why a text is not a value template. -/
inductive ValueTemplateError where
  | unterminatedExpression
  | unmatchedCloseBrace
deriving DecidableEq

/-- The wording of each cause. -/
def ValueTemplateError.message : ValueTemplateError → String
  | unterminatedExpression => "Unterminated expression in attribute value template"
  | unmatchedCloseBrace => "Unmatched '\x7d' in attribute value template"

namespace ValueTemplate

/-- Put literal text before some parts, unless it is empty. -/
def withLiteral (literal : List Char) (parts : List ValuePart) : List ValuePart :=
  if literal.isEmpty then parts else .literal (String.ofList literal) :: parts

/-- The characters of an expression up to the brace that ends it, and what follows
that brace.  Inside a quoted part, opened by the given quote, only that quote counts. -/
def expressionEnd : Option Char → List Char → Option (List Char × List Char)
  | _, [] => none
  | none, c :: rest =>
    if c = '}' then some ([], rest)
    else (expressionEnd (if c = '"' ∨ c = '\'' then some c else none) rest).map
      fun r => (c :: r.1, r.2)
  | some q, c :: rest =>
    (expressionEnd (if c = q then none else some q) rest).map fun r => (c :: r.1, r.2)

theorem length_of_expressionEnd {q : Option Char} {cs e rest : List Char}
    (h : expressionEnd q cs = some (e, rest)) : rest.length < cs.length := by
  induction cs generalizing q e rest with
  | nil => cases q <;> simp [expressionEnd] at h
  | cons c cs ih =>
    have step {q' : Option Char}
        (h : (expressionEnd q' cs).map (fun r => (c :: r.1, r.2)) = some (e, rest)) :
        rest.length < (c :: cs).length := by
      obtain ⟨⟨e', rest'⟩, hr, heq⟩ := Option.map_eq_some_iff.mp h
      obtain rfl : rest' = rest := congrArg Prod.snd heq
      exact Nat.lt_succ_of_lt (ih hr)
    cases q with
    | none =>
      simp only [expressionEnd] at h
      split at h
      · obtain rfl : cs = rest := congrArg Prod.snd (Option.some.inj h)
        exact Nat.lt_succ_self _
      · exact step h
    | some q => exact step h

/-- The parts of a text after some literal text that has been read already. -/
def partsFrom (literal : List Char) (cs : List Char) :
    Except ValueTemplateError (List ValuePart) :=
  match cs with
  | [] => .ok (withLiteral literal [])
  | '{' :: '{' :: rest => partsFrom (literal ++ ['{']) rest
  | '}' :: '}' :: rest => partsFrom (literal ++ ['}']) rest
  | '}' :: _ => .error .unmatchedCloseBrace
  | '{' :: rest =>
    match h : expressionEnd none rest with
    | none => .error .unterminatedExpression
    | some (source, rest') => do
      have := length_of_expressionEnd h
      let parts ← partsFrom [] rest'
      .ok (withLiteral literal (.expression (String.ofList source) :: parts))
  | c :: rest => partsFrom (literal ++ [c]) rest
termination_by cs.length

/-- Split a value template into its parts. -/
def parse (source : String) : Except ValueTemplateError (List ValuePart) :=
  partsFrom [] source.toList

/-- The sources of the expressions among some parts. -/
def expressions (parts : List ValuePart) : List String :=
  parts.filterMap fun
    | .expression source => some source
    | .literal _ => none

/-- Whether there is no expression among some parts. -/
def isLiteral (parts : List ValuePart) : Bool :=
  parts.all fun
    | .literal _ => true
    | .expression _ => false

/-- The literal text before the first expression. -/
def leadingLiteral : List ValuePart → String
  | .literal text :: _ => text
  | _ => ""

/-- The text of a value template that has no expressions. -/
def literalText? (source : String) : Option String :=
  match parse source with
  | .error _ => none
  | .ok parts =>
    if isLiteral parts then
      some (String.join (parts.map fun
        | .literal text => text
        | .expression source => source))
    else none

/-- Literal text with every brace written twice. -/
def doubleBraces : List Char → List Char
  | [] => []
  | c :: rest =>
    if c = '{' ∨ c = '}' then c :: c :: doubleBraces rest else c :: doubleBraces rest

/-- A part as it is written. -/
def renderPart : ValuePart → List Char
  | .literal text => doubleBraces text.toList
  | .expression source => '{' :: (source.toList ++ ['}'])

/-- The value template that is written for some parts. -/
def render (parts : List ValuePart) : String := String.ofList (parts.flatMap renderPart)

end ValueTemplate
end TagGrammar
