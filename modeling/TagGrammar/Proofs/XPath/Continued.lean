/-
Expressions that go on.

The derivation of an expression says how its tokens end: in the slash of a root or in a token
after which an operator is expected.  It also says how an expression goes on with `or`: the
operands of a disjunction can be taken one by one onto what is before them, so two
expressions with an `or` between them are one expression, whose leaves are those of both.
-/
import TagGrammar.Proofs.XPath.Calls

namespace TagGrammar
namespace XPath
open Lexer (operatorExpected)

/-- An expression whose last operand is not the root, so that its text does not end in the
slash of it. -/
def Expr.isClosed : Expr → Bool
  | .path true [] => false
  | .binary _ _ right => right.isClosed
  | .negate operand => operand.isClosed
  | _ => true

/-- An operator is expected after the last of some tokens. -/
def Closes (ts : List Token) : Prop := operatorExpected ts.getLast? = true

theorem Closes.append {b : List Token} (a : List Token) (h : Closes b) : Closes (a ++ b) := by
  cases hb : b.getLast? with
  | none => simp [Closes, hb, operatorExpected] at h
  | some t => simpa [Closes, List.getLast?_append, hb] using h

theorem Closes.cons {b : List Token} (t : Token) (h : Closes b) : Closes (t :: b) :=
  h.append [t]

/-- Nothing, or something after which an operator is expected. -/
def Settles (ts : List Token) : Prop := ts = [] ∨ Closes ts

theorem Closes.append_settles {a b : List Token} (ha : Closes a) (hb : Settles b) :
    Closes (a ++ b) := by
  rcases hb with rfl | hb
  · simpa using ha
  · exact hb.append a

/-- How the tokens of a phrase end. -/
def Phrase.EndsIn : Phrase → List Token → Prop
  | operation _ e | path e => fun ts => e.isClosed = true → Closes ts
  | predicates _ | trailing _ => Settles
  | steps _ | step _ | test _ | primary _ => Closes
  | arguments _ => fun _ => True

theorem Derives.endsIn {ts : List Token} {phrase : Phrase} (h : Derives ts phrase) :
    phrase.EndsIn ts := by
  induction h with
  | operand _ _ ih | ofPath _ ih => exact ih
  | binary _ _ _ ihr => exact fun hclosed => ((ihr hclosed).cons _).append _
  | negate _ ih => exact fun hclosed => (ih hclosed).cons _
  | root => exact fun hclosed => nomatch hclosed
  | absolute _ ih | anywhere _ ih => exact fun _ => ih.cons _
  | relative _ ih | alone _ ih => exact fun _ => ih
  | filter _ _ _ _ ihe ihps ihss => exact fun _ => (ihe.append_settles ihps).append_settles ihss
  | oneStep _ ih => exact ih
  | stepChild _ _ _ ihss | stepBelow _ _ _ ihss => exact (ihss.cons _).append _
  | noTrailing | noPredicates => exact Or.inl rfl
  | trailingChild _ ih | trailingBelow _ ih => exact Or.inr (ih.cons _)
  | plain _ _ iht ihps => exact iht.append_settles ihps
  | attributes _ _ iht ihps => exact (iht.append_settles ihps).cons _
  | along _ _ iht ihps => exact ((iht.append_settles ihps).cons _).cons _
  | predicate _ _ _ ihps =>
    have hbracket : Closes [.rightBracket] := rfl
    exact Or.inr (((hbracket.append_settles ihps).append _).cons _)
  | parens =>
    have hparen : Closes [.rightParen] := rfl
    exact (hparen.append _).cons _
  | call =>
    have hparen : Closes [.rightParen] := rfl
    exact ((hparen.append _).cons _).cons _
  | here | up | name | comment | text | node | instruction | instructionFor | variableName
  | literal | number | emptyCall => exact rfl
  | oneArgument | argument => trivial

/-- An operation ends in the root, or an operator is expected after it. -/
def Phrase.EndsInRootOr : Phrase → List Token → Prop
  | operation _ _ | path _ => fun ts => Closes ts ∨ ts.getLast? = some .slash
  | _ => fun _ => True

theorem Derives.endsInRootOr {ts : List Token} {phrase : Phrase} (h : Derives ts phrase) :
    phrase.EndsInRootOr ts := by
  have happend : ∀ {us : List Token} (ts : List Token), Closes us ∨ us.getLast? = some .slash →
      Closes (ts ++ us) ∨ (ts ++ us).getLast? = some .slash := by
    intro us ts hus
    exact hus.imp (Closes.append ts) fun hlast => by simp [List.getLast?_append, hlast]
  induction h with
  | operand _ _ ih | ofPath _ ih => exact ih
  | @binary op ts us _ _ _ _ _ ihr => exact happend ts (happend [.operator op] ihr)
  | negate _ ih => exact happend [.operator .minus] ih
  | root => exact Or.inr rfl
  | absolute h =>
    have hsteps : Closes _ := h.endsIn
    exact Or.inl (hsteps.cons _)
  | anywhere h =>
    have hsteps : Closes _ := h.endsIn
    exact Or.inl (hsteps.cons _)
  | relative h => exact Or.inl h.endsIn
  | alone h => exact Or.inl h.endsIn
  | filter he hps hss hne => exact Or.inl ((Derives.filter he hps hss hne).endsIn rfl)
  | _ => trivial

/-- Two expressions with `or` between them are one, with the leaves of both. -/
theorem Derives.append_or {ts₁ ts₂ : List Token} {e₁ e₂ : Expr}
    (h₁ : Derives ts₁ (.operation 0 e₁)) (h₂ : Derives ts₂ (.operation 0 e₂)) :
    ∃ e, Derives (ts₁ ++ .operator .or :: ts₂) (.operation 0 e) ∧
      e.disjuncts = e₁.disjuncts ++ e₂.disjuncts := by
  generalize hphrase : Phrase.operation 0 e₂ = phrase at h₂
  induction h₂ generalizing e₂ with
  | @operand k us e hk h _ =>
    obtain ⟨rfl, rfl⟩ := Phrase.operation.inj hphrase
    exact ⟨.binary e₁ .or e₂, @Derives.binary .or _ _ _ _ h₁ h, rfl⟩
  | @binary op us vs left right hl hr ih _ =>
    obtain ⟨hrank, rfl⟩ := Phrase.operation.inj hphrase
    obtain rfl : op = .or := by
      cases op <;> first | rfl | cases hrank
    obtain ⟨e, he, hleaves⟩ := ih rfl
    refine ⟨.binary e .or right, ?_, by simp [Expr.disjuncts, hleaves]⟩
    rw [← List.cons_append, ← List.append_assoc]
    exact @Derives.binary .or _ _ _ _ he hr
  | _ => cases hphrase

end XPath
end TagGrammar
