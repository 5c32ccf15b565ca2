/-
When a disjunction of equalities holds.

A literal is equal to the same text only, and a number to every numeral for it, also with
a sign before it or blanks around it.  So one text may equal a literal and a number that
are displayed differently, and two equalities of one operand with different constants
exclude each other only as far as no literal is `confusable` with a number.  Several
disjunctions joined by `or` hold together exactly if one of them holds alone.
-/
import TagGrammar.Proofs.XPath.Joined

namespace TagGrammar
namespace XPath

/-- The text, apart from blanks around it, is a decimal numeral for the number.  It may
have a sign, but below zero there is only zero itself. -/
def Number.isDenotedBy (n : Number) (text : String) : Bool :=
  match (Text.trim text).toList with
  | '-' :: cs => ofNumeral? cs == some n && n == zero
  | '+' :: cs => ofNumeral? cs == some n
  | cs => ofNumeral? cs == some n

theorem Number.eq_of_isDenotedBy {n m : Number} {text : String} (hn : n.isDenotedBy text = true)
    (hm : m.isDenotedBy text = true) : n = m := by
  have same : ∀ cs, (ofNumeral? cs == some n) = true → (ofNumeral? cs == some m) = true →
      n = m := by
    intro cs h h'
    rw [beq_iff_eq] at h h'
    exact Option.some.inj (h.symm.trans h')
  unfold isDenotedBy at hn hm
  split at hn
  · rename_i cs hcs
    simp only [hcs, Bool.and_eq_true] at hn hm
    exact same cs hn.1 hm.1
  · rename_i cs hcs
    simp only [hcs] at hm
    exact same cs hn hm
  · rename_i hminus hplus
    split at hm
    · rename_i cs hcs
      exact (hminus cs hcs).elim
    · rename_i cs hcs
      exact (hplus cs hcs).elim
    · exact same _ hn hm

namespace Expr

/-- Whether a constant is equal to a text. -/
def equalsText (text : String) : Expr → Bool
  | .literal value => value == text
  | .number n => n.isDenotedBy text
  | _ => false

/-- The operand and the constant of an equality, on whichever side the constant is. -/
def compared? : Expr → Option (Expr × Expr)
  | .binary left .equal right =>
    if left.constant?.isSome then some (right, left) else some (left, right)
  | _ => none

/-- Whether an equality holds where operands have values by how they are displayed. -/
def equalityHolds (values : String → String) (e : Expr) : Bool :=
  e.compared?.any fun c => c.2.equalsText (values c.1.display)

/-- Whether a disjunction of equalities holds. -/
def holds (values : String → String) : Expr → Bool
  | .binary left .or right => left.holds values || right.holds values
  | e => e.equalityHolds values

/-- The constants of a disjunction of equalities. -/
def constants (e : Expr) : List Expr :=
  e.disjuncts.filterMap fun d => d.compared?.map Prod.snd

/-- A literal and a number that one text is equal to. -/
def confusable : Expr → Expr → Bool
  | .literal value, .number n => n.isDenotedBy value
  | .number n, .literal value => n.isDenotedBy value
  | _, _ => false

/-- Whether a text is a disjunction that holds. -/
def holdsIn (values : String → String) (source : String) : Bool :=
  (Expr.parse source).toOption.any (holds values)

variable {values : String → String}

theorem holds_eq_any (e : Expr) : e.holds values = e.disjuncts.any (equalityHolds values) := by
  fun_induction disjuncts e with
  | case1 left right ihl ihr => rw [holds, List.any_append, ihl, ihr]
  | case2 e h =>
    rw [List.any_cons, List.any_nil, Bool.or_false]
    unfold holds
    split
    · exact (h _ _ rfl).elim
    · rfl

theorem holdsIn_eq_any (source : String) :
    holdsIn values source = (leaves source).any (equalityHolds values) := by
  unfold holdsIn leaves
  cases h : Expr.parse source with
  | error e => rfl
  | ok e => exact holds_eq_any e

theorem compared?_of_equality? {d operand : Expr} {value : String}
    (h : d.equality? = some (operand, value)) :
    ∃ c, d.compared? = some (operand, c) ∧ c.constant? = some value := by
  cases equality?_eq_some_iff.mp h with
  | @operandFirst _ c _ ho hc =>
    exact ⟨c, by simp [compared?, ho.constant?_eq_none], constant?_eq_some_iff.mpr hc⟩
  | @constantFirst _ c _ ho hc =>
    have hc := constant?_eq_some_iff.mpr hc
    exact ⟨c, by simp [compared?, hc], hc⟩

/-- One text is equal to two constants that are displayed differently only if a literal
among them is confusable with a number. -/
theorem confusable_of_equalsText {c d : Expr} {x y text : String} (hc : c.constant? = some x)
    (hd : d.constant? = some y) (hne : x ≠ y) (h : c.equalsText text = true)
    (h' : d.equalsText text = true) : c.confusable d = true := by
  cases c with
  | literal v =>
    obtain rfl : v = text := by simpa [equalsText] using h
    cases d with
    | literal v' =>
      obtain rfl : v' = v := by simpa [equalsText] using h'
      cases hc
      cases hd
      exact absurd rfl hne
    | number n => exact h'
    | _ => cases hd
  | number n =>
    cases d with
    | literal v' =>
      obtain rfl : v' = text := by simpa [equalsText] using h'
      exact h
    | number m =>
      have hn : n.isDenotedBy text = true := h
      have hm : m.isDenotedBy text = true := h'
      obtain rfl : n = m := Number.eq_of_isDenotedBy hn hm
      cases hc
      cases hd
      exact absurd rfl hne
    | _ => cases hd
  | _ => cases hc

/-- A disjunction of equalities of one operand holds by one of its constants. -/
theorem exists_constant_of_holds {e : Expr} {key : String} {texts : List String}
    (h : e.equalityTerms? = some (key, texts)) (hholds : e.holds values = true) :
    ∃ c ∈ e.constants, ∃ x ∈ texts, c.constant? = some x ∧ c.equalsText (values key) = true := by
  rw [holds_eq_any] at hholds
  obtain ⟨d, hd, hholds⟩ := List.any_eq_true.mp hholds
  obtain ⟨operand, x, heq, rfl, hx⟩ := equality?_of_equalityTerms? h d hd
  obtain ⟨c, hcompared, hc⟩ := compared?_of_equality? heq
  have hequal : c.equalsText (values operand.display) = true := by
    simpa [equalityHolds, hcompared] using hholds
  have hmem : c ∈ e.constants := List.mem_filterMap.mpr ⟨d, hd, by rw [hcompared]; rfl⟩
  exact ⟨c, hmem, x, hx, hc, hequal⟩

/-- Disjunctions that compare one operand with different constants exclude each other if
no literal of one is confusable with a number of the other. -/
theorem not_holds_of_holds {e e' : Expr} {key : String} {texts texts' : List String}
    (h : e.equalityTerms? = some (key, texts)) (h' : e'.equalityTerms? = some (key, texts'))
    (hdistinct : ∀ x ∈ texts, x ∉ texts')
    (happart : ∀ c ∈ e.constants, ∀ d ∈ e'.constants, c.confusable d = false)
    (hholds : e.holds values = true) : e'.holds values = false := by
  rw [Bool.eq_false_iff]
  intro hboth
  obtain ⟨c, hc, x, hx, hcx, hequal⟩ := exists_constant_of_holds h hholds
  obtain ⟨d, hd, y, hy, hdy, hequal'⟩ := exists_constant_of_holds h' hboth
  have hne : x ≠ y := fun hxy => hdistinct x hx (hxy ▸ hy)
  have hconf := confusable_of_equalsText hcx hdy hne hequal hequal'
  rw [happart c hc d hd] at hconf
  cases hconf

/-- Disjunctions of equalities joined by `or` hold together if one of them holds. -/
theorem holdsIn_intercalate {sources : List String}
    (h : ∀ s ∈ sources, ∃ e, Expr.parse s = .ok e ∧ e.equalityTerms?.isSome = true) :
    holdsIn values (String.intercalate " or " sources) = sources.any (holdsIn values) := by
  by_cases hne : sources = []
  · rw [hne]
    rfl
  · have hread : ∀ s ∈ sources, ∃ e, Expr.parse s = .ok e :=
      fun s hs => (h s hs).imp fun _ => And.left
    have hend : ∀ s ∈ sources.dropLast, endsOnSlash s = false := by
      intro s hs
      obtain ⟨e, he, hterms⟩ := h s (List.dropLast_subset sources hs)
      exact endsOnSlash_of_isClosed he (isClosed_of_equalityTerms? hterms)
    obtain ⟨e, he, hleaves⟩ := parse_intercalate hne hread hend
    calc holdsIn values (String.intercalate " or " sources)
        = e.holds values := by simp [holdsIn, he, Except.toOption]
      _ = (sources.flatMap leaves).any (equalityHolds values) := by rw [holds_eq_any, hleaves]
      _ = sources.any (holdsIn values) := by
        rw [List.any_flatMap]
        exact congrArg sources.any (funext fun s => (holdsIn_eq_any s).symm)

end Expr
end XPath
end TagGrammar
