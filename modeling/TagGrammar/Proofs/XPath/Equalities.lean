/-
Disjunctions of equalities with one operand.

The leaves of an expression are what its outermost operators `or` join, however they are nested.
An equality compares an operand, which is a variable, an attribute or the current node, with a
constant on either side.  An expression has equality terms exactly if all of its leaves are
equalities of the same operand, and the terms are that operand and the constants from left to
right (`equalityTerms?_recognizes`).  Operands are compared as they are displayed, which tells
any two apart (`IsOperand.eq_of_display`).
-/
import TagGrammar.Proofs.Except
import TagGrammar.XPath.Analysis

namespace TagGrammar
namespace XPath
namespace Expr

variable {e d operand : Expr} {ds : List Expr} {key value : String} {values : List String}

/-! ## Shapes -/

/-- The expressions that `or` joins in an expression, from left to right. -/
inductive Leaves : Expr → List Expr → Prop where
  | leaf {e : Expr} (h : ∀ left right, e ≠ .binary left .or right) : Leaves e [e]
  | or {left right : Expr} {ls rs : List Expr} (hl : Leaves left ls) (hr : Leaves right rs) :
    Leaves (.binary left .or right) (ls ++ rs)

/-- A variable, exactly one attribute, or the current node. -/
inductive IsOperand : Expr → Prop where
  | variable (name : String) : IsOperand (.variable name)
  | attribute {name : String} (h : '*' ∉ name.toList) :
    IsOperand (.path false [.mk .attributes (.name name) []])
  | here : IsOperand (.path false [.here])

/-- A literal or a number, and its text. -/
inductive IsConstant : Expr → String → Prop where
  | literal (value : String) : IsConstant (.literal value) value
  | number (n : Number) : IsConstant (.number n) n.display

/-- An equality of an operand and the constant of a text, in either order. -/
inductive Equates : Expr → Expr → String → Prop where
  | operandFirst {operand constant : Expr} {value : String} (ho : IsOperand operand)
    (hc : IsConstant constant value) : Equates (.binary operand .equal constant) operand value
  | constantFirst {operand constant : Expr} {value : String} (ho : IsOperand operand)
    (hc : IsConstant constant value) : Equates (.binary constant .equal operand) operand value

theorem leaves_disjuncts (e : Expr) : Leaves e e.disjuncts := by
  fun_induction disjuncts e with
  | case1 left right ihl ihr => exact .or ihl ihr
  | case2 e h => exact .leaf h

theorem Leaves.eq_disjuncts (h : Leaves e ds) : ds = e.disjuncts := by
  induction h with
  | leaf h =>
    rw [disjuncts]
    exact h
  | or hl hr ihl ihr => rw [disjuncts, ← ihl, ← ihr]

theorem leaves_iff : Leaves e ds ↔ ds = e.disjuncts :=
  ⟨Leaves.eq_disjuncts, fun h => h ▸ leaves_disjuncts e⟩

theorem Leaves.ne_nil (h : Leaves e ds) : ds ≠ [] := by
  induction h with
  | leaf h => exact List.cons_ne_nil _ _
  | or hl hr ihl ihr => exact List.append_ne_nil_of_left_ne_nil ihl _

theorem isComparable_iff : e.isComparable = true ↔ IsOperand e := by
  constructor
  · intro h
    unfold isComparable at h
    split at h
    · exact .variable _
    · rw [Bool.or_eq_true] at h
      rcases h with h | h
      · unfold asAttribute? at h
        split at h
        · split at h
          · cases h
          · rename_i name hstar
            exact .attribute fun hmem => hstar (List.contains_iff_mem.mpr hmem)
        · cases h
      · unfold isContextItem at h
        split at h
        · exact .here
        · cases h
  · rintro (_ | hstar | _)
    · rfl
    · simp [isComparable, asAttribute?, hstar]
    · rfl

theorem constant?_eq_some_iff : e.constant? = some value ↔ IsConstant e value := by
  constructor
  · intro h
    cases e with
    | literal value =>
      cases h
      exact .literal value
    | number n =>
      cases h
      exact .number n
    | _ => cases h
  · rintro (_ | _) <;> rfl

theorem IsOperand.constant?_eq_none (h : IsOperand e) : e.constant? = none := by
  cases h <;> rfl

theorem equality?_eq_some_iff : d.equality? = some (operand, value) ↔ Equates d operand value := by
  constructor
  · intro h
    unfold equality? at h
    split at h
    · split at h
      · rename_i hconstant
        obtain ⟨hcomparable, heq⟩ := Option.ite_none_right_eq_some.mp h
        cases heq
        exact .operandFirst (isComparable_iff.mp hcomparable) (constant?_eq_some_iff.mp hconstant)
      · rename_i hconstant _
        obtain ⟨hcomparable, heq⟩ := Option.ite_none_right_eq_some.mp h
        cases heq
        exact .constantFirst (isComparable_iff.mp hcomparable) (constant?_eq_some_iff.mp hconstant)
      · cases h
    · cases h
  · rintro (⟨ho, hc⟩ | ⟨ho, hc⟩)
    · simp [equality?, ho.constant?_eq_none, constant?_eq_some_iff.mpr hc, isComparable_iff.mpr ho]
    · simp [equality?, ho.constant?_eq_none, constant?_eq_some_iff.mpr hc, isComparable_iff.mpr ho]

theorem Equates.isOperand (h : Equates d operand value) : IsOperand operand := by
  cases h with
  | operandFirst ho _ => exact ho
  | constantFirst ho _ => exact ho

/-! ## Operands as they are displayed -/

theorem display_variable (name : String) : (Expr.variable name).display = "$" ++ name := by
  rw [display]

theorem display_attribute (name : String) :
    (Expr.path false [.mk .attributes (.name name) []]).display = "@" ++ name := by
  have hstep : (Step.mk .attributes (.name name) []).display = "@" ++ name := by
    unfold Step.display
    rw [displayPredicates, String.append_empty]
    rfl
  rw [display, displaySteps, displayTrailing, hstep, if_neg Bool.false_ne_true,
    String.empty_append, String.append_empty]

theorem display_here : (Expr.path false [.here]).display = "." := by
  rw [display, displaySteps, displayTrailing, Step.here, Step.display, if_neg Bool.false_ne_true,
    String.empty_append, String.append_empty]

/-- The first character tells the kind of an operand, and the rest is its name. -/
theorem IsOperand.eq_of_display {o o' : Expr} (h : IsOperand o) (h' : IsOperand o')
    (heq : o.display = o'.display) : o = o' := by
  rw [← String.toList_inj] at heq
  cases h <;> cases h' <;>
    simp only [display_variable, display_attribute, display_here, String.toList_append] at heq
  case variable.variable => simpa [String.toList_inj] using heq
  case attribute.attribute => simpa [String.toList_inj] using heq
  case here.here => rfl
  all_goals simp at heq

/-! ## Equality terms -/

/-- Terms that have been read are all of one operand if they are displayed like the first one. -/
theorem eq_map_of_sameDisplay {terms : List (Expr × String)}
    (hterms : List.Forall₂ (fun d t => d.equality? = some t) ds terms) (ho : IsOperand operand)
    (h : ∀ t ∈ terms, t.1.display = operand.display) :
    terms = (terms.map Prod.snd).map (Prod.mk operand) := by
  have hoperands : ∀ t ∈ terms, IsOperand t.1 :=
    ((List.forall₂_and_left _ _).mp (hterms.imp fun d t ht =>
      And.intro (equality?_eq_some_iff.mp ht).isOperand ht).flip).1
  rw [List.map_map]
  refine (List.map_id terms).symm.trans (List.map_congr_left fun t ht => ?_)
  exact Prod.ext ((hoperands t ht).eq_of_display ho (h t ht)) rfl

theorem equalityTerms?_eq_some_iff : e.equalityTerms? = some (key, values) ↔
    ∃ operand, IsOperand operand ∧ key = operand.display ∧
      List.Forall₂ (fun d value => Equates d operand value) e.disjuncts values := by
  constructor
  · intro h
    obtain ⟨terms, hterms, h⟩ := Option.bind_eq_some_iff.mp h
    have hread := mapM_eq_some_iff.mp hterms
    split at h
    · cases h
    · rename_i operand first rest
      obtain ⟨hsame, heq⟩ := Option.ite_none_right_eq_some.mp h
      cases heq
      have ho : IsOperand operand := by
        obtain ⟨d, ds, hd, -, -⟩ := List.forall₂_cons_right_iff.mp hread
        exact (equality?_eq_some_iff.mp hd).isOperand
      have hdisplay : ∀ t ∈ (operand, first) :: rest, t.1.display = operand.display :=
        fun t ht => beq_iff_eq.mp (List.all_eq_true.mp hsame t ht)
      rw [eq_map_of_sameDisplay hread ho hdisplay, List.forall₂_map_right_iff] at hread
      exact ⟨operand, ho, rfl, hread.imp fun d value hd => equality?_eq_some_iff.mp hd⟩
  · rintro ⟨operand, ho, rfl, hvalues⟩
    have hterms : e.disjuncts.mapM equality? = some (values.map (Prod.mk operand)) :=
      mapM_eq_some_iff.mpr (List.forall₂_map_right_iff.mpr
        (hvalues.imp fun d value hd => equality?_eq_some_iff.mpr hd))
    cases values with
    | nil => exact absurd (List.forall₂_nil_right_iff.mp hvalues) (leaves_disjuncts e).ne_nil
    | cons value values =>
      rw [equalityTerms?, hterms]
      simp [Function.comp_def]

/-- The terms of a disjunction are recognized exactly if its leaves, which are determined, all
equate one operand, and the key is as good as the operand. -/
theorem equalityTerms?_recognizes (e : Expr) :
    (∃ ds, (∀ ds', Leaves e ds' ↔ ds' = ds) ∧
      ∀ key values, e.equalityTerms? = some (key, values) ↔
        ∃ operand, IsOperand operand ∧ key = operand.display ∧
          List.Forall₂ (fun d value => Equates d operand value) ds values) ∧
    ∀ o o', IsOperand o → IsOperand o' → o.display = o'.display → o = o' :=
  ⟨⟨e.disjuncts, fun _ => leaves_iff, fun _ _ => equalityTerms?_eq_some_iff⟩,
    fun _ _ h h' heq => h.eq_of_display h' heq⟩

/-- The attribute that is compared below. -/
def comparedAttribute : Expr := .path false [.mk .attributes (.name "x") []]

/-- Three equalities with the attribute, the last two joined first, one of them turned around. -/
def nestedEqualities : Expr :=
  .binary (.binary comparedAttribute .equal (.number (.ofRatio 1 1))) .or
    (.binary (.binary (.literal "a") .equal comparedAttribute) .or
      (.binary comparedAttribute .equal (.number (.ofRatio 5 2))))

theorem equalityTerms?_recognizes_nestedEqualities :
    IsOperand comparedAttribute ∧
      nestedEqualities.equalityTerms? = some ("@x", ["1", "a", "2.5"]) ∧
      (Expr.variable "x").display ≠ comparedAttribute.display := by
  have ho : IsOperand comparedAttribute := .attribute (by decide)
  have hone : (Number.ofRatio 1 1).display = "1" := by decide +kernel
  have htwo : (Number.ofRatio 5 2).display = "2.5" := by decide +kernel
  obtain ⟨⟨ds, hleaves, hterms⟩, -⟩ := equalityTerms?_recognizes nestedEqualities
  obtain ⟨-, hdisplay⟩ := equalityTerms?_recognizes comparedAttribute
  refine ⟨ho, (hterms _ _).mpr ⟨comparedAttribute, ho, (display_attribute "x").symm, ?_⟩, ?_⟩
  · rw [← (hleaves _).mp (.or (.leaf (by simp)) (.or (.leaf (by simp)) (.leaf (by simp)))),
      ← hone, ← htwo]
    exact .cons (.operandFirst ho (.number _)) (.cons (.constantFirst ho (.literal "a"))
      (.cons (.operandFirst ho (.number _)) .nil))
  · intro heq
    exact absurd (hdisplay _ _ (.variable "x") ho heq) (by simp [comparedAttribute])

end Expr
end XPath
end TagGrammar
