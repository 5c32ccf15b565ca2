/-
Expressions joined by `or`.

Texts are joined by writing `or` with blanks around it between them, so that the blanks
keep the tokens of each apart.  A token is read in the same way before such a joint as at
the end of the text, because nothing there goes on with a name or a number and no name is
classified by it.  `or` itself is an operator there if the text before it ends in an
operand.  Hence texts of expressions joined in this way are the text of one expression
with the leaves of all.
-/
import TagGrammar.Proofs.XPath.Continued
import TagGrammar.Proofs.XPath.Equalities

namespace TagGrammar
namespace XPath
namespace Lexer

variable {previous : Option Token} {cs rest w : List Char} {t : Token}

theorem skipBlanks_append (cs w : List Char) :
    Text.skipBlanks (cs ++ ' ' :: 'o' :: w) =
      if Text.skipBlanks cs = [] then 'o' :: w else Text.skipBlanks cs ++ ' ' :: 'o' :: w := by
  induction cs with
  | nil => rfl
  | cons c cs ih =>
    by_cases hc : Text.isBlank c = true
    · rw [List.cons_append, Text.skipBlanks_cons_of_blank hc, Text.skipBlanks_cons_of_blank hc, ih]
    · have hc : Text.isBlank c = false := by simpa using hc
      rw [List.cons_append, Text.skipBlanks_cons_of_not_blank hc,
        Text.skipBlanks_cons_of_not_blank hc]
      rfl

theorem ahead_append (cs w : List Char) : ahead (cs ++ ' ' :: 'o' :: w) = ahead cs := by
  rw [ahead, ahead, skipBlanks_append]
  by_cases hblank : Text.skipBlanks cs = []
  · rw [if_pos hblank, hblank]
    rfl
  · rw [if_neg hblank]
    obtain ⟨c, x, hx⟩ := List.exists_cons_of_ne_nil hblank
    rw [hx]
    by_cases hparen : c = '('
    · subst hparen
      rfl
    · by_cases hcolon : c = ':'
      · subst hcolon
        cases x with
        | nil => rfl
        | cons d x =>
          by_cases hd : d = ':'
          · subst hd
            rfl
          · simp [hd]
      · simp [hparen, hcolon]

/-- A text looks the same to what is read before it if it goes on with a blank and an `o`. -/
theorem alike_append (rest w : List Char) : Alike rest (rest ++ ' ' :: 'o' :: w) where
  head := by
    cases rest with
    | nil => exact Or.inr rfl
    | cons c rest => exact Or.inl rfl
  ahead := ahead_append rest w

/-- A token is read up to a blank after it, whatever follows the blank except what would
make a name before it another one. -/
theorem token_append (h : token previous cs = .ok (t, rest)) :
    token previous (cs ++ ' ' :: 'o' :: w) = .ok (t, rest ++ ' ' :: 'o' :: w) := by
  obtain ⟨c, text, rfl, -, -, hread⟩ := token_taken h
  rw [List.append_assoc]
  exact hread _ (alike_append rest w)

/-- The tokens of a text come first among those of a longer one that goes on after a blank. -/
theorem tokensFrom_append {n k : Nat} {ts : List Token} (hn : cs.length < n)
    (hk : (cs ++ ' ' :: 'o' :: w).length < k) (h : tokensFrom n previous cs = .ok ts) :
    tokensFrom k previous (cs ++ ' ' :: 'o' :: w) =
      (ts ++ ·) <$> tokensFrom k (ts.getLast?.or previous) (' ' :: 'o' :: w) := by
  induction n generalizing k previous cs ts with
  | zero => omega
  | succ n ih =>
    obtain ⟨k, rfl⟩ : ∃ k', k = k' + 1 := ⟨k - 1, by omega⟩
    unfold tokensFrom at h
    split at h
    · rename_i hblank
      cases h
      have hskip : Text.skipBlanks (cs ++ ' ' :: 'o' :: w) = 'o' :: w := by
        rw [skipBlanks_append, if_pos hblank]
      have hsame : tokensFrom (k + 1) previous (cs ++ ' ' :: 'o' :: w) =
          tokensFrom (k + 1) previous (' ' :: 'o' :: w) := tokensFrom_congr (k + 1) rfl hskip
      rw [hsame, List.getLast?_nil, Option.none_or]
      cases tokensFrom (k + 1) previous (' ' :: 'o' :: w) <;> rfl
    · rename_i c cs' hcs
      rw [bind_eq_ok_iff] at h
      obtain ⟨⟨t, rest⟩, ht, h⟩ := h
      rw [bind_eq_ok_iff] at h
      obtain ⟨ts', hts, h⟩ := h
      cases h
      have hshort := length_of_skipBlanks hcs
      have hrest : rest.length ≤ cs'.length := (token_suffix ht).length_le
      rw [List.length_append] at hk
      have hk' : (rest ++ ' ' :: 'o' :: w).length < k := by
        rw [List.length_append]
        omega
      have hskip : Text.skipBlanks (cs ++ ' ' :: 'o' :: w) = c :: (cs' ++ ' ' :: 'o' :: w) := by
        rw [skipBlanks_append, if_neg (by rw [hcs]; simp), hcs, List.cons_append]
      have hlast : ((t :: ts').getLast?.or previous) = ts'.getLast?.or (some t) := by
        cases ts' <;> simp [List.getLast?_cons]
      have hmore : (' ' :: 'o' :: w).length < k := by omega
      rw [tokensFrom_cons hskip (token_append ht), ih (by omega) hk' hts, hlast,
        tokensFrom_fuel (by omega : (' ' :: 'o' :: w).length < k + 1) hmore]
      cases tokensFrom k (ts'.getLast?.or (some t)) (' ' :: 'o' :: w) <;> rfl

theorem token_or (h : operatorExpected previous = true) (w : List Char) :
    token previous ('o' :: 'r' :: ' ' :: w) = .ok (.operator .or, ' ' :: w) := by
  have hname : qualifiedName 'o' ('r' :: ' ' :: w) = .ok (['o', 'r'], ' ' :: w) := rfl
  have hclass : classify previous (String.ofList ['o', 'r']) (' ' :: w) = .ok (.operator .or) := by
    simp only [classify, h, if_true]
    rfl
  have htoken : nameToken previous 'o' ('r' :: ' ' :: w) = .ok (.operator .or, ' ' :: w) :=
    bind_eq_ok hname (bind_eq_ok hclass rfl)
  rw [token_of_startsWord (by decide)]
  exact htoken

/-- An `or` between two texts is an operator if the first one ends an operand, and the
second one is read as if it stood alone. -/
theorem tokensFrom_or {k : Nat} (h : operatorExpected previous = true) (hk : w.length + 4 < k) :
    tokensFrom k previous (' ' :: 'o' :: 'r' :: ' ' :: w) =
      (.operator .or :: ·) <$> tokensFrom k none w := by
  obtain ⟨k, rfl⟩ : ∃ k', k = k' + 1 := ⟨k - 1, by omega⟩
  have hskip : Text.skipBlanks (' ' :: 'o' :: 'r' :: ' ' :: w) = 'o' :: 'r' :: ' ' :: w := rfl
  have hrest : tokensFrom k (some (.operator .or)) (' ' :: w) = tokensFrom k none w :=
    tokensFrom_congr k rfl rfl
  have hmore : w.length < k := by omega
  rw [tokensFrom_cons hskip (token_or h w), hrest,
    tokensFrom_fuel hmore (by omega : w.length < k + 1)]

end Lexer

/-- The tokens of two texts with `or` between them. -/
theorem tokenize_or {s₁ s₂ : String} {ts₁ ts₂ : List Token} (h₁ : tokenize s₁ = .ok ts₁)
    (h₂ : tokenize s₂ = .ok ts₂) (hclose : Lexer.operatorExpected ts₁.getLast? = true) :
    tokenize (s₁ ++ " or " ++ s₂) = .ok (ts₁ ++ .operator .or :: ts₂) := by
  unfold tokenize at h₁ h₂ ⊢
  have hjoined : (s₁ ++ " or " ++ s₂).toList =
      s₁.toList ++ ' ' :: 'o' :: 'r' :: ' ' :: s₂.toList := by
    simp
  have hlong : s₂.toList.length + 4 <
      (s₁.toList ++ ' ' :: 'o' :: 'r' :: ' ' :: s₂.toList).length + 1 := by
    simp only [List.length_append, List.length_cons]
    omega
  have hmore : s₂.toList.length <
      (s₁.toList ++ ' ' :: 'o' :: 'r' :: ' ' :: s₂.toList).length + 1 := by
    omega
  rw [hjoined, Lexer.tokensFrom_append (Nat.lt_succ_self _) (Nat.lt_succ_self _) h₁,
    Option.or_none, Lexer.tokensFrom_or hclose hlong,
    Lexer.tokensFrom_fuel hmore (Nat.lt_succ_self _), h₂]
  rfl

/-- Whether the text of an expression ends in a slash, which then stands for the root. -/
def endsOnSlash (source : String) : Bool :=
  match tokenize source with
  | .ok ts => ts.getLast? == some .slash
  | .error _ => false

theorem endsOnSlash_eq {source : String} {ts : List Token} (h : tokenize source = .ok ts) :
    endsOnSlash source = (ts.getLast? == some .slash) := by
  unfold endsOnSlash
  rw [h]

theorem endsOnSlash_of_isClosed {source : String} {e : Expr} (h : Expr.parse source = .ok e)
    (hclosed : e.isClosed = true) : endsOnSlash source = false := by
  obtain ⟨ts, hts, hderives⟩ := Expr.parse_eq_ok_iff.mp h
  have hcloses : Closes ts := hderives.endsIn hclosed
  rw [endsOnSlash_eq hts, beq_eq_false_iff_ne]
  intro hlast
  rw [Closes, hlast] at hcloses
  cases hcloses

namespace Expr

/-- The leaves of the disjunction that a text is, if it is an expression. -/
def leaves (source : String) : List Expr :=
  match Expr.parse source with
  | .ok e => e.disjuncts
  | .error _ => []

theorem leaves_of_parse {source : String} {e : Expr} (h : Expr.parse source = .ok e) :
    leaves source = e.disjuncts := by
  simp [leaves, h]

/-- An expression that does not end in the root goes on with `or`. -/
theorem parse_or {s₁ s₂ : String} {e₁ e₂ : Expr} (h₁ : Expr.parse s₁ = .ok e₁)
    (hend : endsOnSlash s₁ = false) (h₂ : Expr.parse s₂ = .ok e₂) :
    ∃ e, Expr.parse (s₁ ++ " or " ++ s₂) = .ok e ∧
      e.disjuncts = e₁.disjuncts ++ e₂.disjuncts := by
  obtain ⟨ts₁, htokens₁, hderives₁⟩ := parse_eq_ok_iff.mp h₁
  obtain ⟨ts₂, htokens₂, hderives₂⟩ := parse_eq_ok_iff.mp h₂
  rw [endsOnSlash_eq htokens₁, beq_eq_false_iff_ne] at hend
  have hclose : Closes ts₁ := hderives₁.endsInRootOr.resolve_right hend
  obtain ⟨e, he, hleaves⟩ := hderives₁.append_or hderives₂
  exact ⟨e, parse_eq_ok_iff.mpr ⟨_, tokenize_or htokens₁ htokens₂ hclose, he⟩, hleaves⟩

/-- Expressions of which none but the last ends in the root are joined by `or` to one
expression with the leaves of all. -/
theorem parse_intercalate {sources : List String} (hne : sources ≠ [])
    (h : ∀ s ∈ sources, ∃ e, Expr.parse s = .ok e)
    (hend : ∀ s ∈ sources.dropLast, endsOnSlash s = false) :
    ∃ e, Expr.parse (String.intercalate " or " sources) = .ok e ∧
      e.disjuncts = sources.flatMap leaves := by
  induction sources with
  | nil => exact absurd rfl hne
  | cons s sources ih =>
    obtain ⟨e₁, h₁⟩ := h s List.mem_cons_self
    by_cases hlast : sources = []
    · refine ⟨e₁, ?_, ?_⟩
      · rw [hlast, String.intercalate_singleton]
        exact h₁
      · rw [hlast, List.flatMap_cons, leaves_of_parse h₁, List.flatMap_nil, List.append_nil]
    · rw [List.dropLast_cons_of_ne_nil hlast, List.forall_mem_cons] at hend
      obtain ⟨e₂, h₂, hleaves₂⟩ :=
        ih hlast (fun s' hs' => h s' (List.mem_cons_of_mem s hs')) hend.2
      obtain ⟨e, he, hleaves⟩ := parse_or h₁ hend.1 h₂
      refine ⟨e, ?_, ?_⟩
      · rw [String.intercalate_cons_of_ne_nil hlast]
        exact he
      · rw [hleaves, List.flatMap_cons, leaves_of_parse h₁, hleaves₂]

/-! ## Equalities -/

theorem isClosed_of_disjuncts {e : Expr} (h : ∀ d ∈ e.disjuncts, d.isClosed = true) :
    e.isClosed = true := by
  fun_induction disjuncts e with
  | case1 left right _ ih =>
    rw [isClosed]
    exact ih fun d hd => h d (List.mem_append_right _ hd)
  | case2 e _ => exact h e (List.mem_singleton.mpr rfl)

theorem Equates.isClosed {d operand : Expr} {value : String} (h : Equates d operand value) :
    d.isClosed = true := by
  cases h with
  | operandFirst _ hc =>
    rw [Expr.isClosed]
    cases hc <;> rfl
  | constantFirst ho _ =>
    rw [Expr.isClosed]
    cases ho <;> rfl

theorem isClosed_of_equality? {d : Expr} (h : d.equality?.isSome = true) : d.isClosed = true := by
  obtain ⟨⟨operand, value⟩, hd⟩ := Option.isSome_iff_exists.mp h
  exact (equality?_eq_some_iff.mp hd).isClosed

theorem exists_mem_of_forall₂ {α β : Type} {r : α → β → Prop} {as : List α} {bs : List β}
    (h : List.Forall₂ r as bs) : ∀ a ∈ as, ∃ b ∈ bs, r a b := by
  induction h with
  | nil => simp
  | @cons a b as bs hr _ ih =>
    refine List.forall_mem_cons.mpr ⟨⟨b, List.mem_cons_self, hr⟩, fun a' ha' => ?_⟩
    obtain ⟨b', hb', hr'⟩ := ih a' ha'
    exact ⟨b', List.mem_cons_of_mem b hb', hr'⟩

/-- The leaves of a disjunction that is recognized are equalities of its operand. -/
theorem equality?_of_equalityTerms? {e : Expr} {key : String} {values : List String}
    (h : e.equalityTerms? = some (key, values)) :
    ∀ d ∈ e.disjuncts, ∃ operand value, d.equality? = some (operand, value) ∧
      operand.display = key ∧ value ∈ values := by
  obtain ⟨operand, -, rfl, hvalues⟩ := equalityTerms?_eq_some_iff.mp h
  intro d hd
  obtain ⟨value, hvalue, heq⟩ := exists_mem_of_forall₂ hvalues d hd
  exact ⟨operand, value, equality?_eq_some_iff.mpr heq, rfl, hvalue⟩

theorem isClosed_of_equalityTerms? {e : Expr} (h : e.equalityTerms?.isSome = true) :
    e.isClosed = true := by
  obtain ⟨⟨key, values⟩, h⟩ := Option.isSome_iff_exists.mp h
  refine isClosed_of_disjuncts fun d hd => ?_
  obtain ⟨operand, value, heq, -⟩ := equality?_of_equalityTerms? h d hd
  exact isClosed_of_equality? (by rw [heq]; rfl)

end Expr
end XPath
end TagGrammar
