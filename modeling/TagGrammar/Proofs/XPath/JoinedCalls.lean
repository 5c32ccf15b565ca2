/-
Calls in joined texts.

How a name is read depends on the token before it, so a text may be cut into other tokens
after a joint than alone.  Wherever it stands, though, the same characters go to each of
its tokens, a name that is read as one of a function alone is read so there too or not at
all, and slashes stay what they are: the tokens are `Reread`.  Hence if texts with tokens
are joined by `or` and the whole has tokens, the names of functions in each are names of
functions in the whole.
-/
import TagGrammar.Proofs.XPath.Joined

namespace TagGrammar
namespace XPath
namespace Lexer

variable {previous other : Option Token} {cs rest rest' w z : List Char} {t t' : Token}

/-- A name of a function before a token stays one after it is read again, unless it is
also the name of an operator. -/
def KeepsCall (t t' : Token) : Prop :=
  ∀ f, namedOperator? f = none → t = .functionName f → t' = .functionName f

theorem KeepsCall.refl (t : Token) : KeepsCall t t := fun _ _ h => h

theorem keepsCall_of_ne (h : ∀ f, t ≠ .functionName f) : KeepsCall t t' :=
  fun f _ hf => (h f hf).elim

theorem classify_keepsCall {name : String} (h : classify previous name rest = .ok t)
    (h' : classify other name rest = .ok t') : KeepsCall t t' := by
  intro f hf ht
  subst ht
  unfold classify at h h'
  by_cases hp : operatorExpected previous = true
  · rw [if_pos hp] at h
    cases hop : namedOperator? name with
    | none => simp [hop] at h
    | some op => simp [hop] at h
  · rw [if_neg hp] at h
    have hname : name = f := by
      split at h
      · cases h
      · split at h <;> cases h
        rfl
      · cases h
    by_cases ho : operatorExpected other = true
    · rw [if_pos ho, hname, hf] at h'
      cases h'
    · rw [if_neg ho, h] at h'
      exact (Except.ok.inj h').symm

theorem nameToken_again {c : Char} (h : nameToken previous c cs = .ok (t, rest))
    (h' : nameToken other c cs = .ok (t', rest')) : rest = rest' ∧ KeepsCall t t' := by
  unfold nameToken at h h'
  rw [bind_eq_ok_iff] at h h'
  obtain ⟨⟨name, r⟩, hname, h⟩ := h
  obtain ⟨⟨name', r'⟩, hname', h'⟩ := h'
  rw [hname] at hname'
  cases hname'
  rw [bind_eq_ok_iff] at h h'
  obtain ⟨s, hs, h⟩ := h
  obtain ⟨s', hs', h'⟩ := h'
  cases h
  cases h'
  exact ⟨rfl, classify_keepsCall hs hs'⟩

theorem variableToken_again (h : variableToken previous cs = .ok (t, rest))
    (h' : variableToken other cs = .ok (t', rest')) :
    rest = rest' ∧ ∀ f, t ≠ .functionName f := by
  cases cs with
  | nil => cases h
  | cons c cs =>
    simp only [variableToken] at h h'
    split at h
    · rename_i hc
      rw [if_pos hc] at h'
      rw [bind_eq_ok_iff] at h h'
      obtain ⟨⟨s, r⟩, hname, h⟩ := h
      obtain ⟨⟨s', r'⟩, hname', h'⟩ := h'
      obtain ⟨rfl, -⟩ := nameToken_again hname hname'
      have hrest' : r = rest' := by
        cases s' <;> cases h'
        all_goals rfl
      cases s with
      | nameTest name | functionName name | nodeType name | axisName name =>
        cases h
        exact ⟨hrest', by simp⟩
      | _ => cases h
    · cases h

theorem wordToken_again {c : Char} (h : wordToken previous c cs = .ok (t, rest))
    (h' : wordToken other c cs = .ok (t', rest')) : rest = rest' ∧ KeepsCall t t' := by
  unfold wordToken at h h'
  split at h
  · rename_i hquote
    rw [if_pos hquote, h] at h'
    cases h'
    exact ⟨rfl, KeepsCall.refl t⟩
  · rename_i hquote
    rw [if_neg hquote] at h'
    split at h
    · rename_i hdigit
      rw [if_pos hdigit, h] at h'
      cases h'
      exact ⟨rfl, KeepsCall.refl t⟩
    · rename_i hdigit
      rw [if_neg hdigit] at h'
      exact nameToken_again h h'

/-- What stays of a token that is read again after another one. -/
structure TokenReread (t t' : Token) : Prop where
  call : KeepsCall t t'
  slash : t = .slash ↔ t' = .slash

/-- A token read again after another one takes the same characters. -/
theorem token_again (h : token previous cs = .ok (t, rest))
    (h' : token other cs = .ok (t', rest')) : rest = rest' ∧ TokenReread t t' := by
  rcases token_cases h with ⟨c, cs, rfl, hc, hword⟩ | ⟨cs, rfl, hvariable⟩ |
    ⟨cs, rfl, hdigit, hnumber⟩ | hsymbol
  · have hslash : c ≠ '/' := by
      rintro rfl
      exact absurd hc (by decide)
    have hword' : wordToken other c cs = .ok (t', rest') := (token_of_startsWord hc cs).symm.trans h'
    obtain ⟨rfl, hcall⟩ := wordToken_again hword hword'
    exact ⟨rfl, hcall, iff_of_false (ne_slash_of_token h hslash) (ne_slash_of_token h' hslash)⟩
  · have hslash : '$' ≠ '/' := by decide
    obtain ⟨rfl, hne⟩ := variableToken_again hvariable h'
    exact ⟨rfl, keepsCall_of_ne hne,
      iff_of_false (ne_slash_of_token h hslash) (ne_slash_of_token h' hslash)⟩
  · rw [token_point hdigit, hnumber] at h'
    cases h'
    exact ⟨rfl, KeepsCall.refl t, Iff.rfl⟩
  · obtain ⟨t'', hagain, hslash⟩ := hsymbol.again other
    rw [hagain] at h'
    cases h'
    refine ⟨rfl, keepsCall_of_ne ?_, hslash⟩
    rintro f rfl
    exact hsymbol.symbol

/-! ## Tokens in a row -/

/-- The tokens of a text after one token and those of the same text after another. -/
inductive Reread : Option Token → Option Token → List Token → List Token → Prop where
  | nil {previous other : Option Token} : Reread previous other [] []
  | cons {previous other : Option Token} {t t' : Token} {ts us : List Token}
      (htoken : TokenReread t t')
      (hsame : operatorExpected previous = operatorExpected other → t = t')
      (h : Reread (some t) (some t') ts us) : Reread previous other (t :: ts) (t' :: us)

def KeepsCalls (ts us : List Token) : Prop :=
  ∀ f, namedOperator? f = none → Token.functionName f ∈ ts → Token.functionName f ∈ us

theorem Reread.keepsCalls {ts us : List Token} (h : Reread previous other ts us) :
    KeepsCalls ts us := by
  induction h with
  | nil => exact fun _ _ hmem => hmem
  | cons htoken _ _ ih =>
    intro f hf hmem
    rcases List.mem_cons.mp hmem with heq | hmem
    · rw [htoken.call f hf heq.symm]
      exact List.mem_cons_self
    · exact List.mem_cons_of_mem _ (ih f hf hmem)

/-- Nothing, or a joint and what follows it. -/
def Joint (z : List Char) : Prop := z = [] ∨ ∃ w, z = ' ' :: 'o' :: w

theorem token_append_joint (hz : Joint z) (h : token previous cs = .ok (t, rest)) :
    token previous (cs ++ z) = .ok (t, rest ++ z) := by
  rcases hz with rfl | ⟨w, rfl⟩
  · rw [List.append_nil, List.append_nil]
    exact h
  · exact token_append h

theorem skipBlanks_append_joint (hz : Joint z) (cs : List Char) :
    Text.skipBlanks (cs ++ z) =
      if Text.skipBlanks cs = [] then Text.skipBlanks z else Text.skipBlanks cs ++ z := by
  rcases hz with rfl | ⟨w, rfl⟩
  · rw [List.append_nil, List.append_nil]
    by_cases h : Text.skipBlanks cs = []
    · rw [if_pos h, h]
      rfl
    · rw [if_neg h]
  · exact skipBlanks_append cs w

/-- A text that has tokens alone takes part of the tokens it is in, which are its own tokens
read again. -/
theorem tokensFrom_again {n k : Nat} {ts us : List Token} (hz : Joint z) (hn : cs.length < n)
    (hk : (cs ++ z).length < k) (h : tokensFrom n previous cs = .ok ts)
    (h' : tokensFrom k other (cs ++ z) = .ok us) :
    ∃ us₁ us₂ m, us = us₁ ++ us₂ ∧ Reread previous other ts us₁ ∧ z.length < m ∧
      tokensFrom m (us₁.getLast?.or other) z = .ok us₂ := by
  induction n generalizing k previous other cs ts us with
  | zero => omega
  | succ n ih =>
    rw [List.length_append] at hk
    obtain ⟨k, rfl⟩ : ∃ k', k = k' + 1 := ⟨k - 1, by omega⟩
    cases hcs : Text.skipBlanks cs with
    | nil =>
      have hskip : Text.skipBlanks (cs ++ z) = Text.skipBlanks z := by
        rw [skipBlanks_append_joint hz, if_pos hcs]
      simp only [tokensFrom, hcs] at h
      cases h
      rw [tokensFrom_congr (k + 1) rfl hskip] at h'
      exact ⟨[], us, k + 1, rfl, .nil, by omega, h'⟩
    | cons c cs' =>
      have hskip : Text.skipBlanks (cs ++ z) = c :: (cs' ++ z) := by
        rw [skipBlanks_append_joint hz, if_neg (by rw [hcs]; simp), hcs, List.cons_append]
      obtain ⟨t, rest, ts', ht, rfl, hts⟩ := exists_of_tokensFrom hcs h
      obtain ⟨t', rest', us', ht', rfl, hus⟩ := exists_of_tokensFrom hskip h'
      have hlong := token_append_joint hz ht
      obtain ⟨rfl, htoken⟩ := token_again hlong ht'
      have hsame : operatorExpected previous = operatorExpected other → t = t' := by
        intro hop
        rw [token_congr hop, List.cons_append, ht'] at hlong
        cases hlong
        rfl
      have hshort := length_of_skipBlanks hcs
      have hrest : rest.length ≤ cs'.length := (token_suffix ht).length_le
      have hk' : (rest ++ z).length < k := by
        rw [List.length_append]
        omega
      obtain ⟨us₁, us₂, m, rfl, hreread, hm, hlast⟩ := ih (by omega) hk' hts hus
      have hend : (t' :: us₁).getLast?.or other = us₁.getLast?.or (some t') := by
        cases us₁ <;> simp [List.getLast?_cons]
      exact ⟨t' :: us₁, us₂, m, rfl, .cons htoken hsame hreread, hm, hend ▸ hlast⟩

/-- After a joint, whatever it is read as, the next text begins. -/
theorem exists_of_tokensFrom_or {k : Nat} {us : List Token} (hk : w.length + 4 < k)
    (h : tokensFrom k previous (' ' :: 'o' :: 'r' :: ' ' :: w) = .ok us) :
    ∃ t us' m, us = t :: us' ∧ token previous ('o' :: 'r' :: ' ' :: w) = .ok (t, ' ' :: w) ∧
      w.length < m ∧ tokensFrom m (some t) w = .ok us' := by
  obtain ⟨k, rfl⟩ : ∃ k', k = k' + 1 := ⟨k - 1, by omega⟩
  obtain ⟨t, rest, us', ht, rfl, hus⟩ :=
    exists_of_tokensFrom (rfl : Text.skipBlanks (' ' :: 'o' :: 'r' :: ' ' :: w) = _) h
  have hor := token_or (rfl : operatorExpected (some .dot) = true) w
  obtain ⟨rfl, -⟩ := token_again hor ht
  refine ⟨t, us', k, rfl, ht, by omega, ?_⟩
  rw [← hus]
  exact tokensFrom_congr k rfl rfl

theorem toList_intercalate_cons {s : String} {sources : List String} (hne : sources ≠ []) :
    (String.intercalate " or " (s :: sources)).toList =
      s.toList ++ ' ' :: 'o' :: 'r' :: ' ' :: (String.intercalate " or " sources).toList := by
  rw [String.intercalate_cons_of_ne_nil hne]
  simp

theorem keepsCalls_intercalate {sources : List String} {k : Nat} {us : List Token}
    (h : ∀ s ∈ sources, ∃ ts, tokenize s = .ok ts)
    (hk : (String.intercalate " or " sources).toList.length < k)
    (h' : tokensFrom k other (String.intercalate " or " sources).toList = .ok us) :
    ∀ s ∈ sources, ∀ ts, tokenize s = .ok ts → KeepsCalls ts us := by
  induction sources generalizing other k us with
  | nil => simp
  | cons s₀ sources ih =>
    obtain ⟨ts₀, hts₀⟩ := h s₀ List.mem_cons_self
    by_cases hlast : sources = []
    · subst hlast
      rw [String.intercalate_singleton] at hk h'
      intro s hs ts hts
      obtain rfl := List.mem_singleton.mp hs
      rw [← List.append_nil s.toList] at hk h'
      obtain ⟨us₁, us₂, -, rfl, hreread, -⟩ :=
        tokensFrom_again (Or.inl rfl) (Nat.lt_succ_self _) hk hts h'
      exact fun f hf hmem => List.mem_append_left us₂ (hreread.keepsCalls f hf hmem)
    · rw [toList_intercalate_cons hlast] at hk h'
      obtain ⟨us₁, us₂, m, rfl, hreread, hm, hrest⟩ :=
        tokensFrom_again (Or.inr ⟨_, rfl⟩) (Nat.lt_succ_self _) hk hts₀ h'
      obtain ⟨t, us₃, m', rfl, -, hm', hmore⟩ :=
        exists_of_tokensFrom_or (by simpa using hm) hrest
      intro s hs ts hts f hf hmem
      rcases List.mem_cons.mp hs with rfl | hs
      · obtain rfl : ts₀ = ts := Except.ok.inj (hts₀.symm.trans hts)
        exact List.mem_append_left _ (hreread.keepsCalls f hf hmem)
      · have hothers := ih (fun s' hs' => h s' (List.mem_cons_of_mem s₀ hs')) hm' hmore
        exact List.mem_append_right us₁ (List.mem_cons_of_mem t (hothers s hs ts hts f hf hmem))

end Lexer

namespace Expr

/-- If texts of expressions joined by `or` are an expression, it calls what they call. -/
theorem calls_of_intercalate {sources : List String} {joined : Expr} {f : String}
    (h : ∀ s ∈ sources, ∃ e, Expr.parse s = .ok e)
    (hjoined : Expr.parse (String.intercalate " or " sources) = .ok joined)
    (hf : Lexer.namedOperator? f = none) (hcalls : joined.calls f = false) :
    ∀ s ∈ sources, ∀ e, Expr.parse s = .ok e → e.calls f = false := by
  intro s hs e he
  obtain ⟨us, hus, hiff⟩ := calls_iff_mem_tokens hjoined
  obtain ⟨ts, hts, hiff'⟩ := calls_iff_mem_tokens he
  have htokens : ∀ s ∈ sources, ∃ ts, tokenize s = .ok ts := by
    intro s hs
    obtain ⟨e, he⟩ := h s hs
    obtain ⟨ts, hts, -⟩ := calls_iff_mem_tokens he
    exact ⟨ts, hts⟩
  rw [Bool.eq_false_iff]
  intro hcall
  have hmem := Lexer.keepsCalls_intercalate htokens (Nat.lt_succ_self _) hus s hs ts hts f hf
    ((hiff' f).mp hcall)
  rw [(hiff f).mpr hmem] at hcalls
  cases hcalls

end Expr
end XPath
end TagGrammar
