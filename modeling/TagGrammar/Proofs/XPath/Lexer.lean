/-
How texts are cut into tokens.

A token takes at least one character and leaves the end of the text.  So the tokens of a text
do not depend on how far the lexer is allowed to go, and a token depends on the one before it
only as far as that one may end an operand.  What a token holds is such that it can be written
again: a name is one, and a literal lacks one of the quotes.
-/
import TagGrammar.Proofs.XPath.Reading

namespace TagGrammar
namespace XPath
namespace Lexer

variable {previous : Option Token} {cs rest z w : List Char} {t : Token}

/-! ## What tokens hold -/

/-- What comes next does not go on with a name. -/
def EndsName (z : List Char) : Prop := z.head?.any (fun c => isNameChar c || c == ':') = false

/-- A name with the lead of its namespace: one that is read back wherever it is written. -/
def IsName (name : String) : Prop :=
  ∃ c cs, name.toList = c :: cs ∧ isNameStart c = true ∧
    ∀ z, EndsName z → qualifiedName c (cs ++ z) = .ok (name.toList, z)

theorem EndsName.isNameChar {z : List Char} (hz : EndsName z) :
    z.head?.any Lexer.isNameChar = false := by
  cases z with
  | nil => rfl
  | cons c z =>
    have hc : (Lexer.isNameChar c || c == ':') = false := hz
    exact (Bool.or_eq_false_iff.mp hc).1

theorem EndsName.leads {z : List Char} (hz : EndsName z) : leads z = false := by
  have hne : z.head? ≠ some ':' := by
    intro hhead
    rw [EndsName, hhead] at hz
    cases hz
  rw [leads_eq, beq_eq_false_iff_ne.mpr hne, Bool.false_and]

theorem qualifiedName_of_endsName {c : Char} {cs z : List Char}
    (hcs : ∀ c ∈ cs, isNameChar c = true) (hz : EndsName z) :
    qualifiedName c (cs ++ z) = .ok (c :: cs, z) :=
  qualifiedName_run hcs hz.isNameChar hz.leads

theorem isName_of_qualifiedName {c : Char} {name : List Char} (hc : isNameStart c = true)
    (h : qualifiedName c cs = .ok (name, rest)) : IsName (String.ofList name) := by
  obtain ⟨text, -, rfl, hread⟩ := qualifiedName_read h
  refine ⟨c, text, by simp, hc, fun z hz => ?_⟩
  rw [String.toList_ofList]
  exact hread z (fun _ => hz.isNameChar) fun _ => hz.leads

/-- What the text of a token is like, apart from that of numbers. -/
def Spelled : Token → Prop
  | .literal value => '"' ∉ value.toList ∨ '\'' ∉ value.toList
  | .variable name => IsName name
  | .nameTest name => name = "*" ∨ IsName name
  | .functionName name => IsName name ∧ name ∉ nodeTypes
  | .nodeType name => name ∈ nodeTypes
  | _ => True

theorem classify_spelled {name : String} (hname : IsName name)
    (h : classify previous name rest = .ok t) : Spelled t := by
  unfold classify at h
  split at h
  · split at h <;> cases h
    trivial
  · split at h
    · cases h
      trivial
    · cases h
      by_cases hmem : name ∈ nodeTypes
      · rw [if_pos (List.contains_iff_mem.mpr hmem)]
        exact hmem
      · rw [if_neg (mt List.contains_iff_mem.mp hmem)]
        exact ⟨hname, hmem⟩
    · cases h
      exact Or.inr hname

theorem nameToken_spelled {c : Char} (hc : isNameStart c = true)
    (h : nameToken previous c cs = .ok (t, rest)) : Spelled t := by
  unfold nameToken at h
  rw [bind_eq_ok_iff] at h
  obtain ⟨⟨name, rest'⟩, hname, h⟩ := h
  rw [bind_eq_ok_iff] at h
  obtain ⟨t', ht, h⟩ := h
  cases h
  exact classify_spelled (isName_of_qualifiedName hc hname) ht

/-- A name is an operator or stays as it is. -/
theorem classify_name {name : String} (h : classify previous name rest = .ok t) :
    (∃ op, t = .operator op) ∨ t = .nameTest name ∨ t = .functionName name ∨ t = .nodeType name ∨
      t = .axisName name := by
  unfold classify at h
  split at h
  · split at h <;> cases h
    exact Or.inl ⟨_, rfl⟩
  · split at h <;> cases h
    · simp
    · split <;> simp
    · simp

theorem variableToken_spelled (h : variableToken previous cs = .ok (t, rest)) : Spelled t := by
  cases cs with
  | nil => cases h
  | cons c cs =>
    simp only [variableToken] at h
    split at h
    · rename_i hc
      rw [bind_eq_ok_iff] at h
      obtain ⟨⟨t', rest'⟩, hname, h⟩ := h
      unfold nameToken at hname
      rw [bind_eq_ok_iff] at hname
      obtain ⟨⟨name, rest''⟩, hname, hclass⟩ := hname
      rw [bind_eq_ok_iff] at hclass
      obtain ⟨t'', hclass, ht⟩ := hclass
      cases ht
      have hspelled := isName_of_qualifiedName hc hname
      rcases classify_name hclass with ⟨op, rfl⟩ | rfl | rfl | rfl | rfl <;> cases h
      all_goals exact hspelled
    · cases h

theorem variable_of_variableToken (h : variableToken previous cs = .ok (t, rest)) :
    ∃ name, t = .variable name := by
  cases cs with
  | nil => cases h
  | cons c cs =>
    simp only [variableToken] at h
    split at h
    · obtain ⟨⟨t', rest'⟩, -, h⟩ := bind_eq_ok_iff.mp h
      cases t' <;> cases h
      all_goals exact ⟨_, rfl⟩
    · cases h

theorem literalToken_spelled {quote : Char} (hquote : quote = '"' ∨ quote = '\'')
    (h : literalToken quote cs = .ok (t, rest)) : Spelled t := by
  have hall := all_takeWhile (· != quote) cs
  unfold literalToken at h
  split at h
  · cases h
    have hmem : quote ∉ (String.ofList (cs.takeWhile (· != quote))).toList := by
      rw [String.toList_ofList]
      exact fun hmem => absurd (hall quote hmem) (by simp)
    rcases hquote with rfl | rfl
    · exact Or.inl hmem
    · exact Or.inr hmem
  · cases h

theorem numberToken_spelled {c : Char} (h : numberToken c cs = .ok (t, rest)) : Spelled t := by
  unfold numberToken at h
  dsimp only at h
  split at h <;> cases h
  trivial

theorem wordToken_spelled {c : Char} (hc : startsWord c = true)
    (h : wordToken previous c cs = .ok (t, rest)) : Spelled t := by
  unfold wordToken at h
  split at h
  · rename_i hquote
    exact literalToken_spelled (by simpa using hquote) h
  · split at h
    · exact numberToken_spelled h
    · refine nameToken_spelled ?_ h
      simp_all [startsWord]

theorem IsSymbol.spelled (h : IsSymbol t) : Spelled t := by
  cases t with
  | nameTest name => exact Or.inl h
  | literal | number | «variable» | nodeType | functionName | axisName => exact h.elim
  | _ => trivial

theorem token_spelled (h : token previous cs = .ok (t, rest)) : Spelled t := by
  rcases token_cases h with ⟨c, cs, rfl, hc, h⟩ | ⟨cs, rfl, h⟩ | ⟨cs, rfl, hdigit, h⟩ | h
  · exact wordToken_spelled hc h
  · exact variableToken_spelled h
  · exact numberToken_spelled h
  · exact h.symbol.spelled

/-! ## Tokens in a row -/

theorem tokensFrom_spelled {n : Nat} {ts : List Token} (h : tokensFrom n previous cs = .ok ts) :
    ∀ t ∈ ts, Spelled t := by
  induction n generalizing previous cs ts with
  | zero =>
    cases h
    simp
  | succ n ih =>
    unfold tokensFrom at h
    split at h
    · cases h
      simp
    · rw [bind_eq_ok_iff] at h
      obtain ⟨⟨t, rest⟩, ht, h⟩ := h
      rw [bind_eq_ok_iff] at h
      obtain ⟨ts', hts, h⟩ := h
      cases h
      exact List.forall_mem_cons.mpr ⟨token_spelled ht, ih hts⟩

/-- A token depends on the one before it only as far as that one may end an operand. -/
theorem token_congr {previous' : Option Token}
    (h : operatorExpected previous = operatorExpected previous') (cs : List Char) :
    token previous cs = token previous' cs := by
  unfold token variableToken nameToken classify
  simp only [h]

theorem tokensFrom_congr {previous' : Option Token} {cs' : List Char} (n : Nat)
    (h : operatorExpected previous = operatorExpected previous')
    (hcs : Text.skipBlanks cs = Text.skipBlanks cs') :
    tokensFrom n previous cs = tokensFrom n previous' cs' := by
  cases n with
  | zero => rfl
  | succ n =>
    unfold tokensFrom
    simp only [hcs, token_congr h]

theorem length_of_skipBlanks {c : Char} {cs' : List Char} (h : Text.skipBlanks cs = c :: cs') :
    cs'.length < cs.length := by
  have hsuffix : c :: cs' <:+ cs := h ▸ List.dropWhile_suffix Text.isBlank
  exact hsuffix.length_le

theorem tokensFrom_cons {n : Nat} {c : Char} {cs' : List Char}
    (hcs : Text.skipBlanks cs = c :: cs') (ht : token previous (c :: cs') = .ok (t, rest)) :
    tokensFrom (n + 1) previous cs = (t :: ·) <$> tokensFrom n (some t) rest := by
  simp only [tokensFrom, hcs, ht]
  rfl

theorem exists_of_tokensFrom {n : Nat} {c : Char} {cs' : List Char} {us : List Token}
    (hcs : Text.skipBlanks cs = c :: cs') (h : tokensFrom (n + 1) previous cs = .ok us) :
    ∃ t rest us', token previous (c :: cs') = .ok (t, rest) ∧ us = t :: us' ∧
      tokensFrom n (some t) rest = .ok us' := by
  simp only [tokensFrom, hcs] at h
  rw [bind_eq_ok_iff] at h
  obtain ⟨⟨t, rest⟩, ht, h⟩ := h
  rw [bind_eq_ok_iff] at h
  obtain ⟨us', hus, h⟩ := h
  cases h
  exact ⟨t, rest, us', ht, rfl, hus⟩

/-- More fuel than characters makes no difference. -/
theorem tokensFrom_fuel {n m : Nat} (hn : cs.length < n) (hm : cs.length < m) :
    tokensFrom n previous cs = tokensFrom m previous cs := by
  induction n generalizing m previous cs with
  | zero => omega
  | succ n ih =>
    obtain ⟨m, rfl⟩ : ∃ m', m = m' + 1 := ⟨m - 1, by omega⟩
    unfold tokensFrom
    split
    · rfl
    · rename_i c cs' hcs
      have hshort := length_of_skipBlanks hcs
      cases ht : token previous (c :: cs') with
      | error e => rfl
      | ok read =>
        obtain ⟨t, rest⟩ := read
        have hrest : rest.length ≤ cs'.length := (token_suffix ht).length_le
        have hsame : tokensFrom n (some t) rest = tokensFrom m (some t) rest :=
          ih (by omega) (by omega)
        simp only [bind, Except.bind, hsame]

end Lexer
end XPath
end TagGrammar
