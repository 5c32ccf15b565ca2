/-
How far a token is read.

A reader takes some characters of a text and looks a little way at what comes after them: at
the next character, and after a name at what stands behind the blanks.  So it takes them again
before any text that is `Alike`: one that goes on with the same character, or with a blank or
not at all, and in which the symbol that comes next classifies a name in the same way.  What is
proved of each reader is which characters it takes, that they are how the token is written
(`Writes`), and that it `Reads` them before all these texts.  `token_taken` says so of tokens.
-/
import TagGrammar.Proofs.Except
import TagGrammar.Proofs.Letter
import TagGrammar.Proofs.Runs
import TagGrammar.XPath.Lexer

namespace TagGrammar
namespace XPath
namespace Lexer

variable {α : Type} {previous : Option Token} {cs rest text z : List Char} {t : Token}

/-! ## What a reader looks at -/

theorem isBlank_of_isNameChar {c : Char} (h : isNameChar c = true) : Text.isBlank c = false := by
  simp only [isNameChar, Bool.or_eq_true, beq_iff_eq] at h
  rcases h with ((h | rfl) | rfl) | rfl
  · exact Text.isBlank_of_isLetterOrNumeral h
  all_goals decide

theorem isBlank_of_isNameStart {c : Char} (h : isNameStart c = true) : Text.isBlank c = false := by
  rw [isNameStart, Bool.or_eq_true, beq_iff_eq] at h
  rcases h with h | rfl
  · exact Text.isBlank_of_isLetter h
  · decide

theorem isBlank_of_isNumeralChar {c : Char} (h : isNumeralChar c = true) :
    Text.isBlank c = false := by
  rw [isNumeralChar, Bool.or_eq_true, beq_iff_eq] at h
  rcases h with h | rfl
  · exact Text.isBlank_of_isDigit h
  · decide

/-- The symbol behind the blanks, if it is one of those by which a name is classified. -/
def ahead (cs : List Char) : Option Token :=
  match Text.skipBlanks cs with
  | ':' :: ':' :: _ => some .doubleColon
  | '(' :: _ => some .leftParen
  | _ => none

/-- The second text looks the same as the first to what is read before it. -/
structure Alike (rest z : List Char) : Prop where
  head : z.head? = rest.head? ∨ z.head?.all Text.isBlank = true
  ahead : ahead z = ahead rest

/-- A reader takes some characters for a result before every text that looks the same as the
rest of the one they were taken from. -/
def Reads (read : List Char → Except ExprError (α × List Char)) (text : List Char) (a : α)
    (rest : List Char) : Prop :=
  ∀ z, Alike rest z → read (text ++ z) = .ok (a, z)

/-- A run of characters none of which is blank ends before a text that looks the same as one
before which it ends. -/
theorem Alike.head?_any {test : Char → Bool} (h : Alike rest z)
    (htest : ∀ c, test c = true → Text.isBlank c = false) (hrest : rest.head?.any test = false) :
    z.head?.any test = false := by
  rcases h.head with hhead | hblank
  · rw [hhead, hrest]
  · cases z with
    | nil => rfl
    | cons c z =>
      have hc : Text.isBlank c = true := hblank
      by_contra hany
      have hpass : test c = true := by simpa using hany
      rw [htest c hpass] at hc
      cases hc

theorem Alike.ne_cons {d : Char} (h : Alike rest z) (hd : Text.isBlank d = false)
    (hrest : ∀ cs, rest = d :: cs → False) : ∀ cs, z = d :: cs → False := by
  have hhead : rest.head?.any (· == d) = false := by
    cases rest with
    | nil => rfl
    | cons c rest => simpa using fun hc : c = d => hrest rest (by rw [hc])
  have hz := h.head?_any (by simpa using hd) hhead
  rintro cs rfl
  simp at hz

/-! ## Names -/

/-- A text starts with one colon, as between the lead of a namespace and a name. -/
def leads : List Char → Bool
  | ':' :: ':' :: _ => false
  | ':' :: _ => true
  | _ => false

theorem leads_colon (d : Char) (z : List Char) : leads (':' :: d :: z) = (d != ':') := by
  by_cases hd : d = ':'
  · subst hd
    rfl
  · rw [leads, bne_iff_ne.mpr hd]
    exact fun z' heq => hd (List.cons.inj heq).1

theorem leads_eq (z : List Char) :
    leads z = (z.head? == some ':' && ahead z != some .doubleColon) := by
  cases z with
  | nil => rfl
  | cons c z =>
    by_cases hc : c = ':'
    · subst hc
      rw [ahead, Text.skipBlanks_cons_of_not_blank (by decide)]
      cases z with
      | nil => rfl
      | cons d z =>
        rw [leads_colon]
        by_cases hd : d = ':'
        · subst hd
          rfl
        · rw [bne_iff_ne.mpr hd]
          simp [hd]
    · simp [leads, hc]

theorem Alike.leads (h : Alike rest z) (hrest : leads rest = false) : leads z = false := by
  rw [leads_eq] at hrest ⊢
  rcases h.head with hhead | hblank
  · rw [hhead, h.ahead, hrest]
  · cases z with
    | nil => rfl
    | cons c z =>
      have hc : c ≠ ':' := by
        rintro rfl
        cases hblank
      simp [hc]

section Names

variable {c d : Char} {run word : List Char}

theorem head?_any_isNameChar_colon (z : List Char) : (':' :: z).head?.any isNameChar = false := by
  show isNameChar ':' = false
  decide

theorem qualifiedName_run (hrun : ∀ c ∈ run, isNameChar c = true)
    (hz : z.head?.any isNameChar = false) (hlead : leads z = false) :
    qualifiedName c (run ++ z) = .ok (c :: run, z) := by
  unfold qualifiedName
  rw [takeWhile_run hrun hz, dropWhile_run hrun hz]
  dsimp only
  split
  · rfl
  · cases hlead
  · rename_i hcolon _
    exact (hcolon (by simpa [leads_colon] using hlead)).elim
  · cases hlead
  · rfl

theorem qualifiedName_star (hrun : ∀ c ∈ run, isNameChar c = true) (z : List Char) :
    qualifiedName c (run ++ ':' :: '*' :: z) = .ok (c :: run ++ [':', '*'], z) := by
  unfold qualifiedName
  rw [takeWhile_run hrun (head?_any_isNameChar_colon _),
    dropWhile_run hrun (head?_any_isNameChar_colon _)]
  rfl

theorem qualifiedName_lead (hrun : ∀ c ∈ run, isNameChar c = true) (hd : isNameStart d = true)
    (hword : ∀ c ∈ word, isNameChar c = true) (hz : z.head?.any isNameChar = false) :
    qualifiedName c (run ++ ':' :: d :: (word ++ z)) =
      .ok (c :: run ++ ':' :: d :: word, z) := by
  unfold qualifiedName
  rw [takeWhile_run hrun (head?_any_isNameChar_colon _),
    dropWhile_run hrun (head?_any_isNameChar_colon _)]
  have hcolon : d ≠ ':' := by
    rintro rfl
    exact absurd hd (by decide)
  have hstar : d ≠ '*' := by
    rintro rfl
    exact absurd hd (by decide)
  simp [hd, takeWhile_run hword hz, dropWhile_run hword hz]

/-- A name is read again before a text that goes on with it no further than the one it was
read before. -/
theorem qualifiedName_read {name : List Char} (h : qualifiedName c cs = .ok (name, rest)) :
    ∃ text, cs = text ++ rest ∧ name = c :: text ∧
      ∀ z, (rest.head?.any isNameChar = false → z.head?.any isNameChar = false) →
        (leads rest = false → leads z = false) → qualifiedName c (text ++ z) = .ok (name, z) := by
  obtain ⟨run, x, rfl, hrun, hx⟩ := exists_run isNameChar cs
  unfold qualifiedName at h
  rw [takeWhile_run hrun hx, dropWhile_run hrun hx] at h
  dsimp only at h
  split at h
  · cases h
    exact ⟨run, rfl, rfl, fun z hchar hlead => qualifiedName_run hrun (hchar rfl) (hlead rfl)⟩
  · cases h
    exact ⟨run ++ [':', '*'], by simp, rfl, fun z _ _ => by simpa using qualifiedName_star hrun z⟩
  · rename_i d x hcolon hstar
    split at h
    · rename_i hd
      cases h
      have hend : (x.dropWhile isNameChar).head?.any isNameChar = false := head?_dropWhile_any x
      refine ⟨run ++ ':' :: d :: x.takeWhile isNameChar, by simp, rfl, fun z hchar _ => ?_⟩
      simpa using qualifiedName_lead hrun hd (all_takeWhile isNameChar x) (hchar hend)
    · cases h
  · cases h
  · rename_i hname hlast
    cases h
    have hlead : leads rest = false := by
      by_contra hlead
      rw [leads_eq, Bool.not_eq_false, Bool.and_eq_true, beq_iff_eq] at hlead
      cases rest with
      | nil => cases hlead.1
      | cons c rest =>
        obtain rfl : c = ':' := by simpa using hlead.1
        cases rest with
        | nil => exact hlast rfl
        | cons d rest => exact hname d rest rfl
    exact ⟨run, rfl, rfl, fun z hchar hlead' => qualifiedName_run hrun (hchar hx) (hlead' hlead)⟩

end Names

/-! ## How tokens are written -/

/-- The text is how the token is written. -/
def Writes : Token → List Char → Prop
  | .literal value, text => ∃ quote, (quote = '"' ∨ quote = '\'') ∧ quote ∉ value.toList ∧
      text = quote :: (value.toList ++ [quote])
  | .number n, text => Number.ofNumeral? text = some n
  | .variable name, text => text = '$' :: name.toList
  | .nameTest name, text | .nodeType name, text | .functionName name, text
  | .axisName name, text => text = name.toList
  | .operator op, text => text = op.text.toList
  | .slash, text => text = ['/']
  | .doubleSlash, text => text = ['/', '/']
  | .atSign, text => text = ['@']
  | .dot, text => text = ['.']
  | .dotDot, text => text = ['.', '.']
  | .doubleColon, text => text = [':', ':']
  | .leftParen, text => text = ['(']
  | .rightParen, text => text = [')']
  | .leftBracket, text => text = ['[']
  | .rightBracket, text => text = [']']
  | .comma, text => text = [',']

theorem classify_congr (h : ahead z = ahead rest) (name : String) :
    classify previous name z = classify previous name rest := by
  have hclass : ∀ cs, classify previous name cs =
      if operatorExpected previous then classify previous name []
      else if ahead cs = some .doubleColon then .ok (.axisName name)
      else if ahead cs = some .leftParen then
        .ok (if nodeTypes.contains name then .nodeType name else .functionName name)
      else .ok (.nameTest name) := by
    intro cs
    unfold classify ahead
    generalize Text.skipBlanks cs = x
    split
    · rfl
    · split
      · rfl
      · rfl
      · rename_i hcolons hparen
        simp_all
  rw [hclass z, hclass rest, h]

theorem text_of_namedOperator? {name : String} {op : Operator}
    (h : namedOperator? name = some op) : op.text = name := by
  simpa using List.find?_some h

theorem classify_writes {name : String} (h : classify previous name rest = .ok t) :
    Writes t name.toList := by
  unfold classify at h
  split at h
  · split at h
    · rename_i hop
      cases h
      exact congrArg String.toList (text_of_namedOperator? hop).symm
    · cases h
  · split at h
    · cases h
      rfl
    · cases h
      split <;> rfl
    · cases h
      rfl

/-! ## What each reader takes -/

theorem nameToken_reads {c : Char} (h : nameToken previous c cs = .ok (t, rest)) :
    ∃ text, cs = text ++ rest ∧ Writes t (c :: text) ∧
      Reads (nameToken previous c) text t rest := by
  unfold nameToken at h
  obtain ⟨⟨name, rest'⟩, hname, h⟩ := bind_eq_ok_iff.mp h
  obtain ⟨t', ht, h⟩ := bind_eq_ok_iff.mp h
  cases h
  obtain ⟨text, rfl, rfl, hread⟩ := qualifiedName_read hname
  refine ⟨text, rfl, by simpa using classify_writes ht, fun z hz => ?_⟩
  have hagain := hread z (hz.head?_any fun _ => isBlank_of_isNameChar) hz.leads
  exact bind_eq_ok hagain (bind_eq_ok ((classify_congr hz.ahead _).trans ht) rfl)

theorem variableToken_reads (h : variableToken previous cs = .ok (t, rest)) :
    ∃ text, cs = text ++ rest ∧ Writes t ('$' :: text) ∧
      Reads (variableToken previous) text t rest := by
  cases cs with
  | nil => cases h
  | cons c cs =>
    simp only [variableToken] at h
    split at h
    · rename_i hc
      obtain ⟨⟨t', rest'⟩, hname, h⟩ := bind_eq_ok_iff.mp h
      obtain ⟨text, hcs, hwrites, hread⟩ := nameToken_reads hname
      cases t' with
      | nameTest name | functionName name | nodeType name | axisName name =>
        cases h
        refine ⟨c :: text, congrArg (c :: ·) hcs, congrArg ('$' :: ·) hwrites, fun z hz => ?_⟩
        simp only [List.cons_append, variableToken, if_pos hc]
        exact bind_eq_ok (hread z hz) rfl
      | _ => cases h
    · cases h

theorem numberToken_reads {c : Char} (h : numberToken c cs = .ok (t, rest)) :
    ∃ text, cs = text ++ rest ∧ rest.head?.any isNumeralChar = false ∧ Writes t (c :: text) ∧
      Reads (numberToken c) text t rest := by
  obtain ⟨run, x, rfl, hrun, hx⟩ := exists_run isNumeralChar cs
  unfold numberToken at h
  rw [takeWhile_run hrun hx, dropWhile_run hrun hx] at h
  dsimp only at h
  split at h
  · rename_i n hn
    cases h
    refine ⟨run, rfl, hx, hn, fun z hz => ?_⟩
    have hend := hz.head?_any (fun _ => isBlank_of_isNumeralChar) hx
    rw [numberToken, takeWhile_run hrun hend, dropWhile_run hrun hend, hn]
  · cases h

theorem literalToken_eq_ok {quote : Char} {value : String} (h : quote ∉ value.toList)
    (z : List Char) : literalToken quote (value.toList ++ quote :: z) = .ok (.literal value, z) := by
  have hall : ∀ c ∈ value.toList, (c != quote) = true := by
    intro c hc
    rw [bne_iff_ne]
    rintro rfl
    exact h hc
  have hquote : (quote :: z).head?.any (· != quote) = false := by simp
  rw [literalToken, dropWhile_run hall hquote, takeWhile_run hall hquote]
  simp

theorem literalToken_reads {quote : Char} (hquote : quote = '"' ∨ quote = '\'')
    (h : literalToken quote cs = .ok (t, rest)) :
    ∃ text, cs = text ++ rest ∧ Writes t (quote :: text) ∧
      Reads (literalToken quote) text t rest := by
  obtain ⟨run, x, rfl, hrun, hx⟩ := exists_run (· != quote) cs
  unfold literalToken at h
  rw [takeWhile_run hrun hx, dropWhile_run hrun hx] at h
  split at h
  · rename_i q rest'
    cases h
    obtain rfl : q = quote := by simpa using hx
    have hvalue : q ∉ (String.ofList run).toList := by
      rw [String.toList_ofList]
      exact fun hmem => absurd (hrun q hmem) (by simp)
    refine ⟨run ++ [q], by simp, ⟨q, hquote, hvalue, by simp⟩, fun z _ => ?_⟩
    simpa using literalToken_eq_ok hvalue z
  · cases h

/-- A character that starts a literal, a number without a leading point, or a name. -/
def startsWord (c : Char) : Bool := c == '"' || c == '\'' || c.isDigit || isNameStart c

theorem isBlank_of_startsWord {c : Char} (h : startsWord c = true) : Text.isBlank c = false := by
  simp only [startsWord, Bool.or_eq_true, beq_iff_eq] at h
  rcases h with ((rfl | rfl) | h) | h
  · decide
  · decide
  · exact Text.isBlank_of_isDigit h
  · exact isBlank_of_isNameStart h

/-- The token that such a character starts. -/
def wordToken (previous : Option Token) (c : Char) (cs : List Char) :
    Except ExprError (Token × List Char) :=
  if c == '"' || c == '\'' then literalToken c cs
  else if c.isDigit then numberToken c cs
  else nameToken previous c cs

theorem token_of_startsWord {c : Char} (hc : startsWord c = true) (cs : List Char) :
    token previous (c :: cs) = wordToken previous c cs := by
  unfold token
  split
  case h_1 heq => cases heq
  case h_24 heq =>
    obtain ⟨rfl, rfl⟩ := List.cons.inj heq
    unfold wordToken
    simp only [startsWord, Bool.or_eq_true] at hc
    split
    · rfl
    · split
      · rfl
      · rw [if_pos]
        simp_all
  -- no other character that `token` looks for starts a word
  all_goals
    rename_i heq
    rw [(List.cons.inj heq).1] at hc
    exact absurd hc (by decide)

theorem wordToken_reads {c : Char} (h : wordToken previous c cs = .ok (t, rest)) :
    ∃ text, cs = text ++ rest ∧ Writes t (c :: text) ∧
      Reads (wordToken previous c) text t rest := by
  unfold wordToken at h ⊢
  split at h
  · rename_i hquote
    obtain ⟨text, hcs, hwrites, hread⟩ := literalToken_reads (by simpa using hquote) h
    exact ⟨text, hcs, hwrites, fun z hz => (if_pos hquote).trans (hread z hz)⟩
  · rename_i hquote
    split at h
    · rename_i hdigit
      obtain ⟨text, hcs, -, hwrites, hread⟩ := numberToken_reads h
      exact ⟨text, hcs, hwrites, fun z hz =>
        (if_neg hquote).trans ((if_pos hdigit).trans (hread z hz))⟩
    · rename_i hdigit
      obtain ⟨text, hcs, hwrites, hread⟩ := nameToken_reads h
      exact ⟨text, hcs, hwrites, fun z hz =>
        (if_neg hquote).trans ((if_neg hdigit).trans (hread z hz))⟩

theorem token_point {cs : List Char} (h : cs.head?.any Char.isDigit = true) :
    token previous ('.' :: cs) = numberToken '.' cs := by
  rw [token]
  · rw [if_pos h]
  · rintro cs' rfl
    cases h

/-- A token that is made of symbols. -/
def IsSymbol : Token → Prop
  | .literal _ | .number _ | .variable _ | .nodeType _ | .functionName _ | .axisName _ => False
  | .nameTest name => name = "*"
  | _ => True

/-- The token is taken off a text that starts with it: with some characters that write it, the
first of which is no blank, and which are read again before what looks the same as the rest. -/
def Taken (previous : Option Token) (cs : List Char) (t : Token) (rest : List Char) : Prop :=
  ∃ c text, cs = c :: text ++ rest ∧ Text.isBlank c = false ∧ Writes t (c :: text) ∧
    Reads (token previous) (c :: text) t rest

/-- A token of symbols: which one it is can depend on the token before it, how far it goes
cannot. -/
structure SymbolRead (previous : Option Token) (cs : List Char) (t : Token)
    (rest : List Char) : Prop where
  taken : Taken previous cs t rest
  again : ∀ other, ∃ t', token other cs = .ok (t', rest) ∧ (t = .slash ↔ t' = .slash)
  symbol : IsSymbol t

/-- A token is a word, a variable, a number that starts with its point, or of symbols. -/
theorem token_cases (h : token previous cs = .ok (t, rest)) :
    (∃ c cs', cs = c :: cs' ∧ startsWord c = true ∧ wordToken previous c cs' = .ok (t, rest)) ∨
    (∃ cs', cs = '$' :: cs' ∧ variableToken previous cs' = .ok (t, rest)) ∨
    (∃ cs', cs = '.' :: cs' ∧ cs'.head?.any Char.isDigit = true ∧
      numberToken '.' cs' = .ok (t, rest)) ∨
    SymbolRead previous cs t rest := by
  by_cases hword : ∃ c cs', cs = c :: cs' ∧ startsWord c = true
  · obtain ⟨c, cs', rfl, hc⟩ := hword
    rw [token_of_startsWord hc] at h
    exact Or.inl ⟨c, cs', rfl, hc, h⟩
  refine Or.inr ?_
  unfold token at h
  split at h
  case h_1 => cases h
  case h_12 | h_13 | h_15 | h_17 | h_19 | h_21 =>
    cases h
    exact Or.inr (Or.inr ⟨⟨_, [_], rfl, by decide, rfl, fun z _ => rfl⟩,
      fun other => ⟨_, rfl, Iff.rfl⟩,
      trivial⟩)
  -- a symbol that would go on with another one
  case h_14 hne | h_16 hne | h_18 hne =>
    cases h
    refine Or.inr (Or.inr ⟨⟨_, [], rfl, by decide, rfl, fun z hz => ?_⟩,
      fun other => ⟨_, ?_, Iff.rfl⟩,
      trivial⟩)
    · rw [List.singleton_append, token]
      exact hz.ne_cons (by decide) hne
    · rw [token]
      exact hne
  case h_20 =>
    cases h
    refine Or.inr (Or.inr ⟨⟨'*', [], rfl, by decide, ?_, fun z _ => rfl⟩,
      fun other => ⟨_, rfl, ?_⟩, ?_⟩)
    · split <;> rfl
    · split <;> split <;> simp
    · split
      · trivial
      · rfl
  case h_22 cs hne =>
    by_cases hdigit : cs.head?.any Char.isDigit = true
    · rw [if_pos hdigit] at h
      exact Or.inr (Or.inl ⟨cs, rfl, hdigit, h⟩)
    · rw [if_neg hdigit] at h
      cases h
      refine Or.inr (Or.inr ⟨⟨'.', [], rfl, by decide, rfl, fun z hz => ?_⟩,
        fun other => ⟨.dot, ?_, Iff.rfl⟩,
        trivial⟩)
      · have hend := hz.head?_any (fun _ => Text.isBlank_of_isDigit) (by simpa using hdigit)
        rw [List.singleton_append, token, hend]
        · rfl
        · exact hz.ne_cons (by decide) hne
      · rw [token, if_neg hdigit]
        exact hne
  case h_23 cs => exact Or.inl ⟨cs, rfl, h⟩
  case h_24 c cs _ _ _ _ _ _ _ _ _ _ _ _ _ _ _ _ _ _ _ _ _ _ =>
    have hc : startsWord c = false := by simpa using fun hc => hword ⟨c, cs, rfl, hc⟩
    simp only [startsWord, Bool.or_eq_false_iff] at hc
    simp [hc] at h
  all_goals
    cases h
    exact Or.inr (Or.inr ⟨⟨_, [], rfl, by decide, rfl, fun z _ => rfl⟩,
      fun other => ⟨_, rfl, Iff.rfl⟩,
      trivial⟩)

/-- Every token is taken in this way. -/
theorem token_taken (h : token previous cs = .ok (t, rest)) : Taken previous cs t rest := by
  rcases token_cases h with ⟨c, cs, rfl, hc, h⟩ | ⟨cs, rfl, h⟩ | ⟨cs, rfl, hdigit, h⟩ | h
  · obtain ⟨text, rfl, hwrites, hread⟩ := wordToken_reads h
    exact ⟨c, text, rfl, isBlank_of_startsWord hc, hwrites, fun z hz =>
      (token_of_startsWord hc _).trans (hread z hz)⟩
  · obtain ⟨text, rfl, hwrites, hread⟩ := variableToken_reads h
    exact ⟨'$', text, rfl, by decide, hwrites, hread⟩
  · obtain ⟨text, rfl, hend, hwrites, hread⟩ := numberToken_reads h
    have hpoint (z : List Char) : (text ++ z).head?.any Char.isDigit = true := by
      cases text with
      | nil =>
        cases rest with
        | nil => cases hdigit
        | cons c rest =>
          have hc : c.isDigit = true := hdigit
          simp [isNumeralChar, hc] at hend
      | cons c text => exact hdigit
    exact ⟨'.', text, rfl, by decide, hwrites, fun z hz =>
      (token_point (hpoint z)).trans (hread z hz)⟩
  · exact h.taken

/-- A token takes at least the first character. -/
theorem token_suffix (h : token previous cs = .ok (t, rest)) : rest <:+ cs.tail := by
  obtain ⟨c, text, rfl, -⟩ := token_taken h
  exact List.suffix_append text rest

/-- Only a slash is read as one. -/
theorem ne_slash_of_token {c : Char} (h : token previous (c :: cs) = .ok (t, rest))
    (hc : c ≠ '/') : t ≠ .slash := by
  rintro rfl
  obtain ⟨d, text, heq, -, hwrites, -⟩ := token_taken h
  obtain ⟨rfl, -⟩ := List.cons.inj hwrites
  exact hc (List.cons.inj heq).1

/-- The characters that a token takes are read again before what looks the same as the rest. -/
theorem token_eq_of_alike (h : token previous (text ++ rest) = .ok (t, rest))
    (hz : Alike rest z) : token previous (text ++ z) = .ok (t, z) := by
  obtain ⟨c, text', heq, -, -, hread⟩ := token_taken h
  rw [List.append_cancel_right heq]
  exact hread z hz

end Lexer
end XPath
end TagGrammar
