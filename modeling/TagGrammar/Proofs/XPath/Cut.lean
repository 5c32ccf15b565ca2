/-
Texts that are cut into given tokens.

`Cut` says which tokens a text is cut into, one token after the other and without a bound on
how many there are.  A piece of text that may be followed by others `CutsInto` tokens if these
come first wherever the piece stands, as long as what follows it `Stops` it: it closes
something, separates, goes on with a bracket or a slash, or is a binary operator between
blanks.  Whether an operator is expected before the piece and after it has to be known, since a
star or a name is read by that.
-/
import TagGrammar.Proofs.XPath.Lexer
import TagGrammar.XPath.Display

namespace TagGrammar
namespace XPath
namespace Lexer

variable {previous : Option Token} {cs rest z : List Char} {t : Token} {ts us : List Token}

/-- The tokens that a text after some token is cut into. -/
inductive Cut : Option Token → List Char → List Token → Prop where
  | done {previous : Option Token} {cs : List Char} (h : Text.skipBlanks cs = []) :
      Cut previous cs []
  | next {previous : Option Token} {cs cs' rest : List Char} {c : Char} {t : Token}
      {ts : List Token} (hcs : Text.skipBlanks cs = c :: cs')
      (ht : token previous (c :: cs') = .ok (t, rest)) (hts : Cut (some t) rest ts) :
      Cut previous cs (t :: ts)

theorem Cut.tokensFrom_eq_ok (h : Cut previous cs ts) {n : Nat} (hn : cs.length < n) :
    tokensFrom n previous cs = .ok ts := by
  induction h generalizing n with
  | done h =>
    obtain ⟨n, rfl⟩ : ∃ m, n = m + 1 := ⟨n - 1, by omega⟩
    simp only [tokensFrom, h]
  | next hcs ht _ ih =>
    obtain ⟨n, rfl⟩ : ∃ m, n = m + 1 := ⟨n - 1, by omega⟩
    have hshort := length_of_skipBlanks hcs
    have hrest := (token_suffix ht).length_le
    rw [List.tail_cons] at hrest
    rw [tokensFrom_cons hcs ht, ih (by omega)]
    rfl

theorem Cut.nil : Cut previous [] [] := .done rfl

theorem Cut.blank (h : Cut previous cs ts) : Cut previous (' ' :: cs) ts := by
  have hskip : Text.skipBlanks (' ' :: cs) = Text.skipBlanks cs :=
    Text.skipBlanks_cons_of_blank rfl
  cases h with
  | done hcs => exact .done (hskip.trans hcs)
  | next hcs ht hts => exact .next (hskip.trans hcs) ht hts

theorem Cut.cons {c : Char} (hc : Text.isBlank c = false)
    (ht : token previous (c :: cs) = .ok (t, rest)) (h : Cut (some t) rest ts) :
    Cut previous (c :: cs) (t :: ts) :=
  .next (Text.skipBlanks_cons_of_not_blank hc) ht h

theorem Cut.token_eq_ok {c : Char} (hc : Text.isBlank c = false)
    (h : Cut previous (c :: cs) (t :: ts)) : ∃ rest, token previous (c :: cs) = .ok (t, rest) := by
  cases h with
  | next hcs ht _ =>
    rw [Text.skipBlanks_cons_of_not_blank hc] at hcs
    obtain ⟨rfl, rfl⟩ := List.cons.inj hcs
    exact ⟨_, ht⟩

theorem Cut.slash (h : Cut (some .slash) cs ts) (hcs : cs.head? ≠ some '/') :
    Cut previous ('/' :: cs) (.slash :: ts) := by
  refine .cons (by decide) ?_ h
  rw [token]
  rintro cs' rfl
  exact hcs rfl

/-! ## Names -/

theorem isDigit_of_isNameStart {c : Char} (h : isNameStart c = true) : c.isDigit = false := by
  rw [isNameStart, Bool.or_eq_true, beq_iff_eq] at h
  rcases h with h | rfl
  · exact Text.isDigit_of_isLetter h
  · decide

theorem token_of_isNameStart {c : Char} (h : isNameStart c = true) (cs : List Char) :
    token previous (c :: cs) = nameToken previous c cs := by
  have hquote : (c == '"' || c == '\'') = false := by
    rw [Bool.or_eq_false_iff, beq_eq_false_iff_ne, beq_eq_false_iff_ne]
    constructor <;> rintro rfl <;> exact absurd h (by decide)
  rw [token_of_startsWord (by simp [startsWord, h]), wordToken, hquote, isDigit_of_isNameStart h]
  rfl

/-- A name is classified by what follows it. -/
theorem token_name {name : String} (hname : IsName name) (hz : EndsName z)
    (ht : classify previous name z = .ok t) : token previous (name.toList ++ z) = .ok (t, z) := by
  obtain ⟨c, cs, htext, hc, hread⟩ := hname
  rw [htext, List.cons_append, token_of_isNameStart hc]
  refine bind_eq_ok (hread z hz) (bind_eq_ok ?_ rfl)
  rw [String.ofList_toList]
  exact ht

theorem Cut.name {name : String} (hname : IsName name) (hz : EndsName z)
    (ht : classify previous name z = .ok t) (h : Cut (some t) z us) :
    Cut previous (name.toList ++ z) (t :: us) := by
  have htoken := token_name hname hz ht
  obtain ⟨c, cs, htext, hc, -⟩ := hname
  rw [htext] at htoken ⊢
  exact .cons (isBlank_of_isNameStart hc) htoken h

theorem isName_of_all {c : Char} {cs : List Char} (hc : isNameStart c = true)
    (hcs : cs.all isNameChar = true) {name : String} (hname : name.toList = c :: cs) :
    IsName name :=
  ⟨c, cs, hname, hc, fun z hz => by
    rw [qualifiedName_of_endsName (List.all_eq_true.mp hcs) hz, hname]⟩

theorem isName_of_nodeType {name : String} (h : name ∈ nodeTypes) : IsName name := by
  simp only [nodeTypes, List.mem_cons, List.not_mem_nil, or_false] at h
  rcases h with rfl | rfl | rfl | rfl
  all_goals exact isName_of_all (by decide) (by decide) rfl

theorem classify_leftParen {name : String} (hp : operatorExpected previous = false) (z : List Char) :
    classify previous name ('(' :: z) =
      .ok (if nodeTypes.contains name then .nodeType name else .functionName name) := by
  rw [classify, hp]
  rfl

theorem Cut.functionName {name : String} (hname : IsName name) (hnode : name ∉ nodeTypes)
    (hp : operatorExpected previous = false) (h : Cut (some (.functionName name)) ('(' :: z) us) :
    Cut previous (name.toList ++ '(' :: z) (.functionName name :: us) := by
  refine .name hname rfl ?_ h
  rw [classify_leftParen hp, if_neg (mt List.contains_iff_mem.mp hnode)]

theorem Cut.nodeType {name : String} (hnode : name ∈ nodeTypes)
    (hp : operatorExpected previous = false) (h : Cut (some (.nodeType name)) ('(' :: z) us) :
    Cut previous (name.toList ++ '(' :: z) (.nodeType name :: us) := by
  refine .name (isName_of_nodeType hnode) rfl ?_ h
  rw [classify_leftParen hp, if_pos (List.contains_iff_mem.mpr hnode)]

theorem Cut.axisName {axis : Axis} (hp : operatorExpected previous = false)
    (h : Cut (some (.axisName axis.text)) (':' :: ':' :: z) us) :
    Cut previous (axis.text.toList ++ ':' :: ':' :: z) (.axisName axis.text :: us) := by
  have hclass : classify previous axis.text (':' :: ':' :: z) = .ok (.axisName axis.text) := by
    rw [classify, hp]
    rfl
  have hname : ∃ c cs, axis.text.toList = c :: cs ∧ isNameStart c = true ∧
      qualifiedName c (cs ++ ':' :: ':' :: z) = .ok (axis.text.toList, ':' :: ':' :: z) := by
    cases axis <;> exact ⟨_, _, rfl, by decide, rfl⟩
  obtain ⟨c, cs, htext, hc, hread⟩ := hname
  have htoken : token previous (c :: (cs ++ ':' :: ':' :: z)) =
      .ok (.axisName axis.text, ':' :: ':' :: z) := by
    rw [token_of_isNameStart hc]
    refine bind_eq_ok hread (bind_eq_ok ?_ rfl)
    rw [String.ofList_toList]
    exact hclass
  rw [htext]
  exact .cons (isBlank_of_isNameStart hc) htoken h

/-! ## What may follow a piece -/

/-- The operator is written like the test of a step. -/
def isWritten : Operator → Bool
  | .or | .and | .div | .mod | .multiply => true
  | _ => false

/-- What comes next does not go on with any name, literal or path before it. -/
def Stops (z : List Char) : Prop :=
  z = [] ∨ (∃ c z', z = c :: z' ∧ c ∈ [')', ']', ',', '[', '/']) ∨
    ∃ (op : Operator) (z' : List Char), z = ' ' :: (op.text.toList ++ ' ' :: z')

theorem Stops.of_mem {c : Char} (hc : c ∈ [')', ']', ',', '[', '/']) (z : List Char) :
    Stops (c :: z) := Or.inr (Or.inl ⟨c, z, rfl, hc⟩)

theorem Stops.operator (op : Operator) (z : List Char) :
    Stops (' ' :: (op.text.toList ++ ' ' :: z)) := Or.inr (Or.inr ⟨op, z, rfl⟩)

theorem Stops.endsName (h : Stops z) : EndsName z := by
  rcases h with rfl | ⟨c, z, rfl, hc⟩ | ⟨op, z, rfl⟩
  · rfl
  · simp only [List.mem_cons, List.not_mem_nil, or_false] at hc
    rcases hc with rfl | rfl | rfl | rfl | rfl <;> rfl
  · rfl

theorem Stops.classify {name : String} (h : Stops z) (hp : operatorExpected previous = false) :
    classify previous name z = .ok (.nameTest name) := by
  rw [Lexer.classify, hp]
  rcases h with rfl | ⟨c, z, rfl, hc⟩ | ⟨op, z, rfl⟩
  · rfl
  · simp only [List.mem_cons, List.not_mem_nil, or_false] at hc
    rcases hc with rfl | rfl | rfl | rfl | rfl <;> rfl
  · cases op <;> rfl

theorem Cut.operator {last : Option Token} {op : Operator}
    (hlast : isWritten op = true → operatorExpected last = true)
    (h : Cut (some (.operator op)) z us) :
    Cut last (' ' :: (op.text.toList ++ ' ' :: z)) (.operator op :: us) := by
  have htoken : token last (op.text.toList ++ ' ' :: z) = .ok (.operator op, ' ' :: z) := by
    by_cases hop : isWritten op = true
    · have hexpected := hlast hop
      by_cases hstar : op = .multiply
      · subst hstar
        show Except.ok (if operatorExpected last then _ else _, _) = _
        rw [if_pos hexpected]
        rfl
      · have hnamed : IsName op.text ∧ namedOperator? op.text = some op := by
          cases op <;> first
            | cases hop; done
            | exact absurd rfl hstar
            | exact ⟨isName_of_all (by decide) (by decide) rfl, by decide⟩
        refine token_name hnamed.1 rfl ?_
        rw [Lexer.classify, hexpected, if_pos rfl, hnamed.2]
    · cases op <;> first | rfl | exact absurd rfl hop
  have hblank : ∃ c cs, op.text.toList ++ ' ' :: z = c :: cs ∧ Text.isBlank c = false := by
    cases op <;> exact ⟨_, _, rfl, by decide⟩
  obtain ⟨c, cs, htext, hc⟩ := hblank
  rw [htext] at htoken ⊢
  exact .blank (.cons hc htoken h.blank)

/-! ## Pieces -/

/-- A piece of text is cut into tokens wherever it stands after a token that leaves an operand
to be given (`start` is false) or not, before text that stops it and that is cut after the
piece.  If an operator may not be expected after the piece (`finish` is false), it ends in a
slash, so no slash may follow it. -/
def CutsInto (start : Bool) (text : String) (finish : Bool) (ts : List Token) : Prop :=
  ∀ previous z us, operatorExpected previous = start → Stops z →
    (finish = false → z.head? ≠ some '/') →
    (∀ last, (finish = true → operatorExpected last = true) → Cut last z us) →
    Cut previous (text.toList ++ z) (ts ++ us)

variable {start finish : Bool} {text text' : String}

theorem CutsInto.append {ts' : List Token} (h : CutsInto start text true ts)
    (h' : CutsInto true text' finish ts') (hstop : ∀ z, Stops z → Stops (text'.toList ++ z)) :
    CutsInto start (text ++ text') finish (ts ++ ts') := by
  intro previous z us hp hz hslash hcut
  rw [String.toList_append, List.append_assoc, List.append_assoc]
  refine h previous _ _ hp (hstop z hz) (by simp) fun last hlast => ?_
  exact h' last z us (hlast rfl) hz hslash hcut

/-- A piece whose end is not known may still be followed by what does not ask for it. -/
theorem CutsInto.weaken (h : CutsInto start text finish ts) : CutsInto start text false ts :=
  fun previous z us hp hz hslash hcut =>
    h previous z us hp hz (fun _ => hslash rfl) fun last _ => hcut last nofun

theorem CutsInto.empty : CutsInto true "" true [] := by
  intro previous z us hp _ _ hcut
  exact hcut previous fun _ => hp

theorem CutsInto.star : CutsInto false "*" true [.nameTest "*"] := by
  intro previous z us hp _ _ hcut
  refine Cut.cons (by decide) ?_ (hcut (some (.nameTest "*")) fun _ => rfl)
  show Except.ok (if operatorExpected previous then _ else _, _) = _
  rw [hp]
  rfl

theorem CutsInto.name {name : String} (hname : IsName name) :
    CutsInto false name true [.nameTest name] := by
  intro previous z us hp hz _ hcut
  exact .name hname hz.endsName (hz.classify hp) (hcut _ fun _ => rfl)

theorem CutsInto.variable {name : String} (hname : IsName name) :
    CutsInto false ("$" ++ name) true [.variable name] := by
  intro previous z us hp hz _ hcut
  have htoken := token_name hname hz.endsName (hz.classify hp)
  obtain ⟨c, cs, htext, hc, -⟩ := hname
  rw [htext, List.cons_append, token_of_isNameStart hc] at htoken
  rw [String.toList_append, htext]
  have hvariable : token previous ('$' :: c :: (cs ++ z)) = .ok (.variable name, z) := by
    show (if isNameStart c then _ else _) = _
    rw [if_pos hc]
    exact bind_eq_ok htoken rfl
  exact Cut.cons (by decide) hvariable (hcut _ fun _ => rfl)

theorem Cut.literal {quote : Char} {value : String} (hquote : quote = '"' ∨ quote = '\'')
    (hvalue : quote ∉ value.toList) (h : Cut (some (.literal value)) z us) :
    Cut previous (quote :: (value.toList ++ quote :: z)) (.literal value :: us) := by
  have hword : startsWord quote = true := by
    rcases hquote with rfl | rfl <;> rfl
  have hblank : Text.isBlank quote = false := by
    rcases hquote with rfl | rfl <;> decide
  refine .cons hblank ?_ h
  rw [token_of_startsWord hword, wordToken, if_pos (by simpa using hquote)]
  exact literalToken_eq_ok hvalue z

theorem CutsInto.literal {value : String} (h : '"' ∉ value.toList ∨ '\'' ∉ value.toList) :
    CutsInto start (displayLiteral value) true [.literal value] := by
  intro previous z us _ _ _ hcut
  have hrest := hcut (some (.literal value)) fun _ => rfl
  unfold displayLiteral
  by_cases hsingle : '\'' ∈ value.toList
  · rw [if_pos (List.contains_iff_mem.mpr hsingle)]
    simpa using Cut.literal (Or.inl rfl) (h.resolve_right (not_not_intro hsingle)) hrest
  · rw [if_neg (mt List.contains_iff_mem.mp hsingle)]
    simpa using Cut.literal (Or.inr rfl) hsingle hrest

end Lexer
end XPath
end TagGrammar
