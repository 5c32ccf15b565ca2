/-
What is read of the references that are inserted.

A reference in text becomes an expression as it is written, and the lexer of expressions has a
notion of names of its own.  All characters of a reference are those of a name there too, but a
name must not start with a digit or a hyphen, which the one in a reference may.  So an inserted
reference is read as the attribute or the variable it names exactly if its name starts with a
letter or an underscore, and otherwise it is no expression at all (`inserted_read_iff`).
-/
import TagGrammar.Proofs.Template.Converted
import TagGrammar.Proofs.XPath.Displayed

namespace TagGrammar
namespace XPath
open Lexer (Cut CutsInto IsName isNameStart token tokensFrom variableToken)

variable {name source : String} {ts : List Token} {phrase : Phrase}

/-! ## Attributes and variables by name -/

theorem Expr.parse_of_cutsInto {e : Expr} (hcut : CutsInto false source true ts)
    (hderives : Derives ts (.operation 8 e)) : Expr.parse source = .ok e := by
  have hall : Cut none (source.toList ++ []) (ts ++ []) :=
    hcut none [] [] rfl (Or.inl rfl) (by simp) fun _ _ => .nil
  rw [List.append_nil, List.append_nil] at hall
  exact Expr.parse_eq_ok_iff.mpr ⟨ts, hall.tokensFrom_eq_ok (Nat.lt_succ_self _),
    hderives.loosen (Nat.zero_le _) (Nat.le_refl _)⟩

theorem Expr.parse_variable (hname : IsName name) :
    Expr.parse ("$" ++ name) = .ok (.variable name) :=
  parse_of_cutsInto (.variable hname) (.ofPath (.alone .variableName))

theorem Expr.parse_attribute (hname : IsName name) :
    Expr.parse ("@" ++ name) = .ok (.path false [.mk .attributes (.name name) []]) := by
  have hsource : CutsInto false ("@" ++ name) true [.atSign, .nameTest name] := by
    intro previous z us _ hz hslash hcut
    have htest := CutsInto.name hname (some .atSign) z us rfl hz hslash hcut
    have hat : Cut previous ('@' :: (name.toList ++ z)) (.atSign :: .nameTest name :: us) :=
      .cons (by decide) rfl htest
    simpa using hat
  exact parse_of_cutsInto hsource
    (.ofPath (.relative (.oneStep (.attributes .name .noPredicates))))

/-- A test comes after every at sign that some tokens begin with. -/
def TestAfterSign (ts : List Token) : Prop :=
  ∀ rest, ts = .atSign :: rest → Begins startsTest rest

theorem TestAfterSign.append (h : TestAfterSign ts) {p : Token → Bool} (hts : Begins p ts)
    (us : List Token) : TestAfterSign (ts ++ us) := by
  intro rest heq
  obtain ⟨t, ts, rfl, -⟩ := hts.exists_cons
  obtain ⟨rfl, rfl⟩ := List.cons.inj heq
  exact (h ts rfl).append us

theorem Derives.testAfterSign (h : Derives ts phrase) : TestAfterSign ts := by
  induction h with
  | operand _ _ ih | ofPath _ ih | relative _ ih | alone _ ih | oneStep _ ih | oneArgument _ ih =>
    exact ih
  | binary h _ ih _ => exact ih.append h.beginsIn _
  | stepChild h _ ih _ | stepBelow h _ ih _ => exact ih.append h.beginsIn _
  | argument h _ ih _ => exact ih.append h.beginsIn _
  | plain h _ ih _ => exact ih.append h.beginsIn _
  | filter h _ _ _ ih =>
    rw [List.append_assoc]
    exact ih.append h.beginsIn _
  | attributes h _ _ _ =>
    intro rest heq
    obtain ⟨-, rfl⟩ := List.cons.inj heq
    exact Begins.append h.beginsIn _
  | noTrailing | noPredicates => exact fun rest heq => nomatch heq
  | _ => exact fun rest heq => nomatch (List.cons.inj heq).1

/-- A sign or a digit starts no test. -/
theorem not_startsTest_of_token {previous : Option Token} {c : Char} {cs rest : List Char}
    {t : Token} (hc : c.isDigit = true ∨ c = '-')
    (ht : token previous (c :: cs) = .ok (t, rest)) : startsTest t = false := by
  rcases hc with hdigit | rfl
  · have hquote : ¬(c == '"' || c == '\'') = true := by
      rw [Bool.or_eq_true, beq_iff_eq, beq_iff_eq]
      rintro (rfl | rfl) <;> exact absurd hdigit (by decide)
    rw [Lexer.token_of_startsWord (by simp [Lexer.startsWord, hdigit]), Lexer.wordToken,
      if_neg hquote, if_pos hdigit, Lexer.numberToken] at ht
    split at ht <;> cases ht
    rfl
  · cases ht
    rfl

theorem isBlank_of_digit_or_sign {c : Char} (hc : c.isDigit = true ∨ c = '-') :
    Text.isBlank c = false := by
  rcases hc with hdigit | rfl
  · exact Text.isBlank_of_isDigit hdigit
  · decide

/-- A sign or a digit starts no name of an attribute. -/
theorem Expr.parse_attribute_of_digit_or_sign {c : Char} (hc : c.isDigit = true ∨ c = '-')
    (cs : List Char) (e : Expr) : Expr.parse (String.ofList ('@' :: c :: cs)) ≠ .ok e := by
  intro hparse
  obtain ⟨ts, hts, hderives⟩ := Expr.parse_eq_ok_iff.mp hparse
  rw [tokenize, String.toList_ofList] at hts
  obtain ⟨t, rest, us, ht, rfl, hus⟩ :=
    Lexer.exists_of_tokensFrom (rfl : Text.skipBlanks ('@' :: c :: cs) = _) hts
  cases ht
  obtain ⟨t, rest', us', ht, rfl, -⟩ := Lexer.exists_of_tokensFrom
    (Text.skipBlanks_cons_of_not_blank (isBlank_of_digit_or_sign hc)) hus
  have htest : startsTest t = true := hderives.testAfterSign _ rfl
  rw [not_startsTest_of_token hc ht] at htest
  cases htest

/-- A sign or a digit starts no name of a variable. -/
theorem Expr.parse_variable_of_not_isNameStart {c : Char} (hc : isNameStart c = false)
    (cs : List Char) (e : Expr) : Expr.parse (String.ofList ('$' :: c :: cs)) ≠ .ok e := by
  intro hparse
  obtain ⟨ts, hts, -⟩ := Expr.parse_eq_ok_iff.mp hparse
  rw [tokenize, String.toList_ofList] at hts
  obtain ⟨t, rest, us, ht, rfl, -⟩ :=
    Lexer.exists_of_tokensFrom (rfl : Text.skipBlanks ('$' :: c :: cs) = _) hts
  have hvariable : variableToken none (c :: cs) = .ok (t, rest) := ht
  rw [variableToken, hc] at hvariable
  cases hvariable

end XPath

namespace Curly
open XPath (Expr)
open XPath.Lexer (IsName isNameStart)

/-- An expression that is inserted for a reference in a text of a literal element. -/
def IsInserted (template : Node) (source : String) : Prop :=
  ∃ e ∈ template.nodes, ∃ text, HasText e text ∧ .expression source ∈ pieces text

/-- An expression is the attribute or the variable that a reference names. -/
def Names (source : String) (e : Expr) : Prop :=
  ∃ name, (source = "@" ++ name ∧ e.asAttribute? = some name) ∨
    (source = "$" ++ name ∧ e = .variable name)

/-- The name of a reference starts with a letter or an underscore. -/
def StartsName (source : String) : Prop :=
  ∃ sigil c cs, source.toList = sigil :: c :: cs ∧ (c.isAlpha = true ∨ c = '_')

variable {template : Node} {source : String} {c : Char} {cs : List Char}

/-- What is inserted is a reference. -/
theorem isReference_of_isInserted (h : IsInserted template source) :
    IsReference source.toList := by
  obtain ⟨e, -, text, -, hpiece⟩ := h
  exact (pieces_eq_iff.mp (Eq.refl (pieces text))).2.references source hpiece

/-- A node that is new is text or inserts an expression for a reference. -/
theorem new_of_mem_convert {d : Node} (hd : d ∈ (convert template).nodes) :
    (∃ e ∈ template.nodes, d = convert e) ∨ IsPlainText d ∨
      ∃ source, IsInserted template source ∧ d = { value := .insertion source } := by
  refine (mem_nodes_convert template d hd).imp_right ?_
  rintro ⟨text, ⟨e, he, htext⟩, piece, hpiece, rfl⟩
  cases piece with
  | literal text => exact Or.inl ⟨text, rfl⟩
  | expression source => exact Or.inr ⟨source, ⟨e, he, text, htext, hpiece⟩, rfl⟩

/-- The characters of a reference are those of a name, but not all of them start one. -/
theorem isNameChar_of_isNameChar (h : isNameChar c = true) : XPath.Lexer.isNameChar c = true := by
  simp only [isNameChar, Char.isAlphanum, Bool.or_eq_true, beq_iff_eq] at h
  rcases h with (((halpha | hdigit) | rfl) | rfl)
  · simp [XPath.Lexer.isNameChar, Text.isLetterOrNumeral, Text.isLetter, halpha]
  · simp [XPath.Lexer.isNameChar, Text.isLetterOrNumeral, Text.isNumeral_of_isDigit hdigit]
  · decide
  · decide

theorem isNameStart_of_letter (h : c.isAlpha = true ∨ c = '_') : isNameStart c = true := by
  rcases h with halpha | rfl
  · simp [isNameStart, Text.isLetter, halpha]
  · decide

theorem digit_or_sign_of_isNameChar (h : isNameChar c = true)
    (hc : ¬(c.isAlpha = true ∨ c = '_')) : c.isDigit = true ∨ c = '-' := by
  simp only [isNameChar, Char.isAlphanum, Bool.or_eq_true, beq_iff_eq] at h
  tauto

theorem isNameStart_of_digit_or_sign (h : c.isDigit = true ∨ c = '-') :
    isNameStart c = false := by
  rcases h with hdigit | rfl
  · rw [Bool.eq_false_iff]
    intro hstart
    rw [XPath.Lexer.isDigit_of_isNameStart hstart] at hdigit
    cases hdigit
  · decide

theorem asAttribute?_eq_some {name : String} (h : ∀ c ∈ name.toList, isNameChar c = true) :
    (Expr.path false [.mk .attributes (.name name) []]).asAttribute? = some name := by
  have hstar : ¬name.toList.contains '*' = true := by
    rw [List.contains_iff_mem]
    intro hmem
    exact absurd (h '*' hmem) (by decide)
  rw [Expr.asAttribute?, if_neg hstar]

/-- A reference whose name starts with a letter or an underscore is read as what it names. -/
theorem parse_of_startsName (h : IsReference source.toList) (hstarts : StartsName source) :
    ∃ e, Expr.parse source = .ok e ∧ Names source e := by
  obtain ⟨sigil, name, hsigil, -, hname, hsource⟩ := h
  obtain ⟨sigil', c, cs, hsource', hc⟩ := hstarts
  rw [hsource] at hsource'
  obtain ⟨-, rfl⟩ := List.cons.inj hsource'
  have hall : cs.all XPath.Lexer.isNameChar = true := List.all_eq_true.mpr fun d hd =>
    isNameChar_of_isNameChar (hname d (List.mem_cons_of_mem c hd))
  have hisname : IsName (String.ofList (c :: cs)) :=
    XPath.Lexer.isName_of_all (isNameStart_of_letter hc) hall String.toList_ofList
  have htext : source = String.singleton sigil ++ String.ofList (c :: cs) := by
    rw [← String.toList_inj, hsource]
    simp
  rcases hsigil with rfl | rfl
  · refine ⟨_, ?_, String.ofList (c :: cs), Or.inl ⟨htext, asAttribute?_eq_some ?_⟩⟩
    · rw [htext]
      exact Expr.parse_attribute hisname
    · rwa [String.toList_ofList]
  · refine ⟨_, ?_, String.ofList (c :: cs), Or.inr ⟨htext, rfl⟩⟩
    rw [htext]
    exact Expr.parse_variable hisname

/-- A reference with another name is no expression. -/
theorem parse_of_not_startsName (h : IsReference source.toList) (hstarts : ¬StartsName source)
    (e : Expr) : Expr.parse source ≠ .ok e := by
  obtain ⟨sigil, name, hsigil, hne, hname, hsource⟩ := h
  obtain ⟨c, cs, rfl⟩ := List.exists_cons_of_ne_nil hne
  have hc := digit_or_sign_of_isNameChar (hname c List.mem_cons_self) fun hc =>
    hstarts ⟨sigil, c, cs, hsource, hc⟩
  rw [← String.ofList_toList (s := source), hsource]
  rcases hsigil with rfl | rfl
  · exact Expr.parse_attribute_of_digit_or_sign hc cs e
  · exact Expr.parse_variable_of_not_isNameStart (isNameStart_of_digit_or_sign hc) cs e

/-- All nodes that replacing the references makes are texts and insertions for references.
What is inserted is read as the attribute or the variable it names exactly if its name starts
with a letter or an underscore, and otherwise it is no expression. -/
theorem inserted_read_iff (template m : Node) (h : Pass.convertCurly.run template = .ok m) :
    (∀ d ∈ m.nodes, (∃ e ∈ template.nodes, d = convert e) ∨ IsPlainText d ∨
        ∃ source, IsInserted template source ∧ d = { value := .insertion source }) ∧
      ∀ source, IsInserted template source →
        ((∃ e, Expr.parse source = .ok e ∧ Names source e) ↔ StartsName source) ∧
          (¬StartsName source → ∃ fault, Expr.parse source = .error fault) := by
  obtain ⟨-, rfl⟩ := run_convertCurly_eq_ok_iff.mp h
  refine ⟨fun d => new_of_mem_convert, fun source hinserted => ?_⟩
  have hreference := isReference_of_isInserted hinserted
  refine ⟨⟨fun ⟨e, hparse, _⟩ => ?_, parse_of_startsName hreference⟩, fun hstarts => ?_⟩
  · by_contra hstarts
    exact parse_of_not_startsName hreference hstarts e hparse
  · cases hparse : Expr.parse source with
    | error fault => exact ⟨fault, rfl⟩
    | ok e => exact (parse_of_not_startsName hreference hstarts e hparse).elim

/-! ## A template -/

/-- A literal element with two references, one of which names no variable. -/
def twoReferences : Node :=
  { value := .root, children :=
    [{ value := .element { name := "b" }, children := [{ value := .plainText "{@a}{$1}" }] }] }

theorem pieces_twoReferences :
    pieces "{@a}{$1}" = [.expression "@a", .expression "$1"] := by
  decide +kernel

theorem isInserted_twoReferences (h : .expression source ∈ pieces "{@a}{$1}") :
    IsInserted twoReferences source := by
  refine ⟨⟨.element { name := "b" }, false, [{ value := .plainText "{@a}{$1}" }]⟩, ?_, "{@a}{$1}",
    ⟨rfl, _, List.mem_singleton_self _, false, rfl⟩, h⟩
  simp [twoReferences, Node.nodes, Node.nodesOfAll]

/-- Both are inserted, one is read as an attribute and the other one is no expression. -/
theorem inserted_read_iff_twoReferences :
    ∃ m, Pass.convertCurly.run twoReferences = .ok m ∧
      (∃ e, Expr.parse "@a" = .ok e ∧ Names "@a" e) ∧
      IsInserted twoReferences "$1" ∧ ∃ fault, Expr.parse "$1" = .error fault := by
  have hrun : hasNestedReplacement twoReferences = false := by decide +kernel
  have hrun : Pass.convertCurly.run twoReferences = .ok (convert twoReferences) :=
    run_convertCurly_eq_ok_iff.mpr ⟨hrun, rfl⟩
  have hfirst : IsInserted twoReferences "@a" :=
    isInserted_twoReferences (by rw [pieces_twoReferences]; simp)
  have hsecond : IsInserted twoReferences "$1" :=
    isInserted_twoReferences (by rw [pieces_twoReferences]; simp)
  have hread := (inserted_read_iff twoReferences _ hrun).2
  refine ⟨_, hrun, (hread "@a" hfirst).1.mpr ⟨'@', 'a', [], by decide, Or.inl (by decide)⟩, hsecond,
    (hread "$1" hsecond).2 ?_⟩
  rintro ⟨sigil, c, cs, htext, hc⟩
  have hone : "$1".toList = ['$', '1'] := by decide
  rw [hone] at htext
  cases htext
  exact absurd hc (by decide)

/-- A digit starts a name in a reference, and what is inserted for it is no expression. -/
theorem inserted_digit_not_read :
    ∃ template m, Template.parse false "<b>{@1}</b>" = .ok template ∧
      Pass.convertCurly.run template = .ok m ∧ (∃ n ∈ m.nodes, n.value = .insertion "@1") ∧
      ∀ e, Expr.parse "@1" ≠ .ok e := by
  have hinserted : (Template.parse false "<b>{@1}</b>").toOption.any (fun t =>
      (Pass.convertCurly.run t).toOption.any fun m =>
        m.nodes.any fun n => n.value == .insertion "@1") = true := by decide +kernel
  obtain ⟨template, hparse, h⟩ := exists_ok_of_any hinserted
  obtain ⟨m, hrun, h⟩ := exists_ok_of_any h
  obtain ⟨n, hn, hvalue⟩ := List.any_eq_true.mp h
  refine ⟨template, m, hparse, hrun, ⟨n, hn, eq_of_beq hvalue⟩, fun e he => ?_⟩
  exact Expr.parse_attribute_of_digit_or_sign (Or.inl (by decide : '1'.isDigit = true)) [] e he

end Curly
end TagGrammar
