/-
The pieces that a text is cut into at its references.

The pieces write the text, a reference among them is the first one that starts where it does,
and the plain text between holds none.  That determines them (`pieces_eq_iff`).  What a
reference inserts is an attribute or a variable, so it is no constant that would become text.
A text made of the pieces of another one has therefore nothing more to be replaced
(`isCut_of_mem_pieces`).
-/
import TagGrammar.Proofs.ValueTemplate.Rendered
import TagGrammar.Proofs.XPath.JoinedCalls
import TagGrammar.Template.Curly
import TagGrammar.Template.InlineLiteral

namespace TagGrammar
namespace XPath
open Lexer (token tokensFrom variableToken)

/-- The tokens that a constant starts with. -/
def startsConstant : Token → Bool
  | .literal _ | .number _ | .leftParen => true
  | _ => false

/-- How the tokens of a phrase begin if it is a constant. -/
def Phrase.ConstantBegins : Phrase → List Token → Prop
  | operation _ e | path e | primary e => fun ts =>
    e.constant?.isSome = true → Begins startsConstant ts
  | _ => fun _ => True

theorem Derives.constantBegins {ts : List Token} {phrase : Phrase} (h : Derives ts phrase) :
    phrase.ConstantBegins ts := by
  induction h with
  | operand _ _ ih | ofPath _ ih | alone _ ih => exact ih
  | literal | number | parens => exact fun _ => rfl
  | binary | negate | root | absolute | anywhere | relative | filter | variableName | emptyCall
  | call => exact fun hconstant => nomatch hconstant
  | _ => trivial

theorem begins_of_constantText? {source text : String}
    (h : InlineLiteral.constantText? source = some text) :
    ∃ ts, tokenize source = .ok ts ∧ Begins startsConstant ts := by
  unfold InlineLiteral.constantText? at h
  split at h
  · rename_i e he
    obtain ⟨ts, hts, hderives⟩ := Expr.parse_eq_ok_iff.mp he
    exact ⟨ts, hts, hderives.constantBegins (by rw [h]; rfl)⟩
  · cases h

theorem token_of_sigil {sigil : Char} (h : sigil = '@' ∨ sigil = '$') {cs rest : List Char}
    {t : Token} (ht : token none (sigil :: cs) = .ok (t, rest)) : startsConstant t = false := by
  rcases h with rfl | rfl
  · cases ht
    rfl
  · have hvariable : variableToken none cs = .ok (t, rest) := ht
    obtain ⟨name, rfl⟩ := Lexer.variable_of_variableToken hvariable
    rfl

/-- What starts as an attribute or a variable is no constant. -/
theorem constantText?_of_sigil {sigil : Char} (h : sigil = '@' ∨ sigil = '$') (cs : List Char) :
    InlineLiteral.constantText? (String.ofList (sigil :: cs)) = none := by
  rw [Option.eq_none_iff_forall_ne_some]
  intro text htext
  obtain ⟨ts, hts, hbegins⟩ := begins_of_constantText? htext
  have hblank : Text.skipBlanks (sigil :: cs) = sigil :: cs := by
    rcases h with rfl | rfl <;> rfl
  have htokens : tokensFrom ((sigil :: cs).length + 1) none (sigil :: cs) = .ok ts := by
    simpa only [tokenize, String.toList_ofList] using hts
  obtain ⟨t, rest, us, ht, rfl, -⟩ := Lexer.exists_of_tokensFrom hblank htokens
  have hstart : startsConstant t = true := hbegins
  rw [token_of_sigil h ht] at hstart
  cases hstart

end XPath

namespace Curly
open ValueTemplate (Spaced StartsLiteral flatMap_withLiteral isLiteral spaced_expression
  spaced_literal spaced_nil withLiteral)

variable {cs rest e plain : List Char} {parts : List ValuePart} {source text : String}

/-- An attribute or a variable. -/
def IsReference (e : List Char) : Prop :=
  ∃ sigil name, (sigil = '@' ∨ sigil = '$') ∧ name ≠ [] ∧ (∀ c ∈ name, isNameChar c = true) ∧
    e = sigil :: name

/-- An expression between braces. -/
def braced (e : List Char) : List Char := '{' :: (e ++ ['}'])

def StartsReference (cs : List Char) : Prop := ∃ e rest, IsReference e ∧ cs = braced e ++ rest

def HoldsReference (cs : List Char) : Prop := ∃ s, s <:+ cs ∧ StartsReference s

/-- The text that a piece stands for. -/
def written : ValuePart → List Char
  | .literal text => text.toList
  | .expression source => braced source.toList

/-- The pieces are the references that come first in what is written for them, and the text
between. -/
structure IsLeftmost (parts : List ValuePart) : Prop extends Spaced parts where
  plain : ∀ text, .literal text ∈ parts → ¬HoldsReference text.toList
  references : ∀ source, .expression source ∈ parts → IsReference source.toList
  leftmost : ∀ before text after, parts = before ++ .literal text :: after →
    ∀ s, s <:+ text.toList → s ≠ [] → ¬StartsReference (s ++ after.flatMap written)

/-! ## References -/

theorem reference?_eq_some_iff :
    reference? cs = some (e, rest) ↔ IsReference e ∧ cs = braced e ++ rest := by
  constructor
  · intro h
    unfold reference? at h
    split at h
    · rename_i sigil cs
      split at h
      · rename_i hsigil
        split at h
        · cases h
        · rename_i hname hrest hne
          obtain ⟨rfl, rfl⟩ := Prod.mk.inj (Option.some.inj h)
          refine ⟨⟨sigil, _, by simpa using hsigil, hne, all_takeWhile isNameChar cs, rfl⟩, ?_⟩
          rw [braced, List.cons_append, List.append_assoc, List.cons_append, List.singleton_append,
            ← hrest, List.takeWhile_append_dropWhile]
        · cases h
      · cases h
    · cases h
  · rintro ⟨⟨sigil, name, hsigil, hne, hname, rfl⟩, rfl⟩
    have hend : ('}' :: rest).head?.any isNameChar = false := rfl
    have htest : (sigil == '@' || sigil == '$') = true := by simpa using hsigil
    obtain ⟨c, name, rfl⟩ := List.exists_cons_of_ne_nil hne
    rw [braced, List.cons_append, List.append_assoc, List.cons_append, List.singleton_append]
    simp only [reference?, htest, if_true, takeWhile_run hname hend,
      dropWhile_run hname hend]

theorem not_startsReference_iff : ¬StartsReference cs ↔ reference? cs = none := by
  simp only [StartsReference, ← reference?_eq_some_iff, Option.eq_none_iff_forall_ne_some,
    not_exists, Prod.forall, ne_eq]

theorem reference?_append (h : reference? cs = some (e, rest)) (z : List Char) :
    reference? (cs ++ z) = some (e, rest ++ z) := by
  obtain ⟨he, rfl⟩ := reference?_eq_some_iff.mp h
  exact reference?_eq_some_iff.mpr ⟨he, List.append_assoc _ rest z⟩

theorem reference?_of_append {z : List Char} (h : reference? (cs ++ z) = none) :
    reference? cs = none := by
  rw [Option.eq_none_iff_forall_ne_some] at h ⊢
  rintro ⟨e, rest⟩ hcs
  exact h _ (reference?_append hcs z)

/-- No reference starts in what was read, with what follows it. -/
def PassedBy (plain cs : List Char) : Prop :=
  ∀ s, s <:+ plain → s ≠ [] → reference? (s ++ cs) = none

theorem PassedBy.nil (cs : List Char) : PassedBy [] cs :=
  fun _ hs hne => absurd (List.suffix_nil.mp hs) hne

theorem PassedBy.concat {c : Char} (h : PassedBy plain (c :: rest))
    (hc : reference? (c :: rest) = none) : PassedBy (plain ++ [c]) rest := by
  intro s hs hne
  rcases List.suffix_concat_iff.mp hs with rfl | ⟨s', rfl, hs'⟩
  · exact absurd rfl hne
  · rw [List.append_assoc, List.singleton_append]
    by_cases hempty : s' = []
    · rw [hempty]
      exact hc
    · exact h s' hs' hempty

/-- Text that was passed by holds no reference. -/
theorem PassedBy.not_holdsReference (h : PassedBy plain cs) : ¬HoldsReference plain := by
  rintro ⟨s, hs, hstarts⟩
  have hne : s ≠ [] := by
    rintro rfl
    exact not_startsReference_iff.mpr rfl hstarts
  exact not_startsReference_iff.mpr (reference?_of_append (h s hs hne)) hstarts

theorem isLeftmost_nil : IsLeftmost [] where
  toSpaced := spaced_nil
  plain := by simp
  references := by simp
  leftmost := by simp

theorem isLeftmost_expression :
    IsLeftmost (.expression source :: parts) ↔ IsReference source.toList ∧ IsLeftmost parts := by
  constructor
  · rintro ⟨hspaced, hplain, hreferences, hleftmost⟩
    refine ⟨hreferences source List.mem_cons_self, spaced_expression.mp hspaced, ?_, ?_, ?_⟩
    · exact fun text h => hplain text (List.mem_cons_of_mem _ h)
    · exact fun source h => hreferences source (List.mem_cons_of_mem _ h)
    · rintro before text after rfl
      exact hleftmost (.expression source :: before) text after rfl
  · rintro ⟨hsource, hspaced, hplain, hreferences, hleftmost⟩
    refine ⟨spaced_expression.mpr hspaced, by simpa using hplain, by simpa [hsource], ?_⟩
    intro before text after h
    cases before with
    | nil => cases h
    | cons part before =>
      obtain ⟨-, rfl⟩ := List.cons.inj h
      exact hleftmost before text after rfl

theorem isLeftmost_literal :
    IsLeftmost (.literal text :: parts) ↔ text ≠ "" ∧ ¬StartsLiteral parts ∧
      PassedBy text.toList (parts.flatMap written) ∧ IsLeftmost parts := by
  constructor
  · rintro ⟨hspaced, hplain, hreferences, hleftmost⟩
    obtain ⟨htext, hstarts, hspaced⟩ := spaced_literal.mp hspaced
    refine ⟨htext, hstarts, ?_, hspaced, ?_, ?_, ?_⟩
    · exact fun s hs hne => not_startsReference_iff.mp (hleftmost [] text parts rfl s hs hne)
    · exact fun text h => hplain text (List.mem_cons_of_mem _ h)
    · exact fun source h => hreferences source (List.mem_cons_of_mem _ h)
    · rintro before text after rfl
      exact hleftmost (.literal _ :: before) text after rfl
  · rintro ⟨htext, hstarts, hpassed, hspaced, hplain, hreferences, hleftmost⟩
    refine ⟨spaced_literal.mpr ⟨htext, hstarts, hspaced⟩, ?_, by simpa using hreferences, ?_⟩
    · simpa [hpassed.not_holdsReference] using hplain
    · intro before text after h
      cases before with
      | nil =>
        obtain ⟨hfirst, rfl⟩ := List.cons.inj h
        cases hfirst
        exact fun s hs hne => not_startsReference_iff.mpr (hpassed s hs hne)
      | cons part before =>
        obtain ⟨-, rfl⟩ := List.cons.inj h
        exact hleftmost before text after rfl

/-- Text that was passed by goes before a reference as one piece, if there is any. -/
theorem IsLeftmost.withLiteral (h : IsLeftmost parts) (hstarts : ¬StartsLiteral parts)
    (hpassed : PassedBy plain (parts.flatMap written)) : IsLeftmost (withLiteral plain parts) := by
  unfold ValueTemplate.withLiteral
  split
  · exact h
  · rename_i hne
    refine isLeftmost_literal.mpr ⟨by simpa using hne, hstarts, ?_, h⟩
    rwa [String.toList_ofList]

theorem piecesFrom_of_reference (he : IsReference e) (plain rest : List Char) :
    piecesFrom plain (braced e ++ rest) =
      withLiteral plain (.expression (String.ofList e) :: piecesFrom [] rest) := by
  have hreference := reference?_eq_some_iff.mpr ⟨he, Eq.refl (braced e ++ rest)⟩
  rw [braced, List.cons_append] at hreference ⊢
  rw [piecesFrom]
  split
  · rename_i source rest' hsome
    rw [hreference] at hsome
    cases hsome
    rfl
  · rename_i hnone
    rw [hreference] at hnone
    cases hnone

theorem piecesFrom_of_passedBy (h : PassedBy cs rest) (plain : List Char) :
    piecesFrom plain (cs ++ rest) = piecesFrom (plain ++ cs) rest := by
  induction cs generalizing plain with
  | nil => rw [List.nil_append, List.append_nil]
  | cons c cs ih =>
    have hnone := h (c :: cs) List.suffix_rfl (List.cons_ne_nil c cs)
    have hnext := ih (fun s hs => h s (hs.trans (List.suffix_cons c cs))) (plain ++ [c])
    rw [List.append_assoc, List.singleton_append] at hnext
    rw [List.cons_append] at hnone ⊢
    rw [← hnext, piecesFrom]
    split
    · rename_i hsome
      rw [hnone] at hsome
      cases hsome
    · rfl

theorem piecesFrom_spec (h : PassedBy plain cs) :
    (piecesFrom plain cs).flatMap written = plain ++ cs ∧ IsLeftmost (piecesFrom plain cs) := by
  fun_induction piecesFrom plain cs with
  | case1 plain =>
    refine ⟨?_, isLeftmost_nil.withLiteral id h⟩
    rw [flatMap_withLiteral rfl, written, String.toList_ofList, List.flatMap_nil]
  | case2 plain c rest source rest' hsome _ ih =>
    obtain ⟨hwritten, hleftmost⟩ := ih (PassedBy.nil rest')
    obtain ⟨hsource, hcs⟩ := reference?_eq_some_iff.mp hsome
    have hall : (ValuePart.expression (String.ofList source) :: piecesFrom [] rest').flatMap
        written = c :: rest := by
      rw [List.flatMap_cons, hwritten, List.nil_append, written, String.toList_ofList, hcs]
    refine ⟨?_, (isLeftmost_expression.mpr ⟨?_, hleftmost⟩).withLiteral id (hall ▸ h)⟩
    · rw [flatMap_withLiteral rfl, hall, written, String.toList_ofList]
    · rwa [String.toList_ofList]
  | case3 plain c rest hnone ih =>
    obtain ⟨hwritten, hleftmost⟩ := ih (h.concat hnone)
    refine ⟨?_, hleftmost⟩
    rw [hwritten, List.append_assoc, List.singleton_append]

theorem piecesFrom_flatMap_written (h : IsLeftmost parts)
    (hplain : StartsLiteral parts → plain = []) :
    piecesFrom plain (parts.flatMap written) = withLiteral plain parts := by
  induction parts generalizing plain with
  | nil => rw [List.flatMap_nil, piecesFrom]
  | cons part parts ih =>
    rw [List.flatMap_cons]
    cases part with
    | literal text =>
      obtain ⟨htext, hstarts, hpassed, hparts⟩ := isLeftmost_literal.mp h
      obtain rfl := hplain trivial
      have hfilled : text.toList.isEmpty = false := by simpa using htext
      rw [written, piecesFrom_of_passedBy hpassed, ih hparts fun hnext => absurd hnext hstarts,
        List.nil_append, ValueTemplate.withLiteral, hfilled, ValueTemplate.withLiteral,
        String.ofList_toList]
      rfl
    | expression source =>
      obtain ⟨hsource, hparts⟩ := isLeftmost_expression.mp h
      rw [written, piecesFrom_of_reference hsource, ih hparts fun _ => rfl, String.ofList_toList]
      rfl

/-- A text is cut at its references in one way. -/
theorem pieces_eq_iff :
    pieces text = parts ↔ parts.flatMap written = text.toList ∧ IsLeftmost parts := by
  constructor
  · rintro rfl
    exact piecesFrom_spec (PassedBy.nil text.toList)
  · rintro ⟨hwritten, hleftmost⟩
    rw [pieces, ← hwritten]
    exact piecesFrom_flatMap_written hleftmost fun _ => rfl

/-- A text without references is one piece, or none if it is empty. -/
theorem isLiteral_pieces_iff :
    isLiteral (pieces text) = true ↔ ¬HoldsReference text.toList := by
  constructor
  · intro hliteral
    obtain ⟨hwritten, hleftmost⟩ := pieces_eq_iff.mp (Eq.refl (pieces text))
    generalize pieces text = parts at hliteral hwritten hleftmost
    match parts with
    | [] =>
      rw [← hwritten]
      exact (PassedBy.nil []).not_holdsReference
    | [.literal text'] =>
      rw [← hwritten, List.flatMap_singleton]
      exact hleftmost.plain text' List.mem_cons_self
    | .literal _ :: .literal _ :: _ => exact absurd trivial (isLeftmost_literal.mp hleftmost).2.1
  · intro hnone
    have hpassed : PassedBy text.toList [] := fun s hs _ => by
      rw [List.append_nil]
      exact not_startsReference_iff.mp fun hstarts => hnone ⟨s, hs, hstarts⟩
    have hpieces : pieces text = withLiteral text.toList [] := by
      refine pieces_eq_iff.mpr ⟨?_, isLeftmost_nil.withLiteral id hpassed⟩
      rw [flatMap_withLiteral rfl, written, String.toList_ofList, List.flatMap_nil, List.append_nil]
    rw [hpieces, ValueTemplate.withLiteral]
    split <;> rfl

/-! ## Pieces that stay -/

/-- A piece that is not cut again: a plain one without references, or what a reference
inserts, which is no constant. -/
def IsCut : ValuePart → Prop
  | .literal text => ValueTemplate.isLiteral (pieces text) = true
  | .expression source => InlineLiteral.constantText? source = none

theorem isCut_of_mem_pieces {part : ValuePart} (h : part ∈ pieces text) : IsCut part := by
  have hleftmost := (pieces_eq_iff.mp (Eq.refl (pieces text))).2
  cases part with
  | literal text' => exact isLiteral_pieces_iff.mpr (hleftmost.plain text' h)
  | expression source =>
    obtain ⟨sigil, name, hsigil, -, -, hsource⟩ := hleftmost.references source h
    rw [IsCut, ← String.ofList_toList (s := source), hsource]
    exact XPath.constantText?_of_sigil hsigil name

end Curly
end TagGrammar
