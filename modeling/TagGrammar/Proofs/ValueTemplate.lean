/-
Value templates without expressions.

A text without braces is a value template that yields it as it is.  The other way round a
value template may yield such a text only if it is that text, since a brace that is written
twice stays a brace (`eq_of_literalText?`).
-/
import Mathlib.Tactic.Conv
import TagGrammar.Proofs.Except
import TagGrammar.Text.Ascii
import TagGrammar.ValueTemplate

namespace TagGrammar

/-- A text without braces, which a value template yields as it is. -/
def ValueTemplate.IsPlain (s : String) : Prop := ∀ c ∈ s.toList, c ≠ '{' ∧ c ≠ '}'

instance (s : String) : Decidable (ValueTemplate.IsPlain s) :=
  List.decidableBAll (fun c => c ≠ '{' ∧ c ≠ '}') s.toList

namespace ValueTemplate

theorem isPlain_of_lower {s : String} (h : IsPlain (Text.lower s)) : IsPlain s := by
  intro c hc
  have hlower := h c.toLower (Text.toList_lower s ▸ List.mem_map_of_mem hc)
  constructor
  · rintro rfl
    exact hlower.1 rfl
  · rintro rfl
    exact hlower.2 rfl

theorem partsFrom_cons {c : Char} (hc : c ≠ '{' ∧ c ≠ '}') (literal rest : List Char) :
    partsFrom literal (c :: rest) = partsFrom (literal ++ [c]) rest := by
  conv_lhs => unfold partsFrom
  split <;> simp_all

theorem partsFrom_of_plain {cs : List Char} (h : ∀ c ∈ cs, c ≠ '{' ∧ c ≠ '}')
    (literal : List Char) : partsFrom literal cs = .ok (withLiteral (literal ++ cs) []) := by
  induction cs generalizing literal with
  | nil => rw [partsFrom, List.append_nil]
  | cons c rest ih =>
    obtain ⟨hc, hrest⟩ := List.forall_mem_cons.mp h
    rw [partsFrom_cons hc, ih hrest, List.append_assoc, List.singleton_append]

theorem literalText?_of_plain {s : String} (h : IsPlain s) : literalText? s = some s := by
  have hparse : parse s = .ok (withLiteral s.toList []) := partsFrom_of_plain h []
  unfold literalText?
  rw [hparse, withLiteral]
  by_cases hempty : s.toList.isEmpty = true
  · have hs : s = "" := by simpa using hempty
    rw [hs]
    rfl
  · rw [if_neg hempty]
    simp [isLiteral]

/-- What is left of a text without expressions, unless it holds a brace, is the text. -/
theorem literal_of_partsFrom {literal cs : List Char} {parts : List ValuePart}
    (h : partsFrom literal cs = .ok parts) (hliteral : isLiteral parts = true) :
    ∃ rest, parts = withLiteral (literal ++ rest) [] ∧
      (rest = cs ∨ ∃ c ∈ rest, c = '{' ∨ c = '}') := by
  fun_induction partsFrom literal cs with
  | case1 literal =>
    obtain rfl := Except.ok.inj h
    exact ⟨[], by rw [List.append_nil], Or.inl rfl⟩
  | case2 literal rest ih =>
    obtain ⟨rest', hparts, -⟩ := ih h
    rw [List.append_assoc] at hparts
    exact ⟨'{' :: rest', hparts, Or.inr ⟨'{', List.mem_cons_self, Or.inl rfl⟩⟩
  | case3 literal rest ih =>
    obtain ⟨rest', hparts, -⟩ := ih h
    rw [List.append_assoc] at hparts
    exact ⟨'}' :: rest', hparts, Or.inr ⟨'}', List.mem_cons_self, Or.inr rfl⟩⟩
  | case4 => cases h
  | case5 => cases h
  | case6 literal rest hnot source rest' hend ih =>
    obtain ⟨parts', -, hok⟩ := bind_eq_ok_iff.mp h
    obtain rfl := Except.ok.inj hok
    unfold withLiteral isLiteral at hliteral
    split at hliteral <;> simp at hliteral
  | case7 literal c rest _ _ _ _ ih =>
    obtain ⟨rest', hparts, hrest⟩ := ih h
    rw [List.append_assoc] at hparts
    refine ⟨c :: rest', hparts, ?_⟩
    rcases hrest with rfl | ⟨b, hb, hbrace⟩
    · exact Or.inl rfl
    · exact Or.inr ⟨b, List.mem_cons_of_mem _ hb, hbrace⟩

/-- A text without braces comes of no other value template. -/
theorem eq_of_literalText? {source text : String} (h : literalText? source = some text)
    (htext : IsPlain text) : source = text := by
  unfold literalText? at h
  split at h
  · cases h
  · rename_i parts hparts
    split at h
    · rename_i hliteral
      obtain ⟨rest, rfl, hrest⟩ := literal_of_partsFrom hparts hliteral
      have hjoin : text.toList = rest := by
        rw [← Option.some.inj h, List.nil_append]
        cases rest with
        | nil => rfl
        | cons c rest => simp [withLiteral]
      rcases hrest with hrest | ⟨c, hc, hbrace⟩
      · exact String.toList_inj.mp (hrest ▸ hjoin).symm
      · rw [← hjoin] at hc
        exact absurd hbrace (not_or.mpr (htext c hc))
    · cases h

theorem mem_expressions_iff {parts : List ValuePart} {source : String} :
    source ∈ expressions parts ↔ ValuePart.expression source ∈ parts := by
  rw [expressions, List.mem_filterMap]
  constructor
  · rintro ⟨part, hpart, hsource⟩
    cases part with
    | literal text => cases hsource
    | expression written =>
      cases hsource
      exact hpart
  · intro h
    exact ⟨_, h, rfl⟩

end ValueTemplate

end TagGrammar
