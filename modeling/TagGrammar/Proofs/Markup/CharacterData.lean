/-
How the lexer reads text.

Between tags text goes up to the next opening bracket.  It is one token if it may be text
(`read_of_isCharacterData`), and otherwise a fault before any token of it
(`read_of_not_isCharacterData`).
-/
import TagGrammar.Proofs.Markup.Respelling

namespace TagGrammar
namespace Markup
namespace Lexer

variable {cs rest : List Char}

/-- Whether the next tag starts here. -/
abbrev tagStarts (cs : List Char) : Bool := startsWith cs ['<']

theorem tagStarts_of_ne {c : Char} (h : c ≠ '<') (cs : List Char) : tagStarts (c :: cs) = false := by
  have hc : ('<' == c) = false := beq_eq_false_iff_ne.mpr (Ne.symm h)
  rw [tagStarts, startsWith, List.isPrefixOf, hc, Bool.false_and]

theorem textOf_cons_of_ne {c : Char} (h : c ≠ '<') : textOf (c :: cs) = c :: textOf cs :=
  List.takeWhile_cons_of_pos (p := (· != '<')) (bne_iff_ne.mpr h)

theorem afterText_cons_of_ne {c : Char} (h : c ≠ '<') : afterText (c :: cs) = afterText cs :=
  List.dropWhile_cons_of_pos (p := (· != '<')) (bne_iff_ne.mpr h)

theorem head?_ne_of_textOf (h : textOf cs ≠ []) : cs.head? ≠ some '<' := by
  intro hhead
  obtain ⟨rest, rfl⟩ := List.head?_eq_some_iff.mp hhead
  exact h rfl

theorem charsUntil_cons {c : Char} (hxml : isXmlChar c = true) (hne : c ≠ '<') :
    charsUntil tagStarts (c :: cs) = (charsUntil tagStarts cs).map fun p => (c :: p.1, p.2) := by
  rw [charsUntil, hxml, tagStarts_of_ne hne]
  cases charsUntil tagStarts cs <;> rfl

theorem charsUntil_of_allowed (h : ∀ c ∈ textOf cs, isXmlChar c = true) :
    charsUntil tagStarts cs = .ok (textOf cs, afterText cs) := by
  induction cs with
  | nil => rfl
  | cons c cs ih =>
    by_cases hc : c = '<'
    · subst hc
      rfl
    · rw [textOf_cons_of_ne hc] at h ⊢
      obtain ⟨hxml, hrest⟩ := List.forall_mem_cons.mp h
      rw [charsUntil_cons hxml hc, ih hrest, afterText_cons_of_ne hc]
      rfl

theorem charsUntil_of_not_allowed (h : ¬∀ c ∈ textOf cs, isXmlChar c = true) :
    ∃ cause, charsUntil tagStarts cs = .error cause := by
  induction cs with
  | nil => exact absurd (List.forall_mem_nil _) h
  | cons c cs ih =>
    by_cases hc : c = '<'
    · subst hc
      exact absurd (List.forall_mem_nil _) h
    · rw [textOf_cons_of_ne hc, List.forall_mem_cons] at h
      cases hxml : isXmlChar c with
      | false =>
        rw [charsUntil, hxml]
        exact ⟨_, rfl⟩
      | true =>
        obtain ⟨cause, hcause⟩ := ih fun hrest => h ⟨hxml, hrest⟩
        rw [charsUntil_cons hxml hc, hcause]
        exact ⟨cause, rfl⟩

theorem holds_iff {lead : List Char} : holds lead cs = true ↔ lead <:+: cs := by
  induction cs with
  | nil => rw [holds, List.isEmpty_iff, List.infix_nil]
  | cons c cs ih =>
    rw [holds, Bool.or_eq_true, ih, startsWith, List.isPrefixOf_iff_prefix, List.infix_cons_iff]

/-! ## Text as a token -/

theorem characterData_of_isCharacterData (h : IsCharacterData isXmlChar (textOf cs)) :
    characterData cs = .ok (.text (String.ofList (textOf cs)), afterText cs) := by
  have hend : holds [']', ']', '>'] (textOf cs) = false :=
    Bool.eq_false_iff.mpr fun hends => h.unended (holds_iff.mp hends)
  exact bind_eq_ok_iff.mpr ⟨_, charsUntil_of_allowed h.allowed, by dsimp only; rw [hend]; rfl⟩

theorem characterData_of_not_isCharacterData (h : ¬IsCharacterData isXmlChar (textOf cs)) :
    ∃ cause, characterData cs = .error cause := by
  rw [characterData]
  by_cases hallowed : ∀ c ∈ textOf cs, isXmlChar c = true
  · have hend : holds [']', ']', '>'] (textOf cs) = true := by
      by_contra hopen
      exact h ⟨hallowed, fun hends => hopen (holds_iff.mpr hends)⟩
    rw [charsUntil_of_allowed hallowed]
    exact ⟨_, if_pos hend⟩
  · obtain ⟨cause, hcause⟩ := charsUntil_of_not_allowed hallowed
    rw [hcause]
    exact ⟨cause, rfl⟩

/-- Fuel beyond the characters that are left makes no difference. -/
theorem tokensFrom_fuel {n m : Nat} {inside : Bool} (hn : cs.length < n) (hm : cs.length < m) :
    tokensFrom n inside cs = tokensFrom m inside cs := by
  induction n generalizing m inside cs with
  | zero => omega
  | succ n ih =>
    obtain ⟨m, rfl⟩ : ∃ m', m = m' + 1 := ⟨m - 1, by omega⟩
    by_cases hne : cs = []
    · subst hne
      rfl
    · cases hnext : next inside cs with
      | error fault => rw [tokensFrom_fault n hne hnext, tokensFrom_fault m hne hnext]
      | ok result =>
        obtain ⟨token, rest⟩ := result
        obtain ⟨text, rfl, hwritten⟩ := next_written hne hnext
        have hshort := List.length_pos_iff.mpr hwritten.ne_nil
        rw [List.length_append] at hn hm
        rw [tokensFrom_succ n hne hnext, tokensFrom_succ m hne hnext,
          ih (m := m) (by omega) (by omega)]

/-- The tokens of a text, and the fault that ends them. -/
def allTokens (cs : List Char) : List Token × Option (XmlError Nat) :=
  tokensFrom (cs.length + 1) false cs

theorem read_tokenize (cs : List Char) :
    Tokenizer.read tokenize cs = ((allTokens cs).1, (allTokens cs).2.isSome) := by
  rw [Tokenizer.read, tokenize, String.toList_ofList, Option.isSome_map, allTokens]

theorem next_of_textOf (h : textOf cs ≠ []) :
    next false cs = placed .characterData cs.length (characterData cs) :=
  betweenTags_of_text (head?_ne_of_textOf h)

theorem read_of_isCharacterData (hne : textOf cs ≠ [])
    (h : IsCharacterData isXmlChar (textOf cs)) :
    Tokenizer.read tokenize cs =
      (.text (String.ofList (textOf cs)) :: (Tokenizer.read tokenize (afterText cs)).1,
        (Tokenizer.read tokenize (afterText cs)).2) := by
  have hcs : cs ≠ [] := fun hnil => hne (by rw [hnil]; rfl)
  have hnext : next false cs = .ok (.text (String.ofList (textOf cs)), afterText cs) := by
    rw [next_of_textOf hne, characterData_of_isCharacterData h]
    rfl
  have hshort : (afterText cs).length < cs.length := by
    have hlength := congrArg List.length (textOf_append_afterText cs)
    have htext := List.length_pos_iff.mpr hne
    rw [List.length_append] at hlength
    omega
  have hrest : tokensFrom cs.length false (afterText cs) = allTokens (afterText cs) :=
    tokensFrom_fuel hshort (Nat.lt_succ_self _)
  have hall : allTokens cs = (.text (String.ofList (textOf cs)) :: (allTokens (afterText cs)).1,
      (allTokens (afterText cs)).2) := by
    rw [allTokens, tokensFrom_succ _ hcs hnext, ← hrest]
    rfl
  rw [read_tokenize, read_tokenize, hall]

theorem read_of_not_isCharacterData (hne : textOf cs ≠ [])
    (h : ¬IsCharacterData isXmlChar (textOf cs)) : Tokenizer.read tokenize cs = ([], true) := by
  have hcs : cs ≠ [] := fun hnil => hne (by rw [hnil]; rfl)
  obtain ⟨cause, hcause⟩ := characterData_of_not_isCharacterData h
  have hnext : next false cs = .error (.broken .characterData cs.length cause) := by
    rw [next_of_textOf hne, hcause]
    rfl
  rw [read_tokenize, allTokens, tokensFrom_fault _ hcs hnext]
  rfl

end Lexer
end Markup
end TagGrammar
