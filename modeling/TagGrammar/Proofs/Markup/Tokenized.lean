/-
The tokens that the lexer cuts.

The lexer is a tokenizer as the theory of templates takes them: its tokens alternate between
tags and what stands in them (`alternates_tokenize`), it reads text up to the next tag
(`readsText_tokenize`), and every source without a fault can be written with another prefix
for one of its declarations (`respelled_tokenize`).
-/
import TagGrammar.Proofs.Markup.CharacterData
import TagGrammar.Proofs.Markup.Prefixes

namespace TagGrammar
namespace Markup

/-- A text that may be either part of a name. -/
structure IsNamePart (s : String) : Prop where
  chars : ∀ c ∈ s.toList, isNameChar c = true ∧ c ≠ ':'
  starts : startsName s.toList = true

theorem isNamePart_iff (s : String) :
    IsNamePart s ↔
      (s.toList.all (fun c => isNameChar c && c != ':') && startsName s.toList) = true := by
  rw [Bool.and_eq_true, List.all_eq_true]
  constructor
  · intro h
    exact ⟨fun c hc => by simpa using h.chars c hc, h.starts⟩
  · rintro ⟨hchars, hstarts⟩
    exact ⟨fun c hc => by simpa using hchars c hc, hstarts⟩

instance (s : String) : Decidable (IsNamePart s) := decidable_of_iff' _ (isNamePart_iff s)

/-! ## Names that are read -/

namespace Lexer

theorem splitName_append {lead name : List Char} (h : ∀ c ∈ lead, c ≠ ':') :
    splitName (lead ++ ':' :: name) = (lead, name) := by
  have hall : ∀ c ∈ lead, (c != ':') = true := fun c hc => by simpa using h c hc
  have hhead : (':' :: name).head?.any (· != ':') = false := rfl
  rw [splitName, dropWhile_run hall hhead, takeWhile_run hall hhead]

theorem mem_of_mem_splitName {cs : List Char} {c : Char} (h : c ∈ (splitName cs).2) : c ∈ cs := by
  unfold splitName at h
  split at h
  · exact h
  · rename_i colon rest hdrop
    have hmem : c ∈ cs.dropWhile (· != ':') := by
      rw [hdrop]
      exact List.mem_cons_of_mem _ h
    exact (List.dropWhile_sublist _).mem hmem

/-- The local part of a name that is read. -/
theorem NameRun.isNamePart {name : QName} {run : List Char} (h : NameRun name run) :
    IsNamePart name.name := by
  obtain ⟨hchars, hreads⟩ := h
  unfold qname? at hreads
  dsimp only at hreads
  split at hreads
  · cases hreads
  · rename_i hvalid
    simp only [Bool.or_eq_true, Bool.not_eq_true', Bool.not_eq_true, not_or] at hvalid
    obtain ⟨⟨hcolon, hstart⟩, -⟩ := hvalid
    obtain rfl := Option.some.inj hreads
    refine ⟨fun c hc => ?_, ?_⟩
    · rw [String.toList_ofList] at hc
      refine ⟨hchars c (mem_of_mem_splitName hc), ?_⟩
      rintro rfl
      rw [List.contains_iff_mem.mpr hc] at hcolon
      cases hcolon
    · rw [String.toList_ofList]
      simpa using hstart

theorem exists_nameRun_of_mem_tokens {fuel : Nat} {inside : Bool} {cs : List Char} {token : Token}
    (h : token ∈ (tokensFrom fuel inside cs).1) {name : QName} (hname : token.name? = some name) :
    ∃ run, NameRun name run := by
  induction fuel generalizing inside cs with
  | zero => cases h
  | succ fuel ih =>
    by_cases hne : cs = []
    · subst hne
      cases h
    · cases hnext : next inside cs with
      | error fault =>
        rw [tokensFrom_fault fuel hne hnext] at h
        cases h
      | ok result =>
        obtain ⟨first, rest⟩ := result
        rw [tokensFrom_succ fuel hne hnext] at h
        rcases List.mem_cons.mp h with rfl | h
        · obtain ⟨text, -, hwritten⟩ := next_written hne hnext
          cases hwritten with
          | unnamed hnone =>
            rw [hnone.1] at hname
            cases hname
          | named hold hlead hrun =>
            obtain rfl := Option.some.inj (hold.1.symm.trans hname)
            exact ⟨_, hrun⟩
        · exact ih h

end Lexer

theorem exists_nameRun_of_mem_tokenize {source : String} {token : Token}
    (h : token ∈ (tokenize source).1) {name : QName} (hname : token.name? = some name) :
    ∃ run, Lexer.NameRun name run :=
  Lexer.exists_nameRun_of_mem_tokens h hname

theorem IsNamePart.ne_empty {s : String} (h : IsNamePart s) : s ≠ "" := by
  rintro rfl
  exact absurd h.starts (by decide)

theorem QName.text_of_lead {lead : String} (h : IsNamePart lead) (name : String) :
    QName.text ⟨lead, name⟩ = lead ++ ":" ++ name := by
  have hempty : ¬lead.isEmpty = true := fun hempty => h.ne_empty (String.isEmpty_iff.mp hempty)
  rw [QName.text, if_neg hempty]

theorem isReadable_of_parts {lead name : String} (hlead : IsNamePart lead)
    (hname : IsNamePart name) : QName.IsReadable ⟨lead, name⟩ := by
  have hcolon : ':' ∉ name.toList := fun h => (hname.chars _ h).2 rfl
  have hchars : (QName.text ⟨lead, name⟩).toList = lead.toList ++ ':' :: name.toList := by
    rw [QName.text_of_lead hlead]
    simp
  constructor
  · rw [hchars]
    intro c hc
    rcases List.mem_append.mp hc with hc | hc
    · exact (hlead.chars c hc).1
    · rcases List.mem_cons.mp hc with rfl | hc
      · decide
      · exact (hname.chars c hc).1
  · rw [hchars, qname?, Lexer.splitName_append fun c hc => (hlead.chars c hc).2]
    simp [hcolon, hname.starts, hlead.starts]

/-! ## Tokens with another prefix -/

theorem Token.renamed_renamedToken {p q : String} (hq : IsNamePart q) {token : Token}
    (hread : ∀ name, token.name? = some name → ∃ run, Lexer.NameRun name run)
    (chosen here : Bool) : token.Renamed (renamedToken p q chosen here token) := by
  unfold renamedToken
  split
  · unfold Token.replacePrefix
    split
    · rename_i name hname
      refine .other (by rw [hname]; rfl) ?_
      split
      · exact isReadable_of_parts (by decide) hq
      · obtain ⟨run, hrun⟩ := hread name hname
        exact isReadable_of_parts hq hrun.isNamePart
    · exact .same token
  · exact .same token

theorem forall₂_renamedFrom {p q : String} (hq : IsNamePart q) {tokens : List (Token × Bool)}
    (hread : ∀ token ∈ tokens.map Prod.fst, ∀ name, token.name? = some name →
      ∃ run, Lexer.NameRun name run) (r : Reach) :
    List.Forall₂ Token.Renamed (tokens.map Prod.fst) (renamedFrom p q r tokens) := by
  induction tokens generalizing r with
  | nil => exact .nil
  | cons token rest ih =>
    obtain ⟨hfirst, hrest⟩ := List.forall_mem_cons.mp hread
    exact .cons (Token.renamed_renamedToken hq hfirst _ _) (ih hrest _)

/-! ## The lexer as a tokenizer -/

theorem alternates_tokenize : Tokenizer.Alternates tokenize :=
  fun source => Lexer.alternates_tokensFrom _ false source.toList

theorem readsText_tokenize : Tokenizer.ReadsText tokenize isXmlChar where
  text _ hne h := Lexer.read_of_isCharacterData hne h
  fault _ hne h := Lexer.read_of_not_isCharacterData hne h

/-- With other names in the places of those of the source it is the source of the renamed
tokens. -/
theorem respelled_tokenize {source : String} (hread : (tokenize source).2 = none)
    (p : String) {q : String} (hq : IsNamePart q) (i : Nat) :
    Tokenizer.Respelled tokenize p q i source
      (respell source (renamePrefix p q i (tokenize source).1)) := by
  have hnames : ∀ token ∈ (chosenAt i (tokenize source).1).map Prod.fst, ∀ name,
      token.name? = some name → ∃ run, Lexer.NameRun name run := by
    rw [map_fst_chosenAt]
    exact fun token htoken name hname => exists_nameRun_of_mem_tokenize htoken hname
  have hrenamed := forall₂_renamedFrom (p := p) hq hnames {}
  rw [map_fst_chosenAt] at hrenamed
  exact tokenize_respell (Prod.ext rfl hread) hrenamed

end Markup
end TagGrammar
