/-
Sources with other names.

A source falls into pieces, the characters of one token each.  `respell` writes other
tokens in their places: tokens of the same kind that differ from those of the source in
their names alone.  The result is read as those tokens (`tokenize_respell`).
-/
import Mathlib.Data.List.Forall2
import TagGrammar.Proofs.Markup.Spelling

namespace TagGrammar
namespace Markup

/-- A name that is read as it is written. -/
def QName.IsReadable (name : QName) : Prop := Lexer.NameRun name name.text.toList

/-- Another name in the place of the first one in a text. -/
def renamedText (name : QName) (text : List Char) : List Char :=
  text.takeWhile (fun c => !isNameChar c) ++
    (name.text.toList ++ (text.dropWhile fun c => !isNameChar c).dropWhile isNameChar)

/-- The text of a piece with the name of another token in it. -/
def respelledText (piece : Token × List Char) (token : Token) : List Char :=
  if token = piece.1 then piece.2
  else match token.name? with
    | some name => renamedText name piece.2
    | none => piece.2

/-- Tokens that differ at most in their name. -/
inductive Token.Renamed : Token → Token → Prop
  | same (token : Token) : Renamed token token
  | other {token : Token} {name : QName} (hnamed : token.name?.isSome = true)
      (hname : name.IsReadable) : Renamed token (token.withName name)

namespace Token

theorem Renamed.insideAfter_eq {token other : Token} (h : Renamed token other) (inside : Bool) :
    other.insideAfter inside = token.insideAfter inside := by
  cases h with
  | same => rfl
  | other => cases token <;> rfl

end Token

namespace Lexer

/-- The tokens of a text with the characters that each of them takes. -/
def piecesFrom : Nat → Bool → List Char → List (Token × List Char)
  | 0, _, _ => []
  | _, _, [] => []
  | fuel + 1, inside, cs =>
    match next inside cs with
    | .error _ => []
    | .ok (token, rest) =>
      (token, cs.take (cs.length - rest.length)) :: piecesFrom fuel (token.insideAfter inside) rest

variable {inside : Bool} {cs rest text : List Char} {token : Token}

theorem tokensFrom_of_ne_nil (fuel : Nat) (hne : cs ≠ []) :
    tokensFrom (fuel + 1) inside cs =
      match next inside cs with
      | .error fault => ([], some fault)
      | .ok (token, rest) =>
        (token :: (tokensFrom fuel (token.insideAfter inside) rest).1,
          (tokensFrom fuel (token.insideAfter inside) rest).2) := by
  obtain ⟨c, r, rfl⟩ := List.exists_cons_of_ne_nil hne
  rw [tokensFrom]
  · rfl
  · exact hne

theorem tokensFrom_succ (fuel : Nat) (hne : cs ≠ []) (h : next inside cs = .ok (token, rest)) :
    tokensFrom (fuel + 1) inside cs =
      (token :: (tokensFrom fuel (token.insideAfter inside) rest).1,
        (tokensFrom fuel (token.insideAfter inside) rest).2) := by
  rw [tokensFrom_of_ne_nil fuel hne, h]

theorem tokensFrom_fault (fuel : Nat) (hne : cs ≠ []) {fault : XmlError Nat}
    (h : next inside cs = .error fault) : tokensFrom (fuel + 1) inside cs = ([], some fault) := by
  rw [tokensFrom_of_ne_nil fuel hne, h]

theorem piecesFrom_succ (fuel : Nat) (hne : text ++ rest ≠ [])
    (h : next inside (text ++ rest) = .ok (token, rest)) :
    piecesFrom (fuel + 1) inside (text ++ rest) =
      (token, text) :: piecesFrom fuel (token.insideAfter inside) rest := by
  have htext : (text ++ rest).take ((text ++ rest).length - rest.length) = text := by
    rw [List.length_append, Nat.add_sub_cancel, List.take_left]
  obtain ⟨c, r, hcons⟩ := List.exists_cons_of_ne_nil hne
  rw [hcons] at h htext hne ⊢
  rw [piecesFrom, h]
  · show (token, (c :: r).take _) :: _ = _
    rw [htext]
  · exact hne

theorem Written.ne_nil {ahead : Option Char} (h : Written inside token ahead text) :
    text ≠ [] := by
  cases h with
  | unnamed hname hne hreads => exact hne
  | named hname hlead hrun hend hreads => simp

theorem Written.inTag_eq {ahead : Option Char} (h : Written inside token ahead text) :
    token.inTag = inside := by
  cases h with
  | unnamed hname hne hreads => exact hname.2
  | named hname hlead hrun hend hreads => exact hname.2

theorem alternates_tokensFrom (fuel : Nat) (inside : Bool) (cs : List Char) :
    Alternates inside (tokensFrom fuel inside cs).1 := by
  induction fuel generalizing inside cs with
  | zero => trivial
  | succ fuel ih =>
    by_cases hne : cs = []
    · subst hne
      trivial
    · cases hnext : next inside cs with
      | error fault =>
        rw [tokensFrom_fault fuel hne hnext]
        trivial
      | ok result =>
        obtain ⟨token, rest⟩ := result
        obtain ⟨text, -, hwritten⟩ := next_written hne hnext
        rw [tokensFrom_succ fuel hne hnext]
        exact ⟨hwritten.inTag_eq, ih _ rest⟩

/-- A name is found in the text of its token. -/
theorem renamedText_append {lead run tail : List Char} (name : QName)
    (hlead : ∀ c ∈ lead, isNameChar c = false) {old : QName} (hrun : NameRun old run)
    (hend : tail.head?.any isNameChar = false) :
    renamedText name (lead ++ (run ++ tail)) = lead ++ (name.text.toList ++ tail) := by
  have hlead' : ∀ c ∈ lead, (!isNameChar c) = true := fun c hc => by rw [hlead c hc]; rfl
  have hhead : (run ++ tail).head?.any (fun c => !isNameChar c) = false := by
    obtain ⟨c, r, rfl, hc⟩ := hrun.exists_cons
    simpa using hc
  rw [renamedText, takeWhile_run hlead' hhead, dropWhile_run hlead' hhead,
    dropWhile_run hrun.chars hend]

/-- A token under another name is read from the text with that name. -/
theorem Written.respelled {ahead : Option Char} {other : Token}
    (h : Written inside token ahead text) (hother : token.Renamed other) (hrest : rest.head? = ahead) :
    next inside (respelledText (token, text) other ++ rest) = .ok (other, rest) ∧
      (respelledText (token, text) other).head? = text.head? := by
  by_cases hsame : other = token
  · subst hsame
    rw [respelledText, if_pos rfl]
    refine ⟨?_, rfl⟩
    cases h with
    | unnamed hname hne hreads => exact hreads rest hrest
    | named hname hlead hrun hend hreads =>
      have hread := hreads _ _ rest hrun hrest
      rw [Token.withName_of_name? hname.1] at hread
      simpa using hread
  · cases hother with
    | same => exact absurd rfl hsame
    | @other name hnamed hname =>
      rw [respelledText, if_neg hsame, Token.name?_withName hnamed]
      cases h with
      | unnamed hnone hne hreads =>
        rw [hnone.1] at hnamed
        cases hnamed
      | named hold hlead hrun hend hreads =>
        have hread := hreads _ _ rest hname hrest
        dsimp only
        rw [renamedText_append name hlead hrun hend]
        refine ⟨?_, rfl⟩
        simpa using hread

theorem tokensFrom_respelled {fuel : Nat} {tokens others : List Token}
    (hread : tokensFrom fuel inside cs = (tokens, none)) (hfuel : cs.length < fuel)
    (hothers : List.Forall₂ Token.Renamed tokens others) {respelled : List Char}
    (hrespelled : ((piecesFrom fuel inside cs).zipWith respelledText others).flatten = respelled) :
    respelled.head? = cs.head? ∧
      ∀ fuel', respelled.length < fuel' → tokensFrom fuel' inside respelled = (others, none) := by
  induction fuel generalizing inside cs tokens others respelled with
  | zero => omega
  | succ fuel ih =>
    by_cases hne : cs = []
    · subst hne
      obtain rfl : [] = tokens := by simpa [tokensFrom] using hread
      cases hothers
      subst hrespelled
      refine ⟨rfl, fun fuel' _ => ?_⟩
      cases fuel' <;> rfl
    · cases hnext : next inside cs with
      | error fault =>
        rw [tokensFrom_fault fuel hne hnext] at hread
        cases hread
      | ok result =>
        obtain ⟨token, rest⟩ := result
        obtain ⟨text, rfl, hwritten⟩ := next_written hne hnext
        rw [tokensFrom_succ fuel hne hnext] at hread
        rw [piecesFrom_succ fuel hne hnext] at hrespelled
        obtain ⟨htokens, hfault⟩ := Prod.mk.inj hread
        subst htokens
        cases hothers with
        | cons hother hothers =>
          rename_i other others
          rw [List.zipWith_cons_cons, List.flatten_cons] at hrespelled
          have hlength : rest.length < fuel := by
            have hpositive := List.length_pos_iff.mpr hwritten.ne_nil
            rw [List.length_append] at hfuel
            omega
          obtain ⟨hhead, hreads⟩ := ih (Prod.ext rfl hfault) hlength hothers rfl
          obtain ⟨hread', hhead'⟩ := hwritten.respelled hother hhead
          subst hrespelled
          have hne' : respelledText (token, text) other ≠ [] := by
            intro hnil
            rw [hnil] at hhead'
            exact hwritten.ne_nil (List.head?_eq_none_iff.mp hhead'.symm)
          refine ⟨?_, fun fuel' hfuel' => ?_⟩
          · rw [List.head?_append, hhead', List.head?_append]
            obtain ⟨c, r, rfl⟩ := List.exists_cons_of_ne_nil hwritten.ne_nil
            rfl
          · cases fuel' with
            | zero => omega
            | succ fuel' =>
              have hpositive := List.length_pos_iff.mpr hne'
              rw [List.length_append] at hfuel'
              rw [tokensFrom_succ fuel' (List.append_ne_nil_of_left_ne_nil hne' _) hread',
                hother.insideAfter_eq, hreads fuel' (by omega)]

end Lexer

/-- The pieces of a source. -/
def pieces (source : String) : List (Token × List Char) :=
  Lexer.piecesFrom (source.toList.length + 1) false source.toList

/-- A source with other tokens in the places of its own. -/
def respell (source : String) (tokens : List Token) : String :=
  String.ofList (((pieces source).zipWith respelledText tokens).flatten)

theorem tokenize_eq_iff {source : String} {tokens : List Token} :
    tokenize source = (tokens, none) ↔
      Lexer.tokensFrom (source.toList.length + 1) false source.toList = (tokens, none) := by
  simp [tokenize, Prod.ext_iff]

theorem tokenize_respell {source : String} {tokens others : List Token}
    (hread : tokenize source = (tokens, none))
    (hothers : List.Forall₂ Token.Renamed tokens others) :
    tokenize (respell source others) = (others, none) := by
  obtain ⟨-, hreads⟩ :=
    Lexer.tokensFrom_respelled (tokenize_eq_iff.mp hread) (Nat.lt_succ_self _) hothers rfl
  rw [tokenize_eq_iff, respell, String.toList_ofList]
  exact hreads _ (Nat.lt_succ_self _)

end Markup
end TagGrammar
