/-
Blanks between tokens.

A text with tokens is made of pieces, each the characters of one token with a gap of blanks
before them, and of the blanks behind the last.  It is `Laid` out so if each token is read from
its own characters in front of all that follow.  Any blanks may stand in the gaps instead, as
long as no gap that is there is closed: this is what `tokenize_respaced` says.

Before a token nothing but its predecessor counts, and that stays the same.  What is behind it
has to look the same, and whether it does depends on the gap and on the token that comes next,
so the induction goes from the last piece to the first.
-/
import TagGrammar.Proofs.XPath.Cut

namespace TagGrammar
namespace XPath
namespace Lexer

/-- One token as it stands in a text, with the blanks before it. -/
structure Piece where
  gap : List Char
  text : List Char
  token : Token

/-- The text that some pieces make with the blanks behind them. -/
def written : List Piece → List Char → List Char
  | [], last => last
  | p :: pieces, last => p.gap ++ (p.text ++ written pieces last)

/-- After some token, the pieces are how the text that they make is cut. -/
inductive Laid : Option Token → List Piece → List Char → Prop where
  | done {previous : Option Token} {last : List Char}
      (hlast : ∀ c ∈ last, Text.isBlank c = true) : Laid previous [] last
  | next {previous : Option Token} {p : Piece} {pieces : List Piece} {last : List Char}
      (hgap : ∀ c ∈ p.gap, Text.isBlank c = true)
      (htoken : token previous (p.text ++ written pieces last) =
        .ok (p.token, written pieces last))
      (hpieces : Laid (some p.token) pieces last) : Laid previous (p :: pieces) last

/-- The same token with other blanks before it, or with none if there were none. -/
structure Piece.Respaced (p p' : Piece) : Prop where
  text : p'.text = p.text
  token : p'.token = p.token
  blank : ∀ c ∈ p'.gap, Text.isBlank c = true
  stays : p'.gap = [] → p.gap = []

variable {previous : Option Token} {pieces pieces' : List Piece} {p : Piece}
  {cs cs' gap rest last last' : List Char} {t : Token}

theorem skipBlanks_of_all (h : ∀ c ∈ gap, Text.isBlank c = true) (cs : List Char) :
    Text.skipBlanks (gap ++ cs) = Text.skipBlanks cs :=
  List.dropWhile_append_of_pos h

/-! ## The pieces of a text -/

/-- The characters of a token start at once, so blanks before them are all of the gap. -/
theorem skipBlanks_of_token (h : token previous cs = .ok (t, rest)) :
    Text.skipBlanks cs = cs := by
  obtain ⟨c, text, rfl, hc, -⟩ := token_taken h
  exact Text.skipBlanks_cons_of_not_blank hc

theorem Laid.cut (h : Laid previous pieces last) :
    Cut previous (written pieces last) (pieces.map Piece.token) := by
  induction h with
  | done hlast => exact .done (List.dropWhile_eq_nil_iff.mpr hlast)
  | @next previous p pieces last hgap htoken _ ih =>
    obtain ⟨c, text, hcs, -⟩ := token_taken htoken
    have hskip : Text.skipBlanks (written (p :: pieces) last) =
        c :: (text ++ written pieces last) := by
      rw [written, skipBlanks_of_all hgap, skipBlanks_of_token htoken, hcs, List.cons_append]
    rw [hcs] at htoken
    exact .next hskip htoken ih

theorem Laid.tokenize_eq_ok (h : Laid none pieces last) :
    tokenize (String.ofList (written pieces last)) = .ok (pieces.map Piece.token) := by
  rw [tokenize, String.toList_ofList]
  exact h.cut.tokensFrom_eq_ok (Nat.lt_succ_self _)

/-- Every text that has tokens is made of pieces. -/
theorem exists_laid {n : Nat} {ts : List Token} (hn : cs.length < n)
    (h : tokensFrom n previous cs = .ok ts) :
    ∃ pieces last, Laid previous pieces last ∧ written pieces last = cs := by
  induction n generalizing previous cs ts with
  | zero => omega
  | succ n ih =>
    cases hcs : Text.skipBlanks cs with
    | nil => exact ⟨[], cs, .done (List.dropWhile_eq_nil_iff.mp hcs), rfl⟩
    | cons c cs' =>
      obtain ⟨t, rest, ts', ht, -, hts⟩ := exists_of_tokensFrom hcs h
      have hshort := length_of_skipBlanks hcs
      have hrest : rest.length ≤ cs'.length := (token_suffix ht).length_le
      obtain ⟨pieces, last, hlaid, rfl⟩ := ih (by omega) hts
      obtain ⟨d, text, htext, -⟩ := token_taken ht
      rw [htext] at ht
      refine ⟨⟨cs.takeWhile Text.isBlank, d :: text, t⟩ :: pieces, last,
        .next (all_takeWhile _ cs) ht hlaid, ?_⟩
      rw [written, ← htext, ← hcs]
      exact List.takeWhile_append_dropWhile

theorem Laid.writes (h : Laid previous pieces last) : ∀ p ∈ pieces, Writes p.token p.text := by
  induction h with
  | done => simp
  | next _ htoken _ ih =>
    obtain ⟨c, text, heq, -, hwrites, -⟩ := token_taken htoken
    rw [← List.append_cancel_right heq] at hwrites
    exact List.forall_mem_cons.mpr ⟨hwrites, ih⟩

/-! ## Other blanks -/

/-- The symbol that classifies a name is the token that comes next. -/
theorem ahead_of_token (hcs : Text.skipBlanks cs = cs') (h : token previous cs' = .ok (t, rest)) :
    ahead cs = if t = .doubleColon ∨ t = .leftParen then some t else none := by
  obtain ⟨c, text, htext, -, hwrites, -⟩ := token_taken h
  rw [ahead, hcs]
  split
  · cases h
    rfl
  · cases h
    rfl
  · rename_i hcolons hparen
    rw [if_neg]
    rintro (rfl | rfl)
    · rw [hwrites] at htext
      exact hcolons rest htext
    · rw [hwrites] at htext
      exact hparen rest htext

theorem ahead_of_all (h : ∀ c ∈ gap, Text.isBlank c = true) : ahead gap = none := by
  rw [ahead, Text.skipBlanks, List.dropWhile_eq_nil_iff.mpr h]

/-- What stands behind a token looks the same with other blanks in it. -/
theorem Laid.alike (h : Laid previous pieces last) (h' : Laid previous pieces' last')
    (hpieces : List.Forall₂ Piece.Respaced pieces pieces') :
    Alike (written pieces last) (written pieces' last') := by
  cases hpieces with
  | nil =>
    cases h with
    | done hlast =>
      cases h' with
      | done hlast' =>
        refine ⟨Or.inr ?_, (ahead_of_all hlast').trans (ahead_of_all hlast).symm⟩
        cases last' with
        | nil => rfl
        | cons c last' => exact hlast' c List.mem_cons_self
  | @cons p p' pieces pieces' hp hpieces =>
    cases h with
    | next hgap htoken _ =>
      cases h' with
      | next hgap' htoken' _ =>
        constructor
        · cases hgaps : p'.gap with
          | nil =>
            -- the gap was and is closed, and the same token comes next
            obtain ⟨c, text, heq, -⟩ := token_taken htoken
            have htext : p.text = c :: text := List.append_cancel_right heq
            refine Or.inl ?_
            rw [written, written, hp.stays hgaps, hgaps, hp.text, htext]
            rfl
          | cons c gap =>
            refine Or.inr ?_
            rw [written, hgaps]
            exact hgap' c (hgaps ▸ List.mem_cons_self)
        · have hskip := (skipBlanks_of_all hgap _).trans (skipBlanks_of_token htoken)
          have hskip' := (skipBlanks_of_all hgap' _).trans (skipBlanks_of_token htoken')
          rw [written, written, ahead_of_token hskip htoken, ahead_of_token hskip' htoken', hp.token]

/-- Pieces with other blanks between them are laid out as well. -/
theorem Laid.respaced (h : Laid previous pieces last)
    (hpieces : List.Forall₂ Piece.Respaced pieces pieces')
    (hlast' : ∀ c ∈ last', Text.isBlank c = true) : Laid previous pieces' last' := by
  induction h generalizing pieces' with
  | done =>
    cases hpieces
    exact .done hlast'
  | next _ htoken hlaid ih =>
    cases hpieces with
    | cons hp hpieces =>
      have hlaid' := ih hpieces
      refine .next hp.blank ?_ (hp.token ▸ hlaid')
      rw [hp.text, hp.token]
      exact token_eq_of_alike htoken (hlaid.alike hlaid' hpieces)

theorem map_token_of_respaced (h : List.Forall₂ Piece.Respaced pieces pieces') :
    pieces'.map Piece.token = pieces.map Piece.token := by
  induction h with
  | nil => rfl
  | cons hp _ ih => rw [List.map_cons, List.map_cons, hp.token, ih]

end Lexer

/-- Blanks between tokens mean nothing.  A text that has tokens is made of pieces, which write
them; and with any blanks put before the first piece, between two of them or behind the last,
the text has the same tokens. -/
theorem tokenize_respaced {source : String} {tokens : List Token}
    (h : tokenize source = .ok tokens) :
    (∃ pieces last, Lexer.Laid none pieces last ∧
      Lexer.written pieces last = source.toList) ∧
    ∀ pieces last, Lexer.Laid none pieces last → Lexer.written pieces last = source.toList →
      pieces.map Lexer.Piece.token = tokens ∧
      (∀ p ∈ pieces, Lexer.Writes p.token p.text) ∧
      ∀ pieces' last', List.Forall₂ Lexer.Piece.Respaced pieces pieces' →
        (∀ c ∈ last', Text.isBlank c = true) →
          tokenize (String.ofList (Lexer.written pieces' last')) = .ok tokens := by
  refine ⟨Lexer.exists_laid (Nat.lt_succ_self _) h, fun pieces last hlaid hsource => ?_⟩
  have htokens : pieces.map Lexer.Piece.token = tokens := by
    have hpieces := hlaid.tokenize_eq_ok
    rw [hsource, String.ofList_toList, h] at hpieces
    exact (Except.ok.inj hpieces).symm
  refine ⟨htokens, hlaid.writes, fun pieces' last' hpieces hlast' => ?_⟩
  rw [← htokens, ← Lexer.map_token_of_respaced hpieces]
  exact (hlaid.respaced hpieces hlast').tokenize_eq_ok

theorem tokenize_respaced_axis :
    tokenize "self::a<=$x" = .ok [.axisName "self", .doubleColon, .nameTest "a",
      .operator .lessOrEqual, .variable "x"] ∧
    tokenize " self\t:: a<=\n$x " = .ok [.axisName "self", .doubleColon, .nameTest "a",
      .operator .lessOrEqual, .variable "x"] := by
  have h : tokenize "self::a<=$x" = .ok [.axisName "self", .doubleColon, .nameTest "a",
      .operator .lessOrEqual, .variable "x"] := by decide +kernel
  have hlaid : Lexer.Laid none [⟨[], "self".toList, .axisName "self"⟩,
      ⟨[], "::".toList, .doubleColon⟩, ⟨[], "a".toList, .nameTest "a"⟩,
      ⟨[], "<=".toList, .operator .lessOrEqual⟩, ⟨[], "$x".toList, .variable "x"⟩] [] :=
    .next (by simp) (by decide +kernel) <| .next (by simp) (by decide +kernel) <|
      .next (by simp) (by decide +kernel) <| .next (by simp) (by decide +kernel) <|
      .next (by simp) (by decide +kernel) <| .done (by simp)
  obtain ⟨-, -, hrespaced⟩ := (tokenize_respaced h).2 _ _ hlaid (by decide)
  have hpieces : tokenize (String.ofList (Lexer.written [⟨[' '], "self".toList, .axisName "self"⟩,
      ⟨['\t'], "::".toList, .doubleColon⟩, ⟨[' '], "a".toList, .nameTest "a"⟩,
      ⟨[], "<=".toList, .operator .lessOrEqual⟩, ⟨['\n'], "$x".toList, .variable "x"⟩] [' '])) =
      .ok [.axisName "self", .doubleColon, .nameTest "a", .operator .lessOrEqual,
        .variable "x"] := by
    refine hrespaced _ _ ?_ (List.forall_mem_singleton.mpr rfl)
    refine .cons ⟨rfl, rfl, List.forall_mem_singleton.mpr rfl, fun _ => rfl⟩ <|
      .cons ⟨rfl, rfl, List.forall_mem_singleton.mpr rfl, fun _ => rfl⟩ <|
      .cons ⟨rfl, rfl, List.forall_mem_singleton.mpr rfl, fun _ => rfl⟩ <|
      .cons ⟨rfl, rfl, List.forall_mem_nil _, fun _ => rfl⟩ <|
      .cons ⟨rfl, rfl, List.forall_mem_singleton.mpr rfl, fun _ => rfl⟩ .nil
  exact ⟨h, hpieces⟩

end XPath
end TagGrammar
