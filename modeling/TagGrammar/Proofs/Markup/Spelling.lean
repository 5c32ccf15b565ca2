/-
How tokens are written.

A token takes the characters before the rest of the source, and of the rest only the next
character has a say in it: that ends a name or a text (`next_of_head?_eq`).  A token with
a name is written with that name in one place, and with another name there it is the token
of that name (`next_respelled`).
-/
import TagGrammar.Proofs.Except
import TagGrammar.Proofs.Markup.Tokenizer
import TagGrammar.Proofs.Runs
import TagGrammar.Markup.Lexer

namespace TagGrammar
namespace Markup

namespace Lexer

variable {cs rest : List Char}

/-! ## Runs of characters -/

theorem head?_append_congr {x y : List Char} (l : List Char) (h : x.head? = y.head?) :
    (l ++ x).head? = (l ++ y).head? := by
  cases l with
  | nil => exact h
  | cons c r => rfl

/-- A run of name characters that make a name. -/
structure NameRun (name : QName) (run : List Char) : Prop where
  chars : ∀ c ∈ run, isNameChar c = true
  reads : qname? run = some name

theorem qname_eq_ok_iff {name : QName} :
    qname cs = .ok (name, rest) ↔
      ∃ run, cs = run ++ rest ∧ NameRun name run ∧ rest.head?.any isNameChar = false := by
  constructor
  · intro h
    obtain ⟨run, x, rfl, hrun, hx⟩ := exists_run isNameChar cs
    rw [qname, takeWhile_run hrun hx, dropWhile_run hrun hx] at h
    split at h
    · rename_i name' hname
      obtain ⟨rfl, rfl⟩ : name' = name ∧ x = rest := by simpa using h
      exact ⟨run, rfl, ⟨hrun, hname⟩, hx⟩
    · cases h
  · rintro ⟨run, rfl, hrun, hrest⟩
    rw [qname, takeWhile_run hrun.chars hrest, dropWhile_run hrun.chars hrest, hrun.reads]

theorem skipChar_eq_ok_iff {c : Char} : skipChar c cs = .ok rest ↔ cs = c :: rest := by
  cases cs with
  | nil => simp [skipChar]
  | cons d r =>
    by_cases hd : d = c
    · simp [skipChar, hd]
    · simp [skipChar, hd]

theorem quote_eq_ok_iff {q : Char} :
    quote cs = .ok (q, rest) ↔ cs = q :: rest ∧ (q = '"' ∨ q = '\'') := by
  cases cs with
  | nil => simp [quote]
  | cons d r =>
    by_cases hd : d = '"' ∨ d = '\''
    · have hd' : (d == '"' || d == '\'') = true := by simpa using hd
      rw [quote, if_pos hd']
      constructor
      · intro h
        obtain ⟨rfl, rfl⟩ : d = q ∧ r = rest := by simpa using h
        exact ⟨rfl, hd⟩
      · rintro ⟨h, -⟩
        obtain ⟨rfl, rfl⟩ := List.cons.inj h
        rfl
    · have hd' : ¬(d == '"' || d == '\'') = true := by simpa using hd
      rw [quote, if_neg hd']
      constructor
      · intro h
        cases h
      · rintro ⟨h, hq⟩
        obtain ⟨rfl, rfl⟩ := List.cons.inj h
        exact absurd hq hd

/-! ## Characters up to a place -/

/-- What is read up to a place is read whatever follows there, if the test sees no
difference. -/
theorem charsUntil_spec {stop : List Char → Bool} {text : List Char}
    (h : charsUntil stop cs = .ok (text, rest)) :
    cs = text ++ rest ∧ (rest = [] ∨ stop rest = true) ∧
      ∀ rest', rest'.head? = rest.head? → (∀ t, stop (t ++ rest') = stop (t ++ rest)) →
        charsUntil stop (text ++ rest') = .ok (text, rest') := by
  induction cs generalizing text with
  | nil =>
    obtain ⟨rfl, rfl⟩ : [] = text ∧ [] = rest := by simpa [charsUntil] using h
    refine ⟨rfl, Or.inl rfl, fun rest' hhead _ => ?_⟩
    obtain rfl : rest' = [] := by simpa using hhead
    rfl
  | cons c r ih =>
    rw [charsUntil] at h
    by_cases hxml : isXmlChar c = true
    · rw [hxml, Bool.not_true, if_neg Bool.false_ne_true] at h
      by_cases hstop : stop (c :: r) = true
      · rw [if_pos hstop] at h
        obtain ⟨rfl, rfl⟩ : [] = text ∧ c :: r = rest := by simpa using h
        refine ⟨rfl, Or.inr hstop, fun rest' hhead hsame => ?_⟩
        obtain ⟨r', rfl⟩ : ∃ r', rest' = c :: r' := by
          simpa [List.head?_eq_some_iff] using hhead
        have hstop' : stop (c :: r') = true := by
          have hnil := hsame []
          rw [List.nil_append, List.nil_append, hstop] at hnil
          exact hnil
        rw [List.nil_append, charsUntil, hxml, Bool.not_true, if_neg Bool.false_ne_true,
          if_pos hstop']
      · rw [if_neg hstop] at h
        obtain ⟨⟨text', rest₁⟩, hread, hrest⟩ := bind_eq_ok_iff.mp h
        obtain ⟨rfl, rfl⟩ : c :: text' = text ∧ rest₁ = rest := by simpa using hrest
        obtain ⟨rfl, hend, hlocal⟩ := ih hread
        refine ⟨rfl, hend, fun rest' hhead hsame => ?_⟩
        have hstop' : ¬stop (c :: (text' ++ rest')) = true := by
          have hlong := hsame (c :: text')
          rw [List.cons_append, List.cons_append] at hlong
          rw [hlong]
          exact hstop
        rw [List.cons_append, charsUntil, hxml, Bool.not_true, if_neg Bool.false_ne_true,
          if_neg hstop', hlocal rest' hhead hsame]
        rfl
    · simp [hxml] at h

/-- Whether characters come next is settled by as many characters. -/
theorem startsWith_append {a lead : List Char} (h : lead.length ≤ a.length) (b : List Char) :
    startsWith (a ++ b) lead = startsWith a lead := by
  rw [Bool.eq_iff_iff, startsWith, startsWith, List.isPrefixOf_iff_prefix,
    List.isPrefixOf_iff_prefix]
  constructor
  · intro hlead
    exact List.prefix_of_prefix_length_le hlead (List.prefix_append a b) h
  · intro hlead
    exact hlead.trans (List.prefix_append a b)

/-- Text up to a terminator is read whatever follows the terminator. -/
theorem textUntil_spec {terminator : String} {text : List Char}
    (h : textUntil terminator cs = .ok (text, rest)) (hne : terminator.toList ≠ []) :
    cs = text ++ (terminator.toList ++ rest) ∧
      ∀ rest', textUntil terminator (text ++ (terminator.toList ++ rest')) =
        .ok (text, rest') := by
  obtain ⟨⟨text', after⟩, hchars, h⟩ := bind_eq_ok_iff.mp h
  obtain ⟨rest₁, hskip, hrest⟩ := bind_eq_ok_iff.mp h
  obtain ⟨rfl, rfl⟩ : text' = text ∧ rest₁ = rest := by simpa using hrest
  obtain ⟨rfl, -, hlocal⟩ := charsUntil_spec hchars
  have hlength : terminator.length = terminator.toList.length := String.length_toList.symm
  have hafter : after = terminator.toList ++ rest₁ := by
    rw [skipText] at hskip
    split at hskip
    · rename_i hstarts
      obtain ⟨r, rfl⟩ := List.isPrefixOf_iff_prefix.mp hstarts
      rw [hlength, List.drop_left] at hskip
      cases hskip
      rfl
    · cases hskip
  subst hafter
  refine ⟨rfl, fun rest' => ?_⟩
  have hhead : (terminator.toList ++ rest').head? = (terminator.toList ++ rest₁).head? := by
    obtain ⟨c, r, hterminator⟩ := List.exists_cons_of_ne_nil hne
    rw [hterminator]
    rfl
  have hsame : ∀ t, startsWith (t ++ (terminator.toList ++ rest')) terminator.toList =
      startsWith (t ++ (terminator.toList ++ rest₁)) terminator.toList := by
    intro t
    have hle : terminator.toList.length ≤ (t ++ terminator.toList).length := by
      rw [List.length_append]
      omega
    rw [← List.append_assoc, ← List.append_assoc, startsWith_append hle, startsWith_append hle]
  have hread := hlocal _ hhead hsame
  have hskip' : skipText terminator (terminator.toList ++ rest') = .ok rest' := by
    have hstarts : startsWith (terminator.toList ++ rest') terminator.toList = true :=
      List.isPrefixOf_iff_prefix.mpr (List.prefix_append _ _)
    rw [skipText, if_pos hstarts, hlength, List.drop_left]
  rw [textUntil, hread]
  show (skipText terminator (terminator.toList ++ rest') >>= fun rest => .ok (text', rest)) = _
  rw [hskip']
  rfl

/-! ## The parts of tokens -/

theorem isNameChar_of_isSpace {c : Char} (h : isSpace c = true) : isNameChar c = false := by
  simp only [isSpace, Bool.or_eq_true, beq_iff_eq] at h
  rcases h with ((rfl | rfl) | rfl) | rfl <;> decide

theorem skipSpaces_eq_cons_iff {c : Char} (hc : isSpace c = false) :
    skipSpaces cs = c :: rest ↔
      ∃ blanks, cs = blanks ++ c :: rest ∧ ∀ b ∈ blanks, isSpace b = true := by
  constructor
  · intro h
    obtain ⟨blanks, x, rfl, hblanks, hx⟩ := exists_run isSpace cs
    rw [skipSpaces, dropWhile_run hblanks hx] at h
    exact ⟨blanks, by rw [h], hblanks⟩
  · rintro ⟨blanks, rfl, hblanks⟩
    exact dropWhile_run hblanks (by simpa using hc)

/-- A name ends before blanks and before a character of another kind. -/
theorem head?_blanks_any {blanks : List Char} {c : Char} (rest : List Char)
    (hblanks : ∀ b ∈ blanks, isSpace b = true) (hc : isNameChar c = false) :
    (blanks ++ c :: rest).head?.any isNameChar = false := by
  cases blanks with
  | nil => simpa using hc
  | cons b r => simpa using isNameChar_of_isSpace (hblanks b List.mem_cons_self)

theorem NameRun.exists_cons {name : QName} {run : List Char} (h : NameRun name run) :
    ∃ c r, run = c :: r ∧ isNameChar c = true := by
  obtain ⟨hchars, hreads⟩ := h
  cases run with
  | nil => cases hreads
  | cons c r => exact ⟨c, r, rfl, hchars c List.mem_cons_self⟩

theorem closeTag_eq_ok_iff {token : Token} :
    closeTag cs = .ok (token, rest) ↔
      ∃ name run blanks, NameRun name run ∧ (∀ b ∈ blanks, isSpace b = true) ∧
        token = .close name ∧ cs = run ++ (blanks ++ '>' :: rest) := by
  constructor
  · intro h
    obtain ⟨⟨name, after⟩, hname, h⟩ := bind_eq_ok_iff.mp h
    obtain ⟨rest₁, hskip, h⟩ := bind_eq_ok_iff.mp h
    obtain ⟨rfl, rfl⟩ : Token.close name = token ∧ rest₁ = rest := by simpa using h
    obtain ⟨run, rfl, hrun, -⟩ := qname_eq_ok_iff.mp hname
    obtain ⟨blanks, rfl, hblanks⟩ :=
      (skipSpaces_eq_cons_iff (by decide)).mp (skipChar_eq_ok_iff.mp hskip)
    exact ⟨name, run, blanks, hrun, hblanks, rfl, rfl⟩
  · rintro ⟨name, run, blanks, hrun, hblanks, rfl, rfl⟩
    have hname := qname_eq_ok_iff.mpr
      ⟨run, rfl, hrun, head?_blanks_any rest hblanks (by decide : isNameChar '>' = false)⟩
    have hskip : skipChar '>' (skipSpaces (blanks ++ '>' :: rest)) = .ok rest :=
      skipChar_eq_ok_iff.mpr ((skipSpaces_eq_cons_iff (by decide)).mpr ⟨blanks, rfl, hblanks⟩)
    exact bind_eq_ok_iff.mpr ⟨_, hname, bind_eq_ok_iff.mpr ⟨_, hskip, rfl⟩⟩

theorem nameAndValue_spec {token : Token} (h : nameAndValue cs = .ok (token, rest)) :
    ∃ name value run tail, NameRun name run ∧ token = .attr name value ∧
      cs = run ++ (tail ++ rest) ∧ tail.head?.any isNameChar = false ∧
      ∀ name' run' rest', NameRun name' run' →
        nameAndValue (run' ++ (tail ++ rest')) = .ok (.attr name' value, rest') := by
  obtain ⟨⟨name, after⟩, hname, h⟩ := bind_eq_ok_iff.mp h
  obtain ⟨afterEq, heq, h⟩ := bind_eq_ok_iff.mp h
  obtain ⟨⟨q, afterQuote⟩, hquote, h⟩ := bind_eq_ok_iff.mp h
  obtain ⟨⟨value, afterValue⟩, hvalue, h⟩ := bind_eq_ok_iff.mp h
  obtain ⟨rest₁, hclose, h⟩ := bind_eq_ok_iff.mp h
  obtain ⟨rfl, rfl⟩ : Token.attr name (String.ofList value) = token ∧ rest₁ = rest := by
    simpa using h
  obtain ⟨run, rfl, hrun, -⟩ := qname_eq_ok_iff.mp hname
  obtain ⟨blanks₁, rfl, hblanks₁⟩ :=
    (skipSpaces_eq_cons_iff (by decide)).mp (skipChar_eq_ok_iff.mp heq)
  obtain ⟨hafter, hq⟩ := quote_eq_ok_iff.mp hquote
  have hqspace : isSpace q = false := by
    rcases hq with rfl | rfl <;> decide
  obtain ⟨blanks₂, rfl, hblanks₂⟩ := (skipSpaces_eq_cons_iff hqspace).mp hafter
  obtain rfl := skipChar_eq_ok_iff.mp hclose
  obtain ⟨rfl, -, hlocal⟩ := charsUntil_spec hvalue
  refine ⟨name, String.ofList value, run,
    blanks₁ ++ '=' :: (blanks₂ ++ q :: (value ++ [q])), hrun, rfl, by simp,
    head?_blanks_any _ hblanks₁ (by decide), ?_⟩
  intro name' run' rest' hrun'
  have hshape : blanks₁ ++ '=' :: (blanks₂ ++ q :: (value ++ [q])) ++ rest' =
      blanks₁ ++ '=' :: (blanks₂ ++ q :: (value ++ q :: rest')) := by simp
  have hname' := qname_eq_ok_iff.mpr ⟨run', rfl, hrun', head?_blanks_any
    (blanks₂ ++ q :: (value ++ q :: rest')) hblanks₁ (by decide : isNameChar '=' = false)⟩
  have heq' : skipChar '=' (skipSpaces (blanks₁ ++ '=' :: (blanks₂ ++ q :: (value ++ q :: rest')))) =
      .ok (blanks₂ ++ q :: (value ++ q :: rest')) :=
    skipChar_eq_ok_iff.mpr ((skipSpaces_eq_cons_iff (by decide)).mpr ⟨blanks₁, rfl, hblanks₁⟩)
  have hquote' : quote (skipSpaces (blanks₂ ++ q :: (value ++ q :: rest'))) =
      .ok (q, value ++ q :: rest') :=
    quote_eq_ok_iff.mpr ⟨(skipSpaces_eq_cons_iff hqspace).mpr ⟨blanks₂, rfl, hblanks₂⟩, hq⟩
  have hvalue' : charsUntil (fun cs => startsWith cs [q] || startsWith cs ['<'])
      (value ++ q :: rest') = .ok (value, q :: rest') := by
    refine hlocal (q :: rest') rfl fun t => ?_
    cases t with
    | nil => rfl
    | cons c t => rfl
  have hclose' : skipChar q (q :: rest') = .ok rest' := skipChar_eq_ok_iff.mpr rfl
  rw [hshape]
  exact bind_eq_ok_iff.mpr ⟨_, hname', bind_eq_ok_iff.mpr ⟨_, heq', bind_eq_ok_iff.mpr
    ⟨_, hquote', bind_eq_ok_iff.mpr ⟨_, hvalue', bind_eq_ok_iff.mpr ⟨_, hclose', rfl⟩⟩⟩⟩⟩

/-! ## Tokens without a name -/

theorem comment_spec {token : Token} (h : comment cs = .ok (token, rest)) :
    (token.name? = none ∧ token.inTag = false) ∧
      ∃ text, cs = text ++ rest ∧ ∀ rest', comment (text ++ rest') = .ok (token, rest') := by
  obtain ⟨⟨text, after⟩, htext, hchecked⟩ := bind_eq_ok_iff.mp h
  obtain ⟨hcs, hlocal⟩ := textUntil_spec htext (by decide)
  dsimp only at hchecked
  split at hchecked
  · cases hchecked
  · rename_i hdashes
    split at hchecked
    · cases hchecked
    · rename_i hdash
      obtain ⟨rfl, rfl⟩ : Token.comment (String.ofList text) = token ∧ after = rest := by
        simpa using hchecked
      refine ⟨⟨rfl, rfl⟩, text ++ "-->".toList, by rw [hcs, List.append_assoc], fun rest' => ?_⟩
      rw [List.append_assoc]
      refine bind_eq_ok_iff.mpr ⟨_, hlocal rest', ?_⟩
      dsimp only
      rw [if_neg hdashes, if_neg hdash]

theorem cdata_spec {token : Token} (h : cdata cs = .ok (token, rest)) :
    (token.name? = none ∧ token.inTag = false) ∧
      ∃ text, cs = text ++ rest ∧ ∀ rest', cdata (text ++ rest') = .ok (token, rest') := by
  obtain ⟨⟨text, after⟩, htext, hread⟩ := bind_eq_ok_iff.mp h
  obtain ⟨hcs, hlocal⟩ := textUntil_spec htext (by decide)
  obtain ⟨rfl, rfl⟩ : Token.cdata (String.ofList text) = token ∧ after = rest := by
    simpa using hread
  refine ⟨⟨rfl, rfl⟩, text ++ "]]>".toList, by rw [hcs, List.append_assoc], fun rest' => ?_⟩
  rw [List.append_assoc]
  exact bind_eq_ok_iff.mpr ⟨_, hlocal rest', rfl⟩

theorem startsName_append {a : List Char} (hne : a ≠ []) (b : List Char) :
    startsName (a ++ b) = startsName a := by
  obtain ⟨c, r, rfl⟩ := List.exists_cons_of_ne_nil hne
  rfl

/-- The text of a processing instruction ends with its mark, and there is some before. -/
theorem processingInstruction_spec {token : Token}
    (h : processingInstruction cs = .ok (token, rest)) :
    (token.name? = none ∧ token.inTag = false) ∧
      ∃ text, cs = text ++ ("?>".toList ++ rest) ∧ text ≠ [] ∧
        ∀ rest', processingInstruction (text ++ ("?>".toList ++ rest')) = .ok (token, rest') := by
  rw [processingInstruction] at h
  split at h
  · rename_i hstart
    obtain ⟨⟨data, after⟩, hdata, hread⟩ := bind_eq_ok_iff.mp h
    obtain ⟨run, x, hcs, hrun, hx⟩ := exists_run isNameChar cs
    obtain ⟨blanks, y, hxy, hblanks, hy⟩ := exists_run isSpace x
    rw [hcs, dropWhile_run hrun hx, skipSpaces, hxy, dropWhile_run hblanks hy] at hdata
    obtain ⟨hyd, hlocal⟩ := textUntil_spec hdata (by decide)
    rw [hcs, takeWhile_run hrun hx] at hread
    obtain ⟨rfl, rfl⟩ : Token.processingInstruction (String.ofList run)
        (if data.isEmpty then none else some (String.ofList data)) = token ∧ after = rest := by
      simpa using hread
    have hrunne : run ≠ [] := by
      rintro rfl
      rw [hcs, List.nil_append] at hstart
      cases hx' : x with
      | nil =>
        rw [hx'] at hstart
        cases hstart
      | cons c r =>
        rw [hx'] at hstart hx
        have hc : isNameChar c = true := by
          rw [startsName] at hstart
          rw [isNameChar, hstart]
          rfl
        simp [hc] at hx
    refine ⟨⟨rfl, rfl⟩, run ++ (blanks ++ data), ?_, ?_, fun rest' => ?_⟩
    · rw [hcs, hxy, hyd]
      simp
    · simp [hrunne]
    · have hheady : (data ++ ("?>".toList ++ rest')).head? = y.head? := by
        rw [hyd]
        exact head?_append_congr data rfl
      have hheadx : (blanks ++ (data ++ ("?>".toList ++ rest'))).head? = x.head? := by
        rw [hxy]
        exact head?_append_congr blanks hheady
      rw [← hheadx] at hx
      rw [← hheady] at hy
      rw [hcs, startsName_append hrunne] at hstart
      rw [List.append_assoc, List.append_assoc, processingInstruction, startsName_append hrunne,
        if_pos hstart, takeWhile_run hrun hx, dropWhile_run hrun hx, skipSpaces,
        dropWhile_run hblanks hy]
      exact bind_eq_ok_iff.mpr ⟨_, hlocal rest', rfl⟩
  · cases h

theorem characterData_spec {token : Token} (h : characterData cs = .ok (token, rest)) :
    (token.name? = none ∧ token.inTag = false) ∧
      ∃ text, cs = text ++ rest ∧ (rest = [] ∨ rest.head? = some '<') ∧
        ∀ rest', rest'.head? = rest.head? →
          characterData (text ++ rest') = .ok (token, rest') := by
  obtain ⟨⟨text, after⟩, htext, hchecked⟩ := bind_eq_ok_iff.mp h
  obtain ⟨hcs, hend, hlocal⟩ := charsUntil_spec htext
  dsimp only at hchecked
  split at hchecked
  · cases hchecked
  · rename_i hsection
    obtain ⟨rfl, rfl⟩ : Token.text (String.ofList text) = token ∧ after = rest := by
      simpa using hchecked
    refine ⟨⟨rfl, rfl⟩, text, hcs, hend.imp_right fun hstarts => ?_, fun rest' hhead => ?_⟩
    · obtain ⟨r, rfl⟩ := List.isPrefixOf_iff_prefix.mp hstarts
      rfl
    · have hsame : ∀ t, startsWith (t ++ rest') ['<'] = startsWith (t ++ after) ['<'] := by
        intro t
        have hheads := head?_append_congr t hhead
        generalize t ++ rest' = a at *
        generalize t ++ after = b at *
        cases a <;> cases b <;> simp_all [startsWith, List.isPrefixOf]
      refine bind_eq_ok_iff.mpr ⟨_, hlocal rest' hhead hsame, ?_⟩
      dsimp only
      rw [if_neg hsection]

/-! ## Tokens -/

/-- What comes next in either state. -/
def next (inside : Bool) (cs : List Char) : Except (XmlError Nat) (Token × List Char) :=
  if inside then placed .attributes cs.length (insideTag cs) else betweenTags cs

theorem placed_eq_ok_iff {α : Type} {construct : Construct} {start : Nat} {x : Except Fault α}
    {a : α} : placed construct start x = .ok a ↔ x = .ok a := by
  cases x with
  | ok b => simp [placed]
  | error cause => simp [placed]

/-- A text that is read as a token if a character comes next, or nothing. -/
inductive Written (inside : Bool) (token : Token) (ahead : Option Char) : List Char → Prop
  | unnamed {text : List Char} (hname : token.name? = none ∧ token.inTag = inside) (hne : text ≠ [])
      (hreads : ∀ rest, rest.head? = ahead → next inside (text ++ rest) = .ok (token, rest)) :
      Written inside token ahead text
  | named {name : QName} {c : Char} {lead run tail : List Char}
      (hname : token.name? = some name ∧ token.inTag = inside)
      (hlead : ∀ d ∈ c :: lead, isNameChar d = false) (hrun : NameRun name run)
      (hend : tail.head?.any isNameChar = false)
      (hreads : ∀ name' run' rest, NameRun name' run' → rest.head? = ahead →
        next inside (c :: lead ++ (run' ++ (tail ++ rest))) = .ok (token.withName name', rest)) :
      Written inside token ahead (c :: lead ++ (run ++ tail))

/-- A text that has more before a mark than the mark itself is as little a declaration as
with anything else behind the mark. -/
theorem startsWith_declaration {text : List Char} (hne : text ≠ []) (rest rest' : List Char) :
    startsWith (text ++ ("?>".toList ++ rest)) ['x', 'm', 'l', ' '] =
      startsWith (text ++ ("?>".toList ++ rest')) ['x', 'm', 'l', ' '] := by
  match text, hne with
  | [c], _ => simp [startsWith, List.isPrefixOf]
  | c :: d :: r, _ =>
    have hlength : ['x', 'm', 'l', ' '].length ≤ (c :: d :: r ++ "?>".toList).length := by
      simp
    rw [← List.append_assoc, ← List.append_assoc, startsWith_append hlength,
      startsWith_append hlength]

/-- What begins with a name character after the mark of a tag is a start tag. -/
theorem betweenTags_of_name {c : Char} {r : List Char} (hc : isNameChar c = true) :
    betweenTags ('<' :: c :: r) = placed .element ((c :: r).length + 1) (startTag (c :: r)) := by
  have hbang : c ≠ '!' := fun h => absurd (h ▸ hc) (by decide)
  have hquestion : c ≠ '?' := fun h => absurd (h ▸ hc) (by decide)
  have hslash : c ≠ '/' := fun h => absurd (h ▸ hc) (by decide)
  unfold betweenTags
  split <;> simp_all

theorem betweenTags_of_text (h : cs.head? ≠ some '<') :
    betweenTags cs = placed .characterData cs.length (characterData cs) := by
  unfold betweenTags
  split <;> simp_all

theorem betweenTags_written {token : Token} (hne : cs ≠ [])
    (h : betweenTags cs = .ok (token, rest)) :
    ∃ text, cs = text ++ rest ∧ Written false token rest.head? text := by
  by_cases hopen : cs.head? = some '<'
  · obtain ⟨r, rfl⟩ : ∃ r, cs = '<' :: r := by simpa [List.head?_eq_some_iff] using hopen
    unfold betweenTags at h
    dsimp only at h
    split at h
    · obtain ⟨hname, text, rfl, hreads⟩ := comment_spec (placed_eq_ok_iff.mp h)
      refine ⟨"<!--".toList ++ text, by simp_all, .unnamed hname (by simp) fun rest' _ => ?_⟩
      exact placed_eq_ok_iff.mpr (hreads rest')
    · obtain ⟨hname, text, rfl, hreads⟩ := cdata_spec (placed_eq_ok_iff.mp h)
      refine ⟨"<![CDATA[".toList ++ text, by simp_all, .unnamed hname (by simp) fun rest' _ => ?_⟩
      exact placed_eq_ok_iff.mpr (hreads rest')
    · cases h
    · split at h
      · cases h
      · rename_i hcs hdeclaration
        obtain ⟨hname, text, rfl, hne, hreads⟩ := processingInstruction_spec (placed_eq_ok_iff.mp h)
        refine ⟨"<?".toList ++ (text ++ "?>".toList), by simp_all, .unnamed hname (by simp)
          fun rest' _ => ?_⟩
        rw [startsWith_declaration hne rest rest'] at hdeclaration
        show betweenTags ('<' :: '?' :: (text ++ "?>".toList ++ rest')) = _
        rw [List.append_assoc, betweenTags, if_neg hdeclaration]
        exact placed_eq_ok_iff.mpr (hreads rest')
    · obtain ⟨name, run, blanks, hrun, hblanks, rfl, rfl⟩ :=
        closeTag_eq_ok_iff.mp (placed_eq_ok_iff.mp h)
      have hlead : ∀ d ∈ '<' :: ['/'], isNameChar d = false :=
        List.forall_mem_cons.mpr ⟨by decide, List.forall_mem_singleton.mpr (by decide)⟩
      refine ⟨'<' :: ['/'] ++ (run ++ (blanks ++ ['>'])), by simp_all, .named ⟨rfl, rfl⟩ hlead hrun
        (head?_blanks_any _ hblanks (by decide)) fun name' run' rest' hrun' _ => ?_⟩
      exact placed_eq_ok_iff.mpr (closeTag_eq_ok_iff.mpr
        ⟨name', run', blanks, hrun', hblanks, rfl, by simp⟩)
    · cases h
    · obtain ⟨⟨name, after⟩, hname, hread⟩ := bind_eq_ok_iff.mp (placed_eq_ok_iff.mp h)
      obtain ⟨rfl, rfl⟩ : Token.elementStart name = token ∧ after = rest := by
        simpa using hread
      obtain ⟨run, hrun_eq, hrun, hrest⟩ := qname_eq_ok_iff.mp hname
      have hlead : ∀ d ∈ '<' :: [], isNameChar d = false :=
        List.forall_mem_singleton.mpr (by decide)
      refine ⟨'<' :: [] ++ (run ++ []), by simp_all, .named ⟨rfl, rfl⟩ hlead hrun rfl
        fun name' run' rest' hrun' hhead => ?_⟩
      rw [← hhead] at hrest
      obtain ⟨c, t, rfl, hc⟩ := hrun'.exists_cons
      have hname' := qname_eq_ok_iff.mpr ⟨c :: t, rfl, hrun', hrest⟩
      show betweenTags ('<' :: c :: (t ++ rest')) = _
      rw [betweenTags_of_name hc]
      exact placed_eq_ok_iff.mpr (bind_eq_ok_iff.mpr ⟨_, hname', rfl⟩)
    · simp_all
  · rw [betweenTags_of_text hopen] at h
    obtain ⟨hname, text, rfl, hend, hreads⟩ := characterData_spec (placed_eq_ok_iff.mp h)
    have htext : text ≠ [] := by
      rintro rfl
      rcases hend with rfl | hend
      · exact hne rfl
      · exact hopen hend
    refine ⟨text, rfl, .unnamed hname htext fun rest' hhead => ?_⟩
    have hopen' : (text ++ rest').head? ≠ some '<' := by
      rw [head?_append_congr text hhead]
      exact hopen
    show betweenTags (text ++ rest') = _
    rw [betweenTags_of_text hopen']
    exact placed_eq_ok_iff.mpr (hreads rest' hhead)

/-- After blanks, a name begins an attribute. -/
theorem insideTag_of_name {blanks r : List Char} {b c : Char}
    (hblanks : ∀ d ∈ b :: blanks, isSpace d = true) (hc : isNameChar c = true) :
    insideTag (b :: blanks ++ c :: r) = nameAndValue (c :: r) := by
  have hslash : c ≠ '/' := fun h => absurd (h ▸ hc) (by decide)
  have hend : c ≠ '>' := fun h => absurd (h ▸ hc) (by decide)
  have hspace : isSpace c = false := by
    refine Bool.eq_false_iff.mpr fun h => ?_
    rw [isNameChar_of_isSpace h] at hc
    cases hc
  have hskip : skipSpaces (b :: blanks ++ c :: r) = c :: r :=
    (skipSpaces_eq_cons_iff hspace).mpr ⟨_, rfl, hblanks⟩
  have hb : isSpace b = true := hblanks b List.mem_cons_self
  rw [insideTag, hskip]
  dsimp only
  split <;> simp_all

theorem insideTag_written {token : Token} (h : insideTag cs = .ok (token, rest)) :
    ∃ text, cs = text ++ rest ∧ Written true token rest.head? text := by
  unfold insideTag at h
  dsimp only at h
  split at h
  · rename_i r hskip
    obtain ⟨blanks, rfl, hblanks⟩ := (skipSpaces_eq_cons_iff (by decide)).mp hskip
    have hclose : skipChar '>' r = .ok rest ∧ token = .emptyEnd := by
      cases hr : skipChar '>' r with
      | error cause => simp [hr, Except.map] at h
      | ok after => simpa [hr, Except.map, eq_comm, and_comm] using h
    obtain ⟨hclose, rfl⟩ := hclose
    obtain rfl := skipChar_eq_ok_iff.mp hclose
    refine ⟨blanks ++ ['/', '>'], by simp, .unnamed ⟨rfl, rfl⟩ (by simp) fun rest' _ => ?_⟩
    have hskip' : skipSpaces (blanks ++ ['/', '>'] ++ rest') = '/' :: '>' :: rest' :=
      (skipSpaces_eq_cons_iff (by decide)).mpr ⟨blanks, by simp, hblanks⟩
    refine placed_eq_ok_iff.mpr ?_
    rw [insideTag, hskip']
    rfl
  · rename_i r hskip
    obtain ⟨blanks, rfl, hblanks⟩ := (skipSpaces_eq_cons_iff (by decide)).mp hskip
    obtain ⟨rfl, rfl⟩ : Token.openEnd = token ∧ r = rest := by simpa using h
    refine ⟨blanks ++ ['>'], by simp, .unnamed ⟨rfl, rfl⟩ (by simp) fun rest' _ => ?_⟩
    have hskip' : skipSpaces (blanks ++ ['>'] ++ rest') = '>' :: rest' :=
      (skipSpaces_eq_cons_iff (by decide)).mpr ⟨blanks, by simp, hblanks⟩
    refine placed_eq_ok_iff.mpr ?_
    rw [insideTag, hskip']
    rfl
  · split at h
    · rename_i hspace
      obtain ⟨name, value, run, tail, hrun, rfl, hafter, htail, hreads⟩ := nameAndValue_spec h
      obtain ⟨blanks, x, rfl, hblanks, hx⟩ := exists_run isSpace cs
      rw [skipSpaces, dropWhile_run hblanks hx] at hafter
      cases blanks with
      | nil =>
        rw [List.nil_append] at hspace
        rw [hspace] at hx
        cases hx
      | cons b blanks =>
        refine ⟨b :: blanks ++ (run ++ tail), by rw [hafter]; simp, .named ⟨rfl, rfl⟩ ?_ hrun htail
          fun name' run' rest' hrun' _ => ?_⟩
        · exact fun d hd => isNameChar_of_isSpace (hblanks d hd)
        · obtain ⟨c, t, rfl, hc⟩ := hrun'.exists_cons
          refine placed_eq_ok_iff.mpr ?_
          show insideTag (b :: blanks ++ c :: (t ++ (tail ++ rest'))) = _
          rw [insideTag_of_name hblanks hc]
          exact hreads name' (c :: t) rest' hrun'
    · split at h <;> cases h

theorem next_written {inside : Bool} {token : Token} (hne : cs ≠ [])
    (h : next inside cs = .ok (token, rest)) :
    ∃ text, cs = text ++ rest ∧ Written inside token rest.head? text := by
  cases inside with
  | false => exact betweenTags_written hne h
  | true => exact insideTag_written (placed_eq_ok_iff.mp h)

end Lexer
end Markup
end TagGrammar
