/-
Templates from bytes and from the text of the bytes.

Reading from bytes skips the blanks that the text starts with before it looks for a declaration.
Of the tokens it is only known that text up to the next tag is one of them.  So without the
blanks the builder gets the same tokens but for the first text, and then the two builders
differ in the text that comes first in the content of the root and in nothing else (`Preceded`).
So both fail in the same way, or both make a template and not the same one.  The results agree
exactly if the blanks go unnoticed (`parseBytesWith_agrees_iff`): there are none, or the first text
is dropped with them, or the rest of the text has a fault of its own.
-/
import TagGrammar.Proofs.Markup.References
import TagGrammar.Proofs.Markup.Tokenized
import TagGrammar.Template.Source

namespace TagGrammar

/-- The kinds of faults. -/
inductive ParseError.Kind where
  | markup
  | invalidCloseTag
  | unexpectedCloseTag
  | unclosedElement
  | unknownPrefix
  | unclosedReference
  | unknownReference
  | missingAttribute
  | undecodable
deriving DecidableEq

def ParseError.kind : ParseError → ParseError.Kind
  | markup _ => .markup
  | invalidCloseTag _ _ => .invalidCloseTag
  | unexpectedCloseTag _ => .unexpectedCloseTag
  | unclosedElement _ => .unclosedElement
  | unknownPrefix _ => .unknownPrefix
  | badReference (.unclosed _) => .unclosedReference
  | badReference (.unknown _) => .unknownReference
  | missingAttribute _ _ => .missingAttribute
  | undecodable _ => .undecodable

/-- Two results are the same template, or faults of one kind. -/
def SameResult (x y : Except ParseError Node) : Prop :=
  x.mapError ParseError.kind = y.mapError ParseError.kind

namespace Markup.Reference

theorem resolveChars_append {lead : List Char} (h : ∀ c ∈ lead, c ≠ '&') (cs : List Char) :
    resolveChars (lead ++ cs) = (resolveChars cs).map (lead ++ ·) := by
  have hreplaced : Replaced IsRead lead lead := .of_plain h
  exact hreplaced.resolveChars_append (fun _ _ h => h) cs

end Markup.Reference

namespace Builder
open Markup (Token)

variable {keepBlanks : Bool} {s : State} {content : List Node} {w t : String}

theorem resolved_append {lead : List Char} (h : ∀ c ∈ lead, c ≠ '&') (cs : List Char) :
    resolved (String.ofList (lead ++ cs)) =
      (resolved (String.ofList cs)).map (String.ofList lead ++ ·) := by
  unfold resolved Markup.resolveReferences
  rw [String.toList_ofList, String.toList_ofList, Markup.Reference.resolveChars_append h]
  cases Markup.Reference.resolveChars cs with
  | error e => rfl
  | ok ds => exact congrArg Except.ok String.ofList_append

/-! ## Content with text before it -/

/-- Text that no instruction makes. -/
def textNode (t : String) : Node := { value := .plainText t }

/-- The second content is the first one with a text before it, which is joined to the text that
comes first.  The last child comes first in either. -/
inductive Preceded (w : String) : List Node → List Node → Prop where
  | apart (l : List Node) : Preceded w l (l ++ [textNode w])
  | joined (l : List Node) (t : String) : Preceded w (l ++ [textNode t]) (l ++ [textNode (w ++ t)])

theorem withText_append {l : List Node} (hne : l ≠ []) (t : String) (more : List Node) :
    withText t (l ++ more) = withText t l ++ more := by
  obtain ⟨n, l, rfl⟩ := List.exists_cons_of_ne_nil hne
  rw [List.cons_append]
  unfold withText
  split <;> simp_all

theorem withText_textNode (t u : String) : withText t [textNode u] = [textNode (u ++ t)] := rfl

theorem Preceded.cons {l l' : List Node} (h : Preceded w l l') (n : Node) :
    Preceded w (n :: l) (n :: l') := by
  cases h with
  | apart l => exact .apart (n :: l)
  | joined l t => exact .joined (n :: l) t

theorem Preceded.withText {l l' : List Node} (h : Preceded w l l') (t : String) :
    Preceded w (withText t l) (withText t l') := by
  cases h with
  | apart l =>
    by_cases hl : l = []
    · subst hl
      exact .joined [] t
    · rw [withText_append hl]
      exact .apart _
  | joined l u =>
    by_cases hl : l = []
    · subst hl
      rw [List.nil_append, List.nil_append, withText_textNode, withText_textNode,
        String.append_assoc]
      exact .joined [] (u ++ t)
    · rw [withText_append hl, withText_append hl]
      exact .joined _ u

theorem Preceded.ne {l l' : List Node} (h : Preceded w l l') (hw : w ≠ "") : l ≠ l' := by
  cases h with
  | apart l => simp
  | joined l t =>
    intro heq
    have htext : textNode t = textNode (w ++ t) := by simpa using heq
    simp only [textNode, Value.plainText, Node.mk.injEq, Value.text.injEq, and_true] at htext
    have hlength := congrArg String.length htext
    rw [String.length_append] at hlength
    exact hw (String.length_eq_zero_iff.mp (by omega))

/-! ## Two runs -/

/-- Two runs are at the same fault or in states that differ in a text before the content. -/
inductive Beside (w : String) : Except ParseError State → Except ParseError State → Prop where
  | ok {s : State} {content : List Node} (h : Preceded w s.content content) :
      Beside w (.ok s) (.ok { s with content })
  | error (e : ParseError) : Beside w (.error e) (.error e)

theorem Beside.bind {x y : Except ParseError State} (h : Beside w x y)
    {next : State → Except ParseError State}
    (hnext : ∀ s content, Preceded w s.content content →
      Beside w (next s) (next { s with content })) : Beside w (x >>= next) (y >>= next) := by
  cases h with
  | ok h => exact hnext _ _ h
  | error e => exact .error e

section

variable (h : Preceded w s.content content)

include h

theorem beside_addNode (n : Node) :
    Beside w (.ok (addNode n s)) (.ok (addNode n { s with content })) := by
  obtain ⟨frames, l, pending⟩ := s
  cases frames with
  | nil => exact .ok (s := ⟨[], n :: l, pending⟩) (h.cons n)
  | cons f rest => exact .ok (s := ⟨{ f with children := n :: f.children } :: rest, l, pending⟩) h

theorem beside_addText (t : String) :
    Beside w (.ok (addText keepBlanks t s)) (.ok (addText keepBlanks t { s with content })) := by
  obtain ⟨frames, l, pending⟩ := s
  unfold addText
  cases frames with
  | nil =>
    dsimp only
    split
    · exact .ok (s := ⟨[], l, pending⟩) h
    · exact .ok (s := ⟨[], withText t l, pending⟩) (h.withText t)
  | cons f rest =>
    dsimp only
    split
    · exact .ok (s := ⟨_ :: rest, l, pending⟩) h
    · split
      · exact .ok (s := ⟨f :: rest, l, pending⟩) h
      · exact .ok (s := ⟨_ :: rest, l, pending⟩) h

theorem beside_endStartTag (isEmpty : Bool) :
    Beside w (endStartTag isEmpty s) (endStartTag isEmpty { s with content }) := by
  obtain ⟨frames, l, pending⟩ := s
  unfold endStartTag
  cases pending with
  | none => exact .ok (s := ⟨frames, l, none⟩) h
  | some tag =>
    dsimp only
    cases frameOf (scopeOf frames) tag with
    | error e => exact .error e
    | ok f =>
      cases isEmpty with
      | true => exact beside_addNode (s := ⟨frames, l, none⟩) h f.node
      | false => exact .ok (s := ⟨f :: frames, l, none⟩) h

theorem beside_closeElement (found : Markup.QName) :
    Beside w (closeElement found s) (closeElement found { s with content }) := by
  obtain ⟨frames, l, pending⟩ := s
  unfold closeElement
  cases frames with
  | nil => exact .error _
  | cons f rest =>
    dsimp only
    split
    · exact beside_addNode (s := ⟨rest, l, pending⟩) h f.node
    · exact .error _

/-- A step makes no difference to what the runs differ in. -/
theorem beside_step (token : Token) :
    Beside w (step keepBlanks s token) (step keepBlanks { s with content } token) := by
  cases token with
  | elementStart name => exact .ok (s := { s with pending := some { name } }) h
  | attr name value =>
    rw [step, step]
    cases resolved value with
    | error e => exact .error e
    | ok value => exact .ok (s := { s with pending := s.pending.map (·.withAttr name value) }) h
  | openEnd => exact beside_endStartTag h false
  | emptyEnd => exact beside_endStartTag h true
  | close name => exact beside_closeElement h name
  | text text =>
    rw [step, step]
    cases resolved text with
    | error e => exact .error e
    | ok t => exact beside_addText h t
  | cdata text => exact beside_addText h text
  | comment text => exact beside_addNode h _
  | processingInstruction target data => exact beside_addNode h _

theorem beside_steps (tokens : List Token) :
    Beside w (steps keepBlanks tokens s) (steps keepBlanks tokens { s with content }) := by
  induction tokens generalizing s content with
  | nil => exact .ok h
  | cons token tokens ih =>
    unfold steps at ih ⊢
    rw [List.foldlM_cons, List.foldlM_cons]
    exact (beside_step h token).bind fun s content h => ih h

end

/-! ## Results -/

/-- What becomes of some tokens with or without a fault after them, from a state on. -/
def resultOf (keepBlanks : Bool) (read : List Token × Bool) (s : State) :
    Except ParseError.Kind Node :=
  match steps keepBlanks read.1 s with
  | .error e => .error e.kind
  | .ok s => if read.2 then .error .markup else (finish s).mapError ParseError.kind

/-- Where a fault is makes no difference to its kind. -/
theorem mapError_parseWith (tokenizer : Markup.Tokenizer) (cs : List Char) :
    (Template.parseWith tokenizer keepBlanks (String.ofList cs)).mapError ParseError.kind =
      resultOf keepBlanks (tokenizer.read cs) {} := by
  unfold Template.parseWith resultOf Markup.Tokenizer.read
  obtain ⟨tokens, fault⟩ := tokenizer (String.ofList cs)
  dsimp only
  cases steps keepBlanks tokens {} with
  | error e => rfl
  | ok s => cases fault <;> rfl

theorem resultOf_text (keepBlanks : Bool) (raw : String) (read : List Token × Bool) :
    resultOf keepBlanks (.text raw :: read.1, read.2) s =
      match resolved raw with
      | .error e => .error e.kind
      | .ok t => resultOf keepBlanks read (addText keepBlanks t s) := by
  unfold resultOf steps
  rw [List.foldlM_cons, step]
  cases resolved raw <;> rfl

/-- With a text before the content the result is another one, unless it is a fault. -/
theorem resultOf_eq_iff (h : Preceded w s.content content) (hw : w ≠ "")
    (read : List Token × Bool) :
    resultOf keepBlanks read s = resultOf keepBlanks read { s with content } ↔
      ∃ k, resultOf keepBlanks read s = .error k := by
  have hbeside : Beside w (steps keepBlanks read.1 s) (steps keepBlanks read.1 { s with content }) :=
    beside_steps h read.1
  unfold resultOf
  generalize steps keepBlanks read.1 s = x at hbeside
  generalize steps keepBlanks read.1 { s with content } = y at hbeside
  cases hbeside with
  | error e => exact iff_of_true rfl ⟨_, rfl⟩
  | @ok s content h =>
    dsimp only
    cases read.2 with
    | true => exact iff_of_true rfl ⟨_, rfl⟩
    | false =>
      obtain ⟨frames, l, pending⟩ := s
      unfold finish
      cases frames with
      | cons f rest => exact iff_of_true rfl ⟨_, rfl⟩
      | nil =>
        refine iff_of_false (fun heq => ?_) (fun ⟨k, hk⟩ => nomatch hk)
        have hcontent : l.reverse = content.reverse := by
          simpa [Except.mapError] using heq
        exact h.ne hw (List.reverse_injective hcontent)

end Builder

namespace Template
open Markup (Token Tokenizer IsCharacterData textOf afterText)
open Builder (isBlankText resolved resultOf mapError_parseWith addText textNode resolved_append
  resultOf_text resultOf_eq_iff)

/-! ## Blanks that are read -/

section

variable {allowed : Char → Bool} {blanks : List Char}
  (hblank : ∀ c ∈ blanks, Text.isBlank c = true)

/-- Blanks are no part of any markup. -/
theorem ne_of_isBlank {c : Char} (h : Text.isBlank c = true) : c ≠ '<' ∧ c ≠ ']' ∧ c ≠ '&' := by
  refine ⟨?_, ?_, ?_⟩ <;> rintro rfl <;> exact absurd h (by decide)

theorem isCharacterData_nil (allowed : Char → Bool) : IsCharacterData allowed [] where
  allowed := List.forall_mem_nil _
  unended := by decide

include hblank

theorem all_ne_of_blank : ∀ c ∈ blanks, (c != '<') = true :=
  fun c hc => bne_iff_ne.mpr (ne_of_isBlank (hblank c hc)).1

theorem textOf_blanks_append (rest : List Char) : textOf (blanks ++ rest) = blanks ++ textOf rest :=
  List.takeWhile_append_of_pos (all_ne_of_blank hblank)

theorem afterText_blanks_append (rest : List Char) : afterText (blanks ++ rest) = afterText rest :=
  List.dropWhile_append_of_pos (all_ne_of_blank hblank)

/-- Blanks do not end a section of text without markup. -/
theorem sectionEnd_infix_blanks_append (t : List Char) :
    "]]>".toList <:+: blanks ++ t ↔ "]]>".toList <:+: t := by
  induction blanks with
  | nil => rfl
  | cons c blanks ih =>
    obtain ⟨hc, hblank⟩ := List.forall_mem_cons.mp hblank
    rw [List.cons_append, List.infix_cons_iff, ih hblank]
    refine or_iff_right fun hprefix => ?_
    exact (ne_of_isBlank hc).2.1 (List.cons_prefix_cons.mp hprefix).1.symm

theorem isCharacterData_blanks_append (hallowed : ∀ c ∈ blanks, allowed c = true)
    (t : List Char) : IsCharacterData allowed (blanks ++ t) ↔ IsCharacterData allowed t := by
  constructor
  · rintro ⟨hall, hend⟩
    exact ⟨fun c hc => hall c (List.mem_append_right _ hc),
      fun h => hend ((sectionEnd_infix_blanks_append hblank t).mpr h)⟩
  · rintro ⟨hall, hend⟩
    refine ⟨fun c hc => ?_, fun h => hend ((sectionEnd_infix_blanks_append hblank t).mp h)⟩
    exact (List.mem_append.mp hc).elim (hallowed c) (hall c)

/-- Blanks have no references in them. -/
theorem resolved_blanks_append (cs : List Char) :
    resolved (String.ofList (blanks ++ cs)) =
      (resolved (String.ofList cs)).map (String.ofList blanks ++ ·) :=
  resolved_append (fun c hc => (ne_of_isBlank (hblank c hc)).2.2) cs

theorem isBlankText_blanks_append (t : String) :
    isBlankText (String.ofList blanks ++ t) = isBlankText t := by
  rw [isBlankText, String.toList_append, String.toList_ofList, List.all_append,
    List.all_eq_true.mpr hblank, Bool.true_and]
  rfl

end

/-! ## Blanks that go unnoticed -/

/-- Blanks before the rest of a text make no difference to what comes of it. -/
inductive Unnoticed (tokenizer : Tokenizer) (allowed : Char → Bool) (keepBlanks : Bool)
    (blanks rest : List Char) : Prop where
  | absent (h : blanks = [])
  /-- The first text of the rest is dropped, with the blanks or without them. -/
  | dropped {t : String} (hallowed : ∀ c ∈ blanks, allowed c = true) (hkeep : keepBlanks = false)
      (htext : resolved (String.ofList (textOf rest)) = .ok t) (hblank : isBlankText t = true)
  | faulty {e : ParseError} (hallowed : ∀ c ∈ blanks, allowed c = true)
      (h : parseWith tokenizer keepBlanks (String.ofList rest) = .error e)
  /-- The blanks may be faulty markup themselves. -/
  | markup {fault : Markup.XmlError Markup.Position}
      (h : parseWith tokenizer keepBlanks (String.ofList rest) = .error (.markup fault))

variable {tokenizer : Tokenizer} {allowed : Char → Bool} {keepBlanks : Bool}
  {blanks rest cs : List Char}

theorem mapError_eq_error_iff {x : Except ParseError Node} {k : ParseError.Kind} :
    x.mapError ParseError.kind = .error k ↔ ∃ e, x = .error e ∧ e.kind = k := by
  cases x <;> simp [Except.mapError]

theorem exists_resultOf_error_iff :
    (∃ k, resultOf keepBlanks (tokenizer.read cs) {} = .error k) ↔
      ∃ e, parseWith tokenizer keepBlanks (String.ofList cs) = .error e := by
  simp only [← mapError_parseWith, mapError_eq_error_iff]
  exact ⟨fun ⟨_, e, he, _⟩ => ⟨e, he⟩, fun ⟨e, he⟩ => ⟨_, e, he, rfl⟩⟩

theorem resultOf_eq_markup_iff : resultOf keepBlanks (tokenizer.read cs) {} = .error .markup ↔
    ∃ fault, parseWith tokenizer keepBlanks (String.ofList cs) = .error (.markup fault) := by
  rw [← mapError_parseWith, mapError_eq_error_iff]
  constructor
  · rintro ⟨e, he, hkind⟩
    cases e with
    | markup fault => exact ⟨fault, he⟩
    | badReference cause => cases cause <;> cases hkind
    | _ => cases hkind
  · rintro ⟨fault, h⟩
    exact ⟨_, h, rfl⟩

/-- Text that is dropped goes unnoticed, with the blanks before it. -/
theorem unnoticed_of_dropped (hallowed : ∀ c ∈ blanks, allowed c = true) {t : String}
    (htext : resolved (String.ofList (textOf rest)) = .ok t)
    (hdropped : (!keepBlanks && isBlankText t) = true) :
    Unnoticed tokenizer allowed keepBlanks blanks rest := by
  obtain ⟨hkeep, hblank⟩ := Bool.and_eq_true_iff.mp hdropped
  exact .dropped hallowed (by simpa using hkeep) htext hblank

/-- Text that is kept is noticed, unless there is a fault. -/
theorem unnoticed_iff_of_kept (hne : blanks ≠ []) (hallowed : ∀ c ∈ blanks, allowed c = true)
    {t : String} (htext : resolved (String.ofList (textOf rest)) = .ok t)
    (hkept : ¬(!keepBlanks && isBlankText t) = true) :
    Unnoticed tokenizer allowed keepBlanks blanks rest ↔
      ∃ k, resultOf keepBlanks (tokenizer.read rest) {} = .error k := by
  rw [exists_resultOf_error_iff]
  constructor
  · rintro (h | ⟨-, hkeep, htext', hblank⟩ | ⟨-, h⟩ | h)
    · exact absurd h hne
    · cases htext.symm.trans htext'
      exact absurd (by rw [hkeep, hblank]; rfl) hkept
    · exact ⟨_, h⟩
    · exact ⟨_, h⟩
  · rintro ⟨e, h⟩
    exact .faulty hallowed h

theorem addText_first (t : String) : addText keepBlanks t {} =
    if !keepBlanks && isBlankText t then {} else { content := [textNode t] } := rfl

theorem resultOf_fault (keepBlanks : Bool) : resultOf keepBlanks ([], true) {} = .error .markup :=
  rfl

section

variable (hne : blanks ≠ []) (hblank : ∀ c ∈ blanks, Text.isBlank c = true)
  (hallowed : ∀ c ∈ blanks, allowed c = true)

include hne hblank hallowed

/-- Blanks before a tag are a text of their own. -/
theorem resultOf_added_iff (htext : textOf rest = []) :
    resultOf keepBlanks (tokenizer.read rest) {} = resultOf keepBlanks
        (.text (String.ofList blanks) :: (tokenizer.read rest).1, (tokenizer.read rest).2) {} ↔
      Unnoticed tokenizer allowed keepBlanks blanks rest := by
  have hnone : resolved (String.ofList []) = .ok "" := by decide +kernel
  have hfirst : resolved (String.ofList (textOf rest)) = .ok "" := by rw [htext, hnone]
  have hresolved := resolved_blanks_append hblank []
  have hempty := isBlankText_blanks_append hblank ""
  rw [hnone, List.append_nil] at hresolved
  rw [String.append_empty] at hempty
  rw [resultOf_text, hresolved]
  dsimp only [Except.map]
  rw [String.append_empty, addText_first, hempty]
  split
  · rename_i hdropped
    exact iff_of_true rfl (unnoticed_of_dropped hallowed hfirst hdropped)
  · rename_i hkept
    rw [unnoticed_iff_of_kept hne hallowed hfirst hkept]
    exact resultOf_eq_iff (s := {}) (.apart []) (by simpa using hne) _

/-- Blanks before a text come into it. -/
theorem resultOf_longer_iff {read : List Token × Bool}
    (h : tokenizer.read rest = (.text (String.ofList (textOf rest)) :: read.1, read.2)) :
    resultOf keepBlanks (tokenizer.read rest) {} = resultOf keepBlanks
        (.text (String.ofList (blanks ++ textOf rest)) :: read.1, read.2) {} ↔
      Unnoticed tokenizer allowed keepBlanks blanks rest := by
  have hresult : resultOf keepBlanks (tokenizer.read rest) {} = _ :=
    (congrArg (resultOf keepBlanks · {}) h).trans (resultOf_text keepBlanks _ read)
  rw [resultOf_text, resolved_blanks_append hblank]
  cases hfirst : resolved (String.ofList (textOf rest)) with
  | error e =>
    rw [hfirst] at hresult
    obtain ⟨e', he'⟩ := exists_resultOf_error_iff.mp ⟨_, hresult⟩
    exact iff_of_true hresult (.faulty hallowed he')
  | ok u =>
    rw [hfirst] at hresult
    dsimp only [Except.map] at hresult ⊢
    rw [addText_first] at hresult
    rw [hresult, addText_first, isBlankText_blanks_append hblank]
    split
    · rename_i hdropped
      exact iff_of_true rfl (unnoticed_of_dropped hallowed hfirst hdropped)
    · rename_i hkept
      rw [if_neg hkept] at hresult
      rw [unnoticed_iff_of_kept hne hallowed hfirst hkept, hresult]
      exact resultOf_eq_iff (s := { content := [textNode u] }) (.joined [] u) (by simpa using hne)
        read

end

section

variable (htokenizer : tokenizer.ReadsText allowed) (hne : blanks ≠ [])
  (hblank : ∀ c ∈ blanks, Text.isBlank c = true)

include hne hblank

theorem textOf_blanks_append_ne_nil (rest : List Char) : textOf (blanks ++ rest) ≠ [] := by
  rw [textOf_blanks_append hblank]
  exact List.append_ne_nil_of_left_ne_nil hne _

include htokenizer

/-- A blank that may not be text is a fault. -/
theorem read_of_not_allowed (h : ¬∀ c ∈ blanks, allowed c = true) (rest : List Char) :
    tokenizer.read (blanks ++ rest) = ([], true) := by
  refine htokenizer.fault _ (textOf_blanks_append_ne_nil hne hblank rest) fun hdata => ?_
  rw [textOf_blanks_append hblank] at hdata
  exact h fun c hc => hdata.allowed c (List.mem_append_left _ hc)

/-- Blanks that may be text make no difference exactly if they go unnoticed. -/
theorem resultOf_blanks_iff (hallowed : ∀ c ∈ blanks, allowed c = true) :
    resultOf keepBlanks (tokenizer.read rest) {} =
        resultOf keepBlanks (tokenizer.read (blanks ++ rest)) {} ↔
      Unnoticed tokenizer allowed keepBlanks blanks rest := by
  have hne' := textOf_blanks_append_ne_nil hne hblank rest
  have hread := htokenizer.text (blanks ++ rest) hne'
  rw [textOf_blanks_append hblank, afterText_blanks_append hblank,
    isCharacterData_blanks_append hblank hallowed] at hread
  by_cases htext : textOf rest = []
  · have hrest : afterText rest = rest := by
      have hsplit := Markup.textOf_append_afterText rest
      rwa [htext] at hsplit
    rw [htext, List.append_nil, hrest] at hread
    rw [hread (isCharacterData_nil allowed)]
    exact resultOf_added_iff hne hblank hallowed htext
  · by_cases hdata : IsCharacterData allowed (textOf rest)
    · rw [hread hdata]
      exact resultOf_longer_iff hne hblank hallowed (htokenizer.text rest htext hdata)
    · have hmarkup : resultOf keepBlanks (tokenizer.read rest) {} = .error .markup := by
        rw [htokenizer.fault rest htext hdata, resultOf_fault]
      have hdata' : ¬IsCharacterData allowed (textOf (blanks ++ rest)) := by
        rwa [textOf_blanks_append hblank, isCharacterData_blanks_append hblank hallowed]
      obtain ⟨fault, hfault⟩ := resultOf_eq_markup_iff.mp hmarkup
      rw [htokenizer.fault _ hne' hdata', resultOf_fault]
      exact iff_of_true hmarkup (.markup hfault)

end

theorem withoutDeclaration_of_not (h : ¬"<?xml ".toList <+: Text.skipBlanks cs) :
    withoutDeclaration cs = Text.skipBlanks cs := by
  unfold withoutDeclaration
  split
  · rename_i rest heq
    exact (h ⟨rest, heq.symm⟩).elim
  · rfl

/-- Skipping the blanks that a text without a declaration starts with makes no difference exactly
if they go unnoticed, however the text came about. -/
theorem parseWith_withoutDeclaration_iff (htokenizer : tokenizer.ReadsText allowed)
    (hdeclaration : ¬"<?xml ".toList <+: Text.skipBlanks cs) :
    SameResult (parseWith tokenizer keepBlanks (String.ofList (withoutDeclaration cs)))
        (parseWith tokenizer keepBlanks (String.ofList cs)) ↔
      Unnoticed tokenizer allowed keepBlanks (cs.takeWhile Text.isBlank)
        (Text.skipBlanks cs) := by
  have hsplit : cs.takeWhile Text.isBlank ++ Text.skipBlanks cs = cs :=
    List.takeWhile_append_dropWhile
  have hblank := all_takeWhile Text.isBlank cs
  rw [withoutDeclaration_of_not hdeclaration, SameResult, mapError_parseWith, mapError_parseWith]
  generalize cs.takeWhile Text.isBlank = blanks at hsplit hblank
  generalize Text.skipBlanks cs = rest at hsplit
  subst hsplit
  by_cases hne : blanks = []
  · subst hne
    exact iff_of_true rfl (.absent rfl)
  · by_cases hallowed : ∀ c ∈ blanks, allowed c = true
    · exact resultOf_blanks_iff htokenizer hne hblank hallowed
    · rw [read_of_not_allowed htokenizer hne hblank hallowed, resultOf_fault,
        resultOf_eq_markup_iff]
      constructor
      · rintro ⟨fault, h⟩
        exact .markup h
      · rintro (h | ⟨h, -, -, -⟩ | ⟨h, -⟩ | h)
        · exact absurd h hne
        · exact absurd h hallowed
        · exact absurd h hallowed
        · exact ⟨_, h⟩

section

variable {ε : Type} (decoder : Markup.Decoder ε) {bytes : List UInt8}

theorem parseBytesWith_of_decode (h : decoder.decode (decoder.detect bytes) bytes = some cs) :
    parseBytesWith decoder tokenizer keepBlanks bytes =
      parseWith tokenizer keepBlanks (String.ofList (withoutDeclaration cs)) := by
  rw [parseBytesWith, h]

/-- Whichever way bytes are decoded and text is cut into tokens, reading a text without a
declaration from bytes gives what reading the text gives exactly if the blanks at its start go
unnoticed. -/
theorem parseBytesWith_agrees_iff (htokenizer : tokenizer.ReadsText allowed) (keepBlanks : Bool)
    (bytes : List UInt8) (cs : List Char)
    (hdecode : decoder.decode (decoder.detect bytes) bytes = some cs)
    (hdeclaration : ¬"<?xml ".toList <+: Text.skipBlanks cs) :
    SameResult (parseBytesWith decoder tokenizer keepBlanks bytes)
        (parseWith tokenizer keepBlanks (String.ofList cs)) ↔
      Unnoticed tokenizer allowed keepBlanks (cs.takeWhile Text.isBlank)
        (Text.skipBlanks cs) := by
  rw [parseBytesWith_of_decode decoder hdecode]
  exact parseWith_withoutDeclaration_iff htokenizer hdeclaration

end

/-! ## A text -/

/-- Text of ASCII after the byte order mark of UTF-8. -/
def markedAscii : Markup.Decoder Unit where
  detect _ := ()
  decode
    | _, 0xEF :: 0xBB :: 0xBF :: text =>
      if text.all (· < 0x80) then some (text.map fun b => Char.ofNat b.toNat) else none
    | _, _ => none
  name _ := "UTF-8"

/-- The bytes of an element with a space before it, after a byte order mark. -/
def spacedElement : List UInt8 := [0xEF, 0xBB, 0xBF, 0x20, 0x3C, 0x62, 0x2F, 0x3E]

theorem decode_spacedElement :
    markedAscii.decode (markedAscii.detect spacedElement) spacedElement =
      some " <b/>".toList := by
  decide

/-- The space makes no difference where text of blanks is dropped. -/
theorem parseBytesWith_agrees_iff_spacedElement :
    SameResult (parseBytesWith markedAscii Markup.tokenize false spacedElement)
      (parseWith Markup.tokenize false " <b/>") := by
  have hdeclaration : ¬"<?xml ".toList <+: Text.skipBlanks " <b/>".toList := by decide
  have hagrees := parseBytesWith_agrees_iff markedAscii Markup.readsText_tokenize false
    spacedElement " <b/>".toList decode_spacedElement hdeclaration
  have hallowed : (" <b/>".toList.takeWhile Text.isBlank).all Markup.isXmlChar = true := by decide
  rw [String.ofList_toList] at hagrees
  exact hagrees.mpr (.dropped (t := "") (List.all_eq_true.mp hallowed) rfl (by decide +kernel)
    (by decide))

/-- It does where such text is to be kept: from the bytes there is no text before the
element. -/
theorem space_lost_from_bytes :
    markedAscii.decode (markedAscii.detect spacedElement) spacedElement =
        some " <b/>".toList ∧
      ¬"<?xml ".toList <+: Text.skipBlanks " <b/>".toList ∧
      ∃ template template',
        parseBytesWith markedAscii Markup.tokenize true spacedElement = .ok template ∧
        parseWith Markup.tokenize true " <b/>" = .ok template' ∧
        template.children.length = 1 ∧ template'.children.length = 2 := by
  have hbytes : (parseBytesWith markedAscii Markup.tokenize true spacedElement).toOption.any
      (fun template => template.children.length == 1) = true := by decide +kernel
  have htext : (parseWith Markup.tokenize true " <b/>").toOption.any
      (fun template => template.children.length == 2) = true := by decide +kernel
  obtain ⟨template, hparse, hlength⟩ := exists_ok_of_any hbytes
  obtain ⟨template', hparse', hlength'⟩ := exists_ok_of_any htext
  exact ⟨decode_spacedElement, by decide, template, template', hparse, hparse', eq_of_beq hlength,
    eq_of_beq hlength'⟩

end Template
end TagGrammar
