/-
The prefix of a namespace.

A template does not change for the checks if a prefix is replaced by a new one in a
declaration and in all names that stand for it, as long as no check looks for an attribute
by one of the two names and not by the other (`accepts_respelled`).  The two templates are
built side by side: at every token the open elements have the same declarations but for the
prefix, and the same content but for names that no check looks for.  Of the tokens nothing is
known but that tags alternate with content.
-/
import TagGrammar.Proofs.Markup.Tokenized
import TagGrammar.Proofs.Safety.MadeNames
import TagGrammar.Proofs.Safety.RenamedTags
import TagGrammar.Proofs.Template.Parsed

namespace TagGrammar

open Markup (QName Token Reach)

namespace Builder

variable {p q uri : String} {here : Bool}

/-! ## The open elements -/

/-- The open elements are read with another prefix, innermost first. -/
inductive FramesMatch (p q uri : String) : List Chosen → List Frame → List Frame → Prop
  | nil : FramesMatch p q uri [] [] []
  | cons {e : Chosen} {es : List Chosen} {f f' : Frame} {fs fs' : List Frame}
      (hframe : FrameMatch p q uri (reaches p (e ++ es.flatten)) e f f')
      (hframes : FramesMatch p q uri es fs fs') :
      FramesMatch p q uri (e :: es) (f :: fs) (f' :: fs')

/-- What the prefix stands for in each of the open elements. -/
def reachesIn (p : String) : List Chosen → List Bool
  | [] => []
  | e :: es => reaches p (e ++ es.flatten) :: reachesIn p es

variable {es : List Chosen} {fs fs' : List Frame}

theorem FramesMatch.fits (h : FramesMatch p q uri es fs fs') : Fits p q uri es.flatten := by
  induction h with
  | nil => exact ⟨by simp, by simp⟩
  | cons hframe hframes ih => exact hframe.fits.append ih

theorem FramesMatch.scopeOf_eq (h : FramesMatch p q uri es fs fs') :
    scopeOf fs = original es.flatten ∧ scopeOf fs' = replaced q es.flatten := by
  induction h with
  | nil => exact ⟨rfl, rfl⟩
  | cons hframe hframes ih =>
    obtain ⟨ih, ih'⟩ := ih
    rw [scopeOf] at ih ih' ⊢
    rw [scopeOf, List.flatMap_cons, List.flatMap_cons, ih, ih', List.flatten_cons, original_append,
      replaced_append, hframe.original, hframe.replaced]
    exact ⟨rfl, rfl⟩

/-- What is left of a start tag settles what the prefix stands for in it. -/
inductive PendingMatch (p q uri : String) (outer : Chosen) (rest : List (Token × Bool)) :
    Bool → Option Bool → Option StartTag → Option StartTag → Prop
  | between : PendingMatch p q uri outer rest false none none none
  | inside {e : Chosen} {here : Bool} {tag tag' : StartTag}
      (hhere : here = (Markup.aheadFor p rest).getD (reaches p (e ++ outer)))
      (htag : TagMatch p q uri here e tag tag') :
      PendingMatch p q uri outer rest true (some here) (some tag) (some tag')

/-- Two builders at one place, what has been built being the same for the checks. -/
structure StateMatch (p q uri : String) (inside : Bool) (r : Reach) (rest : List (Token × Bool))
    (es : List Chosen) (s s' : State) : Prop where
  frames : FramesMatch p q uri es s.frames s'.frames
  reach : r.inside = reachesIn p es
  content : s'.content.map Node.bare = s.content.map Node.bare
  pending : PendingMatch p q uri es.flatten rest inside r.tag s.pending s'.pending

theorem FrameMatch.node_bare {e : Chosen} {f f' : Frame} (h : FrameMatch p q uri here e f f') :
    f'.node.bare = f.node.bare := by
  rw [Frame.node, Frame.node, Node.bare, Node.mapValues_mk, Node.bare, Node.mapValues_mk,
    List.map_reverse, List.map_reverse, h.children, h.value, h.unescaped]

theorem bare_mk (v : Value) (u : Bool) (cs : List Node) :
    Node.bare ⟨v, u, cs⟩ = ⟨v.bare, u, cs.map Node.bare⟩ := Node.mapValues_mk Value.bare v u cs

theorem withText_bare (text : String) (nodes : List Node) :
    (withText text nodes).map Node.bare = withText text (nodes.map Node.bare) := by
  have hnew : ∀ l : List Node, ({ value := .plainText text } :: l).map Node.bare =
      { value := .plainText text } :: l.map Node.bare := by
    intro l
    rw [List.map_cons, bare_mk]
    rfl
  cases nodes with
  | nil => exact hnew []
  | cons n rest =>
    obtain ⟨v, u, cs⟩ := n
    rw [List.map_cons, bare_mk]
    cases v with
    | text t raw verbatim =>
      cases verbatim with
      | false =>
        show Node.bare ⟨_, u, cs⟩ :: _ = _
        rw [bare_mk]
        rfl
      | true =>
        refine (hnew _).trans ?_
        rw [List.map_cons, bare_mk]
        rfl
    | _ =>
      refine (hnew _).trans ?_
      rw [List.map_cons, bare_mk]
      rfl

theorem eq_text_of_bare {v : Value} {t : String} {raw verbatim : Bool}
    (h : v.bare = .text t raw verbatim) : v = .text t raw verbatim := by
  cases v <;> simp_all [Value.bare]

theorem addText_of_not_text (keepBlanks : Bool) (text : String) {f : Frame} {fs : List Frame}
    {content : List Node} {pending : Option StartTag}
    (h : ¬∃ t raw verbatim, f.value = .text t raw verbatim) :
    addText keepBlanks text ⟨f :: fs, content, pending⟩ =
      if !keepBlanks && isBlankText text then ⟨f :: fs, content, pending⟩
      else ⟨{ f with children := withText text f.children } :: fs, content, pending⟩ := by
  unfold addText
  dsimp only
  split
  · rename_i t raw verbatim hvalue
    exact absurd ⟨t, raw, verbatim, hvalue⟩ h
  · rfl

/-! ## Steps -/

section Steps

variable {inside : Bool} {r : Reach} {rest : List (Token × Bool)} {s s' t : State}

theorem StateMatch.addNode (h : StateMatch p q uri inside r rest es s s') {n n' : Node}
    (hn : n'.bare = n.bare) : StateMatch p q uri inside r rest es (addNode n s) (addNode n' s') := by
  obtain ⟨hframes, hreach, hcontent, hpending⟩ := h
  obtain ⟨fs, content, pending⟩ := s
  obtain ⟨fs', content', pending'⟩ := s'
  cases hframes with
  | nil =>
    refine ⟨.nil, hreach, ?_, hpending⟩
    show (n' :: content').map Node.bare = (n :: content).map Node.bare
    rw [List.map_cons, List.map_cons, hn]
    exact congrArg _ hcontent
  | cons hframe hframes =>
    refine ⟨.cons { hframe with children := ?_ } hframes, hreach, hcontent, hpending⟩
    show (n' :: _).map Node.bare = (n :: _).map Node.bare
    rw [List.map_cons, List.map_cons, hn, hframe.children]

theorem StateMatch.addText (h : StateMatch p q uri inside r rest es s s') (keepBlanks : Bool)
    (text : String) :
    StateMatch p q uri inside r rest es (addText keepBlanks text s) (addText keepBlanks text s') := by
  have hkeep := h
  obtain ⟨hframes, hreach, hcontent, hpending⟩ := h
  obtain ⟨fs, content, pending⟩ := s
  obtain ⟨fs', content', pending'⟩ := s'
  cases hframes with
  | nil =>
    unfold Builder.addText
    dsimp only
    split
    · exact hkeep
    · refine ⟨.nil, hreach, ?_, hpending⟩
      show (withText text content').map Node.bare = (withText text content).map Node.bare
      rw [withText_bare, withText_bare, hcontent]
  | @cons e es f f' fs fs' hframe hframes =>
    by_cases htext : ∃ t raw verbatim, f.value = .text t raw verbatim
    · obtain ⟨t, raw, verbatim, hvalue⟩ := htext
      have hvalue' : f'.value = .text t raw verbatim :=
        eq_text_of_bare (by rw [hframe.value, hvalue]; rfl)
      unfold Builder.addText
      dsimp only
      rw [hvalue, hvalue']
      dsimp only
      exact ⟨.cons { hframe with value := rfl } hframes, hreach, hcontent, hpending⟩
    · have hframe' : FrameMatch p q uri (reaches p (e ++ es.flatten)) e
          { f with children := withText text f.children }
          { f' with children := withText text f'.children } := by
        refine { hframe with children := ?_ }
        show (withText text f'.children).map Node.bare = (withText text f.children).map Node.bare
        rw [withText_bare, withText_bare, hframe.children]
      have htext' : ¬∃ t raw verbatim, f'.value = .text t raw verbatim := by
        rintro ⟨t, raw, verbatim, hvalue'⟩
        refine htext ⟨t, raw, verbatim, eq_text_of_bare ?_⟩
        rw [← hframe.value, hvalue']
        rfl
      rw [addText_of_not_text keepBlanks text htext, addText_of_not_text keepBlanks text htext']
      split
      · exact hkeep
      · exact ⟨.cons hframe' hframes, hreach, hcontent, hpending⟩

theorem PendingMatch.eq_none {outer : Chosen} {reach : Option Bool} {a b : Option StartTag}
    (h : PendingMatch p q uri outer rest false reach a b) : reach = none ∧ a = none ∧ b = none := by
  cases h
  exact ⟨rfl, rfl, rfl⟩

theorem PendingMatch.exists_some {outer : Chosen} {reach : Option Bool} {a b : Option StartTag}
    (h : PendingMatch p q uri outer rest true reach a b) :
    ∃ e here tag tag', reach = some here ∧ a = some tag ∧ b = some tag' ∧
      here = (Markup.aheadFor p rest).getD (reaches p (e ++ outer)) ∧
      TagMatch p q uri here e tag tag' := by
  cases h with
  | inside hhere htag => exact ⟨_, _, _, _, rfl, rfl, rfl, hhere, htag⟩

/-- Between tags it does not matter what comes. -/
theorem StateMatch.move (h : StateMatch p q uri false r rest es s s')
    (rest' : List (Token × Bool)) : StateMatch p q uri false r rest' es s s' := by
  obtain ⟨hreach, hnone, hnone'⟩ := h.pending.eq_none
  refine ⟨h.frames, h.reach, h.content, ?_⟩
  rw [hreach, hnone, hnone']
  exact .between

theorem StateMatch.current_eq (h : StateMatch p q uri inside r rest es s s') :
    r.current = reaches p es.flatten := by
  rw [Reach.current, h.reach]
  cases es <;> rfl

theorem renamedToken_of_name (hpq : Prefixes p q) {token : Token} {name : QName}
    (hname : token.name? = some name) :
    Markup.renamedToken p q false here token = token.withName (renamedName p q here name) := by
  have hlead : token.hasLead p = (name.lead == p) := by rw [Token.hasLead, hname]; rfl
  rw [Markup.renamedToken, Bool.false_or, hlead, renamedName]
  split
  · rename_i hrenamed
    obtain ⟨-, hp⟩ := (Bool.and_eq_true _ _).mp hrenamed
    have hxmlns : (name.lead == "xmlns") = false := by
      rw [beq_eq_false_iff_ne, beq_iff_eq.mp hp]
      exact hpq.old_ne_xmlns
    rw [Token.replacePrefix, hname]
    dsimp only
    rw [hxmlns, if_neg Bool.false_ne_true]
  · exact (Token.withName_of_name? hname).symm

theorem step_elementStart {name : QName} {chosen : Bool}
    (h : StateMatch p q uri false r ((.elementStart name, chosen) :: rest) es s s')
    (hfresh : name.lead ≠ q) :
    StateMatch p q uri true (r.after p rest (.elementStart name)) rest es
      { s with pending := some ⟨name, [], []⟩ }
      { s' with pending := some ⟨renamedName p q (r.at p rest (.elementStart name)) name, [], []⟩ } := by
  refine ⟨h.frames, h.reach, h.content, .inside (e := []) ?_ ?_⟩
  · rw [h.current_eq]
    rfl
  · rw [Reach.at]
    exact {
      name := rfl
      fresh := hfresh
      attributes := rfl
      attributesFresh := fun a ha => absurd ha List.not_mem_nil
      keeps := fun a ha => absurd ha List.not_mem_nil
      original := rfl
      replaced := rfl
      fits := ⟨fun d hd => absurd hd List.not_mem_nil, fun d hd => absurd hd List.not_mem_nil⟩ }

theorem step_attr (hpq : Prefixes p q) {name : QName} {value v : String}
    (h : StateMatch p q uri true r ((.attr name value, false) :: rest) es s s')
    (hdeclares : name.lead = "xmlns" → name.name ≠ q) (hfresh : name.lead ≠ q)
    (hkeeps : Keeps p q uri (r.at p rest (.attr name value)) name) :
    StateMatch p q uri true (r.after p rest (.attr name value)) rest es
      { s with pending := s.pending.map fun tag => tag.withAttr name v }
      { s' with pending := s'.pending.map fun tag =>
        tag.withAttr (renamedName p q (r.at p rest (.attr name value)) name) v } := by
  obtain ⟨e, here, tag, tag', hreach, hsome, hsome', hhere, htag⟩ := h.pending.exists_some
  have hat : r.at p rest (.attr name value) = here := by
    rw [Reach.at, hreach, Option.getD_some]
    · simp
    · simp
  rw [hat] at hkeeps ⊢
  obtain ⟨e', htag', hreaches⟩ := htag.withAttr hpq v hdeclares hfresh hkeeps
  refine ⟨h.frames, h.reach, h.content, ?_⟩
  show PendingMatch p q uri es.flatten rest true r.tag _ _
  rw [hreach, hsome, hsome']
  refine .inside ?_ htag'
  have hdeclares' : (Token.attr name v).declares p = (Token.attr name value).declares p := rfl
  rw [hhere, hreaches, Markup.aheadFor, hdeclares']
  cases Markup.aheadFor p rest with
  | some b => rfl
  | none => cases (Token.attr name value).declares p <;> rfl

theorem step_chosen (hne : p ≠ q) {value : String}
    (h : StateMatch p q uri true r ((.attr ⟨"xmlns", p⟩ value, true) :: rest) es s s') :
    StateMatch p q uri true (r.after p rest (.attr ⟨"xmlns", p⟩ value)) rest es
      { s with pending := s.pending.map fun tag => tag.withAttr ⟨"xmlns", p⟩ uri }
      { s' with pending := s'.pending.map fun tag => tag.withAttr ⟨"xmlns", q⟩ uri } := by
  obtain ⟨e, here, tag, tag', hreach, hsome, hsome', hhere, htag⟩ := h.pending.exists_some
  refine ⟨h.frames, h.reach, h.content, ?_⟩
  show PendingMatch p q uri es.flatten rest true r.tag _ _
  rw [hreach, hsome, hsome']
  refine .inside ?_ (htag.withChosen hne)
  have hdeclares : (Token.attr ⟨"xmlns", p⟩ value).declares p = true := by
    simp [Token.declares]
  rw [hhere, Markup.aheadFor, hdeclares, if_pos rfl, List.cons_append, reaches_cons,
    beq_self_eq_true, if_pos rfl]
  cases Markup.aheadFor p rest <;> rfl

/-- The end of a start tag, which opens an element or is all of one. -/
theorem step_endStartTag (hpq : Prefixes p q) (isEmpty : Bool) {chosen : Bool}
    (h : StateMatch p q uri true r ((if isEmpty then .emptyEnd else .openEnd, chosen) :: rest) es
      s s') (hstep : endStartTag isEmpty s = .ok t) :
    ∃ es' t', endStartTag isEmpty s' = .ok t' ∧
      StateMatch p q uri false (r.after p rest (if isEmpty then .emptyEnd else .openEnd)) rest es'
        t t' := by
  obtain ⟨e, here, tag, tag', hreach, hsome, hsome', hhere, htag⟩ := h.pending.exists_some
  have hahead : Markup.aheadFor p ((if isEmpty then Token.emptyEnd else .openEnd, chosen) :: rest) =
      none := by
    cases isEmpty <;> rfl
  rw [hahead, Option.getD_none] at hhere
  rw [hhere] at htag
  obtain ⟨hscope, hscope'⟩ := h.frames.scopeOf_eq
  unfold endStartTag at hstep ⊢
  rw [hsome] at hstep
  rw [hsome']
  dsimp only at hstep ⊢
  rw [hscope] at hstep
  rw [hscope']
  obtain ⟨f, hf, hstep⟩ := bind_eq_ok_iff.mp hstep
  obtain ⟨f', hf', hframe⟩ := frameOf_renamed hpq htag h.frames.fits hf
  obtain rfl := Except.ok.inj hstep
  rw [hf']
  cases isEmpty with
  | true =>
    have hclosed : StateMatch p q uri false (r.after p rest .emptyEnd) rest es
        { s with pending := none } { s' with pending := none } :=
      ⟨h.frames, h.reach, h.content, .between⟩
    exact ⟨es, _, rfl, hclosed.addNode hframe.node_bare⟩
  | false =>
    have hafter : r.after p rest .openEnd = ⟨here :: r.inside, none⟩ := by
      rw [Reach.after, hreach]
    show ∃ es' t', _ ∧ StateMatch p q uri false (r.after p rest .openEnd) rest es' _ t'
    rw [hafter]
    refine ⟨e :: es, _, rfl, .cons hframe h.frames, ?_, h.content, .between⟩
    rw [hhere, h.reach]
    rfl

theorem step_close {name : QName} {chosen : Bool}
    (h : StateMatch p q uri false r ((.close name, chosen) :: rest) es s s')
    (hstep : closeElement name s = .ok t) :
    ∃ es' t', closeElement (renamedName p q (r.at p rest (.close name)) name) s' = .ok t' ∧
      StateMatch p q uri false (r.after p rest (.close name)) rest es' t t' := by
  obtain ⟨hreach, hpending, hpending'⟩ := h.pending.eq_none
  obtain ⟨hframes, hinside, hcontent, -⟩ := h
  obtain ⟨fs, content, pending⟩ := s
  obtain ⟨fs', content', pending'⟩ := s'
  cases hframes with
  | nil => cases hstep
  | @cons e es f f' fs fs' hframe hframes =>
    unfold closeElement at hstep ⊢
    dsimp only at hstep hpending hpending' ⊢
    split at hstep
    · rename_i hname
      obtain rfl := Except.ok.inj hstep
      have hhere : r.at p rest (.close name) = reaches p (e ++ es.flatten) := by
        rw [Reach.at, Reach.current, hinside]
        rfl
      have hname' : f'.name = renamedName p q (r.at p rest (.close name)) name := by
        rw [hframe.name, hname, hhere]
      rw [if_pos hname']
      have hclosed : StateMatch p q uri false (r.after p rest (.close name)) rest es
          ⟨fs, content, pending⟩ ⟨fs', content', pending'⟩ := by
        refine ⟨hframes, ?_, hcontent, ?_⟩
        · rw [Reach.after]
          dsimp only
          rw [hinside]
          rfl
        · show PendingMatch p q uri es.flatten rest false r.tag pending pending'
          rw [hreach, hpending, hpending']
          exact .between
      exact ⟨es, _, rfl, hclosed.addNode hframe.node_bare⟩
    · cases hstep

theorem renamedToken_of_no_name {token : Token} (hname : token.name? = none) :
    Markup.renamedToken p q false here token = token := by
  have hlead : token.hasLead p = false := by rw [Token.hasLead, hname]; rfl
  rw [Markup.renamedToken, hlead, Bool.and_false, Bool.or_false, if_neg Bool.false_ne_true]

/-- One token is taken in by both builders. -/
theorem step_renamed (hpq : Prefixes p q) (hne : p ≠ q) (keepBlanks : Bool) {token : Token}
    {chosen : Bool} (h : StateMatch p q uri inside r ((token, chosen) :: rest) es s s')
    (htag : token.inTag = inside) (hnew : token.mentions q = false)
    (hchosen : chosen = true → ∃ value, token = .attr ⟨"xmlns", p⟩ value ∧
      ∀ v, resolved value = .ok v → v = uri)
    (hrole : uri = xslNamespace ∨
      token.SameRole (Markup.renamedToken p q chosen (r.at p rest token) token))
    (hstep : step keepBlanks s token = .ok t) :
    ∃ es' t', step keepBlanks s' (Markup.renamedToken p q chosen (r.at p rest token) token) =
        .ok t' ∧
      StateMatch p q uri (token.insideAfter inside) (r.after p rest token) rest es'
        t t' := by
  obtain ⟨hdeclares, hlead⟩ : token.declares q = false ∧ token.hasLead q = false := by
    simpa [Token.mentions] using hnew
  subst htag
  cases chosen with
  | true =>
    obtain ⟨value, rfl, huri⟩ := hchosen rfl
    obtain ⟨v, hvalue, rfl⟩ := map_eq_ok_iff.mp hstep
    obtain rfl := huri v hvalue
    exact ⟨es, _, map_eq_ok_iff.mpr ⟨v, hvalue, rfl⟩, step_chosen hne h⟩
  | false =>
    clear hchosen
    cases token with
    | elementStart name =>
      have hfresh : name.lead ≠ q := by simpa [Token.hasLead, Token.name?] using hlead
      obtain rfl := Except.ok.inj hstep
      rw [renamedToken_of_name hpq rfl]
      exact ⟨es, _, rfl, step_elementStart h hfresh⟩
    | attr name value =>
      have hfresh : name.lead ≠ q := by simpa [Token.hasLead, Token.name?] using hlead
      have hdeclares' : name.lead = "xmlns" → name.name ≠ q := by
        simpa [Token.declares] using hdeclares
      rw [renamedToken_of_name hpq rfl] at hrole ⊢
      obtain ⟨v, hvalue, rfl⟩ := map_eq_ok_iff.mp hstep
      exact ⟨es, _, map_eq_ok_iff.mpr ⟨v, hvalue, rfl⟩, step_attr hpq h hdeclares' hfresh hrole⟩
    | openEnd =>
      rw [renamedToken_of_no_name rfl]
      exact step_endStartTag hpq false h hstep
    | emptyEnd =>
      rw [renamedToken_of_no_name rfl]
      exact step_endStartTag hpq true h hstep
    | close name =>
      rw [renamedToken_of_name hpq rfl]
      exact step_close h hstep
    | text text =>
      rw [renamedToken_of_no_name rfl]
      obtain ⟨v, htext, rfl⟩ := map_eq_ok_iff.mp hstep
      exact ⟨es, _, map_eq_ok_iff.mpr ⟨v, htext, rfl⟩, (h.move rest).addText keepBlanks v⟩
    | cdata text =>
      rw [renamedToken_of_no_name rfl]
      obtain rfl := Except.ok.inj hstep
      exact ⟨es, _, rfl, (h.move rest).addText keepBlanks text⟩
    | comment text =>
      rw [renamedToken_of_no_name rfl]
      obtain rfl := Except.ok.inj hstep
      exact ⟨es, _, rfl, (h.move rest).addNode rfl⟩
    | processingInstruction target data =>
      rw [renamedToken_of_no_name rfl]
      obtain rfl := Except.ok.inj hstep
      exact ⟨es, _, rfl, (h.move rest).addNode rfl⟩

theorem steps_renamed (hpq : Prefixes p q) (hne : p ≠ q) (keepBlanks : Bool)
    {tokens : List (Token × Bool)} (h : StateMatch p q uri inside r tokens es s s')
    (htags : Markup.Alternates inside (tokens.map Prod.fst))
    (hnew : ∀ token ∈ tokens, token.1.mentions q = false)
    (hchosen : ∀ token ∈ tokens, token.2 = true → ∃ value, token.1 = .attr ⟨"xmlns", p⟩ value ∧
      ∀ v, resolved value = .ok v → v = uri)
    (hroles : uri = xslNamespace ∨
      List.Forall₂ Token.SameRole (tokens.map Prod.fst) (Markup.renamedFrom p q r tokens))
    (hsteps : steps keepBlanks (tokens.map Prod.fst) s = .ok t) :
    ∃ es' inside' r' t', steps keepBlanks (Markup.renamedFrom p q r tokens) s' = .ok t' ∧
      StateMatch p q uri inside' r' [] es' t t' := by
  induction tokens generalizing inside r es s s' with
  | nil =>
    obtain rfl : s = t := Except.ok.inj hsteps
    exact ⟨es, inside, r, s', rfl, h⟩
  | cons token rest ih =>
    obtain ⟨token, chosen⟩ := token
    obtain ⟨htag, htags⟩ := htags
    obtain ⟨hnew, hnews⟩ := List.forall_mem_cons.mp hnew
    obtain ⟨hchosen, hchosens⟩ := List.forall_mem_cons.mp hchosen
    rw [Markup.renamedFrom, List.map_cons, List.forall₂_cons] at hroles
    obtain ⟨s₁, hstep, hsteps⟩ := bind_eq_ok_iff.mp hsteps
    obtain ⟨es₁, s₁', hstep', hmatch⟩ := step_renamed hpq hne keepBlanks h htag hnew hchosen
      (hroles.imp_right And.left) hstep
    obtain ⟨es', inside', r', t', hsteps', hend⟩ :=
      ih hmatch htags hnews hchosens (hroles.imp_right And.right) hsteps
    exact ⟨es', inside', r', t', bind_eq_ok_iff.mpr ⟨s₁', hstep', hsteps'⟩, hend⟩

end Steps

theorem finish_renamed {inside : Bool} {r : Reach} {s s' : State} {es : List Chosen}
    (h : StateMatch p q uri inside r [] es s s') {template : Node} (hfinish : finish s = .ok template) :
    ∃ template', finish s' = .ok template' ∧ template'.bare = template.bare := by
  obtain ⟨hframes, -, hcontent, -⟩ := h
  obtain ⟨fs, content, pending⟩ := s
  obtain ⟨fs', content', pending'⟩ := s'
  cases hframes with
  | nil =>
    obtain rfl := Except.ok.inj hfinish
    refine ⟨_, rfl, ?_⟩
    rw [bare_mk, bare_mk, List.map_reverse, List.map_reverse]
    exact congrArg _ (congrArg List.reverse hcontent)
  | cons hframe hframes => cases hfinish

/-- With another prefix for a declaration some tokens build the same, but for names that no check
looks for. -/
theorem build_renamePrefix (uri : String) (hpq : Prefixes p q) (hne : p ≠ q) {keepBlanks : Bool}
    {tokens : List Token} {i : Nat} {value : String} (htags : Markup.Alternates false tokens)
    (hnew : ∀ token ∈ tokens, token.mentions q = false)
    (hdeclared : tokens[i]? = some (.attr ⟨"xmlns", p⟩ value))
    (hvalue : ∀ v, resolved value = .ok v → v = uri)
    (hroles : uri = xslNamespace ∨
      List.Forall₂ Token.SameRole tokens (Markup.renamePrefix p q i tokens))
    {template : Node} (hbuild : build keepBlanks tokens = .ok template) :
    ∃ template', build keepBlanks (Markup.renamePrefix p q i tokens) = .ok template' ∧
      template'.bare = template.bare := by
  obtain ⟨s, hsteps, hfinish⟩ := bind_eq_ok_iff.mp hbuild
  have hstart : StateMatch p q uri false {} (Markup.chosenAt i tokens) [] {} {} :=
    ⟨.nil, rfl, rfl, .between⟩
  have hfst := Markup.map_fst_chosenAt i tokens
  have hchosen : ∀ token ∈ Markup.chosenAt i tokens, token.2 = true →
      ∃ value, token.1 = .attr ⟨"xmlns", p⟩ value ∧ ∀ v, resolved value = .ok v → v = uri := by
    intro token htoken hmark
    obtain ⟨⟨t, j⟩, ht, rfl⟩ := List.mem_map.mp htoken
    have hj : j = i := beq_iff_eq.mp hmark
    have hat := List.mem_zipIdx_iff_getElem?.mp ht
    dsimp only at hat
    rw [hj, hdeclared] at hat
    exact ⟨value, (Option.some.inj hat).symm, hvalue⟩
  have hnew' : ∀ token ∈ Markup.chosenAt i tokens, token.1.mentions q = false := by
    intro token htoken
    refine hnew token.1 ?_
    rw [← hfst]
    exact List.mem_map_of_mem htoken
  rw [← hfst] at htags hsteps
  have hroles' : uri = xslNamespace ∨ List.Forall₂ Token.SameRole
      ((Markup.chosenAt i tokens).map Prod.fst)
      (Markup.renamedFrom p q {} (Markup.chosenAt i tokens)) := by
    rw [hfst]
    exact hroles
  obtain ⟨es', inside', r', s', hsteps', hend⟩ :=
    steps_renamed hpq hne keepBlanks hstart htags hnew' hchosen hroles' hsteps
  obtain ⟨template', hfinish', hbare⟩ := finish_renamed hend hfinish
  exact ⟨template', bind_eq_ok_iff.mpr ⟨s', hsteps', hfinish'⟩, hbare⟩

end Builder

namespace Safety

open Builder (build)
open Markup

/-- A prefix that is declared and one that does not occur. -/
theorem prefixes_of_declared {tokens : List Token} {p q value : String}
    (hdeclared : .attr ⟨"xmlns", p⟩ value ∈ tokens) (hp : p ≠ "") (hp' : p ≠ "xmlns") (hq : q ≠ "")
    (hnew : ∀ token ∈ tokens, token.mentions q = false) : Builder.Prefixes p q ∧ p ≠ q := by
  have hmention := hnew _ hdeclared
  have hold : ((p : String) == q) = false ∧ ("xmlns" == q) = false := by
    simpa [Token.mentions, Token.declares, Token.hasLead, Token.name?] using hmention
  exact ⟨⟨hp, hq, hp', Ne.symm (beq_eq_false_iff_ne.mp hold.2)⟩, beq_eq_false_iff_ne.mp hold.1⟩

/-- A template is accepted under another prefix of a namespace if none of the attributes with
that prefix gains or loses a role.  The tokens are those of any tokenizer, and the other source
is any that it reads as the source with the other prefix. -/
theorem accepts_respelled {tokenizer : Tokenizer} (htokens : tokenizer.Alternates) (g : Grant)
    {keepBlanks : Bool} {source respelled : String} {template : Node} {p q value : String} {i : Nat}
    (hparse : Template.parseWith tokenizer keepBlanks source = .ok template)
    (hdeclared : (tokenizer source).1[i]? = some (.attr ⟨"xmlns", p⟩ value)) (hp : p ≠ "")
    (hp' : p ≠ "xmlns") (hq : q ≠ "")
    (hnew : ∀ token ∈ (tokenizer source).1, token.mentions q = false)
    (hrespelled : tokenizer.Respelled p q i source respelled)
    (hroles : resolveReferences value = .ok xslNamespace ∨
      List.Forall₂ Token.SameRole (tokenizer source).1 (renamePrefix p q i (tokenizer source).1)) :
    ∃ template', Template.parseWith tokenizer keepBlanks respelled = .ok template' ∧
      accepts g template' = accepts g template := by
  obtain ⟨-, hbuild⟩ := Template.parseWith_eq_ok_iff.mp hparse
  obtain ⟨hpq, hne⟩ := prefixes_of_declared (List.mem_of_getElem? hdeclared) hp hp' hq hnew
  have hbuilt (uri : String) (hvalue : ∀ v, Builder.resolved value = .ok v → v = uri)
      (hroles : uri = xslNamespace ∨ List.Forall₂ Token.SameRole (tokenizer source).1
        (renamePrefix p q i (tokenizer source).1)) :=
    Builder.build_renamePrefix uri hpq hne (htokens source) hnew hdeclared hvalue hroles hbuild
  obtain ⟨template', hbuild', hbare⟩ : ∃ template',
      build keepBlanks (renamePrefix p q i (tokenizer source).1) = .ok template' ∧
        template'.bare = template.bare := by
    cases hvalue : resolveReferences value with
    | error cause =>
      rw [hvalue] at hroles
      refine hbuilt "" (fun v hv => ?_) (hroles.imp_left nofun)
      rw [Builder.resolved, hvalue] at hv
      cases hv
    | ok uri =>
      rw [hvalue] at hroles
      refine hbuilt uri (fun v hv => ?_) (hroles.imp_left Except.ok.inj)
      rw [Builder.resolved, hvalue] at hv
      exact (Except.ok.inj hv).symm
  refine ⟨template', Template.parseWith_eq_ok_iff.mpr ?_, ?_⟩
  · rw [hrespelled]
    exact ⟨rfl, hbuild'⟩
  · rw [← accepts_bare, hbare, accepts_bare]

/-- The prefix of the condition has another meaning inside. -/
def shadowedSource : String :=
  "<t:if xmlns:t=\"http://www.w3.org/1999/XSL/Transform\" test=\"@text\">" ++
    "<t:i xmlns:t=\"urn:t\" t:title=\"{@text}\"/></t:if >"

/-- The condition under another prefix. -/
def respelledSource : String :=
  "<u:if xmlns:u=\"http://www.w3.org/1999/XSL/Transform\" test=\"@text\">" ++
    "<t:i xmlns:t=\"urn:t\" t:title=\"{@text}\"/></u:if >"

theorem accepts_respelled_shadowed :
    ∃ template template', Template.parse false shadowedSource = .ok template ∧
      (tokenize shadowedSource).1[1]? = some (.attr ⟨"xmlns", "t"⟩ xslNamespace) ∧
      Tokenizer.Respelled tokenize "t" "u" 1 shadowedSource respelledSource ∧
      Template.parse false respelledSource = .ok template' ∧
      accepts pictureGrant template' = accepts pictureGrant template := by
  obtain ⟨template, hparse, -⟩ := exists_ok_of_any (p := fun _ => true)
    (x := Template.parse false shadowedSource) (by decide +kernel)
  have hdeclared : (tokenize shadowedSource).1[1]? = some (.attr ⟨"xmlns", "t"⟩ xslNamespace) := by
    decide +kernel
  have hnew : ∀ token ∈ (tokenize shadowedSource).1, token.mentions "u" = false := by
    decide +kernel
  have hrespelled : Tokenizer.Respelled tokenize "t" "u" 1 shadowedSource respelledSource := by
    unfold Tokenizer.Respelled
    decide +kernel
  have hnamespace : resolveReferences xslNamespace = .ok xslNamespace := by
    decide +kernel
  obtain ⟨template', hparse', haccepts⟩ := accepts_respelled alternates_tokenize pictureGrant hparse
    hdeclared (by decide) (by decide) (by decide) hnew hrespelled (Or.inl hnamespace)
  exact ⟨template, template', hparse, hdeclared, hrespelled, hparse', haccepts⟩

/-- A link whose address has a prefix that is not the usual one. -/
def linkTokens : List Token :=
  [.elementStart ⟨"", "a"⟩, .attr ⟨"xmlns", "l"⟩ "http://www.w3.org/1999/xlink",
    .attr ⟨"l", "href"⟩ "{@text}", .emptyEnd]

theorem link_prefix_accepted :
    Alternates false linkTokens ∧
      linkTokens[1]? = some (.attr ⟨"xmlns", "l"⟩ "http://www.w3.org/1999/xlink") ∧
      (∀ token ∈ linkTokens, token.mentions "xlink" = false) ∧
      renamePrefix "l" "xlink" 1 linkTokens =
        [.elementStart ⟨"", "a"⟩, .attr ⟨"xmlns", "xlink"⟩ "http://www.w3.org/1999/xlink",
          .attr ⟨"xlink", "href"⟩ "{@text}", .emptyEnd] ∧
      ∃ template template', build false linkTokens = .ok template ∧
        build false (renamePrefix "l" "xlink" 1 linkTokens) = .ok template' ∧
        accepts pictureGrant template = true ∧ accepts pictureGrant template' = false := by
  obtain ⟨template, hbuild, haccepts⟩ := exists_ok_of_any (p := accepts pictureGrant)
    (x := build false linkTokens) (by decide +kernel)
  obtain ⟨template', hbuild', hrefused⟩ := exists_ok_of_any
    (p := fun template => !accepts pictureGrant template)
    (x := build false (renamePrefix "l" "xlink" 1 linkTokens)) (by decide +kernel)
  exact ⟨by decide, by decide, by decide, by decide, template, template', hbuild, hbuild', haccepts,
    by simpa using hrefused⟩

end Safety
end TagGrammar
