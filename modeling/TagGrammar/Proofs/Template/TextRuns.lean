/-
The text of a template and the text of its source.

Text of blanks alone is dropped for every part by itself, before it is joined.  So a run of
text parts that is not in a text instruction becomes one text of the parts that are kept,
which is not always the text of the run: a part of blanks is lost if the run has text
elsewhere (`build_keeps_text`).
-/
import TagGrammar.Proofs.Template.Scopes
import TagGrammar.Proofs.Template.Walk

namespace TagGrammar
namespace Builder
open Markup (QName Token WrittenTag Part OpenElement Opens written)

/-- A run of text among the parts of a document that is as long as it can be. -/
structure IsRun (parts before run after : List Part) : Prop where
  split : parts = before ++ run ++ after
  nonempty : run ≠ []
  text : ∀ part ∈ run, part.isText = true
  leftmost : before.getLast?.any Part.isText = false
  rightmost : after.head?.any Part.isText = false

/-- The innermost open element is a text instruction. -/
def InTextInstruction : List OpenElement → Prop
  | [] => False
  | element :: outer => element.tag.name.name = "text" ∧
    NamespaceIn (tagsOf (element :: outer)) element.tag.name.lead (some xslNamespace)

/-- The text that a run of parts with some texts should become, if any: all of it, unless it is
blank. -/
def wholeText? (keepBlanks : Bool) (pieces : List String) : Option String :=
  if keepBlanks || !isBlankText (String.join pieces) then some (String.join pieces) else none

/-- The text that a run of parts with some texts becomes, if any: what is left without those
that are blank. -/
def keptText? (keepBlanks : Bool) (pieces : List String) : Option String :=
  match pieces.filter fun t => keepBlanks || !isBlankText t with
  | [] => none
  | kept => some (String.join kept)

/-- Between some parts a walk through the content of a template meets one text, or none. -/
def HoldsBetween (content : List Event) (before after : List Part) (text? : Option String) :
    Prop :=
  ∃ left right, content = left ++ (text?.map Event.text).toList ++ right ∧
    Event.bounds left = before.flatMap Part.events ∧
    Event.bounds right = after.flatMap Part.events ∧
    left.getLast?.any Event.isText = false ∧ right.head?.any Event.isText = false

/-! ## Texts of a run -/

/-- A part of text has one text. -/
theorem rightUnique_isText : Relator.RightUnique IsText := by
  intro part t t' h h'
  cases h with
  | text h =>
    cases h' with
    | text h' =>
      cases h.symm.trans h'
      rfl
  | cdata =>
    cases h'
    rfl

section

variable {keepBlanks : Bool} {pieces : List String}

theorem isBlankText_join : isBlankText (String.join pieces) = pieces.all isBlankText := by
  unfold isBlankText
  rw [String.toList_join, List.all_flatMap]

theorem length_join_filter_le (p : String → Bool) (pieces : List String) :
    (String.join (pieces.filter p)).length ≤ (String.join pieces).length := by
  induction pieces with
  | nil => exact Nat.le_refl _
  | cons t pieces ih =>
    rw [String.join_cons, String.length_append]
    cases hp : p t with
    | true =>
      rw [List.filter_cons_of_pos hp, String.join_cons, String.length_append]
      exact Nat.add_le_add_left ih _
    | false =>
      rw [List.filter_cons_of_neg (by simp [hp])]
      exact Nat.le_trans ih (Nat.le_add_left _ _)

/-- Texts that are left out make no difference exactly if they are empty. -/
theorem join_filter_eq_iff (p : String → Bool) (pieces : List String) :
    String.join (pieces.filter p) = String.join pieces ↔ ∀ t ∈ pieces, p t = false → t = "" := by
  induction pieces with
  | nil => simp
  | cons t pieces ih =>
    rw [List.forall_mem_cons, ← ih, String.join_cons]
    cases hp : p t with
    | true => simp [List.filter_cons_of_pos hp]
    | false =>
      rw [List.filter_cons_of_neg (by simp [hp])]
      constructor
      · intro heq
        have hlength := length_join_filter_le p pieces
        rw [heq, String.length_append] at hlength
        have hempty : t = "" := by
          rw [← String.length_eq_zero_iff]
          omega
        rw [hempty, String.empty_append] at heq
        exact ⟨fun _ => hempty, heq⟩
      · rintro ⟨hempty, heq⟩
        rw [hempty rfl, String.empty_append, heq]

/-- What a run becomes is what it should become exactly if no text is lost with blanks. -/
theorem keptText?_eq_wholeText?_iff (hne : pieces ≠ []) :
    keptText? keepBlanks pieces = wholeText? keepBlanks pieces ↔ keepBlanks = true ∨
      (∀ t ∈ pieces, isBlankText t = true) ∨ ∀ t ∈ pieces, isBlankText t = true → t = "" := by
  unfold keptText? wholeText?
  cases keepBlanks with
  | true =>
    obtain ⟨t, rest, rfl⟩ := List.exists_cons_of_ne_nil hne
    simp
  | false =>
    simp only [Bool.false_or, Bool.false_eq_true, false_or, isBlankText_join]
    by_cases hblank : ∀ t ∈ pieces, isBlankText t = true
    · have hfilter : pieces.filter (fun t => !isBlankText t) = [] := by
        simpa [List.filter_eq_nil_iff] using hblank
      have hall : pieces.all isBlankText = true := List.all_eq_true.mpr hblank
      rw [hfilter, hall]
      exact iff_of_true rfl (Or.inl hblank)
    · have hall : pieces.all isBlankText = false := by
        rw [← Bool.not_eq_true, List.all_eq_true]
        exact hblank
      have hjoin := join_filter_eq_iff (fun t => !isBlankText t) pieces
      simp only [Bool.not_eq_false'] at hjoin
      rw [hall, Bool.not_false, if_pos rfl, or_iff_right hblank, ← hjoin]
      split
      · rename_i hfilter
        exact (hblank (by simpa [List.filter_eq_nil_iff] using hfilter)).elim
      · exact Option.some_inj

theorem keptText?_concat (t : String) : keptText? keepBlanks (pieces ++ [t]) =
    if !keepBlanks && isBlankText t then keptText? keepBlanks pieces
    else some ((keptText? keepBlanks pieces).getD "" ++ t) := by
  unfold keptText?
  rw [List.filter_append]
  have hlast : (keepBlanks || !isBlankText t) = !(!keepBlanks && isBlankText t) := by
    rw [Bool.not_and, Bool.not_not]
  rw [List.filter_singleton, hlast]
  cases !keepBlanks && isBlankText t with
  | true => rw [Bool.not_true, cond_false, List.append_nil, if_pos rfl]
  | false =>
    rw [Bool.not_false, cond_true, if_neg Bool.false_ne_true]
    cases pieces.filter fun t => keepBlanks || !isBlankText t with
    | nil => simp
    | cons first kept => simp [String.join_append, String.append_assoc]

end

/-! ## One place -/

section

variable {left right left' right' : List Event}

theorem eq_nil_of_bounds (hbounds : Event.bounds left = [])
    (hends : left.getLast?.any Event.isText = false) : left = [] := by
  rcases List.eq_nil_or_concat left with rfl | ⟨left, e, rfl⟩
  · rfl
  · rw [List.concat_eq_append, List.getLast?_concat] at hends
    have he : e.isText = false := hends
    simp [Event.bounds, List.filter_append, he] at hbounds

theorem getLast?_any_of_cons {e : Event} (h : (e :: left).getLast?.any Event.isText = false) :
    left.getLast?.any Event.isText = false := by
  cases left with
  | nil => rfl
  | cons e' left => rwa [List.getLast?_cons_cons] at h

/-- What stands between a start or end and the next one is determined by what is before it. -/
theorem text?_unique {text? text?' : Option String}
    (h : left ++ (text?.map Event.text).toList ++ right =
      left' ++ (text?'.map Event.text).toList ++ right')
    (hbounds : Event.bounds left = Event.bounds left')
    (hends : left.getLast?.any Event.isText = false)
    (hends' : left'.getLast?.any Event.isText = false)
    (hstarts : right.head?.any Event.isText = false)
    (hstarts' : right'.head?.any Event.isText = false) : text? = text?' := by
  induction left generalizing left' with
  | nil =>
    obtain rfl := eq_nil_of_bounds hbounds.symm hends'
    cases text? with
    | none =>
      cases text?' with
      | none => rfl
      | some t' =>
        obtain rfl : right = .text t' :: right' := h
        cases hstarts
    | some t =>
      cases text?' with
      | none =>
        obtain rfl : .text t :: right = right' := h
        cases hstarts'
      | some t' =>
        cases h
        rfl
  | cons e left ih =>
    cases left' with
    | nil => cases eq_nil_of_bounds hbounds hends
    | cons e' left' =>
      obtain ⟨rfl, hrest⟩ := List.cons.inj h
      refine ih hrest ?_ (getLast?_any_of_cons hends) (getLast?_any_of_cons hends')
      unfold Event.bounds at hbounds ⊢
      cases he : e.isText <;> simpa [he] using hbounds

/-- One thing at most is between some parts. -/
theorem eq_of_holdsBetween {content : List Event} {before after : List Part}
    {text? text?' : Option String} (h : HoldsBetween content before after text?)
    (h' : HoldsBetween content before after text?') : text? = text?' := by
  obtain ⟨left, right, hsplit, hleft, -, hends, hstarts⟩ := h
  obtain ⟨left', right', hsplit', hleft', -, hends', hstarts'⟩ := h'
  exact text?_unique (hsplit.symm.trans hsplit') (hleft.trans hleft'.symm) hends hends' hstarts
    hstarts'

end

/-! ## Text instructions -/

section

variable {keepBlanks : Bool} {parts more : List Part} {part : Part} {outer : List OpenElement}
  {s s' : State} {tag : WrittenTag} {f : Frame}

theorem isTextValue_of_instructionValue {start : StartTag} {value : Value}
    (h : instructionValue start = .ok value) :
    isTextValue value = true ↔ start.name.name = "text" := by
  obtain ⟨hname, raw, rfl⟩ | ⟨hname, -, hne⟩ := instructionValue_cases h
  · exact iff_of_true rfl hname
  · refine iff_of_false ?_ hname
    cases value with
    | text text raw verbatim => exact absurd rfl (hne text raw verbatim)
    | _ => exact Bool.false_ne_true

theorem isTextValue_of_frameOf {around : Declarations} {start : StartTag}
    (h : frameOf around start = .ok f) :
    isTextValue f.value = true ↔ f.value.isInstruction = true ∧ start.name.name = "text" := by
  unfold frameOf at h
  obtain ⟨uri, -, h⟩ := bind_eq_ok_iff.mp h
  dsimp only at h
  split at h
  · obtain ⟨value, hvalue, h⟩ := bind_eq_ok_iff.mp h
    cases h
    rw [isTextValue_of_instructionValue hvalue]
    exact (and_iff_right (isInstruction_of_instructionValue hvalue)).symm
  · obtain ⟨attributes, -, h⟩ := bind_eq_ok_iff.mp h
    cases h
    exact iff_of_false Bool.false_ne_true fun hinstruction => Bool.false_ne_true hinstruction.1

/-- The frame of a text instruction is that of a start tag that is one. -/
theorem FrameIn.isTextValue_iff (h : FrameIn outer tag f) (houter : Readable (tagsOf outer))
    (number : Nat) : isTextValue f.value = true ↔ InTextInstruction (⟨tag, number⟩ :: outer) := by
  obtain ⟨uri, hscoped⟩ := h.scoped houter
  obtain ⟨start, hstart, hframe⟩ := h
  rw [isTextValue_of_frameOf hframe, startOf_name hstart, hscoped.instruction, and_comm]
  refine and_congr_right fun _ => ⟨?_, fun hspace => hscoped.space.unique hspace⟩
  rintro rfl
  exact hscoped.space

/-- Which of the open elements are text instructions. -/
inductive TextFrames : List Frame → List OpenElement → Prop where
  | nil : TextFrames [] []
  | cons {f : Frame} {frames : List Frame} {element : OpenElement} {outer : List OpenElement}
      (hvalue : isTextValue f.value = true ↔ InTextInstruction (element :: outer))
      (h : TextFrames frames outer) : TextFrames (f :: frames) (element :: outer)

theorem TextFrames.inText_iff (h : TextFrames s.frames outer) :
    s.inText = true ↔ InTextInstruction outer := by
  unfold State.inText
  generalize s.frames = frames at h
  cases h with
  | nil => exact iff_of_false Bool.false_ne_true id
  | cons hvalue _ => exact hvalue

theorem TextFrames.addNode (h : TextFrames s.frames outer) (n : Node) :
    TextFrames (addNode n s).frames outer := by
  unfold Builder.addNode
  split
  · exact h
  · rename_i f rest hframes
    rw [hframes] at h
    cases h with
    | cons hvalue h => exact .cons hvalue h

theorem TextFrames.addText (h : TextFrames s.frames outer) (t : String) :
    TextFrames (addText keepBlanks t s).frames outer := by
  unfold Builder.addText
  split
  · split <;> exact h
  · rename_i f rest hframes
    have hsame := h
    rw [hframes] at h
    cases h with
    | cons hvalue h =>
      split
      · rename_i hkind
        rw [hkind] at hvalue
        exact .cons hvalue h
      · split
        · exact hsame
        · exact .cons hvalue h

/-! ## Runs -/

/-- A builder that has taken in some parts. -/
structure Holds (parts : List Part) (outer : List OpenElement) (s : State) : Prop where
  tracks : Tracks parts outer s
  valid : Valid parts
  plain : s.Plain
  texts : TextFrames s.frames outer

theorem holds_nil : Holds [] [] {} where
  tracks := tracks_nil
  valid := fun before part after outer heq => by simp at heq
  plain := ⟨Node.plainIn_nil, fun f hf => nomatch hf⟩
  texts := .nil

/-- What a builder does with the next part, and what it keeps. -/
theorem Holds.next (h : Holds parts outer s) (hsteps : steps keepBlanks part.tokens s = .ok s') :
    Effect keepBlanks outer s part s' ∧ ∃ outer', Holds (parts ++ [part]) outer' s' := by
  have heffect := h.tracks.effect hsteps
  obtain ⟨hpart, outer', htracks⟩ := h.tracks.after heffect
  have hvalid := h.tracks.valid_concat h.valid hpart
  refine ⟨heffect, outer', htracks, hvalid, steps_plain h.plain hsteps, ?_⟩
  have leaf : part.nests = false → outer = outer' := fun hnests =>
    (Opens.leaf h.tracks.opens hnests).unique htracks.opens
  have htexts := h.texts
  cases heffect with
  | @opening tag f hframe =>
    obtain rfl := (Opens.opening tag h.tracks.opens).unique htracks.opens
    exact .cons (hframe.isTextValue_iff (readable_of_opens h.valid h.tracks.opens) _) htexts
  | @closing f rest hframes =>
    have hplaced := h.tracks.placed
    have hopens := h.tracks.opens
    rw [hframes] at htexts hplaced
    cases htexts with
    | @cons _ _ element outer'' hvalue hrest =>
      cases hplaced with
      | cons hname =>
        have hclosed := Opens.closing hopens
        rw [← hname] at hclosed
        obtain rfl := hclosed.unique htracks.opens
        exact TextFrames.addNode (s := { s with frames := rest }) hrest f.node
  | text htext =>
    obtain rfl := leaf htext.not_nests
    exact htexts.addText _
  | single | comment | processingInstruction =>
    obtain rfl := leaf rfl
    exact htexts.addNode _

theorem Holds.append (h : Holds parts outer s)
    (hsteps : steps keepBlanks (more.flatMap Part.tokens) s = .ok s') :
    ∃ outer', Holds (parts ++ more) outer' s' := by
  induction more using List.reverseRecOn generalizing s' with
  | nil =>
    cases hsteps
    exact ⟨outer, by rwa [List.append_nil]⟩
  | append_singleton more part ih =>
    obtain ⟨s₁, hmore, hpart⟩ := steps_concat_eq_ok_iff.mp hsteps
    obtain ⟨outer₁, h₁⟩ := ih hmore
    rw [← List.append_assoc]
    exact (h₁.next hpart).2

/-- The walk does not end in text if the parts do not. -/
theorem events_end (h : steps keepBlanks (parts.flatMap Part.tokens) {} = .ok s)
    (hlast : parts.getLast?.any Part.isText = false) :
    s.events.getLast?.any Event.isText = false := by
  rcases List.eq_nil_or_concat parts with rfl | ⟨parts, part, rfl⟩
  · cases h
    rfl
  · rw [List.concat_eq_append] at h hlast
    rw [List.getLast?_concat] at hlast
    obtain ⟨s₁, hparts, hpart⟩ := steps_concat_eq_ok_iff.mp h
    obtain ⟨outer₁, h₁⟩ := holds_nil.append hparts
    rw [(h₁.next hpart).1.events_eq h₁.plain hlast]
    exact (eventsEnd_of_not_text hlast _).1

/-- What is taken in after a walk that does not end in text comes after it. -/
theorem Holds.events_more (h : Holds parts outer s)
    (hends : s.events.getLast?.any Event.isText = false)
    (hsteps : steps keepBlanks (more.flatMap Part.tokens) s = .ok s') :
    ∃ right, s'.events = s.events ++ right ∧ Event.bounds right = more.flatMap Part.events := by
  induction more using List.reverseRecOn generalizing s' with
  | nil =>
    cases hsteps
    exact ⟨[], (List.append_nil _).symm, rfl⟩
  | append_singleton more part ih =>
    obtain ⟨s₁, hmore, hpart⟩ := steps_concat_eq_ok_iff.mp hsteps
    obtain ⟨right, hright, hbounds⟩ := ih hmore
    obtain ⟨outer₁, h₁⟩ := h.append hmore
    obtain ⟨heffect, -⟩ := h₁.next hpart
    rw [List.flatMap_append, List.flatMap_singleton, ← hbounds]
    cases htext : part.isText with
    | false =>
      refine ⟨right ++ part.events, ?_, ?_⟩
      · rw [heffect.events_eq h₁.plain htext, hright, List.append_assoc]
      · rw [bounds_append, (eventsEnd_of_not_text htext []).2.2.2]
    | true =>
      obtain ⟨t, hist, rfl⟩ := heffect.addText_eq htext
      have hnone : part.events = [] := by cases hist <;> rfl
      rw [events_addText t h₁.plain, hnone, List.append_nil]
      split
      · exact ⟨right, hright, rfl⟩
      · exact ⟨joined t right, by rw [hright, joined_append t hends], bounds_joined t right⟩

/-- A run of text becomes one text of the parts that are kept. -/
theorem Holds.events_run (h : Holds parts outer s) (hnot : ¬InTextInstruction outer)
    (hends : s.events.getLast?.any Event.isText = false)
    (htext : ∀ part ∈ more, part.isText = true)
    (hsteps : steps keepBlanks (more.flatMap Part.tokens) s = .ok s') :
    Holds (parts ++ more) outer s' ∧ ∃ pieces, List.Forall₂ IsText more pieces ∧
      s'.events = s.events ++ ((keptText? keepBlanks pieces).map Event.text).toList := by
  induction more using List.reverseRecOn generalizing s' with
  | nil =>
    cases hsteps
    exact ⟨by rwa [List.append_nil], [], .nil, (List.append_nil _).symm⟩
  | append_singleton more part ih =>
    obtain ⟨s₁, hmore, hpart⟩ := steps_concat_eq_ok_iff.mp hsteps
    obtain ⟨hbefore, hlast⟩ := List.forall_mem_append.mp htext
    obtain ⟨h₁, pieces, hpieces, hevents⟩ := ih hbefore hmore
    obtain ⟨heffect, outer', hnext⟩ := h₁.next hpart
    obtain ⟨t, hist, rfl⟩ := heffect.addText_eq (hlast part (List.mem_singleton_self part))
    obtain rfl := (Opens.leaf h₁.tracks.opens hist.not_nests).unique hnext.tracks.opens
    rw [← List.append_assoc]
    refine ⟨hnext, pieces ++ [t], List.rel_append hpieces (.cons hist .nil), ?_⟩
    have hin : s₁.inText = false := by
      rw [← Bool.not_eq_true, h₁.texts.inText_iff]
      exact hnot
    rw [events_addText t h₁.plain, hin, Bool.false_or, keptText?_concat, hevents]
    split
    · rfl
    · rw [joined_append t hends]
      cases keptText? keepBlanks pieces with
      | none => simp [joined]
      | some u => exact congrArg _ (joined_concat_text t u [])

theorem eventsOfAll_of_frames (hframes : s.frames = []) :
    s.events = Node.eventsOfAll s.content.reverse := by
  rw [State.events, hframes, eventsUpTo]

theorem steps_split {before run after : List Part} :
    steps keepBlanks ((before ++ run ++ after).flatMap Part.tokens) {} = .ok s' ↔
      ∃ s s₁, steps keepBlanks (before.flatMap Part.tokens) {} = .ok s ∧
        steps keepBlanks (run.flatMap Part.tokens) s = .ok s₁ ∧
        steps keepBlanks (after.flatMap Part.tokens) s₁ = .ok s' := by
  rw [List.flatMap_append, List.flatMap_append, List.append_assoc, steps_append, bind_eq_ok_iff]
  simp only [steps_append, bind_eq_ok_iff, exists_and_left]

/-- What is taken in after a run of text comes after it in the walk. -/
theorem Holds.events_after (h : Holds parts outer s) (hfirst : more.head?.any Part.isText = false)
    (hsteps : steps keepBlanks (more.flatMap Part.tokens) s = .ok s') :
    ∃ right, s'.events = s.events ++ right ∧ Event.bounds right = more.flatMap Part.events ∧
      right.head?.any Event.isText = false := by
  cases more with
  | nil =>
    cases hsteps
    exact ⟨[], (List.append_nil _).symm, rfl, rfl⟩
  | cons part more =>
    have hpart : part.isText = false := hfirst
    rw [List.flatMap_cons, steps_append, bind_eq_ok_iff] at hsteps
    obtain ⟨s₁, hstep, hsteps⟩ := hsteps
    obtain ⟨heffect, outer₁, h₁⟩ := h.next hstep
    have hevents := heffect.events_eq h.plain hpart
    obtain ⟨hends, hstarts, hne, hbounds⟩ := eventsEnd_of_not_text hpart s.events
    obtain ⟨right, hright, hmore⟩ := h₁.events_more (by rw [hevents]; exact hends) hsteps
    refine ⟨part.events ++ right, ?_, ?_, ?_⟩
    · rw [hright, hevents, List.append_assoc]
    · rw [bounds_append, hbounds, hmore, List.flatMap_cons]
    · rw [List.head?_append_of_ne_nil _ hne]
      exact hstarts

/-- In tokens that make a template every run of text that is not in a text instruction becomes the
text of its parts without those that are dropped.  That is the whole text of the run, or none
if it is blank, exactly if blanks are kept, or all parts are blank, or no part that is blank
has a text. -/
theorem build_keeps_text (keepBlanks : Bool) {tokens : List Token}
    (htokens : Markup.Alternates false tokens) :
    (∃ parts cut, tokens = written parts cut) ∧
      ∀ parts cut template, tokens = written parts cut →
        build keepBlanks tokens = .ok template →
        ∀ before run after, IsRun parts before run after →
          ∃ outer, Opens before outer ∧ (¬InTextInstruction outer →
            ∃ pieces, List.Forall₂ IsText run pieces ∧
              HoldsBetween (Node.eventsOfAll template.children) before after
                (keptText? keepBlanks pieces) ∧
              (HoldsBetween (Node.eventsOfAll template.children) before after
                  (wholeText? keepBlanks pieces) ↔
                keepBlanks = true ∨ (∀ t ∈ pieces, isBlankText t = true) ∨
                  ∀ t ∈ pieces, isBlankText t = true → t = "")) := by
  refine ⟨Markup.alternates_iff.mp htokens, ?_⟩
  rintro parts cut template rfl h before run after hrun
  obtain ⟨s, hsteps, -, hframes, rfl⟩ := steps_of_build h
  rw [hrun.split, steps_split] at hsteps
  obtain ⟨s₀, s₁, hbefore, hmiddle, hafter⟩ := hsteps
  obtain ⟨outer, h₀⟩ := holds_nil.append hbefore
  refine ⟨outer, h₀.tracks.opens, fun hnot => ?_⟩
  have hends := events_end hbefore hrun.leftmost
  obtain ⟨h₁, pieces, hpieces, hevents⟩ := h₀.events_run hnot hends hrun.text hmiddle
  obtain ⟨right, hright, hbounds, hstarts⟩ := h₁.events_after hrun.rightmost hafter
  obtain ⟨left, hleft, hfirst⟩ := holds_nil.events_more rfl hbefore
  have hkept : HoldsBetween (Node.eventsOfAll s.content.reverse) before after
      (keptText? keepBlanks pieces) := by
    refine ⟨s₀.events, right, ?_, ?_, hbounds, hends, hstarts⟩
    · rw [← eventsOfAll_of_frames hframes, hright, hevents]
    · rw [hleft]
      exact hfirst
  have hne : pieces ≠ [] := by
    rintro rfl
    cases hpieces
    exact hrun.nonempty rfl
  refine ⟨pieces, hpieces, hkept, ?_⟩
  rw [← keptText?_eq_wholeText?_iff hne]
  constructor
  · intro hwhole
    exact eq_of_holdsBetween hkept hwhole
  · intro heq
    rwa [← heq]

end

/-! ## A document -/

def boldTag : WrittenTag := { name := ⟨"", "b"⟩ }

/-- A blank between two letters, written apart. -/
def blankRun : List Part := [.text "a", .cdata " ", .text "c"]

def blankDocument : List Part := [.opening boldTag] ++ blankRun ++ [.closing ⟨"", "b"⟩]

theorem isRun_blankDocument :
    IsRun blankDocument [.opening boldTag] blankRun [.closing ⟨"", "b"⟩] where
  split := rfl
  nonempty := by simp [blankRun]
  text := by decide
  leftmost := rfl
  rightmost := rfl

theorem pieces_blankRun : List.Forall₂ IsText blankRun ["a", " ", "c"] :=
  .cons (.text (by decide +kernel)) (.cons (.cdata " ") (.cons (.text (by decide +kernel)) .nil))

/-- The document has the whole text of the run if blanks are kept, and otherwise lacks the
blank in it. -/
theorem build_keeps_text_blankDocument :
    (∃ template, build true (written blankDocument none) = .ok template ∧
        HoldsBetween (Node.eventsOfAll template.children) [.opening boldTag]
          [.closing ⟨"", "b"⟩] (some "a c")) ∧
      ∃ template, build false (written blankDocument none) = .ok template ∧
        HoldsBetween (Node.eventsOfAll template.children) [.opening boldTag]
          [.closing ⟨"", "b"⟩] (some "ac") := by
  have hopens : Opens [.opening boldTag] [⟨boldTag, 0⟩] := @Opens.opening [] [] boldTag .nil
  have hnot : ¬InTextInstruction [⟨boldTag, 0⟩] := fun h => absurd h.1 (by decide)
  have built : ∀ keepBlanks, ∃ template,
      build keepBlanks (written blankDocument none) = .ok template := by
    intro keepBlanks
    have hany : (build keepBlanks (written blankDocument none)).toOption.any
        (fun _ => true) = true := by
      cases keepBlanks <;> decide +kernel
    obtain ⟨template, htemplate, -⟩ := exists_ok_of_any hany
    exact ⟨template, htemplate⟩
  obtain ⟨kept, hkept⟩ := built true
  obtain ⟨dropped, hdropped⟩ := built false
  have halternates := Markup.alternates_written blankDocument none
  obtain ⟨outer, houter, hpieces⟩ :=
    (build_keeps_text true halternates).2 blankDocument none kept rfl hkept _ _ _
      isRun_blankDocument
  obtain ⟨outer', houter', hpieces'⟩ :=
    (build_keeps_text false halternates).2 blankDocument none dropped rfl hdropped _ _ _
      isRun_blankDocument
  obtain rfl := houter.unique hopens
  obtain rfl := houter'.unique hopens
  obtain ⟨pieces, hist, hholds, -⟩ := hpieces hnot
  obtain ⟨pieces', hist', hholds', -⟩ := hpieces' hnot
  obtain rfl := rightUnique_isText.forall₂ hist pieces_blankRun
  obtain rfl := rightUnique_isText.forall₂ hist' pieces_blankRun
  exact ⟨⟨kept, hkept, hholds⟩, dropped, hdropped, hholds'⟩

/-- A blank that is written apart from the letters around it is lost, though the text of the
run is not blank. -/
theorem blank_between_lost :
    Markup.Alternates false (written blankDocument none) ∧
      ∃ template, build false (written blankDocument none) = .ok template ∧
        ¬HoldsBetween (Node.eventsOfAll template.children) [.opening boldTag]
          [.closing ⟨"", "b"⟩] (wholeText? false ["a", " ", "c"]) := by
  refine ⟨by decide, ?_⟩
  have hwalk : (build false (written blankDocument none)).toOption.any
      (fun template => Node.eventsOfAll template.children == [.starts, .text "ac", .ends]) =
        true := by decide +kernel
  obtain ⟨template, hbuild, hevents⟩ := exists_ok_of_any hwalk
  refine ⟨template, hbuild, fun hwhole => ?_⟩
  rw [eq_of_beq hevents] at hwhole
  have hholds : HoldsBetween [.starts, .text "ac", .ends] [.opening boldTag]
      [.closing ⟨"", "b"⟩] (some "ac") := ⟨[.starts], [.ends], rfl, rfl, rfl, rfl, rfl⟩
  exact absurd (eq_of_holdsBetween hholds hwhole) (by decide)

end Builder
end TagGrammar
