/-
What the parts of a document do to a builder.

Between tags a builder takes in one part after the other.  `Effect` lists what it can do with
a part where some elements are open: a start tag has a frame, a close tag ends the innermost
frame, text is added and all else is a node.  So the parts that a builder takes in are valid
and it keeps track of them (`tracks_of_steps`), and those that make a template are balanced.
-/
import TagGrammar.Proofs.Template.Nesting

namespace TagGrammar
namespace Builder
open Markup (QName Token WrittenTag Part OpenElement Opens Balanced written)

/-- A part is text, with its references resolved. -/
inductive IsText : Part → String → Prop where
  | text {raw t : String} (h : resolved raw = .ok t) : IsText (.text raw) t
  | cdata (t : String) : IsText (.cdata t) t

/-- What a builder makes of a part where some elements are open. -/
inductive Effect (keepBlanks : Bool) (outer : List OpenElement) (s : State) :
    Part → State → Prop where
  | opening {tag : WrittenTag} {f : Frame} (h : FrameIn outer tag f) :
      Effect keepBlanks outer s (.opening tag) { s with frames := f :: s.frames }
  | single {tag : WrittenTag} {f : Frame} (h : FrameIn outer tag f) :
      Effect keepBlanks outer s (.single tag) (addNode f.node s)
  | closing {f : Frame} {rest : List Frame} (h : s.frames = f :: rest) :
      Effect keepBlanks outer s (.closing f.name) (addNode f.node { s with frames := rest })
  | text {part : Part} {t : String} (h : IsText part t) :
      Effect keepBlanks outer s part (addText keepBlanks t s)
  | comment (text : String) :
      Effect keepBlanks outer s (.comment text) (addNode { value := .comment text true } s)
  | processingInstruction (target : String) (data : Option String) :
      Effect keepBlanks outer s (.processingInstruction target data)
        (addNode { value := .processingInstruction target data } s)

variable {keepBlanks : Bool} {parts : List Part} {part : Part} {outer : List OpenElement}
  {s s' : State} {tag : WrittenTag} {f : Frame} {cut : Option WrittenTag} {template : Node}

/-- A start tag that is taken in has a frame. -/
theorem Tracks.frameIn_of_steps (h : Tracks parts outer s) (isEmpty : Bool)
    (hsteps : steps keepBlanks (tag.tokens ++ [Markup.endToken isEmpty]) s = .ok s') :
    ∃ f, FrameIn outer tag f := by
  rw [steps_append, steps_tokens, bind_eq_ok_iff] at hsteps
  obtain ⟨s₁, hstart, hend⟩ := hsteps
  obtain ⟨start, hread, rfl⟩ := map_eq_ok_iff.mp hstart
  have hends : endStartTag isEmpty { s with pending := some start } = .ok s' := by
    rw [steps_singleton] at hend
    cases isEmpty <;> exact hend
  obtain ⟨f, hframe, -⟩ := bind_eq_ok_iff.mp hends
  exact ⟨f, start, hread, by rw [← h.placed.scopeOf_eq, hframe]⟩

theorem Tracks.effect (h : Tracks parts outer s)
    (hsteps : steps keepBlanks part.tokens s = .ok s') : Effect keepBlanks outer s part s' := by
  cases part with
  | opening tag =>
    obtain ⟨f, hframe⟩ := h.frameIn_of_steps false hsteps
    cases (h.steps_tag hframe false).symm.trans hsteps
    exact .opening hframe
  | single tag =>
    obtain ⟨f, hframe⟩ := h.frameIn_of_steps true hsteps
    cases (h.steps_tag hframe true).symm.trans hsteps
    exact .single hframe
  | closing name =>
    have hclose : closeElement name s = .ok s' := (steps_singleton _ s).symm.trans hsteps
    unfold closeElement at hclose
    split at hclose
    · cases hclose
    · rename_i f rest hframes
      split at hclose
      · rename_i hname
        subst hname
        cases hclose
        exact .closing hframes
      · cases hclose
  | text raw =>
    have htext : (resolved raw).map (fun t => addText keepBlanks t s) = .ok s' :=
      (steps_singleton _ s).symm.trans hsteps
    obtain ⟨t, ht, rfl⟩ := map_eq_ok_iff.mp htext
    exact .text (.text ht)
  | cdata text =>
    cases (steps_singleton _ s).symm.trans hsteps
    exact .text (.cdata text)
  | comment text =>
    cases (steps_singleton _ s).symm.trans hsteps
    exact .comment text
  | processingInstruction target data =>
    cases (steps_singleton _ s).symm.trans hsteps
    exact .processingInstruction target data

theorem IsText.validIn {t : String} (h : IsText part t) (outer : List OpenElement) :
    ValidIn outer part := by
  cases h with
  | text h => exact ⟨t, h⟩
  | cdata => trivial

theorem IsText.not_nests {t : String} (h : IsText part t) : part.nests = false := by
  cases h <;> rfl

theorem IsText.not_makesNode {t : String} (h : IsText part t) : part.makesNode = false := by
  cases h <;> rfl

theorem FrameIn.fresh (h : FrameIn outer tag f) : ∃ start, startOf tag = .ok start ∧
    f.Fresh start := by
  obtain ⟨start, hstart, hframe⟩ := h
  exact ⟨start, hstart, fresh_of_frameOf hframe⟩

/-- A part that is taken in is valid, and the builder keeps track. -/
theorem Tracks.after (h : Tracks parts outer s) (heffect : Effect keepBlanks outer s part s') :
    ValidIn outer part ∧ ∃ outer', Tracks (parts ++ [part]) outer' s' := by
  cases heffect with
  | @opening tag f hframe =>
    obtain ⟨start, hstart, hfresh⟩ := hframe.fresh
    exact ⟨⟨f, hframe⟩, _, h.open hfresh hstart hframe⟩
  | @single tag f hframe =>
    obtain ⟨start, hstart, hfresh⟩ := hframe.fresh
    exact ⟨⟨f, hframe⟩, outer,
      h.add (.single tag) rfl rfl (entriesAt_fresh hfresh _) ⟨f, hframe, rfl, rfl⟩⟩
  | @closing f rest hframes =>
    refine ⟨trivial, ?_⟩
    have hplaced := h.placed
    rw [hframes] at hplaced
    cases hplaced with
    | @cons _ _ element outer' hname _ _ _ =>
      obtain ⟨f', rest', hframes', -, hclosed⟩ := h.close
      obtain ⟨rfl, rfl⟩ := List.cons.inj (hframes.symm.trans hframes')
      rw [hname]
      exact ⟨outer', hclosed⟩
  | @text _ t htext =>
    exact ⟨htext.validIn outer, outer,
      h.text keepBlanks part htext.not_nests htext.not_makesNode t⟩
  | comment text =>
    exact ⟨trivial, outer, h.add (.comment text) rfl rfl (by rw [entriesAt_eq]; rfl) ⟨rfl, rfl⟩⟩
  | processingInstruction target data =>
    exact ⟨trivial, outer, h.add (.processingInstruction target data) rfl rfl
      (by rw [entriesAt_eq]; rfl) ⟨rfl, rfl⟩⟩

theorem steps_concat_eq_ok_iff :
    steps keepBlanks ((parts ++ [part]).flatMap Part.tokens) s = .ok s' ↔
      ∃ s₁, steps keepBlanks (parts.flatMap Part.tokens) s = .ok s₁ ∧
        steps keepBlanks part.tokens s₁ = .ok s' := by
  rw [List.flatMap_append, List.flatMap_singleton, steps_append, bind_eq_ok_iff]

theorem Tracks.valid_concat (h : Tracks parts outer s) (hvalid : Valid parts)
    (hpart : ValidIn outer part) : Valid (parts ++ [part]) := by
  refine valid_concat_iff.mpr ⟨hvalid, fun outer' hopens => ?_⟩
  rw [← h.opens.unique hopens]
  exact hpart

/-- A builder keeps track of all parts that it takes in, and they are valid. -/
theorem tracks_of_steps (h : steps keepBlanks (parts.flatMap Part.tokens) {} = .ok s) :
    Valid parts ∧ ∃ outer, Tracks parts outer s := by
  induction parts using List.reverseRecOn generalizing s with
  | nil =>
    cases h
    refine ⟨fun before part after outer heq => ?_, [], tracks_nil⟩
    simp at heq
  | append_singleton parts part ih =>
    obtain ⟨s₁, hparts, hpart⟩ := steps_concat_eq_ok_iff.mp h
    obtain ⟨hvalid, outer, htracks⟩ := ih hparts
    obtain ⟨hpart, htracks'⟩ := htracks.after (htracks.effect hpart)
    exact ⟨htracks.valid_concat hvalid hpart, htracks'⟩

/-- What makes a template is taken in part by part, with nothing open at the end.  A start tag
that is cut off leaves no trace. -/
theorem steps_of_build (h : build keepBlanks (written parts cut) = .ok template) :
    ∃ s, steps keepBlanks (parts.flatMap Part.tokens) {} = .ok s ∧ Tracks parts [] s ∧
      s.frames = [] ∧ template = { value := .root, children := s.content.reverse } := by
  unfold build written at h
  obtain ⟨s', hsteps, hfinish⟩ := bind_eq_ok_iff.mp h
  rw [steps_append, bind_eq_ok_iff] at hsteps
  obtain ⟨s, hparts, hcut⟩ := hsteps
  have hsame : finish s' = finish s := by
    cases cut with
    | none =>
      cases hcut
      rfl
    | some tag =>
      rw [Option.map_some, Option.getD_some, steps_tokens] at hcut
      obtain ⟨start, -, rfl⟩ := map_eq_ok_iff.mp hcut
      rfl
  rw [hsame] at hfinish
  obtain ⟨-, outer, htracks⟩ := tracks_of_steps hparts
  have hplaced := htracks.placed
  unfold finish at hfinish
  split at hfinish
  · rename_i hframes
    rw [hframes] at hplaced
    cases hplaced
    cases hfinish
    exact ⟨s, hparts, htracks, hframes, rfl⟩
  · cases hfinish

theorem valid_of_build (h : build keepBlanks (written parts cut) = .ok template) :
    Valid parts ∧ Balanced parts ∧ build keepBlanks (parts.flatMap Part.tokens) = .ok template := by
  obtain ⟨s, hsteps, htracks, hframes, rfl⟩ := steps_of_build h
  refine ⟨(tracks_of_steps hsteps).1, Markup.balanced_iff.mpr htracks.opens, ?_⟩
  rw [build, hsteps]
  show finish s = _
  rw [finish, hframes]

end Builder
end TagGrammar
