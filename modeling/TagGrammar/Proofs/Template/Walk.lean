/-
Walks through templates.

On a walk through a template one meets where its nodes start and end and the text between
them.  A start tag, a close tag and a part that makes a whole node put their starts and ends
at the end of the walk through what the builder has made so far (`Effect.events_eq`).  Text
comes after it and is joined to text that ends it, unless it is dropped or belongs to a text
instruction (`events_addText`).
-/
import TagGrammar.Proofs.Template.Effects

namespace TagGrammar
open Markup (WrittenTag Part OpenElement)

/-- What one meets on a walk through a template. -/
inductive Event where
  | starts
  | ends
  | text (text : String)
deriving DecidableEq

namespace Event

def isText : Event → Bool
  | text _ => true
  | _ => false

/-- The starts and ends among some events. -/
def bounds (l : List Event) : List Event := l.filter fun e => !e.isText

end Event

/-- The text of text that is no instruction. -/
def Value.looseText? : Value → Option String
  | .text t _ false => some t
  | _ => none

namespace Node

mutual

/-- The walk through a tree. -/
def events : Node → List Event
  | ⟨v, _, cs⟩ =>
    match v.looseText? with
    | some t => .text t :: eventsOfAll cs
    | none => .starts :: (eventsOfAll cs ++ [.ends])

def eventsOfAll : List Node → List Event
  | [] => []
  | n :: rest => n.events ++ eventsOfAll rest

end

theorem events_eq (n : Node) : n.events =
    match n.value.looseText? with
    | some t => .text t :: eventsOfAll n.children
    | none => .starts :: (eventsOfAll n.children ++ [.ends]) := by
  cases n
  rw [events]

theorem eventsOfAll_append (l l' : List Node) :
    eventsOfAll (l ++ l') = eventsOfAll l ++ eventsOfAll l' := by
  induction l with
  | nil => rfl
  | cons n l ih => rw [List.cons_append, eventsOfAll, eventsOfAll, ih, List.append_assoc]

theorem eventsOfAll_reverse_cons (n : Node) (l : List Node) :
    eventsOfAll (n :: l).reverse = eventsOfAll l.reverse ++ n.events := by
  rw [List.reverse_cons, eventsOfAll_append, eventsOfAll, eventsOfAll, List.append_nil]

end Node

namespace Markup.Part

/-- Where nodes start and end for a part. -/
def events : Part → List Event
  | opening _ => [.starts]
  | closing _ => [.ends]
  | single _ | comment _ | processingInstruction _ _ => [.starts, .ends]
  | text _ | cdata _ => []

def isText : Part → Bool
  | text _ | cdata _ => true
  | _ => false

end Markup.Part

namespace Builder

/-! ## Text after a walk -/

/-- A walk with text after it, which is joined to text that ends it. -/
def joined (t : String) (l : List Event) : List Event :=
  match l.getLast? with
  | some (.text u) => l.dropLast ++ [.text (u ++ t)]
  | _ => l ++ [.text t]

section

variable {l more : List Event}

theorem joined_concat_text (t u : String) (l : List Event) :
    joined t (l ++ [.text u]) = l ++ [.text (u ++ t)] := by
  rw [joined, List.getLast?_concat, List.dropLast_concat]

theorem joined_of_bound (t : String) (h : l.getLast?.any Event.isText = false) :
    joined t l = l ++ [.text t] := by
  unfold joined
  split
  · rename_i hlast
    rw [hlast] at h
    cases h
  · rfl

theorem joined_append (t : String) (h : l.getLast?.any Event.isText = false) :
    joined t (l ++ more) = l ++ joined t more := by
  rcases List.eq_nil_or_concat more with rfl | ⟨more, e, rfl⟩
  · rw [List.append_nil, joined_of_bound t h]
    rfl
  · rw [List.concat_eq_append, ← List.append_assoc]
    cases e with
    | text u => rw [joined_concat_text, joined_concat_text, List.append_assoc]
    | starts | ends =>
      rw [joined_of_bound t (by rw [List.getLast?_concat]; rfl),
        joined_of_bound t (by rw [List.getLast?_concat]; rfl)]
      simp only [List.append_assoc]

theorem bounds_append (l more : List Event) :
    Event.bounds (l ++ more) = Event.bounds l ++ Event.bounds more :=
  List.filter_append l more

theorem bounds_joined (t : String) (l : List Event) :
    Event.bounds (joined t l) = Event.bounds l := by
  rcases List.eq_nil_or_concat l with rfl | ⟨l, e, rfl⟩
  · rfl
  · rw [List.concat_eq_append]
    cases e with
    | text u =>
      rw [joined_concat_text, bounds_append, bounds_append]
      rfl
    | starts | ends =>
      rw [joined_of_bound t (by rw [List.getLast?_concat]; rfl), bounds_append]
      exact List.append_nil _

end

/-! ## The walk through what has been made -/

/-- The walk through the content of the root and of some open elements. -/
def eventsUpTo (content : List Node) : List Frame → List Event
  | [] => Node.eventsOfAll content.reverse
  | f :: rest => eventsUpTo content rest ++ [.starts] ++ Node.eventsOfAll f.children.reverse

def State.events (s : State) : List Event := eventsUpTo s.content s.frames

/-- Whether a value is text, be it the text instruction or not. -/
def isTextValue : Value → Bool
  | .text _ _ _ => true
  | _ => false

/-- Whether the innermost open element is a text instruction. -/
def State.inText (s : State) : Bool := s.frames.head?.any fun f => isTextValue f.value

section

variable {keepBlanks : Bool} {parts more : List Part} {part : Part} {outer : List OpenElement}
  {s s' : State} {tag : WrittenTag} {f : Frame} {n : Node}

theorem Frame.Plain.looseText? (h : f.Plain) : f.value.looseText? = none := by
  cases hvalue : f.value with
  | text t raw verbatim =>
    cases verbatim
    · exact absurd hvalue (h.value t raw)
    · rfl
  | _ => rfl

theorem Frame.Plain.events_node (h : f.Plain) :
    f.node.events = .starts :: (Node.eventsOfAll f.children.reverse ++ [.ends]) := by
  rw [Node.events_eq]
  show (match f.value.looseText? with | some t => _ | none => _) = _
  rw [h.looseText?]
  rfl

theorem events_addNode (n : Node) (s : State) :
    (addNode n s).events = s.events ++ n.events := by
  unfold addNode
  split
  · rename_i hframes
    rw [State.events, State.events, hframes]
    exact Node.eventsOfAll_reverse_cons n s.content
  · rename_i f rest hframes
    rw [State.events, State.events, hframes, eventsUpTo, eventsUpTo,
      Node.eventsOfAll_reverse_cons, List.append_assoc _ _ n.events]

/-- Text that is added to content comes after the walk through it. -/
theorem eventsOfAll_withText (t : String) {l : List Node} (h : Node.PlainIn l) :
    Node.eventsOfAll (withText t l).reverse = joined t (Node.eventsOfAll l.reverse) := by
  have last : ∀ (n : Node) (rest : List Node), n.value.looseText? = none →
      (Node.eventsOfAll (n :: rest).reverse).getLast?.any Event.isText = false := by
    intro n rest hn
    rw [Node.eventsOfAll_reverse_cons, Node.events_eq, hn]
    dsimp only
    rw [← List.cons_append, ← List.append_assoc, List.getLast?_concat]
    rfl
  unfold withText
  split
  · rename_i u raw unescaped children rest
    have hleaf : (⟨.text u raw false, unescaped, children⟩ : Node) =
        { value := .plainText u } := (Node.plainIn_cons.mp h).1 u raw rfl
    cases hleaf
    rw [Node.eventsOfAll_reverse_cons, Node.eventsOfAll_reverse_cons]
    exact (joined_concat_text t u _).symm
  · rename_i hnot
    rw [Node.eventsOfAll_reverse_cons, joined_of_bound]
    · rfl
    · cases l with
      | nil => rfl
      | cons n rest =>
        refine last n rest ?_
        obtain ⟨value, unescaped, children⟩ := n
        cases value with
        | text u raw verbatim =>
          cases verbatim
          · exact (hnot u raw unescaped children rest rfl).elim
          · rfl
        | _ => rfl

/-- Text comes after the walk, unless it is dropped or belongs to a text instruction. -/
theorem events_addText (t : String) (h : s.Plain) : (addText keepBlanks t s).events =
    if s.inText || (!keepBlanks && isBlankText t) then s.events else joined t s.events := by
  unfold addText
  split
  · rename_i hframes
    rw [State.inText, hframes, List.head?_nil, Option.any_none, Bool.false_or]
    split
    · rfl
    · rw [State.events, State.events, hframes]
      exact eventsOfAll_withText t h.content
  · rename_i f rest hframes
    rw [State.inText, hframes, List.head?_cons, Option.any_some]
    have hall := h.frames
    rw [hframes] at hall
    split
    · rename_i hvalue
      rw [hvalue, isTextValue, Bool.true_or, if_pos rfl, State.events, State.events, hframes]
      rfl
    · rename_i hvalue
      have hnot : isTextValue f.value = false := by
        cases hkind : f.value with
        | text u raw verbatim => exact (hvalue u raw verbatim hkind).elim
        | _ => rfl
      rw [hnot, Bool.false_or]
      split
      · rfl
      · rw [State.events, State.events, hframes, eventsUpTo, eventsUpTo, joined_append,
          eventsOfAll_withText t (hall f List.mem_cons_self).children]
        rw [List.getLast?_concat]
        rfl

theorem FrameIn.plain (h : FrameIn outer tag f) : f.Plain := by
  obtain ⟨start, -, hframe⟩ := h
  exact frameOf_plain hframe

theorem FrameIn.children (h : FrameIn outer tag f) : f.children = [] := by
  obtain ⟨start, -, hfresh⟩ := h.fresh
  exact hfresh.children

/-- A part that is no text puts its starts and ends after the walk. -/
theorem Effect.events_eq (h : Effect keepBlanks outer s part s') (hplain : s.Plain)
    (hpart : part.isText = false) : s'.events = s.events ++ part.events := by
  cases h with
  | @opening tag f hframe =>
    rw [State.events, eventsUpTo, hframe.children]
    exact List.append_nil _
  | @single tag f hframe =>
    rw [events_addNode, hframe.plain.events_node, hframe.children]
    rfl
  | @closing f rest hframes =>
    have hall := hplain.frames
    rw [hframes] at hall
    rw [events_addNode, (hall f List.mem_cons_self).events_node, State.events, State.events,
      hframes, eventsUpTo]
    simp [Part.events]
  | text htext => cases htext <;> cases hpart
  | comment text => exact events_addNode _ _
  | processingInstruction target data => exact events_addNode _ _

/-- Text is taken in as text. -/
theorem Effect.addText_eq (h : Effect keepBlanks outer s part s') (hpart : part.isText = true) :
    ∃ t, IsText part t ∧ s' = addText keepBlanks t s := by
  cases h with
  | text htext => exact ⟨_, htext, rfl⟩
  | _ => cases hpart

theorem eventsEnd_of_not_text (hpart : part.isText = false) (l : List Event) :
    (l ++ part.events).getLast?.any Event.isText = false ∧
      part.events.head?.any Event.isText = false ∧ part.events ≠ [] ∧
      Event.bounds part.events = part.events := by
  cases part with
  | text | cdata => cases hpart
  | _ => simp [Part.events, Event.isText, Event.bounds]

end

end Builder
end TagGrammar
