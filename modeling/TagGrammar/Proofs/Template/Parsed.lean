/-
Templates that are parsed.

Text comes into a template in two ways.  The text of a text instruction is the value of
its node, and all other text is plain: a leaf that no request not to escape can be written
on.  The builder keeps this in every state (`State.Plain`), so a parsed template has it.
-/
import TagGrammar.Proofs.Except
import TagGrammar.Proofs.Template.Places
import TagGrammar.Template.Builder

namespace TagGrammar

/-- Text that is not a text instruction is nothing but text. -/
def Node.IsPlainLeaf (n : Node) : Prop :=
  ∀ text raw, n.value = .text text raw false → n = { value := .plainText text }

/-- All plain text in a list of trees is nothing but text. -/
def Node.PlainIn (l : List Node) : Prop := ∀ n ∈ Node.nodesOfAll l, n.IsPlainLeaf

namespace Node

theorem plainIn_nil : PlainIn [] := by
  intro n hn
  cases hn

theorem plainIn_cons {n : Node} {l : List Node} :
    PlainIn (n :: l) ↔ n.IsPlainLeaf ∧ PlainIn n.children ∧ PlainIn l := by
  simp only [PlainIn, nodesOfAll, nodes_eq, List.cons_append, List.mem_cons, List.mem_append]
  constructor
  · intro h
    exact ⟨h n (Or.inl rfl), fun m hm => h m (Or.inr (Or.inl hm)),
      fun m hm => h m (Or.inr (Or.inr hm))⟩
  · rintro ⟨hn, hbelow, hrest⟩ m (rfl | hm | hm)
    · exact hn
    · exact hbelow m hm
    · exact hrest m hm

theorem plainIn_reverse {l : List Node} (h : PlainIn l) : PlainIn l.reverse := by
  intro n hn
  obtain ⟨c, hc, hbelow⟩ := mem_nodesOfAll.mp hn
  exact h n (mem_nodesOfAll.mpr ⟨c, List.mem_reverse.mp hc, hbelow⟩)

end Node

namespace Builder
open Node (PlainIn plainIn_nil plainIn_cons plainIn_reverse)

/-- An open element is no plain text, and what it holds is plain. -/
structure Frame.Plain (f : Frame) : Prop where
  value : ∀ text raw, f.value ≠ .text text raw false
  children : PlainIn f.children

structure State.Plain (s : State) : Prop where
  content : PlainIn s.content
  frames : ∀ f ∈ s.frames, f.Plain

variable {keepBlanks : Bool} {s s' : State} {n : Node}

theorem plainIn_withText (text : String) {l : List Node} (h : PlainIn l) :
    PlainIn (withText text l) := by
  unfold withText
  split
  · rename_i t raw unescaped children rest
    obtain ⟨hleaf, -, hrest⟩ := plainIn_cons.mp h
    have hplain : (⟨.text t raw false, unescaped, children⟩ : Node) =
        { value := .plainText t } := hleaf t raw rfl
    cases hplain
    refine plainIn_cons.mpr ⟨?_, plainIn_nil, hrest⟩
    intro t' raw' ht
    cases ht
    rfl
  · refine plainIn_cons.mpr ⟨?_, plainIn_nil, h⟩
    intro t' raw' ht
    cases ht
    rfl

theorem State.Plain.addNode (h : s.Plain) (hleaf : n.IsPlainLeaf) (hbelow : PlainIn n.children) :
    (Builder.addNode n s).Plain := by
  unfold Builder.addNode
  split
  · rename_i hframes
    exact ⟨plainIn_cons.mpr ⟨hleaf, hbelow, h.content⟩, h.frames⟩
  · rename_i f rest hframes
    have hall := h.frames
    rw [hframes] at hall
    obtain ⟨hf, hrest⟩ := List.forall_mem_cons.mp hall
    refine ⟨h.content, List.forall_mem_cons.mpr ⟨⟨hf.value, ?_⟩, hrest⟩⟩
    exact plainIn_cons.mpr ⟨hleaf, hbelow, hf.children⟩

theorem State.Plain.addFrame (h : s.Plain) {f : Frame} (hf : f.Plain) :
    (Builder.addNode f.node s).Plain := by
  refine h.addNode (fun text raw hvalue => ?_) (plainIn_reverse hf.children)
  exact (hf.value text raw hvalue).elim

theorem State.Plain.addText (h : s.Plain) (text : String) :
    (Builder.addText keepBlanks text s).Plain := by
  unfold Builder.addText
  split
  · split
    · exact h
    · exact ⟨plainIn_withText text h.content, h.frames⟩
  · rename_i f rest hframes
    have hall := h.frames
    rw [hframes] at hall
    obtain ⟨hf, hrest⟩ := List.forall_mem_cons.mp hall
    split
    · rename_i t raw verbatim hvalue
      refine ⟨h.content, List.forall_mem_cons.mpr ⟨⟨?_, hf.children⟩, hrest⟩⟩
      intro t' raw' ht
      cases ht
      exact hf.value t raw hvalue
    · split
      · exact h
      · refine ⟨h.content, List.forall_mem_cons.mpr ⟨⟨hf.value, ?_⟩, hrest⟩⟩
        exact plainIn_withText text hf.children

/-- The value that an instruction starts with: the tag called text opens an empty verbatim
text, and any other tag opens an instruction that is no text. -/
theorem instructionValue_cases {tag : StartTag} {value : Value}
    (h : instructionValue tag = .ok value) :
    (tag.name.name = "text" ∧ ∃ raw, value = .text "" raw true) ∨
      (tag.name.name ≠ "text" ∧ value.isInstruction = true ∧
        ∀ text raw verbatim, value ≠ .text text raw verbatim) := by
  unfold instructionValue at h
  split at h
  case h_3 hname =>
    cases h
    exact .inl ⟨hname, _, rfl⟩
  case h_1 hname | h_2 hname | h_4 hname | h_5 hname | h_7 hname | h_9 hname | h_11 hname |
      h_13 hname =>
    obtain ⟨source, -, rfl⟩ := map_eq_ok_iff.mp h
    exact .inr ⟨by rw [hname]; decide, rfl, nofun⟩
  case h_6 hname | h_8 hname | h_10 hname | h_12 hname | h_14 hname =>
    cases h
    exact .inr ⟨by rw [hname]; decide, rfl, nofun⟩
  case h_15 =>
    cases h
    exact .inr ⟨by assumption, rfl, nofun⟩

theorem instructionValue_ne_plain {tag : StartTag} {value : Value}
    (h : instructionValue tag = .ok value) (text : String) (raw : Bool) :
    value ≠ .text text raw false := by
  obtain ⟨-, raw', rfl⟩ | ⟨-, -, hne⟩ := instructionValue_cases h
  · nofun
  · exact hne text raw false

theorem frameOf_plain {outer : Declarations} {tag : StartTag} {f : Frame}
    (h : frameOf outer tag = .ok f) : f.Plain := by
  unfold frameOf at h
  rw [bind_eq_ok_iff] at h
  obtain ⟨uri, -, h⟩ := h
  dsimp only at h
  split at h
  · rw [bind_eq_ok_iff] at h
    obtain ⟨value, hvalue, h⟩ := h
    cases h
    exact ⟨instructionValue_ne_plain hvalue, plainIn_nil⟩
  · rw [bind_eq_ok_iff] at h
    obtain ⟨attributes, -, h⟩ := h
    cases h
    exact ⟨fun text raw => by simp, plainIn_nil⟩

theorem step_plain {token : Markup.Token} (h : s.Plain) (hstep : step keepBlanks s token = .ok s') :
    s'.Plain := by
  have tagEnds : ∀ isEmpty, endStartTag isEmpty s = .ok s' → s'.Plain := by
    intro isEmpty hend
    unfold endStartTag at hend
    split at hend
    · cases hend
      exact h
    · rw [bind_eq_ok_iff] at hend
      obtain ⟨f, hf, hend⟩ := hend
      have hplain := frameOf_plain hf
      cases hend
      have hs : State.Plain { s with pending := none } := ⟨h.content, h.frames⟩
      split
      · exact hs.addFrame hplain
      · exact ⟨h.content, List.forall_mem_cons.mpr ⟨hplain, h.frames⟩⟩
  cases token with
  | elementStart name =>
    cases hstep
    exact ⟨h.content, h.frames⟩
  | attr name value =>
    obtain ⟨value, -, rfl⟩ := map_eq_ok_iff.mp hstep
    exact ⟨h.content, h.frames⟩
  | openEnd => exact tagEnds false hstep
  | emptyEnd => exact tagEnds true hstep
  | close name =>
    have hclose : closeElement name s = .ok s' := hstep
    unfold closeElement at hclose
    split at hclose
    · cases hclose
    · rename_i f rest hframes
      split at hclose
      · cases hclose
        have hall := h.frames
        rw [hframes] at hall
        obtain ⟨hf, hrest⟩ := List.forall_mem_cons.mp hall
        have hs : State.Plain { s with frames := rest } := ⟨h.content, hrest⟩
        exact hs.addFrame hf
      · cases hclose
  | text text =>
    obtain ⟨text, -, rfl⟩ := map_eq_ok_iff.mp hstep
    exact h.addText text
  | cdata text =>
    cases hstep
    exact h.addText text
  | comment text =>
    cases hstep
    refine h.addNode (fun t raw ht => ?_) plainIn_nil
    cases ht
  | processingInstruction target data =>
    cases hstep
    refine h.addNode (fun t raw ht => ?_) plainIn_nil
    cases ht

theorem steps_plain {tokens : List Markup.Token} (h : s.Plain)
    (hsteps : steps keepBlanks tokens s = .ok s') : s'.Plain := by
  induction tokens generalizing s with
  | nil =>
    cases hsteps
    exact h
  | cons token tokens ih =>
    unfold steps at hsteps ih
    rw [List.foldlM_cons, bind_eq_ok_iff] at hsteps
    obtain ⟨t, hstep, hsteps⟩ := hsteps
    exact ih (step_plain h hstep) hsteps

/-- In what is built all plain text is nothing but text. -/
theorem isPlainLeaf_of_build {tokens : List Markup.Token} {template : Node}
    (h : build keepBlanks tokens = .ok template) : ∀ n ∈ template.nodes, n.IsPlainLeaf := by
  obtain ⟨s, hsteps, hfinish⟩ := bind_eq_ok_iff.mp h
  have hstart : State.Plain {} := ⟨Node.plainIn_nil, by simp⟩
  have hplain := steps_plain hstart hsteps
  unfold finish at hfinish
  split at hfinish
  · cases hfinish
    intro n hn
    rw [Node.nodes_eq] at hn
    rcases List.mem_cons.mp hn with rfl | hn
    · intro text raw hvalue
      cases hvalue
    · exact Node.plainIn_reverse hplain.content n hn
  · cases hfinish

end Builder

namespace Template

variable {tokenizer : Markup.Tokenizer} {keepBlanks : Bool} {source : String} {template : Node}

/-- A source is a template if no fault ends its tokens and they build one. -/
theorem parseWith_eq_ok_iff : parseWith tokenizer keepBlanks source = .ok template ↔
    (tokenizer source).2 = none ∧
      Builder.build keepBlanks (tokenizer source).1 = .ok template := by
  unfold parseWith Builder.build
  rcases tokenizer source with ⟨tokens, fault⟩
  dsimp only
  rw [bind_eq_ok_iff, bind_eq_ok_iff]
  cases fault with
  | none => simp
  | some fault => simp

/-- In a template that is parsed all plain text is nothing but text. -/
theorem isPlainLeaf_of_parse (h : parseWith tokenizer keepBlanks source = .ok template) :
    ∀ n ∈ template.nodes, n.IsPlainLeaf :=
  Builder.isPlainLeaf_of_build (parseWith_eq_ok_iff.mp h).2

end Template
end TagGrammar
