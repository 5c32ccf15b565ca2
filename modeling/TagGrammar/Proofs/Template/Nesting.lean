/-
Templates mirror the nesting of their source.

The builder keeps a frame for every open element.  What it has made so far can be listed as
if all of them were closed, each node with its path, its value without text and its mark, and
plain text left out.  In this list opening an element, a single tag, a comment and a
processing instruction each put one entry at the end, below the innermost frame, closing an
element changes nothing and neither does text.  So along the parts of a document the entries
are those of the parts that make nodes, each below the entry of the innermost element that is
open there, and the builder stops exactly at the first close tag that offends.  At the end it
looks at the open elements alone, so a start tag that is cut off there is missed.
-/
import TagGrammar.Proofs.Markup.Nesting
import TagGrammar.Proofs.Template.Parsed

namespace TagGrammar
open Markup (QName Token WrittenTag Part OpenElement Opens Offends Balanced makers written
  attrTokens)

/-- Whether the value is that of text that is no instruction. -/
def Value.isLooseText : Value → Bool
  | .text _ _ false => true
  | _ => false

/-- The value without the text of a text. -/
def Value.withoutText : Value → Value
  | .text _ raw verbatim => .text "" raw verbatim
  | v => v

/-- The nodes of a template but for its root and text that is no instruction, in document
order. -/
def Node.made (template : Node) : List Visit :=
  template.content.filter fun visit => !visit.node.value.isLooseText

namespace Builder

/-! ## What parts make -/

/-- A start tag with its references resolved. -/
def startOf (tag : WrittenTag) : Except ParseError StartTag :=
  tag.attributes.foldlM (fun start a => (resolved a.2).map (start.withAttr a.1))
    { name := tag.name }

/-- The declarations of a start tag. -/
def declarationsOf (tag : WrittenTag) : Declarations :=
  match startOf tag with
  | .ok start => start.declarations
  | .error _ => []

/-- All declarations in scope inside some open elements. -/
def scopeIn (outer : List OpenElement) : Declarations :=
  outer.flatMap fun element => declarationsOf element.tag

/-- A start tag has the given frame where some elements are open: its references, its prefixes
and its required attributes are in order. -/
def FrameIn (outer : List OpenElement) (tag : WrittenTag) (f : Frame) : Prop :=
  ∃ start, startOf tag = .ok start ∧ frameOf (scopeIn outer) start = .ok f

/-- Nothing but its place may be wrong with a part where some elements are open. -/
def ValidIn (outer : List OpenElement) : Part → Prop
  | .opening tag | .single tag => ∃ f, FrameIn outer tag f
  | .text text => ∃ t, resolved text = .ok t
  | _ => True

/-- Nothing but their nesting may be wrong with some parts. -/
def Valid (parts : List Part) : Prop :=
  ∀ before part after outer, parts = before ++ part :: after → Opens before outer →
    ValidIn outer part

/-- What stands for a part that makes a node: its value without text, and its mark. -/
def Makes (outer : List OpenElement) (value : Value) (unescaped : Bool) : Part → Prop
  | .opening tag | .single tag =>
    ∃ f, FrameIn outer tag f ∧ value = f.value ∧ unescaped = f.unescaped
  | .comment text => value = .comment text true ∧ unescaped = false
  | .processingInstruction target data =>
    value = .processingInstruction target data ∧ unescaped = false
  | _ => False

/-- The path of the innermost open element, or that of the root. -/
def parentPath? (paths : List Path) : List OpenElement → Option Path
  | [] => some []
  | element :: _ => paths[element.number]?

/-- The nodes of a template are made by the parts in their order, each below the node of the
innermost element that is open there. -/
structure Mirrors (parts : List Part) (template : Node) : Prop where
  number : template.made.length = makers parts
  node : ∀ before part after outer, parts = before ++ part :: after → Opens before outer →
    part.makesNode = true → ∃ visit, template.made[makers before]? = some visit ∧
      Makes outer visit.node.value.withoutText visit.node.unescaped part ∧
      ∃ path i, parentPath? (template.made.map Visit.path) outer = some path ∧
        visit.path = path ++ [i]

/-! ## Entries -/

/-- What is listed of a node in its place. -/
structure Entry where
  path : Path
  value : Value
  unescaped : Bool

mutual

/-- The entries of a tree at a path. -/
def entriesAt (path : Path) : Node → List Entry
  | ⟨v, u, cs⟩ =>
    (if v.isLooseText then [] else [⟨path, v.withoutText, u⟩]) ++ entriesBelow path 0 cs

def entriesBelow (path : Path) (i : Nat) : List Node → List Entry
  | [] => []
  | n :: rest => entriesAt (path ++ [i]) n ++ entriesBelow path (i + 1) rest

end

/-- The entry of a visit. -/
def entryOf (visit : Visit) : Entry :=
  ⟨visit.path, visit.node.value.withoutText, visit.node.unescaped⟩

mutual

theorem entries_visitsAt (path : Path) (ancestors : List Node) : ∀ n : Node,
    ((Node.visitsAt path ancestors n).filter fun v => !v.node.value.isLooseText).map entryOf =
      entriesAt path n
  | ⟨v, u, cs⟩ => by
    rw [Node.visitsAt, entriesAt, ← entries_visitsBelow path (⟨v, u, cs⟩ :: ancestors) 0 cs,
      List.filter_cons]
    cases hloose : v.isLooseText <;> simp [entryOf]

theorem entries_visitsBelow (path : Path) (ancestors : List Node) (i : Nat) : ∀ l : List Node,
    ((Node.visitsBelow path ancestors i l).filter fun v => !v.node.value.isLooseText).map
      entryOf = entriesBelow path i l
  | [] => rfl
  | n :: rest => by
    rw [Node.visitsBelow, entriesBelow, List.filter_append, List.map_append,
      entries_visitsAt (path ++ [i]) ancestors n, entries_visitsBelow path ancestors (i + 1) rest]

end

theorem map_entryOf_made (template : Node) :
    template.made.map entryOf = entriesBelow [] 0 template.children := by
  rw [Node.made, Node.content_eq, entries_visitsBelow]

theorem entriesBelow_append (path : Path) (i : Nat) (l l' : List Node) :
    entriesBelow path i (l ++ l') =
      entriesBelow path i l ++ entriesBelow path (i + l.length) l' := by
  induction l generalizing i with
  | nil => rfl
  | cons n l ih =>
    rw [List.cons_append, entriesBelow, entriesBelow, ih, List.append_assoc, List.length_cons,
      Nat.add_right_comm, Nat.add_assoc]

/-- The entries of the children of an open node, the last child first. -/
def entriesOfReversed (path : Path) (l : List Node) : List Entry := entriesBelow path 0 l.reverse

theorem entriesOfReversed_cons (path : Path) (n : Node) (l : List Node) :
    entriesOfReversed path (n :: l) =
      entriesOfReversed path l ++ entriesAt (path ++ [l.length]) n := by
  rw [entriesOfReversed, List.reverse_cons, entriesBelow_append, List.length_reverse, Nat.zero_add,
    entriesBelow, entriesBelow, List.append_nil, entriesOfReversed]

theorem entriesAt_eq (path : Path) (n : Node) :
    entriesAt path n = (if n.value.isLooseText then [] else
      [⟨path, n.value.withoutText, n.unescaped⟩]) ++ entriesBelow path 0 n.children := by
  cases n
  rw [entriesAt]

/-- Text that is no instruction has no entry, whatever it is joined to. -/
theorem entriesOfReversed_withText (path : Path) (text : String) (l : List Node) :
    entriesOfReversed path (withText text l) = entriesOfReversed path l := by
  unfold withText
  split
  · rw [entriesOfReversed_cons, entriesOfReversed_cons, entriesAt_eq, entriesAt_eq]
    rfl
  · rw [entriesOfReversed_cons, entriesAt_eq]
    simp [Value.plainText, Value.isLooseText, entriesBelow]

/-! ## What a state lists -/

/-- The content of the innermost of some open elements or of the root, the last child first. -/
def held (content : List Node) : List Frame → List Node
  | [] => content
  | f :: _ => f.children

/-- The path of the innermost of some open elements, each of which will be the next child of
the one around it. -/
def placeOf (content : List Node) : List Frame → Path
  | [] => []
  | _ :: rest => placeOf content rest ++ [(held content rest).length]

/-- The entries of what has been made, as if the open elements were closed. -/
def listed (content : List Node) : List Frame → List Entry
  | [] => entriesOfReversed [] content
  | f :: rest => listed content rest ++ entriesAt (placeOf content (f :: rest)) f.node

namespace State

def listed (s : State) : List Entry := Builder.listed s.content s.frames

/-- The path of a node that is added next. -/
def nextPath (s : State) : Path :=
  placeOf s.content s.frames ++ [(held s.content s.frames).length]

end State

variable {keepBlanks : Bool} {s s' : State} {f : Frame} {n : Node}

theorem entriesAt_node (path : Path) (f : Frame) :
    entriesAt path f.node = (if f.value.isLooseText then [] else
      [⟨path, f.value.withoutText, f.unescaped⟩]) ++ entriesOfReversed path f.children := by
  rw [entriesAt_eq]
  rfl

/-- An added node has its entries last. -/
theorem listed_addNode (n : Node) (s : State) :
    (addNode n s).listed = s.listed ++ entriesAt s.nextPath n := by
  unfold addNode
  split
  · rename_i hframes
    rw [State.listed, State.listed, State.nextPath, hframes]
    exact entriesOfReversed_cons [] n s.content
  · rename_i f rest hframes
    rw [State.listed, State.listed, State.nextPath, hframes, listed, listed, entriesAt_node,
      entriesAt_node, entriesOfReversed_cons]
    simp only [List.append_assoc]
    rfl

/-- Closing an element changes nothing in the list. -/
theorem listed_closed {rest : List Frame} (hframes : s.frames = f :: rest) :
    (addNode f.node { s with frames := rest }).listed = s.listed := by
  rw [listed_addNode, State.listed, State.listed, hframes]
  rfl

theorem listed_opened (f : Frame) (s : State) :
    State.listed { s with frames := f :: s.frames } = s.listed ++ entriesAt s.nextPath f.node :=
  rfl

theorem listed_addText (text : String) (s : State) :
    (addText keepBlanks text s).listed = s.listed := by
  unfold addText
  split
  · rename_i hframes
    split
    · rfl
    · rw [State.listed, State.listed, hframes]
      exact entriesOfReversed_withText [] text s.content
  · rename_i f rest hframes
    split
    · rename_i t raw verbatim hvalue
      rw [State.listed, State.listed, hframes, listed, listed, entriesAt_node, entriesAt_node,
        hvalue]
      cases verbatim <;> rfl
    · split
      · rfl
      · rw [State.listed, State.listed, hframes, listed, listed, entriesAt_node, entriesAt_node,
          entriesOfReversed_withText]
        rfl

/-! ## Open elements in their places -/

/-- The frames are those of some open elements, each at the path that its entry has. -/
inductive Placed (paths : List Path) (content : List Node) :
    List Frame → List OpenElement → Prop where
  | nil : Placed paths content [] []
  | cons {f : Frame} {rest : List Frame} {element : OpenElement} {outer : List OpenElement}
      (hname : f.name = element.tag.name)
      (hdeclarations : f.declarations = declarationsOf element.tag)
      (hplace : paths[element.number]? = some (placeOf content (f :: rest)))
      (h : Placed paths content rest outer) : Placed paths content (f :: rest) (element :: outer)

section

variable {paths : List Path} {content : List Node} {frames : List Frame}
  {outer : List OpenElement}

theorem Placed.scopeOf_eq (h : Placed paths content frames outer) :
    scopeOf frames = scopeIn outer := by
  induction h with
  | nil => rfl
  | cons _ hdeclarations _ _ ih =>
    rw [scopeOf, scopeIn, List.flatMap_cons, List.flatMap_cons, hdeclarations]
    exact congrArg _ ih

theorem Placed.parentPath?_eq (h : Placed paths content frames outer) :
    parentPath? paths outer = some (placeOf content frames) := by
  cases h with
  | nil => rfl
  | cons _ _ hplace _ => exact hplace

theorem getElem?_append_of_eq_some {α : Type} {l : List α} {i : Nat} {a : α}
    (h : l[i]? = some a) (more : List α) : (l ++ more)[i]? = some a := by
  obtain ⟨hi, -⟩ := List.getElem?_eq_some_iff.mp h
  rw [List.getElem?_append_left hi, h]

theorem Placed.append (h : Placed paths content frames outer) (more : List Path) :
    Placed (paths ++ more) content frames outer := by
  induction h with
  | nil => exact .nil
  | cons hname hdeclarations hplace _ ih =>
    exact .cons hname hdeclarations (getElem?_append_of_eq_some hplace more) ih

/-- Adding to the innermost element leaves all where they are. -/
theorem Placed.addNode (h : Placed paths s.content s.frames outer) (n : Node) :
    Placed paths (addNode n s).content (addNode n s).frames outer := by
  unfold Builder.addNode
  split
  · rename_i hframes
    rw [hframes] at h ⊢
    cases h
    exact .nil
  · rename_i f rest hframes
    rw [hframes] at h
    cases h with
    | cons hname hdeclarations hplace h => exact .cons hname hdeclarations hplace h

theorem Placed.addText (h : Placed paths s.content s.frames outer) (text : String) :
    Placed paths (addText keepBlanks text s).content (addText keepBlanks text s).frames outer := by
  unfold Builder.addText
  split
  · rename_i hframes
    split
    · exact h
    · rw [hframes] at h ⊢
      cases h
      exact .nil
  · rename_i f rest hframes
    have hsame := h
    rw [hframes] at h
    cases h with
    | cons hname hdeclarations hplace h =>
      split
      · exact .cons hname hdeclarations hplace h
      · split
        · exact hsame
        · exact .cons hname hdeclarations hplace h

end

/-! ## Entries of parts -/

/-- The entries are those of the parts that make nodes, each below that of the innermost
element open there. -/
structure Listed (parts : List Part) (entries : List Entry) : Prop where
  number : entries.length = makers parts
  entry : ∀ before part after outer, parts = before ++ part :: after → Opens before outer →
    part.makesNode = true → ∃ e, entries[makers before]? = some e ∧
      Makes outer e.value e.unescaped part ∧
      ∃ path i, parentPath? (entries.map Entry.path) outer = some path ∧ e.path = path ++ [i]

section

variable {parts : List Part} {part : Part} {outer : List OpenElement} {entries : List Entry}
  {tag : WrittenTag}

/-- A part of some is the last one or stands before it. -/
theorem split_concat {before after : List Part} {part' : Part}
    (h : parts ++ [part] = before ++ part' :: after) :
    (before = parts ∧ part' = part ∧ after = []) ∨
      ∃ after', after = after' ++ [part] ∧ parts = before ++ part' :: after' := by
  rcases List.eq_nil_or_concat after with rfl | ⟨after', last, rfl⟩
  · obtain ⟨rfl, hlast⟩ := List.append_inj' h rfl
    exact Or.inl ⟨rfl, (List.cons.inj hlast).1.symm, rfl⟩
  · rw [List.concat_eq_append, ← List.cons_append, ← List.append_assoc] at h
    obtain ⟨rfl, rfl⟩ := List.append_singleton_inj.mp h
    exact Or.inr ⟨after', List.concat_eq_append, rfl⟩

theorem valid_concat_iff :
    Valid (parts ++ [part]) ↔ Valid parts ∧ ∀ outer, Opens parts outer → ValidIn outer part := by
  constructor
  · intro h
    refine ⟨fun before part' after outer heq hbefore => ?_, fun outer hparts => ?_⟩
    · refine h before part' (after ++ [part]) outer ?_ hbefore
      rw [heq, List.append_assoc, List.cons_append]
    · exact h parts part [] outer rfl hparts
  · rintro ⟨h, hpart⟩ before part' after outer heq hbefore
    rcases split_concat heq with ⟨rfl, rfl, -⟩ | ⟨after', -, heq⟩
    · exact hpart outer hbefore
    · exact h before part' after' outer heq hbefore

theorem parentPath?_append {paths : List Path} {path : Path}
    (h : parentPath? paths outer = some path) (more : List Path) :
    parentPath? (paths ++ more) outer = some path := by
  cases outer with
  | nil => exact h
  | cons element outer => exact getElem?_append_of_eq_some h more

theorem makers_concat (parts : List Part) (part : Part) :
    makers (parts ++ [part]) = makers parts + if part.makesNode then 1 else 0 := by
  rw [makers, List.countP_append, List.countP_singleton]
  rfl

theorem Listed.concat (h : Listed parts entries) (hpart : part.makesNode = false) :
    Listed (parts ++ [part]) entries := by
  refine ⟨?_, fun before part' after outer heq hbefore hmakes => ?_⟩
  · rw [h.number, makers_concat, hpart]
    rfl
  · rcases split_concat heq with ⟨-, rfl, -⟩ | ⟨after', -, heq⟩
    · rw [hpart] at hmakes
      cases hmakes
    · exact h.entry before part' after' outer heq hbefore hmakes

theorem Listed.concat_entry (h : Listed parts entries) (hopens : Opens parts outer)
    (hpart : part.makesNode = true) {e : Entry} (hmakes : Makes outer e.value e.unescaped part)
    {path : Path} {i : Nat} (hparent : parentPath? (entries.map Entry.path) outer = some path)
    (hpath : e.path = path ++ [i]) : Listed (parts ++ [part]) (entries ++ [e]) := by
  refine ⟨?_, fun before part' after outer' heq hbefore hmakes' => ?_⟩
  · rw [List.length_append, h.number, makers_concat, hpart]
    rfl
  · rw [List.map_append]
    rcases split_concat heq with ⟨rfl, rfl, -⟩ | ⟨after', -, heq⟩
    · obtain rfl := hopens.unique hbefore
      refine ⟨e, ?_, hmakes, path, i, parentPath?_append hparent _, hpath⟩
      rw [← h.number, List.getElem?_concat_length]
    · obtain ⟨e', he', hmade, path', i', hparent', hpath'⟩ :=
        h.entry before part' after' outer' heq hbefore hmakes'
      exact ⟨e', getElem?_append_of_eq_some he' _, hmade, path', i',
        parentPath?_append hparent' _, hpath'⟩

/-! ## Frames of start tags -/

theorem startOf_name {start : StartTag} (h : startOf tag = .ok start) : start.name = tag.name := by
  have hfold : ∀ (attributes : List (QName × String)) (first : StartTag),
      attributes.foldlM (fun start a => (resolved a.2).map (start.withAttr a.1)) first =
        .ok start → start.name = first.name := by
    intro attributes
    induction attributes with
    | nil =>
      intro first h
      cases h
      rfl
    | cons a attributes ih =>
      intro first h
      rw [List.foldlM_cons, bind_eq_ok_iff] at h
      obtain ⟨next, hnext, h⟩ := h
      obtain ⟨value, -, rfl⟩ := map_eq_ok_iff.mp hnext
      rw [ih _ h]
      unfold StartTag.withAttr
      split
      · rfl
      · split <;> rfl
  exact hfold _ _ h

/-- The name under which an attribute of a literal element is kept. -/
def keptName (scope : Declarations) (name : QName) : Except ParseError String :=
  if name.lead.isEmpty then .ok name.name
  else (namespaceOf scope name.lead).map fun uri =>
    if uri == some xslNamespace then "xsl:" ++ name.name else name.text

theorem literalAttributes_cons (scope : Declarations) (a : TagAttr) (rest : List TagAttr) :
    literalAttributes scope (a :: rest) = (do
      let name ← keptName scope a.name
      let kept ← literalAttributes scope rest
      .ok ((name, a.value) :: kept)) := by
  rw [literalAttributes, keptName]
  split <;> rfl

theorem withoutText_of_instructionValue {start : StartTag} {value : Value}
    (h : instructionValue start = .ok value) : value.withoutText = value := by
  obtain ⟨-, raw, rfl⟩ | ⟨-, -, hne⟩ := instructionValue_cases h
  · rfl
  · cases value with
    | text text raw verbatim => exact absurd rfl (hne text raw verbatim)
    | _ => rfl

/-- What a frame is before anything is in it. -/
structure Frame.Fresh (f : Frame) (start : StartTag) : Prop where
  name : f.name = start.name
  declarations : f.declarations = start.declarations
  children : f.children = []
  withoutText : f.value.withoutText = f.value
  loose : f.value.isLooseText = false

theorem fresh_of_frameOf {outer : Declarations} {start : StartTag}
    (h : frameOf outer start = .ok f) : f.Fresh start := by
  have hplain := (frameOf_plain h).value
  have hloose : f.value.isLooseText = false := by
    cases hvalue : f.value with
    | text t raw verbatim =>
      cases verbatim
      · exact absurd hvalue (hplain t raw)
      · rfl
    | _ => rfl
  unfold frameOf at h
  obtain ⟨uri, -, h⟩ := bind_eq_ok_iff.mp h
  dsimp only at h
  split at h
  · obtain ⟨value, hvalue, h⟩ := bind_eq_ok_iff.mp h
    cases h
    exact ⟨rfl, rfl, rfl, withoutText_of_instructionValue hvalue, hloose⟩
  · obtain ⟨attributes, -, h⟩ := bind_eq_ok_iff.mp h
    cases h
    exact ⟨rfl, rfl, rfl, rfl, hloose⟩

theorem entriesAt_fresh {start : StartTag} (h : f.Fresh start) (path : Path) :
    entriesAt path f.node = [⟨path, f.value, f.unescaped⟩] := by
  rw [entriesAt_node, h.loose, h.withoutText, h.children]
  rfl

/-! ## The run over parts -/

theorem steps_append (tokens more : List Token) (s : State) :
    steps keepBlanks (tokens ++ more) s = steps keepBlanks tokens s >>= steps keepBlanks more := by
  unfold steps
  rw [List.foldlM_append]

theorem steps_singleton (token : Token) (s : State) :
    steps keepBlanks [token] s = step keepBlanks s token := by
  rw [steps, List.foldlM_cons]
  exact bind_pure _

theorem steps_attrTokens (attributes : List (QName × String)) (start : StartTag) (s : State) :
    steps keepBlanks (attrTokens attributes) { s with pending := some start } =
      (attributes.foldlM (fun start a => (resolved a.2).map (start.withAttr a.1)) start).map
        fun start => { s with pending := some start } := by
  induction attributes generalizing start with
  | nil => rfl
  | cons a attributes ih =>
    have hstep : steps keepBlanks (attrTokens (a :: attributes)) { s with pending := some start } =
        step keepBlanks { s with pending := some start } (.attr a.1 a.2) >>=
          steps keepBlanks (attrTokens attributes) := rfl
    rw [hstep, step, List.foldlM_cons]
    cases resolved a.2 with
    | error e => rfl
    | ok value => exact ih (start.withAttr a.1 value)

theorem steps_tokens (tag : WrittenTag) (s : State) :
    steps keepBlanks tag.tokens s =
      (startOf tag).map fun start => { s with pending := some start } :=
  steps_attrTokens tag.attributes { name := tag.name } s

/-- Elements that are open, and what the builder has made up to there. -/
structure Tracks (parts : List Part) (outer : List OpenElement) (s : State) : Prop where
  opens : Opens parts outer
  pending : s.pending = none
  placed : Placed (s.listed.map Entry.path) s.content s.frames outer
  listed : Listed parts s.listed

theorem tracks_nil : Tracks [] [] {} := by
  refine ⟨.nil, rfl, .nil, rfl, fun before part after outer heq => ?_⟩
  simp at heq

theorem pending_addNode (n : Node) (s : State) : (addNode n s).pending = s.pending := by
  unfold addNode
  split <;> rfl

theorem pending_addText (text : String) (s : State) :
    (addText keepBlanks text s).pending = s.pending := by
  unfold addText
  split
  · split <;> rfl
  · split
    · rfl
    · split <;> rfl

/-- A node without content is added for a part. -/
theorem Tracks.add (part : Part) (h : Tracks parts outer s) (hnests : part.nests = false)
    (hpart : part.makesNode = true) {value : Value} {unescaped : Bool}
    (hentries : entriesAt s.nextPath n = [⟨s.nextPath, value, unescaped⟩])
    (hmakes : Makes outer value unescaped part) :
    Tracks (parts ++ [part]) outer (addNode n s) := by
  have hlisted : (addNode n s).listed = s.listed ++ [⟨s.nextPath, value, unescaped⟩] := by
    rw [listed_addNode, hentries]
  refine ⟨.leaf h.opens hnests, (pending_addNode n s).trans h.pending, ?_, ?_⟩
  · rw [hlisted, List.map_append]
    exact (h.placed.append _).addNode n
  · rw [hlisted]
    exact h.listed.concat_entry h.opens hpart hmakes h.placed.parentPath?_eq rfl

theorem Tracks.open (h : Tracks parts outer s) {start : StartTag} (hfresh : f.Fresh start)
    (hstart : startOf tag = .ok start) (hframe : FrameIn outer tag f) :
    Tracks (parts ++ [.opening tag]) (⟨tag, makers parts⟩ :: outer)
      { s with frames := f :: s.frames } := by
  have hlisted : State.listed { s with frames := f :: s.frames } =
      s.listed ++ [⟨s.nextPath, f.value, f.unescaped⟩] := by
    rw [listed_opened, entriesAt_fresh hfresh]
  refine ⟨.opening tag h.opens, h.pending, ?_, ?_⟩
  · rw [hlisted, List.map_append]
    refine .cons (hfresh.name.trans (startOf_name hstart)) ?_ ?_ (h.placed.append _)
    · rw [hfresh.declarations, declarationsOf, hstart]
    · have hnumber : makers parts = (s.listed.map Entry.path).length := by
        rw [List.length_map, h.listed.number]
      show (s.listed.map Entry.path ++ [s.nextPath])[makers parts]? = _
      rw [hnumber, List.getElem?_concat_length]
      rfl
  · rw [hlisted]
    exact h.listed.concat_entry h.opens rfl ⟨f, hframe, rfl, rfl⟩ h.placed.parentPath?_eq rfl

theorem Tracks.close {element : OpenElement} (h : Tracks parts (element :: outer) s) :
    ∃ f rest, s.frames = f :: rest ∧ f.name = element.tag.name ∧
      Tracks (parts ++ [.closing element.tag.name]) outer
        (addNode f.node { s with frames := rest }) := by
  have hplaced := h.placed
  generalize hframes : s.frames = frames at hplaced
  cases hplaced with
  | @cons f rest _ _ hname _ _ hrest =>
    refine ⟨f, rest, rfl, hname, .closing h.opens, ?_, ?_, ?_⟩
    · rw [pending_addNode]
      exact h.pending
    · rw [listed_closed hframes]
      exact Placed.addNode (s := { s with frames := rest }) hrest f.node
    · rw [listed_closed hframes]
      exact h.listed.concat rfl

theorem Tracks.text (keepBlanks : Bool) (part : Part) (h : Tracks parts outer s)
    (hnests : part.nests = false) (hpart : part.makesNode = false) (text : String) :
    Tracks (parts ++ [part]) outer (addText keepBlanks text s) := by
  refine ⟨.leaf h.opens hnests, (pending_addText text s).trans h.pending, ?_, ?_⟩
  · rw [listed_addText]
    exact h.placed.addText text
  · rw [listed_addText]
    exact h.listed.concat hpart

/-- A start tag up to its end, where its frame is known. -/
theorem Tracks.steps_tag (h : Tracks parts outer s) (hframe : FrameIn outer tag f)
    (isEmpty : Bool) :
    steps keepBlanks (tag.tokens ++ [Markup.endToken isEmpty]) s =
      .ok (if isEmpty then addNode f.node s else { s with frames := f :: s.frames }) := by
  obtain ⟨start, hstart, hframe⟩ := hframe
  obtain ⟨frames, content, pending⟩ := s
  obtain rfl : pending = none := h.pending
  have hscope : frameOf (scopeOf frames) start = .ok f := by rw [h.placed.scopeOf_eq, hframe]
  rw [steps_append, steps_tokens, hstart]
  show steps keepBlanks [Markup.endToken isEmpty] ⟨frames, content, some start⟩ = _
  rw [steps_singleton]
  cases isEmpty <;> exact bind_eq_ok hscope rfl

/-- The builder takes in a valid part after which there is an answer. -/
theorem Tracks.step (keepBlanks : Bool) {outer' : List OpenElement} (h : Tracks parts outer s)
    (hvalid : ValidIn outer part) (hopens : Opens (parts ++ [part]) outer') :
    ∃ s', steps keepBlanks part.tokens s = .ok s' ∧ Tracks (parts ++ [part]) outer' s' := by
  cases part with
  | opening tag =>
    obtain ⟨f, hframe⟩ := hvalid
    obtain ⟨start, hstart, hf⟩ := hframe
    have hopened := h.open (fresh_of_frameOf hf) hstart ⟨start, hstart, hf⟩
    obtain rfl := hopened.opens.unique hopens
    exact ⟨_, h.steps_tag ⟨start, hstart, hf⟩ false, hopened⟩
  | single tag =>
    obtain ⟨f, hframe⟩ := hvalid
    obtain ⟨start, hstart, hf⟩ := hframe
    have hentries := entriesAt_fresh (fresh_of_frameOf hf) s.nextPath
    have hadded := h.add (.single tag) rfl rfl hentries ⟨f, ⟨start, hstart, hf⟩, rfl, rfl⟩
    obtain rfl := hadded.opens.unique hopens
    exact ⟨_, h.steps_tag ⟨start, hstart, hf⟩ true, hadded⟩
  | closing name =>
    rcases hopens.concat_cases with ⟨hpart, -⟩ | ⟨_, _, htag, -, -⟩ | ⟨element, htag, hbefore⟩
    · cases hpart
    · cases htag
    · cases htag
      obtain rfl := h.opens.unique hbefore
      obtain ⟨f, rest, hframes, hname, hclosed⟩ := h.close
      refine ⟨_, ?_, hclosed⟩
      show steps keepBlanks [.close element.tag.name] s = _
      rw [steps_singleton, Builder.step, closeElement, hframes]
      exact if_pos hname
  | text text =>
    obtain ⟨t, ht⟩ := hvalid
    have hadded := h.text keepBlanks (.text text) rfl rfl t
    obtain rfl := hadded.opens.unique hopens
    refine ⟨_, ?_, hadded⟩
    show steps keepBlanks [.text text] s = _
    rw [steps_singleton, Builder.step, ht]
    rfl
  | cdata text =>
    have hadded := h.text keepBlanks (.cdata text) rfl rfl text
    obtain rfl := hadded.opens.unique hopens
    exact ⟨_, steps_singleton _ s, hadded⟩
  | comment text =>
    have hadded := h.add (n := { value := .comment text true }) (.comment text) rfl rfl
      (by rw [entriesAt_eq]; rfl) ⟨rfl, rfl⟩
    obtain rfl := hadded.opens.unique hopens
    exact ⟨_, steps_singleton _ s, hadded⟩
  | processingInstruction target data =>
    have hadded := h.add (n := { value := .processingInstruction target data })
      (.processingInstruction target data) rfl rfl (by rw [entriesAt_eq]; rfl) ⟨rfl, rfl⟩
    obtain rfl := hadded.opens.unique hopens
    exact ⟨_, steps_singleton _ s, hadded⟩

/-- The builder takes in valid parts after which there is an answer. -/
theorem exists_tracks (keepBlanks : Bool) (hvalid : Valid parts) (h : Opens parts outer) :
    ∃ s, steps keepBlanks (parts.flatMap Part.tokens) {} = .ok s ∧ Tracks parts outer s := by
  induction parts using List.reverseRecOn generalizing outer with
  | nil =>
    obtain rfl := h.of_nil
    exact ⟨{}, rfl, tracks_nil⟩
  | append_singleton parts part ih =>
    obtain ⟨hparts, hpart⟩ := valid_concat_iff.mp hvalid
    obtain ⟨outer', hbefore⟩ := h.exists_before
    obtain ⟨s, hs, htracks⟩ := ih hparts hbefore
    obtain ⟨s', hs', htracks'⟩ := htracks.step keepBlanks (hpart outer' hbefore) h
    refine ⟨s', ?_, htracks'⟩
    rw [List.flatMap_append, steps_append, hs, List.flatMap_singleton]
    exact hs'

/-! ## Templates and faults -/

theorem Valid.of_append {more : List Part} (h : Valid (parts ++ more)) : Valid parts := by
  intro before part after outer heq hbefore
  refine h before part (after ++ more) outer ?_ hbefore
  rw [heq, List.append_assoc, List.cons_append]

/-- The fault of a close tag where it should have another name, or where nothing is open. -/
def closeFault (found : QName) : Option QName → ParseError
  | none => .unexpectedCloseTag found
  | some expected => .invalidCloseTag expected found

/-- What is wrong with the nesting of parts: the first close tag that offends, or else the
innermost element that is open at the end. -/
inductive NestingFault (parts : List Part) : ParseError → Prop where
  | offends {found : QName} {expected : Option QName} (h : Offends parts found expected) :
      NestingFault parts (closeFault found expected)
  | unclosed {element : OpenElement} {outer : List OpenElement}
      (h : Opens parts (element :: outer)) :
      NestingFault parts (.unclosedElement element.tag.name)

theorem Tracks.closeElement_eq {found : QName} (h : Tracks parts outer s)
    (hne : outer.head?.map (fun element => element.tag.name) ≠ some found) :
    closeElement found s =
      .error (closeFault found (outer.head?.map fun element => element.tag.name)) := by
  have hplaced := h.placed
  unfold closeElement
  generalize s.frames = frames at hplaced
  cases hplaced with
  | nil => rfl
  | @cons f rest element outer hname _ _ _ =>
    have hname' : ¬f.name = found := fun heq => hne (by rw [← heq, hname]; rfl)
    dsimp only
    rw [if_neg hname', hname]
    rfl

/-- The builder stops at the first close tag that offends. -/
theorem steps_of_offends (hvalid : Valid parts) {found : QName} {expected : Option QName}
    (h : Offends parts found expected) :
    steps keepBlanks (parts.flatMap Part.tokens) {} = .error (closeFault found expected) := by
  obtain ⟨before, after, outer, rfl, hbefore, rfl, hne⟩ := h
  obtain ⟨s, hs, htracks⟩ := exists_tracks keepBlanks hvalid.of_append hbefore
  have hsteps : steps keepBlanks ((before ++ .closing found :: after).flatMap Part.tokens) {} =
      closeElement found s >>= steps keepBlanks (after.flatMap Part.tokens) := by
    rw [List.flatMap_append, steps_append, hs]
    rfl
  rw [hsteps, htracks.closeElement_eq hne]
  rfl

/-- A start tag that is cut off leaves no trace. -/
theorem build_written {cut : Option WrittenTag}
    (hcut : ∀ tag ∈ cut, ∃ start, startOf tag = .ok start) :
    build keepBlanks (written parts cut) = build keepBlanks (parts.flatMap Part.tokens) := by
  unfold build written
  rw [steps_append]
  cases steps keepBlanks (parts.flatMap Part.tokens) {} with
  | error e => rfl
  | ok s =>
    cases cut with
    | none => rfl
    | some tag =>
      obtain ⟨start, hstart⟩ := hcut tag rfl
      show steps keepBlanks tag.tokens s >>= finish = finish s
      rw [steps_tokens, hstart]
      rfl

theorem mirrors_of_listed {template : Node}
    (h : Listed parts (entriesBelow [] 0 template.children)) : Mirrors parts template := by
  rw [← map_entryOf_made] at h
  refine ⟨by rw [← h.number, List.length_map], ?_⟩
  intro before part after outer heq hbefore hmakes
  obtain ⟨e, he, hmade, path, i, hparent, hpath⟩ :=
    h.entry before part after outer heq hbefore hmakes
  rw [List.getElem?_map, Option.map_eq_some_iff] at he
  obtain ⟨visit, hvisit, rfl⟩ := he
  rw [List.map_map] at hparent
  exact ⟨visit, hvisit, hmade, path, i, hparent, hpath⟩

/-- What comes of valid parts. -/
structure Outcome (parts : List Part) (result : Except ParseError Node) : Prop where
  built : (∃ template, result = .ok template) ↔ Balanced parts
  fault : ∀ e, result = .error e ↔ NestingFault parts e
  mirrors : ∀ template, result = .ok template → Mirrors parts template

theorem NestingFault.not_balanced {e : ParseError} (h : NestingFault parts e) :
    ¬Balanced parts := by
  rw [Markup.balanced_iff]
  intro hopens
  cases h with
  | offends h => exact h.not_opens hopens
  | unclosed h => cases h.unique hopens

theorem NestingFault.unique {e e' : ParseError} (h : NestingFault parts e)
    (h' : NestingFault parts e') : e = e' := by
  cases h with
  | offends h =>
    cases h' with
    | offends h' =>
      obtain ⟨rfl, rfl⟩ := h.unique h'
      rfl
    | unclosed h' => exact (h.not_opens h').elim
  | unclosed h =>
    cases h' with
    | offends h' => exact (h'.not_opens h).elim
    | unclosed h' =>
      cases h.unique h'
      rfl

theorem outcome_ok {template : Node} (h : Balanced parts) (hmirrors : Mirrors parts template) :
    Outcome parts (.ok template) where
  built := ⟨fun _ => h, fun _ => ⟨template, rfl⟩⟩
  fault e := by
    constructor
    · rintro ⟨⟩
    · intro he
      exact (he.not_balanced h).elim
  mirrors := by
    rintro _ ⟨⟩
    exact hmirrors

theorem outcome_error {e : ParseError} (h : NestingFault parts e) :
    Outcome parts (.error e) where
  built := by
    constructor
    · rintro ⟨_, ⟨⟩⟩
    · intro hbalanced
      exact (h.not_balanced hbalanced).elim
  fault e' := by
    constructor
    · rintro ⟨⟩
      exact h
    · intro h'
      rw [h.unique h']
  mirrors := by
    rintro _ ⟨⟩

theorem outcome_parts (hvalid : Valid parts) :
    Outcome parts (build keepBlanks (parts.flatMap Part.tokens)) := by
  unfold build
  rcases Markup.opens_or_offends parts with ⟨outer, hopens⟩ | ⟨found, expected, hoffends⟩
  · obtain ⟨s, hs, htracks⟩ := exists_tracks keepBlanks hvalid hopens
    rw [hs]
    show Outcome parts (finish s)
    have hplaced := htracks.placed
    have hlisted := htracks.listed
    unfold finish
    rw [State.listed] at hlisted
    generalize s.frames = frames at hplaced hlisted
    cases hplaced with
    | nil => exact outcome_ok (Markup.balanced_iff.mpr hopens) (mirrors_of_listed hlisted)
    | cons hname _ _ _ =>
      dsimp only
      rw [hname]
      exact outcome_error (.unclosed hopens)
  · rw [steps_of_offends hvalid hoffends]
    exact outcome_error (.offends hoffends)

/-- The parts of a document with the start tag that is cut off after them, whose element is
open at the end. -/
def withCut (parts : List Part) (cut : Option WrittenTag) : List Part :=
  parts ++ (cut.map Part.opening).toList

/-- A start tag that is cut off is missed, unless a close tag offends before it or the element
around it, which is the one that is named then, has the same name. -/
theorem Outcome.withCut_iff {cut : Option WrittenTag} {result : Except ParseError Node}
    (h : Outcome parts result) :
    Outcome (withCut parts cut) result ↔ ∀ tag ∈ cut, ∀ outer, Opens parts outer →
      outer.head?.map (fun element => element.tag.name) = some tag.name := by
  cases cut with
  | none => simp [withCut, h]
  | some tag =>
    show Outcome (parts ++ [.opening tag]) result ↔ _
    constructor
    · rintro hwhole _ ⟨⟩ outer hopens
      have hresult := (hwhole.fault _).mpr (.unclosed (.opening tag hopens))
      have hfault : NestingFault parts (.unclosedElement tag.name) := (h.fault _).mp hresult
      generalize herror : ParseError.unclosedElement tag.name = e at hfault
      cases hfault with
      | offends hoffends => exact (hoffends.not_opens hopens).elim
      | unclosed hopens' =>
        injection herror with hname
        rw [hopens.unique hopens', hname]
        rfl
    · intro hname
      rcases Markup.opens_or_offends parts with ⟨outer, hopens⟩ | ⟨found, expected, hoffends⟩
      · obtain ⟨element, hhead, heq⟩ := Option.map_eq_some_iff.mp (hname tag rfl outer hopens)
        obtain ⟨outer, rfl⟩ := List.head?_eq_some_iff.mp hhead
        rw [(h.fault _).mpr (.unclosed hopens), heq]
        exact outcome_error (.unclosed (.opening tag hopens))
      · rw [(h.fault _).mpr (.offends hoffends)]
        exact outcome_error (.offends (hoffends.append _))

/-- Tokens in which tags alternate with content are those of some parts, and a start tag that
is cut off at the end leaves no trace.  Valid parts make a template exactly if they are
balanced, which mirrors them; otherwise the fault is that of their nesting.  So the result is
that of the whole document exactly if no start tag is cut off, unless a close tag offends
before it or the element around it has its name. -/
theorem build_mirrors (keepBlanks : Bool) {tokens : List Token}
    (htokens : Markup.Alternates false tokens) :
    (∃ parts cut, tokens = written parts cut) ∧
      ∀ parts cut, tokens = written parts cut → Valid parts →
        (∀ tag ∈ cut, ∃ start, startOf tag = .ok start) →
        Outcome parts (build keepBlanks tokens) ∧
          (Outcome (withCut parts cut) (build keepBlanks tokens) ↔
            ∀ tag ∈ cut, ∀ outer, Opens parts outer →
              outer.head?.map (fun element => element.tag.name) = some tag.name) := by
  refine ⟨Markup.alternates_iff.mp htokens, ?_⟩
  rintro parts cut rfl hvalid hcut
  have houtcome : Outcome parts (build keepBlanks (written parts cut)) := by
    rw [build_written hcut]
    exact outcome_parts hvalid
  exact ⟨houtcome, houtcome.withCut_iff⟩

end

/-! ## A document -/

/-- A tag without attributes. -/
def plainTag (name : String) : WrittenTag := { name := ⟨"", name⟩ }

/-- An element with a comment and an element without content. -/
def smallDocument : List Part :=
  [.opening (plainTag "a"), .comment "c", .single (plainTag "b"), .closing ⟨"", "a"⟩]

theorem frameIn_plainTag {outer : List OpenElement} (h : scopeIn outer = []) (name : String) :
    ∃ f, FrameIn outer (plainTag name) f := by
  refine ⟨⟨⟨"", name⟩, .element { name }, false, [], []⟩, { name := ⟨"", name⟩ }, rfl, ?_⟩
  rw [h]
  rfl

theorem opens_smallDocument : Opens smallDocument.dropLast [⟨plainTag "a", 0⟩] :=
  @Opens.leaf [_, _] _ _ (@Opens.leaf [_] _ _ (@Opens.opening [] _ _ .nil) rfl) rfl

theorem valid_smallDocument : Valid smallDocument := by
  have hnil : Valid [] := by
    intro before part after outer heq
    simp at heq
  have hopening : Valid [.opening (plainTag "a")] := by
    refine (@valid_concat_iff [] _).mpr ⟨hnil, fun outer h => ?_⟩
    rw [h.of_nil]
    exact frameIn_plainTag rfl "a"
  have hcomment : Valid [.opening (plainTag "a"), .comment "c"] :=
    (@valid_concat_iff [_] _).mpr ⟨hopening, fun _ _ => trivial⟩
  have hsingle : Valid smallDocument.dropLast := by
    refine (@valid_concat_iff [_, _] _).mpr ⟨hcomment, fun outer h => ?_⟩
    rw [h.unique (@Opens.leaf [_] _ _ (@Opens.opening [] _ _ .nil) rfl)]
    exact frameIn_plainTag rfl "b"
  exact (@valid_concat_iff [_, _, _] _).mpr ⟨hsingle, fun _ _ => trivial⟩

/-- The document makes a template that mirrors it, also with a start tag that is cut off after
it, which is missed.  Without its last part an element is left open. -/
theorem build_mirrors_smallDocument :
    (∃ template, build false (written smallDocument (some (plainTag "d"))) = .ok template ∧
        Mirrors smallDocument template) ∧
      ¬Outcome (withCut smallDocument (some (plainTag "d")))
        (build false (written smallDocument (some (plainTag "d")))) ∧
      build false (written smallDocument.dropLast none) =
        .error (.unclosedElement ⟨"", "a"⟩) := by
  have hbalanced : Balanced smallDocument :=
    @Balanced.element (plainTag "a") [.comment "c", .single (plainTag "b")] []
      (.leaf rfl (.leaf rfl .nil)) .nil
  obtain ⟨hwhole, hcut⟩ := (build_mirrors false (Markup.alternates_written smallDocument
    (some (plainTag "d")))).2 _ _ rfl valid_smallDocument (by rintro _ ⟨⟩; exact ⟨_, rfl⟩)
  obtain ⟨hpart, -⟩ := (build_mirrors false (Markup.alternates_written smallDocument.dropLast
    none)).2 _ _ rfl (@Valid.of_append _ [.closing ⟨"", "a"⟩] valid_smallDocument) (by simp)
  obtain ⟨template, htemplate⟩ := hwhole.built.mpr hbalanced
  refine ⟨⟨template, htemplate, hwhole.mirrors template htemplate⟩, fun h => ?_,
    (hpart.fault _).mpr (.unclosed opens_smallDocument)⟩
  have hname := hcut.mp h _ rfl [] (Markup.balanced_iff.mp hbalanced)
  cases hname

/-- A start tag that is cut off alone makes an empty template, though its element is open at
the end. -/
theorem cut_tag_unnoticed :
    Markup.Alternates false [.elementStart ⟨"", "b"⟩] ∧
      [.elementStart ⟨"", "b"⟩] = written [] (some (plainTag "b")) ∧
      (∃ template, build false [.elementStart ⟨"", "b"⟩] = .ok template ∧
        template.children = []) ∧
      ¬Outcome (withCut [] (some (plainTag "b"))) (build false [.elementStart ⟨"", "b"⟩]) := by
  refine ⟨by decide, rfl, ⟨{ value := .root }, rfl, rfl⟩, fun h => ?_⟩
  have hfault := (h.fault _).mpr (.unclosed (.opening (plainTag "b") .nil))
  cases hfault

end Builder
end TagGrammar
