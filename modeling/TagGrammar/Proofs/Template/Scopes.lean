/-
Prefixes and what they stand for.

A declaration of a prefix holds in the element that carries it and nowhere else.  So a prefix
stands for what the last declaration on the nearest start tag says that has one, among the
start tags of the elements that are open (`NamespaceIn`).  The builder keeps the declarations
of the open elements in one list, and the first one in it is that declaration
(`namespaceOf_eq_ok_iff`).  A start tag makes an instruction exactly if its prefix stands for
the namespace of instructions, and the attributes of a literal element are kept under names
that show which of them have a prefix that does.  A start tag that is cut off at the end makes
nothing, and nobody asks what its prefix stands for.
-/
import TagGrammar.Proofs.Template.Effects

namespace TagGrammar
open Markup (QName Token WrittenTag Part OpenElement Opens makers written)

/-- The prefix that an attribute declares, if it is a declaration. -/
def Markup.QName.declared? (name : QName) : Option String :=
  if name.lead.isEmpty && name.name == "xmlns" then some ""
  else if name.lead == "xmlns" then some name.name
  else none

/-- What the last declaration of a prefix on a start tag says, as it is written. -/
def Markup.WrittenTag.lastDeclaration? (p : String) (tag : WrittenTag) : Option String :=
  ((tag.attributes.filter fun a => a.1.declared? == some p).getLast?).map Prod.snd

/-- The attributes of a start tag that are no declarations. -/
def Markup.WrittenTag.ownAttributes (tag : WrittenTag) : List (QName × String) :=
  tag.attributes.filter fun a => a.1.declared?.isNone

/-- The start tag of a part. -/
def Markup.Part.tag? : Part → Option WrittenTag
  | .opening tag | .single tag => some tag
  | _ => none

namespace Builder

/-- What a prefix that is not declared stands for, if for anything. -/
def predeclared? (p : String) : Option (Option String) :=
  if p = "" then some none
  else if p = "xsl" then some (some xslNamespace)
  else if p = "xml" then some (some xmlNamespace)
  else none

/-- What a prefix stands for inside some start tags, the innermost first. -/
inductive NamespaceIn (tags : List WrittenTag) (p : String) : Option String → Prop where
  /-- The nearest start tag that declares the prefix says so.  An empty URI means none. -/
  | declared {raw uri : String}
      (h : tags.findSome? (WrittenTag.lastDeclaration? p) = some raw)
      (huri : resolved raw = .ok uri) :
      NamespaceIn tags p (if uri.isEmpty then none else some uri)
  | undeclared {uri : Option String}
      (h : tags.findSome? (WrittenTag.lastDeclaration? p) = none)
      (huri : predeclared? p = some uri) : NamespaceIn tags p uri

/-- The attribute of a literal element that an attribute of its start tag makes. -/
inductive KeptAs (tags : List WrittenTag) : QName × String → String × String → Prop where
  | plain {name : QName} {raw value : String} (hlead : name.lead = "")
      (hvalue : resolved raw = .ok value) : KeptAs tags (name, raw) (name.name, value)
  /-- The prefix of the namespace of instructions is written in one way, whatever it was. -/
  | instruction {name : QName} {raw value : String} (hlead : name.lead ≠ "")
      (hspace : NamespaceIn tags name.lead (some xslNamespace))
      (hvalue : resolved raw = .ok value) :
      KeptAs tags (name, raw) ("xsl:" ++ name.name, value)
  | other {name : QName} {raw value : String} {uri : Option String} (hlead : name.lead ≠ "")
      (hspace : NamespaceIn tags name.lead uri) (hother : uri ≠ some xslNamespace)
      (hvalue : resolved raw = .ok value) : KeptAs tags (name, raw) (name.text, value)

/-- The start tags of some open elements. -/
def tagsOf (outer : List OpenElement) : List WrittenTag := outer.map OpenElement.tag

/-- What a start tag makes where some elements are open. -/
structure Scoped (outer : List OpenElement) (tag : WrittenTag) (uri : Option String)
    (value : Value) : Prop where
  space : NamespaceIn (tag :: tagsOf outer) tag.name.lead uri
  instruction : value.isInstruction = true ↔ uri = some xslNamespace
  element : uri ≠ some xslNamespace → ∃ attributes,
    value = .element { name := tag.name.name, namespaceName := uri, attributes } ∧
      List.Forall₂ (KeptAs (tag :: tagsOf outer)) tag.ownAttributes attributes

/-- Every start tag has a prefix that stands for something. -/
def PrefixesKnown (parts : List Part) : Prop :=
  ∀ before part after tag outer, parts = before ++ part :: after → part.tag? = some tag →
    Opens before outer → ∃ uri, NamespaceIn (tag :: tagsOf outer) tag.name.lead uri

variable {p : String} {tag : WrittenTag} {start : StartTag} {tags : List WrittenTag}
  {uri : Option String}

/-- A prefix stands for one thing. -/
theorem NamespaceIn.unique {uri' : Option String} (h : NamespaceIn tags p uri)
    (h' : NamespaceIn tags p uri') : uri = uri' := by
  cases h with
  | declared hlast huri =>
    cases h' with
    | declared hlast' huri' =>
      cases hlast.symm.trans hlast'
      cases huri.symm.trans huri'
      rfl
    | undeclared hnone => cases hlast.symm.trans hnone
  | undeclared hnone huri =>
    cases h' with
    | declared hlast => cases hlast.symm.trans hnone
    | undeclared _ huri' => exact Option.some.inj (huri.symm.trans huri')

/-! ## Declarations -/

theorem withAttr_of_declared {name : QName} (h : name.declared? = some p) (start : StartTag)
    (value : String) :
    start.withAttr name value = { start with declarations := (p, value) :: start.declarations } := by
  unfold QName.declared? at h
  unfold StartTag.withAttr
  split
  · rename_i hplain
    rw [if_pos hplain] at h
    cases h
    rfl
  · rename_i hplain
    rw [if_neg hplain] at h
    split at h
    · rename_i hlead
      cases h
      rw [if_pos hlead]
    · cases h

theorem withAttr_of_not_declared {name : QName} (h : name.declared? = none) (start : StartTag)
    (value : String) :
    start.withAttr name value = { start with attributes := start.attributes ++ [⟨name, value⟩] } := by
  unfold QName.declared? at h
  unfold StartTag.withAttr
  split
  · rename_i hplain
    rw [if_pos hplain] at h
    cases h
  · rename_i hplain
    rw [if_neg hplain] at h
    split at h
    · cases h
    · rename_i hlead
      rw [if_neg hlead]

/-- A start tag is read up to its last attribute and then with it. -/
theorem startOf_concat_eq_ok {name : QName} {attributes : List (QName × String)}
    {a : QName × String} (h : startOf ⟨name, attributes ++ [a]⟩ = .ok start) :
    ∃ before value, startOf ⟨name, attributes⟩ = .ok before ∧ resolved a.2 = .ok value ∧
      start = before.withAttr a.1 value := by
  unfold startOf at h ⊢
  rw [List.foldlM_append, bind_eq_ok_iff] at h
  obtain ⟨before, hbefore, hlast⟩ := h
  rw [List.foldlM_cons, bind_eq_ok_iff] at hlast
  obtain ⟨after, hafter, hlast⟩ := hlast
  obtain ⟨value, hvalue, rfl⟩ := map_eq_ok_iff.mp hafter
  cases hlast
  exact ⟨before, value, hbefore, hvalue, rfl⟩

/-- A prefix is found in some declarations as the given text says, its references resolved, or
not at all. -/
inductive Finds (p : String) (declarations : Declarations) : Option String → Prop where
  | some {raw uri : String} (huri : resolved raw = .ok uri)
      (h : declarations.find? (fun d => d.1 == p) = some (p, uri)) :
      Finds p declarations (some raw)
  | none (h : declarations.find? (fun d => d.1 == p) = none) : Finds p declarations none

theorem Finds.skip {q value : String} {declarations : Declarations} {last : Option String}
    (h : Finds p declarations last) (hq : q ≠ p) : Finds p ((q, value) :: declarations) last := by
  have hskip : ((q, value) :: declarations).find? (fun d => d.1 == p) =
      declarations.find? fun d => d.1 == p := List.find?_cons_of_neg (by simpa using hq)
  cases h with
  | some huri h => exact .some huri (hskip.trans h)
  | none h => exact .none (hskip.trans h)

/-- The first declaration that the builder finds for a prefix is the last one on the tag. -/
theorem finds_of_startOf (p : String) (h : startOf tag = .ok start) :
    Finds p start.declarations (tag.lastDeclaration? p) := by
  obtain ⟨name, attributes⟩ := tag
  induction attributes using List.reverseRecOn generalizing start with
  | nil =>
    cases h
    exact .none rfl
  | append_singleton attributes a ih =>
    obtain ⟨before, value, hbefore, hvalue, rfl⟩ := startOf_concat_eq_ok h
    have hfinds := ih hbefore
    unfold WrittenTag.lastDeclaration? at hfinds ⊢
    dsimp only at hfinds ⊢
    rw [List.filter_append, List.filter_singleton]
    by_cases hdeclared : a.1.declared? = some p
    · rw [withAttr_of_declared hdeclared, hdeclared, beq_self_eq_true, cond_true,
        List.getLast?_concat]
      exact .some hvalue (List.find?_cons_of_pos (beq_self_eq_true p))
    · rw [beq_eq_false_iff_ne.mpr hdeclared, cond_false, List.append_nil]
      cases hother : a.1.declared? with
      | none =>
        rw [withAttr_of_not_declared hother]
        exact hfinds
      | some q =>
        rw [withAttr_of_declared hother]
        exact hfinds.skip fun hq => hdeclared (by rw [hother, hq])

/-- Start tags whose references are in order. -/
def Readable (tags : List WrittenTag) : Prop := ∀ tag ∈ tags, ∃ start, startOf tag = .ok start

/-- Among the declarations of several start tags those of the nearest one come first. -/
theorem Readable.finds (h : Readable tags) (p : String) :
    Finds p (tags.flatMap declarationsOf) (tags.findSome? (WrittenTag.lastDeclaration? p)) := by
  induction tags with
  | nil => exact .none rfl
  | cons tag tags ih =>
    obtain ⟨⟨start, hstart⟩, hrest⟩ := List.forall_mem_cons.mp h
    have hdeclarations : declarationsOf tag = start.declarations := by
      rw [declarationsOf, hstart]
    have hhere := finds_of_startOf p hstart
    rw [List.flatMap_cons, hdeclarations, List.findSome?_cons]
    generalize tag.lastDeclaration? p = here at hhere
    cases hhere with
    | some huri hfind => exact .some huri (by rw [List.find?_append, hfind]; rfl)
    | none hnone =>
      have hfound := ih hrest
      dsimp only
      generalize tags.findSome? _ = around at hfound
      cases hfound with
      | some huri hfind =>
        exact .some huri (by rw [List.find?_append, hnone, Option.none_or, hfind])
      | none hfind => exact .none (by rw [List.find?_append, hnone, Option.none_or, hfind])

/-- The builder finds what a prefix stands for. -/
theorem namespaceOf_eq_ok_iff (h : Readable tags) :
    namespaceOf (tags.flatMap declarationsOf) p = .ok uri ↔ NamespaceIn tags p uri := by
  have hfinds := h.finds p
  unfold namespaceOf
  generalize hlast : tags.findSome? (WrittenTag.lastDeclaration? p) = last at hfinds
  cases hfinds with
  | @some raw declared hdeclared hfind =>
    rw [hfind]
    dsimp only
    constructor
    · rintro ⟨⟩
      exact .declared hlast hdeclared
    · intro hspace
      rw [hspace.unique (.declared hlast hdeclared)]
  | none hfind =>
    rw [hfind]
    have hdefault : NamespaceIn tags p uri ↔ predeclared? p = some uri := by
      constructor
      · intro hspace
        cases hspace with
        | declared hlast' => cases hlast.symm.trans hlast'
        | undeclared _ huri => exact huri
      · exact .undeclared hlast
    rw [hdefault, predeclared?]
    dsimp only
    by_cases hempty : p = ""
    · simp [hempty]
    · by_cases hxsl : p = "xsl"
      · simp [hxsl]
      · by_cases hxml : p = "xml"
        · simp [hxml]
        · simp [hempty, hxsl, hxml]

/-! ## What start tags make -/

theorem startOf_attributes (h : startOf tag = .ok start) :
    List.Forall₂ (fun a b => b.name = a.1 ∧ resolved a.2 = .ok b.value) tag.ownAttributes
      start.attributes := by
  obtain ⟨name, attributes⟩ := tag
  induction attributes using List.reverseRecOn generalizing start with
  | nil =>
    cases h
    exact .nil
  | append_singleton attributes a ih =>
    obtain ⟨before, value, hbefore, hvalue, rfl⟩ := startOf_concat_eq_ok h
    have hkept := ih hbefore
    unfold WrittenTag.ownAttributes at hkept ⊢
    dsimp only at hkept ⊢
    rw [List.filter_append, List.filter_singleton]
    cases hdeclared : a.1.declared? with
    | none =>
      rw [withAttr_of_not_declared hdeclared]
      exact List.rel_append hkept (.cons ⟨rfl, hvalue⟩ .nil)
    | some q =>
      rw [withAttr_of_declared hdeclared, Option.isNone_some, cond_false, List.append_nil]
      exact hkept

theorem keptAs_of_literalAttributes (htags : Readable tags)
    {written : List (QName × String)} {attributes : List TagAttr}
    (hread : List.Forall₂ (fun a b => b.name = a.1 ∧ resolved a.2 = .ok b.value) written
      attributes) {kept : List (String × String)}
    (h : literalAttributes (tags.flatMap declarationsOf) attributes = .ok kept) :
    List.Forall₂ (KeptAs tags) written kept := by
  induction hread generalizing kept with
  | nil =>
    cases h
    exact .nil
  | @cons a b written attributes hab _ ih =>
    obtain ⟨name, raw⟩ := a
    obtain ⟨name', value⟩ := b
    obtain ⟨rfl, hvalue⟩ := hab
    rw [literalAttributes_cons] at h
    obtain ⟨first, hfirst, h⟩ := bind_eq_ok_iff.mp h
    obtain ⟨rest, hrest, h⟩ := bind_eq_ok_iff.mp h
    cases h
    refine .cons ?_ (ih hrest)
    unfold keptName at hfirst
    dsimp only at hfirst hvalue
    split at hfirst
    · rename_i hempty
      cases hfirst
      exact .plain (String.isEmpty_iff.mp hempty) hvalue
    · rename_i hempty
      have hlead : name'.lead ≠ "" := fun hlead => hempty (String.isEmpty_iff.mpr hlead)
      obtain ⟨uri, hspace, rfl⟩ := map_eq_ok_iff.mp hfirst
      have hspace := (namespaceOf_eq_ok_iff htags).mp hspace
      split
      · rename_i hxsl
        rw [eq_of_beq hxsl] at hspace
        exact .instruction hlead hspace hvalue
      · rename_i hxsl
        exact .other hlead hspace (fun heq => hxsl (beq_iff_eq.mpr heq)) hvalue

theorem isInstruction_of_instructionValue {value : Value}
    (h : instructionValue start = .ok value) : value.isInstruction = true := by
  obtain ⟨-, raw, rfl⟩ | ⟨-, hinstruction, -⟩ := instructionValue_cases h
  · rfl
  · exact hinstruction

/-- What the frame of a start tag is, by what its prefix stands for. -/
theorem FrameIn.scoped {outer : List OpenElement} {f : Frame} (houter : Readable (tagsOf outer))
    (h : FrameIn outer tag f) : ∃ uri, Scoped outer tag uri f.value := by
  obtain ⟨start, hstart, hframe⟩ := h
  have htags : Readable (tag :: tagsOf outer) := List.forall_mem_cons.mpr ⟨⟨start, hstart⟩, houter⟩
  have hscope : start.declarations ++ scopeIn outer = (tag :: tagsOf outer).flatMap declarationsOf := by
    rw [List.flatMap_cons, declarationsOf, hstart, tagsOf, List.flatMap_map, scopeIn]
  have hname := startOf_name hstart
  unfold frameOf at hframe
  rw [hscope, hname] at hframe
  obtain ⟨uri, hspace, hframe⟩ := bind_eq_ok_iff.mp hframe
  have hspace := (namespaceOf_eq_ok_iff htags).mp hspace
  dsimp only at hframe
  split at hframe
  · rename_i hxsl
    obtain rfl := eq_of_beq hxsl
    obtain ⟨value, hvalue, hframe⟩ := bind_eq_ok_iff.mp hframe
    cases hframe
    exact ⟨_, hspace, iff_of_true (isInstruction_of_instructionValue hvalue) rfl,
      fun hother => absurd rfl hother⟩
  · rename_i hxsl
    have hother : uri ≠ some xslNamespace := fun heq => hxsl (beq_iff_eq.mpr heq)
    obtain ⟨attributes, hkept, hframe⟩ := bind_eq_ok_iff.mp hframe
    cases hframe
    refine ⟨uri, hspace, iff_of_false Bool.false_ne_true hother, fun _ => ⟨attributes, rfl, ?_⟩⟩
    exact keptAs_of_literalAttributes htags (startOf_attributes hstart) hkept

/-! ## Documents -/

section

variable {keepBlanks : Bool} {parts : List Part} {cut : Option WrittenTag} {template : Node}

/-- The start tags of the elements that are open after valid parts are in order. -/
theorem readable_of_opens {outer : List OpenElement} (hvalid : Valid parts)
    (h : Opens parts outer) : Readable (tagsOf outer) := by
  induction h with
  | nil => exact fun tag htag => nomatch htag
  | leaf _ _ ih => exact ih hvalid.of_append
  | @opening parts outer tag hparts ih =>
    obtain ⟨hbefore, hlast⟩ := valid_concat_iff.mp hvalid
    obtain ⟨f, start, hstart, -⟩ := hlast outer hparts
    exact List.forall_mem_cons.mpr ⟨⟨start, hstart⟩, ih hbefore⟩
  | closing _ ih => exact (List.forall_mem_cons.mp (ih hvalid.of_append)).2

theorem makesNode_of_tag? {part : Part} {tag : WrittenTag} (h : part.tag? = some tag) :
    part.makesNode = true := by
  cases part <;> first | rfl | cases h

theorem frameIn_of_tag? {part : Part} {tag : WrittenTag} {outer : List OpenElement}
    {value : Value} {unescaped : Bool} (h : part.tag? = some tag)
    (hmakes : Makes outer value unescaped part) : ∃ f, FrameIn outer tag f ∧ value = f.value := by
  cases part with
  | opening tag' | single tag' =>
    cases h
    obtain ⟨f, hframe, hvalue, -⟩ := hmakes
    exact ⟨f, hframe, hvalue⟩
  | _ => cases h

/-- What is said of the value that a start tag makes holds when text has come into it. -/
theorem Scoped.of_withoutText {outer : List OpenElement} {value : Value}
    (h : Scoped outer tag uri value.withoutText) : Scoped outer tag uri value := by
  cases value with
  | text t raw verbatim => exact ⟨h.space, h.instruction, fun hother => nomatch h.element hother⟩
  | _ => exact h

/-- A start tag of a document makes a node by what its prefix stands for. -/
theorem Mirrors.scoped {before after : List Part} {part : Part} {outer : List OpenElement}
    (h : Mirrors parts template) (hvalid : Valid parts) (heq : parts = before ++ part :: after)
    (hbefore : Opens before outer) (htag : part.tag? = some tag) :
    ∃ uri visit, template.made[makers before]? = some visit ∧
      Scoped outer tag uri visit.node.value := by
  obtain ⟨visit, hvisit, hmakes, -⟩ :=
    h.node before part after outer heq hbefore (makesNode_of_tag? htag)
  obtain ⟨f, hframe, hvalue⟩ := frameIn_of_tag? htag hmakes
  rw [heq] at hvalid
  obtain ⟨uri, hscoped⟩ := hframe.scoped (readable_of_opens hvalid.of_append hbefore)
  rw [← hvalue] at hscoped
  exact ⟨uri, visit, hvisit, hscoped.of_withoutText⟩

/-- A start tag that is cut off is the only one whose prefix may stand for nothing. -/
theorem prefixesKnown_withCut_iff (hparts : PrefixesKnown parts) (hopens : Opens parts []) :
    PrefixesKnown (withCut parts cut) ↔
      ∀ tag ∈ cut, ∃ uri, NamespaceIn [tag] tag.name.lead uri := by
  cases cut with
  | none => simpa [withCut] using hparts
  | some tag =>
    show PrefixesKnown (parts ++ [.opening tag]) ↔ _
    constructor
    · rintro h _ ⟨⟩
      exact h parts _ [] tag [] rfl rfl hopens
    · intro h before part after tag' outer heq htag hbefore
      rcases split_concat heq with ⟨rfl, rfl, -⟩ | ⟨after', -, heq⟩
      · cases htag
        obtain rfl := hopens.unique hbefore
        exact h tag rfl
      · exact hparts before part after' tag' outer heq htag hbefore

/-- In tokens that make a template the prefix of every start tag stands for something inside the
elements that are open there, and the start tag makes an instruction or a literal element
accordingly.  So no start tag has another prefix, except one that is cut off at the end. -/
theorem build_scopes (keepBlanks : Bool) {tokens : List Token}
    (htokens : Markup.Alternates false tokens) :
    (∃ parts cut, tokens = written parts cut) ∧
      ∀ parts cut template, tokens = written parts cut →
        build keepBlanks tokens = .ok template →
        (∀ before part after tag, parts = before ++ part :: after → part.tag? = some tag →
          ∃ outer uri visit, Opens before outer ∧ template.made[makers before]? = some visit ∧
            Scoped outer tag uri visit.node.value) ∧
          (PrefixesKnown (withCut parts cut) ↔
            ∀ tag ∈ cut, ∃ uri, NamespaceIn [tag] tag.name.lead uri) := by
  refine ⟨Markup.alternates_iff.mp htokens, ?_⟩
  rintro parts cut template rfl h
  obtain ⟨hvalid, hbalanced, hbuild⟩ := valid_of_build h
  have houtcome : Outcome parts (build keepBlanks (parts.flatMap Part.tokens)) :=
    outcome_parts hvalid
  have hmirrors := houtcome.mirrors template hbuild
  have hopens := Markup.balanced_iff.mp hbalanced
  refine ⟨fun before part after tag heq htag => ?_, prefixesKnown_withCut_iff ?_ hopens⟩
  · obtain ⟨outer, hbefore⟩ := (heq ▸ hopens).exists_before
    obtain ⟨uri, visit, hvisit, hscoped⟩ := hmirrors.scoped hvalid heq hbefore htag
    exact ⟨outer, uri, visit, hbefore, hvisit, hscoped⟩
  · intro before part after tag outer heq htag hbefore
    obtain ⟨uri, visit, -, hscoped⟩ := hmirrors.scoped hvalid heq hbefore htag
    exact ⟨uri, hscoped.space⟩

end

/-! ## A document -/

/-- An instruction under a declared prefix. -/
def conditionTag : WrittenTag :=
  { name := ⟨"p", "if"⟩, attributes := [(⟨"", "test"⟩, "@x"), (⟨"xmlns", "p"⟩, xslNamespace)] }

/-- A literal element that declares the prefix twice, to mean none at last. -/
def shadowingTag : WrittenTag :=
  { name := ⟨"p", "b"⟩,
    attributes := [(⟨"p", "k"⟩, "v"), (⟨"xmlns", "p"⟩, xslNamespace), (⟨"xmlns", "p"⟩, "")] }

def shadowingDocument : List Part :=
  [.opening conditionTag, .single shadowingTag, .closing ⟨"p", "if"⟩]

/-- A start tag that is cut off, under a prefix that nobody has declared. -/
def unknownTag : WrittenTag := { name := ⟨"p", "c"⟩ }

theorem not_namespaceIn_unknownTag (uri : Option String) : ¬NamespaceIn [unknownTag] "p" uri := by
  intro hspace
  cases hspace with
  | declared hlast => cases hlast
  | undeclared _ huri =>
    have hnone : predeclared? "p" = none := by decide
    cases hnone.symm.trans huri

theorem opens_conditionTag : Opens [.opening conditionTag] [⟨conditionTag, 0⟩] :=
  @Opens.opening [] [] conditionTag .nil

/-- Inside the instruction the last declaration on the inner start tag counts, so the element
is a literal one.  After it the prefix stands for nothing, which is missed in a start tag that
is cut off. -/
theorem build_scopes_shadowed :
    ∃ template, build false (written shadowingDocument (some unknownTag)) = .ok template ∧
      (∃ visit, template.made[1]? = some visit ∧
        Scoped [⟨conditionTag, 0⟩] shadowingTag none visit.node.value) ∧
      ¬PrefixesKnown (withCut shadowingDocument (some unknownTag)) := by
  have hbuilt : (build false (written shadowingDocument (some unknownTag))).toOption.any
      (fun _ => true) = true := by decide +kernel
  obtain ⟨template, hbuild, -⟩ := exists_ok_of_any hbuilt
  obtain ⟨htags, hknown⟩ :=
    (build_scopes false (Markup.alternates_written shadowingDocument (some unknownTag))).2
      _ _ template rfl hbuild
  refine ⟨template, hbuild, ?_, fun hall => ?_⟩
  · obtain ⟨outer, uri, visit, hopens, hvisit, hscoped⟩ :=
      htags [.opening conditionTag] (.single shadowingTag) [.closing ⟨"p", "if"⟩] shadowingTag rfl rfl
    obtain rfl := opens_conditionTag.unique hopens
    have hnone : NamespaceIn [shadowingTag, conditionTag] "p" none :=
      @NamespaceIn.declared _ "p" "" "" (by decide +kernel) (by decide +kernel)
    obtain rfl := hscoped.space.unique hnone
    exact ⟨visit, hvisit, hscoped⟩
  · obtain ⟨uri, hspace⟩ := hknown.mp hall unknownTag rfl
    exact not_namespaceIn_unknownTag uri hspace

/-- A start tag whose prefix stands for nothing is no fault if it is cut off. -/
theorem unknown_prefix_unnoticed :
    Markup.Alternates false unknownTag.tokens ∧
      (∃ template, build false unknownTag.tokens = .ok template) ∧
      ∀ uri, ¬NamespaceIn [unknownTag] unknownTag.name.lead uri :=
  ⟨by decide, ⟨{ value := .root }, rfl⟩, not_namespaceIn_unknownTag⟩

end Builder
end TagGrammar
