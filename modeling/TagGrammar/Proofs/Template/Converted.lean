/-
Templates with the references in their texts replaced.

In the content of literal elements every text with a reference gives way to the nodes for its
pieces, and all else stays as it is and where it is.  That relates a template to one other
template at most (`rewritten_iff`).

The replacement takes a text out with all that is below it.  So it does what it should on
the templates in which there is nothing below a text to be replaced, and on no others
(`convertCurly_rewrites_iff`).  A parsed template has nothing below any text, but text that
was made of an instruction may have.
-/
import TagGrammar.Proofs.Template.Renormalized

namespace TagGrammar
namespace Curly
open ValueTemplate (isLiteral)

variable {c m n template : Node} {ds ns : List Node} {inElement : Bool} {text : String}

/-- Text that is to be replaced if a literal element holds it. -/
def HasReference (n : Node) : Prop :=
  ∃ text raw, n.value = .text text raw false ∧ HoldsReference text.toList

mutual

/-- The second tree is the first one with the references in its texts replaced. -/
inductive Rewritten : Node → Node → Prop
  | node {v : Value} {u : Bool} {ns ds : List Node}
      (h : ContentRewritten v.asElement?.isSome ns ds) : Rewritten ⟨v, u, ns⟩ ⟨v, u, ds⟩

/-- What stands below a node with the references replaced, in it too if the node is a
literal element. -/
inductive ContentRewritten : Bool → List Node → List Node → Prop
  | nil {inElement : Bool} : ContentRewritten inElement [] []
  /-- The nodes for the pieces of a text stand in its place. -/
  | cut {text : String} {raw u : Bool} {parts : List ValuePart} {ns ds : List Node}
      (hreference : HoldsReference text.toList)
      (hwritten : parts.flatMap written = text.toList) (hleftmost : IsLeftmost parts)
      (hrest : ContentRewritten true ns ds) :
      ContentRewritten true (⟨.text text raw false, u, []⟩ :: ns) (parts.map pieceNode ++ ds)
  /-- Any other node stays. -/
  | keep {inElement : Bool} {c d : Node} {ns ds : List Node}
      (hother : inElement = true → ¬HasReference c) (hnode : Rewritten c d)
      (hrest : ContentRewritten inElement ns ds) :
      ContentRewritten inElement (c :: ns) (d :: ds)

end

/-- There is nothing below the texts to be replaced. -/
def HasBareTexts (template : Node) : Prop :=
  ∀ e ∈ template.nodes, e.value.asElement?.isSome = true →
    ∀ c ∈ e.children, HasReference c → c.children = []

theorem replacement?_eq_none_iff_not_hasReference : replacement? n = none ↔ ¬HasReference n := by
  simp only [replacement?_eq_none_iff, isLiteral_pieces_iff, HasReference, not_exists, not_and]

theorem replacement?_text {raw u : Bool} (hreference : HoldsReference text.toList) :
    replacement? ⟨.text text raw false, u, ns⟩ = some ((pieces text).map pieceNode) := by
  have hmore : isLiteral (pieces text) = false :=
    Bool.eq_false_iff.mpr fun h => isLiteral_pieces_iff.mp h hreference
  simp [replacement?, hmore]

/-- What stands in the place of a node, which may be in a literal element. -/
def inPlace (inElement : Bool) (c : Node) : List Node :=
  if inElement then (replacement? c).getD [convert c] else [convert c]

theorem children_convert_eq_flatMap (n : Node) :
    (convert n).children = n.children.flatMap (inPlace n.value.asElement?.isSome) := by
  rw [children_convert]
  split
  · rename_i helement
    rw [helement]
    exact convertContent_eq n.children
  · rename_i hother
    rw [Bool.eq_false_iff.mpr hother, convertAll_eq]
    exact List.map_eq_flatMap

theorem inPlace_of_kept (h : inElement = true → ¬HasReference c) :
    inPlace inElement c = [convert c] := by
  unfold inPlace
  split
  · rename_i helement
    rw [replacement?_eq_none_iff_not_hasReference.mpr (h helement), Option.getD_none]
  · rfl

theorem inPlace_text {raw u : Bool} (hreference : HoldsReference text.toList) :
    inPlace true ⟨.text text raw false, u, ns⟩ = (pieces text).map pieceNode := by
  rw [inPlace, replacement?_text hreference]
  rfl

theorem hasBareTexts_iff :
    HasBareTexts n ↔
      (n.value.asElement?.isSome = true → ∀ c ∈ n.children, HasReference c → c.children = []) ∧
        ∀ c ∈ n.children, HasBareTexts c :=
  Node.forall_mem_nodes

theorem hasBareTexts_text {raw u : Bool} : HasBareTexts ⟨.text text raw false, u, []⟩ :=
  hasBareTexts_iff.mpr ⟨fun helement => (nomatch helement), fun _ hc => nomatch hc⟩

theorem contentRewritten_iff
    (ih : ∀ c ∈ ns, ∀ d, Rewritten c d ↔ HasBareTexts c ∧ convert c = d) :
    ContentRewritten inElement ns ds ↔
      ((inElement = true → ∀ c ∈ ns, HasReference c → c.children = []) ∧
        ∀ c ∈ ns, HasBareTexts c) ∧ ns.flatMap (inPlace inElement) = ds := by
  induction ns generalizing ds with
  | nil =>
    constructor
    · rintro ⟨⟩
      simp
    · rintro ⟨-, rfl⟩
      exact .nil
  | cons c ns ihns =>
    have hns {ds : List Node} := @ihns ds fun c hc => ih c (List.mem_cons_of_mem _ hc)
    rw [List.flatMap_cons]
    simp only [List.forall_mem_cons]
    constructor
    · intro h
      cases h with
      | cut hreference hwritten hleftmost hrest =>
        obtain ⟨⟨hbare, hbelow⟩, rfl⟩ := hns.mp hrest
        rw [inPlace_text hreference, pieces_eq_iff.mpr ⟨hwritten, hleftmost⟩]
        exact ⟨⟨fun helement => ⟨fun _ => rfl, hbare helement⟩, hasBareTexts_text, hbelow⟩, rfl⟩
      | keep hother hnode hrest =>
        obtain ⟨⟨hbare, hbelow⟩, rfl⟩ := hns.mp hrest
        obtain ⟨hc, rfl⟩ := (ih c List.mem_cons_self _).mp hnode
        rw [inPlace_of_kept hother]
        exact ⟨⟨fun helement => ⟨fun h => absurd h (hother helement), hbare helement⟩, hc, hbelow⟩,
          rfl⟩
    · rintro ⟨⟨hbare, hc, hbelow⟩, rfl⟩
      have hrest := hns.mpr ⟨⟨fun helement => (hbare helement).2, hbelow⟩, rfl⟩
      by_cases hcut : inElement = true ∧ HasReference c
      · obtain ⟨rfl, hreference⟩ := hcut
        have hempty := (hbare rfl).1 hreference
        obtain ⟨v, u, cs⟩ := c
        obtain ⟨text, raw, rfl, hholds⟩ := hreference
        obtain rfl := hempty
        obtain ⟨hwritten, hleftmost⟩ := pieces_eq_iff.mp (Eq.refl (pieces text))
        rw [inPlace_text hholds]
        exact .cut hholds hwritten hleftmost hrest
      · have hother := not_and.mp hcut
        rw [inPlace_of_kept hother]
        exact .keep hother ((ih c List.mem_cons_self _).mpr ⟨hc, rfl⟩) hrest

/-- The references in a template can be replaced without anything else being changed exactly
if there is nothing below the texts to be replaced, and in one way. -/
theorem rewritten_iff : Rewritten n m ↔ HasBareTexts n ∧ convert n = m := by
  induction n using Node.of_children generalizing m with
  | step n ih =>
    have hcontent (ds : List Node) : ContentRewritten n.value.asElement?.isSome n.children ds ↔
        HasBareTexts n ∧ (convert n).children = ds := by
      rw [hasBareTexts_iff, children_convert_eq_flatMap]
      exact contentRewritten_iff fun c hc d => ih c hc
    constructor
    · rintro ⟨h⟩
      obtain ⟨hbare, rfl⟩ := (hcontent _).mp h
      refine ⟨hbare, Node.eq_of_children (value_convert _) ?_ rfl⟩
      rw [convert]
    · rintro ⟨hbare, rfl⟩
      have h := (hcontent _).mpr ⟨hbare, rfl⟩
      obtain ⟨v, u, ns⟩ := n
      rw [convert] at h ⊢
      exact .node h

theorem hasNestedReplacement_of_hasBareTexts (h : HasBareTexts template) :
    hasNestedReplacement template = false := by
  refine hasNestedReplacement_eq_false_of_bare fun e he helement c hc hreplaced => ?_
  refine h e he helement c hc (by_contra fun hnone => ?_)
  rw [replacement?_eq_none_iff_not_hasReference.mpr hnone] at hreplaced
  cases hreplaced

theorem hasBareTexts_of_parse {tokenizer : Markup.Tokenizer} {keepBlanks : Bool}
    {source : String} (h : Template.parseWith tokenizer keepBlanks source = .ok template) :
    HasBareTexts template := by
  rintro e he - c hc ⟨text, raw, hvalue, -⟩
  rw [Template.isPlainLeaf_of_parse h c (Node.child_mem_nodes he hc) text raw hvalue]

theorem run_convertCurly_eq_ok_iff :
    Pass.convertCurly.run template = .ok m ↔
      hasNestedReplacement template = false ∧ convert template = m := by
  rw [Pass.run]
  split
  · rename_i hnested
    simp [hnested]
  · rename_i hnested
    simp [hnested]

/-- Replacing the references succeeds, changes nothing else and leaves nothing for a second
time, exactly if there is nothing below the texts to be replaced.  In a parsed template there
is nothing below them. -/
theorem convertCurly_rewrites_iff (template : Node) :
    ((∃ m, Pass.convertCurly.run template = .ok m ∧ Rewritten template m ∧
        Pass.convertCurly.run m = .ok m) ↔ HasBareTexts template) ∧
      ∀ tokenizer keepBlanks source,
        Template.parseWith tokenizer keepBlanks source = .ok template →
          HasBareTexts template := by
  refine ⟨⟨?_, fun hbare => ?_⟩, fun _ _ _ => hasBareTexts_of_parse⟩
  · rintro ⟨m, -, hrewritten, -⟩
    exact (rewritten_iff.mp hrewritten).1
  · have hconverted := isConverted_convert template
    refine ⟨convert template, ?_, rewritten_iff.mpr ⟨hbare, rfl⟩, ?_⟩
    · exact run_convertCurly_eq_ok_iff.mpr ⟨hasNestedReplacement_of_hasBareTexts hbare, rfl⟩
    · exact run_convertCurly_eq_ok_iff.mpr
        ⟨hasNestedReplacement_of_isConverted hconverted, convert_of_isConverted _ hconverted⟩

def elementInText : String := "<b><xsl:value-of select=\"'{@x}'\"><c/></xsl:value-of></b>"

def referenceInText : String := "<b><xsl:value-of select=\"'{@x}'\"><c>{@y}</c></xsl:value-of></b>"

/-- An element below a text that is replaced is lost, and the replacement fails if that
element holds text to be replaced. -/
theorem content_of_text_is_lost :
    (∃ template inlined converted, Template.parse false elementInText = .ok template ∧
      Pass.inlineLiterals.run template = .ok inlined ∧
      Pass.convertCurly.run inlined = .ok converted ∧
      inlined.nodes.map Node.htmlName? = [none, some "b", none, some "c"] ∧
      converted.nodes.map Node.htmlName? = [none, some "b", none]) ∧
    ∃ template inlined, Template.parse false referenceInText = .ok template ∧
      Pass.inlineLiterals.run template = .ok inlined ∧
      Pass.convertCurly.run inlined = .error .nestedReplacement := by
  constructor
  · have hall : (Template.parse false elementInText).toOption.any (fun t =>
        (Pass.inlineLiterals.run t).toOption.any fun i =>
          (Pass.convertCurly.run i).toOption.any fun m =>
            i.nodes.map Node.htmlName? == [none, some "b", none, some "c"] &&
              m.nodes.map Node.htmlName? == [none, some "b", none]) = true := by
      decide +kernel
    obtain ⟨template, hparse, h⟩ := exists_ok_of_any hall
    obtain ⟨inlined, hinline, h⟩ := exists_ok_of_any h
    obtain ⟨converted, hconvert, h⟩ := exists_ok_of_any h
    obtain ⟨hbefore, hafter⟩ := Bool.and_eq_true_iff.mp h
    exact ⟨template, inlined, converted, hparse, hinline, hconvert, eq_of_beq hbefore,
      eq_of_beq hafter⟩
  · have hall : (Template.parse false referenceInText).toOption.any (fun t =>
        (Pass.inlineLiterals.run t).toOption.any hasNestedReplacement) = true := by
      decide +kernel
    obtain ⟨template, hparse, h⟩ := exists_ok_of_any hall
    obtain ⟨inlined, hinline, hnested⟩ := exists_ok_of_any h
    exact ⟨template, inlined, hparse, hinline, if_pos hnested⟩

end Curly
end TagGrammar
