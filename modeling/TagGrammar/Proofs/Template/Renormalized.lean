/-
What a second normalization changes.

The passes are run once and in a fixed order, so a pass may leave something for those before
it.  A constant that became text may hold references, and branches that were merged may give
a choice that can be merged further.  Nothing else is left: a parsed template is normalized
once and for all exactly if no inserted constant holds a reference where it would be replaced
and all choices that come out are settled, as they are if all that go in are plain
(`run_normalized_eq_self_iff`).
-/
import TagGrammar.Proofs.Safety.Normalized
import TagGrammar.Proofs.Template.Pieces
import TagGrammar.Proofs.Template.PlainChoices

namespace TagGrammar

variable {d e m n template : Node}

/-! ## References -/

namespace Curly
open ValueTemplate (isLiteral)

/-- The node keeps its content when references are replaced. -/
def KeepsContent (e : Node) : Prop :=
  e.value.asElement?.isSome = true → ∀ c ∈ e.children, replacement? c = none

/-- No text is left to be replaced. -/
def IsConverted (n : Node) : Prop := ∀ e ∈ n.nodes, KeepsContent e

theorem replacement?_eq_none_iff :
    replacement? n = none ↔
      ∀ text raw, n.value = .text text raw false → isLiteral (pieces text) = true := by
  unfold replacement?
  split
  · rename_i text raw hvalue
    simp [hvalue]
  · rename_i hother
    exact iff_of_true rfl fun text raw hvalue => absurd hvalue (hother text raw)

theorem replacement?_congr (h : m.value = n.value) (hn : replacement? n = none) :
    replacement? m = none := by
  rw [replacement?_eq_none_iff] at hn ⊢
  rwa [h]

theorem value_convert (n : Node) : (convert n).value = n.value :=
  congrArg Prod.fst (own_convert n)

theorem replacement?_pieceNode {piece : ValuePart} (h : IsCut piece) :
    replacement? (pieceNode piece) = none := by
  rw [replacement?_eq_none_iff]
  cases piece with
  | literal text =>
    intro text' raw hvalue
    cases hvalue
    exact h
  | expression source => exact fun text' raw hvalue => nomatch hvalue

theorem asElement?_pieceNode (piece : ValuePart) :
    (pieceNode piece).value.asElement? = none := by
  cases piece <;> rfl

theorem isConverted_convert (n : Node) : IsConverted (convert n) := by
  intro d hd helement c hc
  rcases mem_nodes_convert n d hd with ⟨e, he, rfl⟩ | ⟨text, -, piece, -, rfl⟩
  · rw [value_convert] at helement
    rcases mem_children_convert hc with ⟨c, -, hkept, rfl⟩ | ⟨text, -, piece, hpiece, rfl⟩
    · exact replacement?_congr (value_convert c) (hkept helement)
    · exact replacement?_pieceNode (isCut_of_mem_pieces hpiece)
  · rw [asElement?_pieceNode] at helement
    cases helement

theorem convert_of_isConverted (n : Node) (h : IsConverted n) : convert n = n := by
  induction n using Node.of_children with
  | step n ih =>
    obtain ⟨hkeeps, hbelow⟩ := Node.forall_mem_nodes.mp h
    have hchildren : ∀ c ∈ n.children, convert c = c := fun c hc => ih c hc (hbelow c hc)
    refine Node.eq_of_children (value_convert n) (by cases n; rw [convert]) ?_
    rw [children_convert]
    split
    · rename_i helement
      have halone : ∀ c ∈ n.children, (replacement? c).getD [convert c] = [c] := by
        intro c hc
        rw [hkeeps helement c hc, hchildren c hc]
        rfl
      rw [convertContent_eq, List.flatMap_congr halone, List.flatMap_singleton']
    · rw [convertAll_eq, List.map_congr_left hchildren, List.map_id']

theorem hasNestedReplacement_of_isConverted (h : IsConverted n) :
    hasNestedReplacement n = false := by
  refine hasNestedReplacement_eq_false_of_bare fun e he helement c hc hreplaced => ?_
  rw [h e he helement c hc] at hreplaced
  cases hreplaced

theorem local_keepsContent : Branches.Local KeepsContent where
  congr m n hvalue hchildren hn helement c hc := by
    rw [hvalue] at helement
    have hmem : c.value ∈ n.children.map Node.value := hchildren ▸ List.mem_map_of_mem hc
    obtain ⟨c', hc', hsame⟩ := List.mem_map.mp hmem
    exact replacement?_congr hsame.symm (hn helement c' hc')
  choice n hchoice helement := by
    rw [hchoice] at helement
    cases helement
  branch n test hbranch helement := by
    rw [hbranch] at helement
    cases helement

end Curly

/-! ## Constants -/

namespace InlineLiteral
open Curly (IsCut convert pieceNode)

/-- The text of the constant that a value inserts. -/
def insertedText? : Value → Option String
  | .valueOf select false => constantText? select
  | _ => none

/-- The node inserts no constant. -/
def InsertsNone (n : Node) : Prop := inlined n.value = n.value

/-- No constant is left to become text. -/
def IsInlined (n : Node) : Prop := ∀ d ∈ n.nodes, InsertsNone d

theorem inlined_eq (v : Value) : inlined v = (insertedText? v).elim v .plainText := by
  unfold inlined
  split
  · rename_i select
    rw [insertedText?]
    cases constantText? select <;> rfl
  · rename_i hother
    have hnone : insertedText? v = none := by
      unfold insertedText?
      split
      · exact absurd rfl (hother _)
      · rfl
    rw [hnone]
    rfl

theorem inlined_inlined (v : Value) : inlined (inlined v) = inlined v := by
  rw [inlined_eq v]
  cases htext : insertedText? v with
  | none => rw [Option.elim_none, inlined_eq, htext, Option.elim_none]
  | some text => rfl

theorem asElement?_inlined (v : Value) : (inlined v).asElement? = v.asElement? := by
  unfold inlined
  split
  · split <;> rfl
  · rfl

theorem inlined_eq_choose {v : Value} (h : inlined v = .choose) : v = .choose := by
  unfold inlined at h
  split at h
  · split at h <;> cases h
  · exact h

theorem isInlined_inline (n : Node) : IsInlined (inline n) := by
  intro d hd
  rw [inline, Node.nodes_mapValues] at hd
  obtain ⟨k, -, rfl⟩ := List.mem_map.mp hd
  rw [InsertsNone, Node.value_mapValues, inlined_inlined]

theorem inline_of_isInlined (n : Node) (h : IsInlined n) : inline n = n := by
  induction n using Node.of_children with
  | step n ih =>
    obtain ⟨hvalue, hbelow⟩ := Node.forall_mem_nodes.mp h
    have hchildren : ∀ c ∈ n.children, c.mapValues inlined = c := fun c hc =>
      ih c hc (hbelow c hc)
    refine Node.eq_of_children ?_ (Node.unescaped_mapValues inlined n) ?_
    · rw [inline, Node.value_mapValues, hvalue]
    · rw [inline, Node.children_mapValues, List.map_congr_left hchildren, List.map_id']

theorem insertsNone_pieceNode {piece : ValuePart} (h : IsCut piece) :
    InsertsNone (pieceNode piece) := by
  cases piece with
  | literal text => rfl
  | expression source =>
    have hnone : insertedText? (pieceNode (.expression source)).value = none := h
    rw [InsertsNone, inlined_eq, hnone, Option.elim_none]

theorem isInlined_convert (h : IsInlined n) : IsInlined (convert n) := by
  intro d hd
  rcases Curly.mem_nodes_convert n d hd with ⟨e, he, rfl⟩ | ⟨text, -, piece, hpiece, rfl⟩
  · rw [InsertsNone, Curly.value_convert]
    exact h e he
  · exact insertsNone_pieceNode (Curly.isCut_of_mem_pieces hpiece)

theorem local_insertsNone : Branches.Local InsertsNone where
  congr m n hvalue _ hn := by
    rw [InsertsNone, hvalue]
    exact hn
  choice n hchoice := by
    rw [InsertsNone, hchoice]
    rfl
  branch n test hbranch := by
    rw [InsertsNone, hbranch]
    rfl

end InlineLiteral

/-! ## Templates -/

namespace Normalizer
open Branches (IsPlainChoice Settled mergeEverywhere test?)
open Curly (IsConverted KeepsContent convert replacement? replacement?_eq_none_iff)
open InlineLiteral (IsInlined asElement?_inlined inlined inlined_eq insertedText?)
open ValueTemplate (isLiteral)

/-- A template before its branches are merged. -/
def rewritten (n : Node) : Node := InlineLiteral.inline (convert n)

/-- A literal element with an inserted constant in its content whose text holds a
reference. -/
def InsertsReference (e : Node) : Prop :=
  e.value.asElement?.isSome = true ∧
    ∃ c ∈ e.children, ∃ text ∈ insertedText? c.value, isLiteral (Curly.pieces text) = false

instance (e : Node) : Decidable (InsertsReference e) :=
  inferInstanceAs (Decidable (_ ∧ ∃ c ∈ e.children, ∃ text ∈ insertedText? c.value, _))

theorem value_rewritten (n : Node) : (rewritten n).value = inlined n.value := by
  rw [rewritten, InlineLiteral.inline, Node.value_mapValues, Curly.value_convert]

theorem mem_nodes_rewritten (hd : d ∈ (rewritten n).nodes) :
    (∃ e ∈ n.nodes, d = rewritten e) ∨
      ∃ text, ∃ piece ∈ Curly.pieces text, d = InlineLiteral.inline (Curly.pieceNode piece) := by
  rw [rewritten, InlineLiteral.inline, Node.nodes_mapValues] at hd
  obtain ⟨k, hk, rfl⟩ := List.mem_map.mp hd
  rcases Curly.mem_nodes_convert n k hk with ⟨e, he, rfl⟩ | ⟨text, -, piece, hpiece, rfl⟩
  · exact Or.inl ⟨e, he, rfl⟩
  · exact Or.inr ⟨text, piece, hpiece, rfl⟩

theorem rewritten_mem_nodes (hplain : ∀ n ∈ template.nodes, n.IsPlainLeaf)
    (he : e ∈ template.nodes) (helement : e.value.asElement?.isSome = true) :
    rewritten e ∈ (rewritten template).nodes := by
  rcases Curly.convert_mem_nodes template hplain e he with ⟨text, rfl⟩ | hmem
  · cases helement
  · rw [rewritten, rewritten, InlineLiteral.inline, Node.nodes_mapValues]
    exact List.mem_map_of_mem hmem

theorem mem_children_rewritten (hd : d ∈ (rewritten e).children) :
    (∃ c ∈ e.children, (e.value.asElement?.isSome = true → replacement? c = none) ∧
        d = rewritten c) ∨
      ∃ text, ∃ piece ∈ Curly.pieces text, d = InlineLiteral.inline (Curly.pieceNode piece) := by
  rw [rewritten, InlineLiteral.inline, Node.children_mapValues] at hd
  obtain ⟨k, hk, rfl⟩ := List.mem_map.mp hd
  rcases Curly.mem_children_convert hk with ⟨c, hc, hkept, rfl⟩ | ⟨text, -, piece, hpiece, rfl⟩
  · exact Or.inl ⟨c, hc, hkept, rfl⟩
  · exact Or.inr ⟨text, piece, hpiece, rfl⟩

theorem keepsContent_rewritten_iff :
    KeepsContent (rewritten e) ↔ ¬InsertsReference e := by
  constructor
  · rintro hkeeps ⟨helement, c, hc, text, htext, hreference⟩
    have hkept : replacement? c = none := by
      rw [replacement?_eq_none_iff]
      intro text' raw hvalue
      rw [hvalue] at htext
      cases htext
    have hmem : rewritten c ∈ (rewritten e).children := by
      rw [rewritten, rewritten, InlineLiteral.inline, Node.children_mapValues]
      exact List.mem_map_of_mem (Curly.convert_mem_children hc hkept)
    have helement' : (rewritten e).value.asElement?.isSome = true := by
      rw [value_rewritten, asElement?_inlined, helement]
    have hvalue : (rewritten c).value = .plainText text := by
      rw [value_rewritten, inlined_eq, Option.mem_def.mp htext, Option.elim_some]
    have hliteral := replacement?_eq_none_iff.mp (hkeeps helement' _ hmem) text false hvalue
    rw [hreference] at hliteral
    cases hliteral
  · intro h helement d hd
    rw [value_rewritten, asElement?_inlined] at helement
    rcases mem_children_rewritten hd with ⟨c, hc, hkept, rfl⟩ | ⟨text, piece, hpiece, rfl⟩
    · cases htext : insertedText? c.value with
      | none =>
        refine Curly.replacement?_congr ?_ (hkept helement)
        rw [value_rewritten, inlined_eq, htext, Option.elim_none]
      | some text =>
        rw [replacement?_eq_none_iff, value_rewritten, inlined_eq, htext, Option.elim_some]
        rintro _ _ ⟨⟩
        by_contra hreference
        exact h ⟨helement, c, hc, text, htext, Bool.eq_false_iff.mpr hreference⟩
    · have hcut := Curly.isCut_of_mem_pieces hpiece
      refine Curly.replacement?_congr ?_ (Curly.replacement?_pieceNode hcut)
      rw [InlineLiteral.inline, Node.value_mapValues]
      exact InlineLiteral.insertsNone_pieceNode hcut

/-- No text is left to be replaced unless some was inserted. -/
theorem isConverted_rewritten_iff (hplain : ∀ n ∈ template.nodes, n.IsPlainLeaf) :
    IsConverted (rewritten template) ↔ ∀ e ∈ template.nodes, ¬InsertsReference e := by
  constructor
  · intro h e he hinserts
    have hmem := rewritten_mem_nodes hplain he hinserts.1
    exact keepsContent_rewritten_iff.mp (h _ hmem) hinserts
  · intro h d hd
    rcases mem_nodes_rewritten hd with ⟨e, he, rfl⟩ | ⟨text, piece, -, rfl⟩
    · exact keepsContent_rewritten_iff.mpr (h e he)
    · intro helement
      rw [InlineLiteral.inline, Node.value_mapValues, asElement?_inlined,
        Curly.asElement?_pieceNode] at helement
      cases helement

theorem exists_choice_of_rewritten (hd : d ∈ (rewritten n).nodes) (hchoice : d.value = .choose) :
    ∃ e ∈ n.nodes, e.value = .choose ∧ d = rewritten e := by
  rcases mem_nodes_rewritten hd with ⟨e, he, rfl⟩ | ⟨text, piece, -, rfl⟩
  · rw [value_rewritten] at hchoice
    exact ⟨e, he, InlineLiteral.inlined_eq_choose hchoice, rfl⟩
  · rw [InlineLiteral.inline, Node.value_mapValues] at hchoice
    have := InlineLiteral.inlined_eq_choose hchoice
    cases piece <;> cases this

/-- Choices stay plain until they are merged. -/
theorem isPlainChoice_rewritten
    (h : ∀ c ∈ template.nodes, c.value = .choose → IsPlainChoice c.children) :
    ∀ c ∈ (rewritten template).nodes, c.value = .choose → IsPlainChoice c.children := by
  intro c hc hchoice
  obtain ⟨e, he, hvalue, rfl⟩ := exists_choice_of_rewritten hc hchoice
  have hchildren : (rewritten e).children = e.children.map rewritten := by
    have hother : ¬e.value.asElement?.isSome = true := by simp [hvalue, Value.asElement?]
    rw [rewritten, InlineLiteral.inline, Node.children_mapValues, Curly.children_convert,
      if_neg hother, Curly.convertAll_eq, List.map_map]
    rfl
  have htest : ∀ n, test? (rewritten n) = test? n := fun n =>
    (Safety.test?_mapValues_inlined _).trans (Branches.test?_congr (Curly.own_convert n))
  rw [hchildren]
  refine (h e he hvalue).map htest fun n hn d hd hchoice => ?_
  obtain ⟨e', he', hvalue', -⟩ := exists_choice_of_rewritten hd hchoice
  exact hn e' he' hvalue'

theorem run_default_eq_ok_iff :
    run default m = .ok n ↔
      Curly.hasNestedReplacement m = false ∧ mergeEverywhere (rewritten m) = n := by
  cases hnested : Curly.hasNestedReplacement m with
  | true =>
    refine iff_of_false (fun h => ?_) (fun h => nomatch h.1)
    simp [run, default, Pass.run, hnested, bind, Except.bind] at h
  | false =>
    have hrun : run default m = .ok (mergeEverywhere (rewritten m)) := by
      simp [run, default, Pass.run, hnested]
      rfl
    rw [hrun, Except.ok.injEq]
    exact (and_iff_right rfl).symm

/-- Normalization leaves a template whose constants are text exactly if no text is left to
be replaced in it and its choices are settled. -/
theorem run_eq_self_iff (hinlined : IsInlined m) :
    run default m = .ok m ↔
      IsConverted m ∧ ∀ n ∈ m.nodes, n.value = .choose → Settled n.children := by
  have hinline := InlineLiteral.inline_of_isInlined _ (InlineLiteral.isInlined_convert hinlined)
  rw [run_default_eq_ok_iff, rewritten, hinline, ← Branches.mergeEverywhere_eq_self_iff]
  constructor
  · rintro ⟨-, hrun⟩
    -- what comes out of the run has no text to be replaced
    have hconverted : IsConverted m := by
      rw [← hrun]
      exact (Curly.local_keepsContent.forall_mem_nodes_mergeEverywhere _).mpr
        (Curly.isConverted_convert m)
    rw [Curly.convert_of_isConverted m hconverted] at hrun
    exact ⟨hconverted, hrun⟩
  · rintro ⟨hconverted, hmerged⟩
    rw [Curly.convert_of_isConverted m hconverted]
    exact ⟨Curly.hasNestedReplacement_of_isConverted hconverted, hmerged⟩

/-- What comes out of a template that was parsed is left by a second normalization exactly
if no inserted constant in the content of a literal element held a reference and all choices
that came out are settled.  These are settled if all choices of the template are plain. -/
theorem run_normalized_eq_self_iff {tokenizer : Markup.Tokenizer} {keepBlanks : Bool}
    {source : String} (h : Template.parseWith tokenizer keepBlanks source = .ok template) :
    ∃ normalized, run default template = .ok normalized ∧
      (run default normalized = .ok normalized ↔
        (∀ e ∈ template.nodes, ¬InsertsReference e) ∧
          ∀ n ∈ normalized.nodes, n.value = .choose → Settled n.children) ∧
      ((∀ n ∈ template.nodes, n.value = .choose → IsPlainChoice n.children) →
        ∀ n ∈ normalized.nodes, n.value = .choose → Settled n.children) := by
  have hplain := Template.isPlainLeaf_of_parse h
  have hinlined : IsInlined (mergeEverywhere (rewritten template)) :=
    (InlineLiteral.local_insertsNone.forall_mem_nodes_mergeEverywhere _).mpr
      (InlineLiteral.isInlined_inline _)
  have hconverted : IsConverted (mergeEverywhere (rewritten template)) ↔
      ∀ e ∈ template.nodes, ¬InsertsReference e :=
    (Curly.local_keepsContent.forall_mem_nodes_mergeEverywhere _).trans
      (isConverted_rewritten_iff hplain)
  refine ⟨_, Safety.run_default hplain, ?_, fun hchoices => ?_⟩
  · rw [← rewritten, run_eq_self_iff hinlined, hconverted]
  · exact Branches.settled_of_plain _ (isPlainChoice_rewritten hchoices)

def plainSource : String :=
  "<b>{@a}<xsl:value-of select=\"'{b}'\"/></b><xsl:choose><xsl:when test='@a=1'>P</xsl:when>" ++
    "<xsl:when test='@a=2'><i>{@b}</i></xsl:when><xsl:when test='@a=3'>P</xsl:when>" ++
    "<xsl:otherwise><xsl:choose><xsl:when test='b'>P</xsl:when>" ++
    "<xsl:when test='@c'>P</xsl:when></xsl:choose></xsl:otherwise></xsl:choose>"

theorem run_normalized_eq_self_plain : ∃ template normalized,
    Template.parse false plainSource = .ok template ∧ run default template = .ok normalized ∧
      run default normalized = .ok normalized := by
  have hall : (Template.parse false plainSource).toOption.any (fun t => decide
      ((∀ e ∈ t.nodes, ¬InsertsReference e) ∧
        ∀ n ∈ t.nodes, n.value = .choose → IsPlainChoice n.children)) = true := by
    decide +kernel
  obtain ⟨template, hparse, hplain⟩ := exists_ok_of_any hall
  obtain ⟨hreferences, hchoices⟩ := of_decide_eq_true hplain
  obtain ⟨normalized, hrun, hiff, hsettled⟩ := run_normalized_eq_self_iff hparse
  exact ⟨template, normalized, hparse, hrun, hiff.mpr ⟨hreferences, hsettled hchoices⟩⟩

theorem exists_again {source : String} (h : (Template.parse false source).toOption.any (fun t =>
    (run default t).toOption.any fun m => (run default m).toOption.any fun again =>
      again.nodes.map Node.value != m.nodes.map Node.value) = true) :
    ∃ template normalized again, Template.parse false source = .ok template ∧
      run default template = .ok normalized ∧ run default normalized = .ok again ∧
        again.nodes.map Node.value ≠ normalized.nodes.map Node.value := by
  obtain ⟨template, hparse, h⟩ := exists_ok_of_any h
  obtain ⟨normalized, hrun, h⟩ := exists_ok_of_any h
  obtain ⟨again, hagain, hvalues⟩ := exists_ok_of_any h
  exact ⟨template, normalized, again, hparse, hrun, hagain, bne_iff_ne.mp hvalues⟩

def insertedReference : String := "<b><xsl:value-of select=\"'{@x}'\"/></b>"

def repeatedConstant : String :=
  "<xsl:choose><xsl:when test='@x=1'>P</xsl:when><xsl:when test='@x=2'>Q</xsl:when>" ++
    "<xsl:when test='@x=2'>Q</xsl:when><xsl:when test='@x=3'>P</xsl:when></xsl:choose>"

def referenceInside : String :=
  "<b><xsl:value-of select=\"'{@x}'\"><c><xsl:value-of select=\"'{@y}'\"/></c>" ++
    "</xsl:value-of></b>"

/-- The second run replaces a reference in a text that was a constant, merges the first
branch with the last one after those between were merged, and fails on a text in another. -/
theorem normalized_changes_again :
    (∃ template normalized again, Template.parse false insertedReference = .ok template ∧
      run default template = .ok normalized ∧ run default normalized = .ok again ∧
        again.nodes.map Node.value ≠ normalized.nodes.map Node.value) ∧
    (∃ template normalized again, Template.parse false repeatedConstant = .ok template ∧
      run default template = .ok normalized ∧ run default normalized = .ok again ∧
        again.nodes.map Node.value ≠ normalized.nodes.map Node.value) ∧
    ∃ template normalized, Template.parse false referenceInside = .ok template ∧
      run default template = .ok normalized ∧
        run default normalized = .error .nestedReplacement := by
  refine ⟨exists_again (by decide +kernel), exists_again (by decide +kernel), ?_⟩
  have hfails : (Template.parse false referenceInside).toOption.any (fun t =>
      (run default t).toOption.any fun m => Curly.hasNestedReplacement m) = true := by
    decide +kernel
  obtain ⟨template, hparse, h⟩ := exists_ok_of_any hfails
  obtain ⟨normalized, hrun, hnested⟩ := exists_ok_of_any h
  refine ⟨template, normalized, hparse, hrun, ?_⟩
  simp [run, default, Pass.run, hnested, bind, Except.bind]

end Normalizer
end TagGrammar
