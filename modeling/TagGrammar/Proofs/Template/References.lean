/-
What replacing references keeps of the nodes of a template.

If all plain text is nothing but text, no replaced text holds another one, so the
replacement never fails (`hasNestedReplacement_eq_false`).  It takes out only plain text
and brings in only text and insertions.  So all other nodes stay, and every branch was
there before.
-/
import TagGrammar.Proofs.Template.Parsed
import TagGrammar.Template.Branches
import TagGrammar.Template.Curly

namespace TagGrammar
namespace Curly
open Node (FoundIn)

variable {c d n : Node}

/-- Text and nothing but text. -/
def IsPlainText (n : Node) : Prop := ∃ text, n = { value := .plainText text }

/-- A node is a literal element with a text in it. -/
def HasText (n : Node) (text : String) : Prop :=
  n.value.asElement?.isSome = true ∧ ∃ c ∈ n.children, ∃ raw, c.value = .text text raw false

theorem of_replacement? {nodes : List Node} (h : replacement? n = some nodes) :
    ∃ text raw, n.value = .text text raw false ∧ nodes = (pieces text).map pieceNode := by
  unfold replacement? at h
  split at h
  · rename_i text raw hvalue
    dsimp only at h
    split at h
    · cases h
    · cases h
      exact ⟨text, raw, hvalue, rfl⟩
  · cases h

theorem isPlainText_of_replacement? {nodes : List Node} (hleaf : n.IsPlainLeaf)
    (h : replacement? n = some nodes) : IsPlainText n := by
  obtain ⟨text, raw, hvalue, -⟩ := of_replacement? h
  exact ⟨text, hleaf text raw hvalue⟩

theorem parent_of_isReplaced {template : Node} {visit : Visit} (hvisit : visit ∈ template.visits)
    (h : isReplaced visit = true) :
    (replacement? visit.node).isSome = true ∧
      ∃ e ∈ template.nodes, e.value.asElement?.isSome = true ∧ visit.node ∈ e.children := by
  unfold isReplaced at h
  obtain ⟨hreplaced, helement⟩ := Bool.and_eq_true_iff.mp h
  refine ⟨hreplaced, ?_⟩
  rcases Node.parent_of_mem_visitsAt [] [] template visit hvisit with
    rfl | ⟨parent, hparent, habove, hchild⟩
  · cases helement
  · rw [habove, Option.any_some] at helement
    exact ⟨parent, hparent, helement, hchild⟩

/-- No replaced text holds another one if there is nothing below the texts that are replaced. -/
theorem hasNestedReplacement_eq_false_of_bare {template : Node}
    (h : ∀ e ∈ template.nodes, e.value.asElement?.isSome = true → ∀ c ∈ e.children,
      (replacement? c).isSome = true → c.children = []) :
    hasNestedReplacement template = false := by
  unfold hasNestedReplacement
  rw [List.any_eq_false]
  intro visit hvisit
  by_cases hreplaced : isReplaced visit = true
  · obtain ⟨hnode, e, he, helement, hchild⟩ := parent_of_isReplaced hvisit hreplaced
    have hbelow : visit.below = [] := by
      rw [Visit.below_eq, h e he helement visit.node hchild hnode, Node.visitsBelow]
    simp [hbelow]
  · simp [hreplaced]

theorem hasNestedReplacement_eq_false {template : Node}
    (h : ∀ n ∈ template.nodes, n.IsPlainLeaf) : hasNestedReplacement template = false := by
  refine hasNestedReplacement_eq_false_of_bare fun e he _ c hc hreplaced => ?_
  obtain ⟨nodes, hnodes⟩ := Option.isSome_iff_exists.mp hreplaced
  have hleaf := h c (Node.child_mem_nodes he hc)
  obtain ⟨text, rfl⟩ := isPlainText_of_replacement? hleaf hnodes
  rfl

/-! ## Children -/

theorem convertAll_eq (l : List Node) : convertAll l = l.map convert := by
  induction l with
  | nil => rfl
  | cons n rest ih => rw [convertAll, ih, List.map_cons]

theorem convertContent_eq (l : List Node) :
    convertContent l = l.flatMap fun n => (replacement? n).getD [convert n] := by
  induction l with
  | nil => rfl
  | cons n rest ih =>
    rw [convertContent, List.flatMap_cons]
    split
    · rename_i nodes hnodes
      rw [ih, hnodes, Option.getD_some]
    · rename_i hnone
      rw [ih, hnone, Option.getD_none, List.singleton_append]

theorem children_convert (n : Node) :
    (convert n).children =
      if n.value.asElement?.isSome then convertContent n.children else convertAll n.children := by
  cases n
  rw [convert]

theorem own_convert (n : Node) : (convert n).own = n.own := by
  cases n
  rw [convert]
  exact Node.own_congr rfl rfl

theorem convert_mem_children (hc : c ∈ n.children) (hkept : replacement? c = none) :
    convert c ∈ (convert n).children := by
  rw [children_convert]
  split
  · rw [convertContent_eq, List.mem_flatMap]
    exact ⟨c, hc, by simp [hkept]⟩
  · rw [convertAll_eq]
    exact List.mem_map_of_mem hc

theorem mem_children_convert (hd : d ∈ (convert n).children) :
    (∃ c ∈ n.children, (n.value.asElement?.isSome = true → replacement? c = none) ∧
        d = convert c) ∨
      ∃ text, HasText n text ∧ ∃ piece ∈ pieces text, d = pieceNode piece := by
  rw [children_convert] at hd
  split at hd
  · rename_i helement
    rw [convertContent_eq, List.mem_flatMap] at hd
    obtain ⟨c, hc, hd⟩ := hd
    cases hreplaced : replacement? c with
    | none =>
      rw [hreplaced, Option.getD_none, List.mem_singleton] at hd
      exact Or.inl ⟨c, hc, fun _ => hreplaced, hd⟩
    | some nodes =>
      rw [hreplaced, Option.getD_some] at hd
      obtain ⟨text, raw, hvalue, rfl⟩ := of_replacement? hreplaced
      obtain ⟨piece, hpiece, rfl⟩ := List.mem_map.mp hd
      exact Or.inr ⟨text, ⟨helement, c, hc, raw, hvalue⟩, piece, hpiece, rfl⟩
  · rename_i helement
    rw [convertAll_eq] at hd
    obtain ⟨c, hc, rfl⟩ := List.mem_map.mp hd
    exact Or.inl ⟨c, hc, fun h => absurd h helement, rfl⟩

/-! ## Nodes -/

/-- A node of a converted template is one of the template, converted, or a piece of a text in a
literal element. -/
theorem mem_nodes_convert (n : Node) : ∀ d ∈ (convert n).nodes,
    (∃ e ∈ n.nodes, d = convert e) ∨
      ∃ text, (∃ e ∈ n.nodes, HasText e text) ∧ ∃ piece ∈ pieces text, d = pieceNode piece := by
  induction n using Node.of_children with
  | step n ih =>
    rw [Node.forall_mem_nodes]
    refine ⟨Or.inl ⟨n, n.self_mem_nodes, rfl⟩, fun c' hc' d hd => ?_⟩
    rcases mem_children_convert hc' with ⟨c, hc, -, rfl⟩ | ⟨text, htext, piece, hpiece, rfl⟩
    · refine (ih c hc d hd).imp ?_ ?_
      · rintro ⟨e, he, rfl⟩
        exact ⟨e, Node.mem_nodes_of_mem_children hc he, rfl⟩
      · rintro ⟨text, ⟨e, he, htext⟩, hpiece⟩
        exact ⟨text, ⟨e, Node.mem_nodes_of_mem_children hc he, htext⟩, hpiece⟩
    · have hd' : d = pieceNode piece := by
        cases piece <;> simpa [pieceNode, Node.nodes, Node.nodesOfAll] using hd
      exact Or.inr ⟨text, ⟨n, n.self_mem_nodes, htext⟩, piece, hpiece, hd'⟩

/-- Every node but plain text stays, converted. -/
theorem convert_mem_nodes (n : Node) (hplain : ∀ e ∈ n.nodes, e.IsPlainLeaf) :
    ∀ e ∈ n.nodes, IsPlainText e ∨ convert e ∈ (convert n).nodes := by
  induction n using Node.of_children with
  | step n ih =>
    obtain ⟨-, hbelow⟩ := Node.forall_mem_nodes.mp hplain
    refine Node.forall_mem_nodes.mpr ⟨Or.inr (Node.self_mem_nodes _), fun c hc e he => ?_⟩
    cases hreplaced : replacement? c with
    | some nodes =>
      have hleaf := hbelow c hc c c.self_mem_nodes
      obtain ⟨text, rfl⟩ := isPlainText_of_replacement? hleaf hreplaced
      exact Or.inl ⟨text, List.mem_singleton.mp he⟩
    | none =>
      refine (ih c hc (hbelow c hc) e he).imp_right fun hmem => ?_
      exact Node.mem_nodes_of_mem_children (convert_mem_children hc hreplaced) hmem

/-- Every node but plain text stays when references are replaced. -/
theorem foundIn_convert {template : Node} (h : ∀ n ∈ template.nodes, n.IsPlainLeaf) :
    ∀ d ∈ template.nodes, IsPlainText d ∨ FoundIn (convert template).nodes d :=
  fun d hd => (convert_mem_nodes template h d hd).imp_right fun hmem => ⟨_, hmem, own_convert d⟩

/-- Replacing references makes no branch. -/
theorem branch_foundIn {template d : Node} {test : String} (hd : d ∈ (convert template).nodes)
    (hvalue : d.value = .when test) : FoundIn template.nodes d := by
  rcases mem_nodes_convert template d hd with ⟨e, he, rfl⟩ | ⟨text, -, piece, hpiece, rfl⟩
  · exact ⟨e, he, (own_convert e).symm⟩
  · cases piece <;> cases hvalue

end Curly
end TagGrammar
