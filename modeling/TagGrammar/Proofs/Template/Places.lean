/-
The places of the nodes of a template.

A visit holds the ancestors of its node as nodes; `above` gives them back in their own
places.  `around` leaves out the root, which holds the content and is no part of it, and
`content` lists the places of that content.  What a node is apart from its children is
its `own`.
-/
import TagGrammar.Template.Node

namespace TagGrammar

/-- An instruction that makes an attribute. -/
def Value.makesAttribute : Value → Bool
  | attributeConstructor _ _ => true
  | _ => false

namespace Visit

/-- The visits of the ancestors of a visited node but for the root, nearest first. -/
def around (visit : Visit) : List Visit := visit.above.dropLast

/-- A child of a visited node in its place. -/
def child (visit : Visit) (i : Nat) (n : Node) : Visit :=
  ⟨visit.path ++ [i], visit.node :: visit.ancestors, n⟩

theorem aboveFrom_concat (path : Path) (i : Nat) (n : Node) (ancestors : List Node) :
    aboveFrom (path ++ [i]) (n :: ancestors) = ⟨path, ancestors, n⟩ :: aboveFrom path ancestors := by
  rw [aboveFrom, List.dropLast_concat]

theorem above_child (visit : Visit) (i : Nat) (n : Node) :
    (visit.child i n).above = visit :: visit.above :=
  aboveFrom_concat visit.path i visit.node visit.ancestors

theorem around_child (visit : Visit) (h : visit.ancestors ≠ []) (i : Nat) (n : Node) :
    (visit.child i n).around = visit :: visit.around := by
  obtain ⟨path, ancestors, node⟩ := visit
  cases ancestors with
  | nil => exact absurd rfl h
  | cons parent ancestors =>
    rw [around, above_child, around, List.dropLast_cons_of_ne_nil]
    exact List.cons_ne_nil _ _

theorem map_node_aboveFrom (path : Path) (ancestors : List Node) :
    (aboveFrom path ancestors).map node = ancestors := by
  induction ancestors generalizing path with
  | nil => rfl
  | cons n rest ih => rw [aboveFrom, List.map_cons, ih]

theorem map_node_above (visit : Visit) : visit.above.map node = visit.ancestors :=
  map_node_aboveFrom visit.path visit.ancestors

theorem below_eq (visit : Visit) :
    visit.below =
      Node.visitsBelow visit.path (visit.node :: visit.ancestors) 0 visit.node.children := by
  obtain ⟨path, ancestors, v, u, cs⟩ := visit
  rw [below, Node.visitsAt, List.drop_one, List.tail_cons]

theorem map_node_below (visit : Visit) :
    visit.below.map node = Node.nodesOfAll visit.node.children := by
  rw [below_eq, Node.map_node_visitsBelow]

/-- The root stands around nothing. -/
theorem around_child_root (template : Node) (i : Nat) (n : Node) :
    (child ⟨[], [], template⟩ i n).around = [] := by
  rw [around, above_child]
  rfl

end Visit

namespace Node

/-- The visits of the nodes of a template but for its root, in document order. -/
def content (template : Node) : List Visit := template.visits.tail

theorem content_eq (template : Node) :
    template.content = visitsBelow [] [template] 0 template.children := by
  cases template
  rw [content, visits, visitsAt, List.tail_cons]

theorem nodes_eq (n : Node) : n.nodes = n :: nodesOfAll n.children := by
  cases n
  rw [nodes]

theorem mem_nodesOfAll {l : List Node} {d : Node} :
    d ∈ nodesOfAll l ↔ ∃ c ∈ l, d = c ∨ d ∈ nodesOfAll c.children := by
  induction l with
  | nil => simp [nodesOfAll]
  | cons c rest ih =>
    rw [nodesOfAll, List.mem_append, nodes_eq, List.mem_cons, ih]
    simp

theorem eq_of_children {m n : Node} (hvalue : m.value = n.value)
    (hmark : m.unescaped = n.unescaped) (hchildren : m.children = n.children) : m = n := by
  cases m
  cases n
  cases hvalue
  cases hmark
  cases hchildren
  rfl

theorem self_mem_nodes (n : Node) : n ∈ n.nodes := by
  rw [nodes_eq]
  exact List.mem_cons_self

theorem mem_nodesOfAll_of_mem {l : List Node} {c d : Node} (hc : c ∈ l) (hd : d ∈ c.nodes) :
    d ∈ nodesOfAll l := by
  rw [nodes_eq, List.mem_cons] at hd
  exact mem_nodesOfAll.mpr ⟨c, hc, hd⟩

theorem mem_nodes_of_mem_children {n c d : Node} (hc : c ∈ n.children) (hd : d ∈ c.nodes) :
    d ∈ n.nodes := by
  rw [nodes_eq]
  exact List.mem_cons_of_mem n (mem_nodesOfAll_of_mem hc hd)

theorem forall_mem_nodesOfAll {p : Node → Prop} {l : List Node} :
    (∀ d ∈ nodesOfAll l, p d) ↔ ∀ c ∈ l, ∀ d ∈ c.nodes, p d := by
  induction l with
  | nil => simp [nodesOfAll]
  | cons n rest ih => rw [nodesOfAll, List.forall_mem_append, ih, List.forall_mem_cons]

/-- Of the nodes in a list of trees only those of one tree are different. -/
theorem forall_mem_nodesOfAll_congr {p : Node → Prop} {c c' : Node}
    (h : (∀ d ∈ c'.nodes, p d) ↔ ∀ d ∈ c.nodes, p d) (before after : List Node) :
    (∀ d ∈ nodesOfAll (before ++ c' :: after), p d) ↔
      ∀ d ∈ nodesOfAll (before ++ c :: after), p d := by
  rw [forall_mem_nodesOfAll, forall_mem_nodesOfAll]
  simp only [List.forall_mem_append, List.forall_mem_cons, h]

theorem forall_mem_nodes {p : Node → Prop} {n : Node} :
    (∀ d ∈ n.nodes, p d) ↔ p n ∧ ∀ c ∈ n.children, ∀ d ∈ c.nodes, p d := by
  rw [nodes_eq, List.forall_mem_cons, forall_mem_nodesOfAll]

/-! ## Paths below a place -/

mutual

theorem length_path_of_mem_visitsAt (path : Path) (ancestors : List Node) :
    ∀ n : Node, ∀ v ∈ visitsAt path ancestors n, path.length ≤ v.path.length
  | ⟨v, u, cs⟩, inner, hinner => by
    rw [visitsAt] at hinner
    rcases List.mem_cons.mp hinner with rfl | hbelow
    · exact Nat.le_refl _
    · exact Nat.le_of_lt (length_path_of_mem_visitsBelow path _ 0 cs inner hbelow)

theorem length_path_of_mem_visitsBelow (path : Path) (ancestors : List Node) (i : Nat) :
    ∀ l : List Node, ∀ v ∈ visitsBelow path ancestors i l, path.length < v.path.length
  | [], _, hinner => absurd hinner List.not_mem_nil
  | n :: rest, inner, hinner => by
    rw [visitsBelow] at hinner
    rcases List.mem_append.mp hinner with hn | hrest
    · have h := length_path_of_mem_visitsAt (path ++ [i]) ancestors n inner hn
      rw [List.length_append, List.length_singleton] at h
      exact h
    · exact length_path_of_mem_visitsBelow path ancestors (i + 1) rest inner hrest

end

/-- What is visited below a place is a child there or has a longer path than the children. -/
theorem mem_visitsBelow_cases {path : Path} {ancestors : List Node} {i : Nat} {l : List Node}
    {v : Visit} (h : v ∈ visitsBelow path ancestors i l) :
    (∃ j, ∃ c ∈ l, v = ⟨path ++ [j], ancestors, c⟩) ∨ path.length + 1 < v.path.length := by
  induction l generalizing i with
  | nil => exact absurd h List.not_mem_nil
  | cons n rest ih =>
    rw [visitsBelow] at h
    rcases List.mem_append.mp h with hn | hrest
    · obtain ⟨value, u, cs⟩ := n
      rw [visitsAt] at hn
      rcases List.mem_cons.mp hn with rfl | hbelow
      · exact Or.inl ⟨i, _, List.mem_cons_self, rfl⟩
      · have hlength := length_path_of_mem_visitsBelow _ _ _ _ _ hbelow
        rw [List.length_append, List.length_singleton] at hlength
        exact Or.inr hlength
    · rcases ih hrest with ⟨j, c, hc, hv⟩ | hlength
      · exact Or.inl ⟨j, c, List.mem_cons_of_mem _ hc, hv⟩
      · exact Or.inr hlength

theorem exists_mem_visitsBelow {l : List Node} {c : Node} (hc : c ∈ l) (path : Path)
    (ancestors : List Node) (i : Nat) :
    ∃ j, ⟨path ++ [j], ancestors, c⟩ ∈ visitsBelow path ancestors i l := by
  induction l generalizing i with
  | nil => exact absurd hc List.not_mem_nil
  | cons n rest ih =>
    rw [visitsBelow]
    rcases List.mem_cons.mp hc with rfl | hrest
    · refine ⟨i, List.mem_append_left _ ?_⟩
      cases c
      rw [visitsAt]
      exact List.mem_cons_self
    · obtain ⟨j, hj⟩ := ih hrest (i + 1)
      exact ⟨j, List.mem_append_right _ hj⟩

mutual

/-- Induction from the children of a node to the node. -/
theorem of_children {motive : Node → Prop}
    (step : ∀ n : Node, (∀ c ∈ n.children, motive c) → motive n) : ∀ n : Node, motive n
  | ⟨v, u, cs⟩ => step ⟨v, u, cs⟩ (of_children_of_mem step cs)

theorem of_children_of_mem {motive : Node → Prop}
    (step : ∀ n : Node, (∀ c ∈ n.children, motive c) → motive n) :
    ∀ l : List Node, ∀ c ∈ l, motive c
  | [] => fun _ h => absurd h List.not_mem_nil
  | n :: rest => List.forall_mem_cons.mpr ⟨of_children step n, of_children_of_mem step rest⟩

end

theorem child_mem_nodes {n e c : Node} (he : e ∈ n.nodes) (hc : c ∈ e.children) : c ∈ n.nodes := by
  induction n using of_children with
  | step n ih =>
    rcases List.mem_cons.mp (nodes_eq n ▸ he) with rfl | hbelow
    · exact mem_nodes_of_mem_children hc c.self_mem_nodes
    · obtain ⟨k, hk, hek⟩ := mem_nodesOfAll.mp hbelow
      refine mem_nodes_of_mem_children hk (ih k hk ?_)
      rwa [nodes_eq, List.mem_cons]

/-- What a node is apart from its children. -/
def own (n : Node) : Value × Bool := (n.value, n.disablesEscaping)

/-- Apart from its children a node is one of a list. -/
def FoundIn (l : List Node) (n : Node) : Prop := ∃ m ∈ l, m.own = n.own

theorem own_congr {m n : Node} (hvalue : m.value = n.value) (hmark : m.unescaped = n.unescaped) :
    m.own = n.own := by
  unfold own disablesEscaping
  rw [hvalue, hmark]

theorem FoundIn.of_mem {l : List Node} {n : Node} (h : n ∈ l) : FoundIn l n := ⟨n, h, rfl⟩

theorem FoundIn.mono {l l' : List Node} {n : Node} (hsub : ∀ m ∈ l, m ∈ l') (h : FoundIn l n) :
    FoundIn l' n := by
  obtain ⟨m, hm, hown⟩ := h
  exact ⟨m, hsub m hm, hown⟩

mutual

/-- A visited node below the root of a tree is a child of the node visited above it. -/
theorem parent_of_mem_visitsAt (path : Path) (ancestors : List Node) :
    ∀ n : Node, ∀ visit ∈ visitsAt path ancestors n, visit = ⟨path, ancestors, n⟩ ∨
      ∃ parent ∈ n.nodes, visit.ancestors.head? = some parent ∧ visit.node ∈ parent.children
  | ⟨v, u, cs⟩, visit, hvisit => by
    rw [visitsAt] at hvisit
    rw [nodes]
    rcases List.mem_cons.mp hvisit with rfl | hbelow
    · exact Or.inl rfl
    · refine Or.inr ?_
      rcases parent_of_mem_visitsBelow path ancestors ⟨v, u, cs⟩ 0 cs visit hbelow with
        ⟨habove, hchild⟩ | ⟨parent, hparent, h⟩
      · exact ⟨_, List.mem_cons_self, by rw [habove, List.head?_cons], hchild⟩
      · exact ⟨parent, List.mem_cons_of_mem _ hparent, h⟩

theorem parent_of_mem_visitsBelow (path : Path) (ancestors : List Node) (above : Node) (i : Nat) :
    ∀ l : List Node, ∀ visit ∈ visitsBelow path (above :: ancestors) i l,
      visit.ancestors = above :: ancestors ∧ visit.node ∈ l ∨
        ∃ parent ∈ nodesOfAll l,
          visit.ancestors.head? = some parent ∧ visit.node ∈ parent.children
  | [], visit, hvisit => absurd hvisit List.not_mem_nil
  | n :: rest, visit, hvisit => by
    rw [visitsBelow] at hvisit
    rw [nodesOfAll]
    rcases List.mem_append.mp hvisit with hn | hrest
    · rcases parent_of_mem_visitsAt (path ++ [i]) (above :: ancestors) n visit hn with
        rfl | ⟨parent, hparent, h⟩
      · exact Or.inl ⟨rfl, List.mem_cons_self⟩
      · exact Or.inr ⟨parent, List.mem_append_left _ hparent, h⟩
    · rcases parent_of_mem_visitsBelow path ancestors above (i + 1) rest visit hrest with
        ⟨habove, hmem⟩ | ⟨parent, hparent, h⟩
      · exact Or.inl ⟨habove, List.mem_cons_of_mem _ hmem⟩
      · exact Or.inr ⟨parent, List.mem_append_right _ hparent, h⟩

end

mutual

/-- What stands above a visit in a tree stands above the tree or is in it, with the visit
below. -/
theorem mem_of_mem_above_visitsAt (path : Path) (ancestors : List Node) :
    ∀ n : Node, ∀ inner ∈ visitsAt path ancestors n, ∀ a ∈ inner.above,
      a ∈ Visit.aboveFrom path ancestors ∨ a ∈ visitsAt path ancestors n ∧ inner ∈ a.below
  | ⟨v, u, cs⟩, inner, hinner, a, ha => by
    rw [visitsAt] at hinner ⊢
    rcases List.mem_cons.mp hinner with rfl | hbelow
    · exact Or.inl ha
    · rcases mem_of_mem_above_visitsBelow path ancestors ⟨v, u, cs⟩ 0 cs inner hbelow a ha with
        rfl | habove | ⟨hmem, hin⟩
      · refine Or.inr ⟨List.mem_cons_self, ?_⟩
        rw [Visit.below, visitsAt, List.drop_one, List.tail_cons]
        exact hbelow
      · exact Or.inl habove
      · exact Or.inr ⟨List.mem_cons_of_mem _ hmem, hin⟩

theorem mem_of_mem_above_visitsBelow (path : Path) (ancestors : List Node) (parent : Node)
    (i : Nat) :
    ∀ l : List Node, ∀ inner ∈ visitsBelow path (parent :: ancestors) i l, ∀ a ∈ inner.above,
      a = ⟨path, ancestors, parent⟩ ∨ a ∈ Visit.aboveFrom path ancestors ∨
        a ∈ visitsBelow path (parent :: ancestors) i l ∧ inner ∈ a.below
  | [], inner, hinner, _, _ => absurd hinner List.not_mem_nil
  | n :: rest, inner, hinner, a, ha => by
    rw [visitsBelow] at hinner ⊢
    rcases List.mem_append.mp hinner with hn | hrest
    · have h := mem_of_mem_above_visitsAt (path ++ [i]) (parent :: ancestors) n inner hn a ha
      rw [Visit.aboveFrom_concat, List.mem_cons, or_assoc] at h
      rcases h with hparent | habove | ⟨hmem, hin⟩
      · exact Or.inl hparent
      · exact Or.inr (Or.inl habove)
      · exact Or.inr (Or.inr ⟨List.mem_append_left _ hmem, hin⟩)
    · have h := mem_of_mem_above_visitsBelow path ancestors parent (i + 1) rest inner hrest a ha
      rcases h with hparent | habove | ⟨hmem, hin⟩
      · exact Or.inl hparent
      · exact Or.inr (Or.inl habove)
      · exact Or.inr (Or.inr ⟨List.mem_append_right _ hmem, hin⟩)

end

/-- The nodes above a visited node of a template are visited, and the node is below them. -/
theorem mem_of_mem_above {template : Node} {inner a : Visit} (h : inner ∈ template.visits)
    (ha : a ∈ inner.above) : a ∈ template.visits ∧ inner ∈ a.below := by
  rcases mem_of_mem_above_visitsAt [] [] template inner h a ha with hroot | hmem
  · exact absurd hroot List.not_mem_nil
  · exact hmem

end Node
end TagGrammar
