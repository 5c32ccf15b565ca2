/-
The tree of a template.

A node is a value, a mark for a request not to escape output that was written on
an instruction, and its children.  A template is the node whose value is the
root.  Nodes are addressed by paths, the child indexes from the root, and
`visits` lists all nodes in document order, each with its path and its ancestors.
Two trees are equal in content when values, requests not to escape and children
agree all the way down.
-/
import TagGrammar.Template.Value

namespace TagGrammar

/-- A node with all that is below it. -/
structure Node where
  value : Value
  /-- The instruction was written with a request not to escape its output. -/
  unescaped : Bool := false
  children : List Node := []

namespace Node

/-- The template without content. -/
def emptyTemplate : Node := { value := .root }

/-- The template of a tag that has none: the content of the tag. -/
def contentOnly : Node := { value := .root, children := [{ value := .applyTemplates none }] }

mutual

/-- The number of nodes of a tree. -/
def size : Node → Nat
  | ⟨_, _, children⟩ => 1 + sizeOfAll children

def sizeOfAll : List Node → Nat
  | [] => 0
  | n :: rest => n.size + sizeOfAll rest

end

/-- A node that asks for its output not to be escaped, whatever its kind.  Texts
and insertions without a flag of their own go by the mark, elements and
unspecified instructions by their attribute. -/
def disablesEscaping (n : Node) : Bool :=
  match n.value with
  | .text _ unescaped _ => unescaped || n.unescaped
  | .valueOf _ unescaped => unescaped || n.unescaped
  | .element e => (e.get? "disable-output-escaping").isSome
  | .instruction _ attributes => attributes.any fun a => a.1 == "disable-output-escaping"
  | _ => n.unescaped

def htmlName? (n : Node) : Option String := n.value.htmlName?

mutual

/-- Two trees that agree in values, escaping and shape. -/
def deepEqual : Node → Node → Bool
  | ⟨v, u, cs⟩, ⟨v', u', cs'⟩ =>
    v == v' && disablesEscaping ⟨v, u, []⟩ == disablesEscaping ⟨v', u', []⟩ && allDeepEqual cs cs'

def allDeepEqual : List Node → List Node → Bool
  | [], [] => true
  | a :: as, b :: bs => a.deepEqual b && allDeepEqual as bs
  | _, _ => false

end

/-- Two nodes whose content is the same, whatever the nodes themselves are. -/
def sameContent (a b : Node) : Bool := allDeepEqual a.children b.children

mutual

/-- The node and all nodes below it, in document order. -/
def nodes : Node → List Node
  | ⟨v, u, cs⟩ => ⟨v, u, cs⟩ :: nodesOfAll cs

def nodesOfAll : List Node → List Node
  | [] => []
  | n :: rest => n.nodes ++ nodesOfAll rest

end

end Node

/-- The child indexes that lead from the root to a node. -/
abbrev Path := List Nat

/-- A node of a template seen in its place. -/
structure Visit where
  path : Path
  /-- The nodes above, nearest first. -/
  ancestors : List Node
  node : Node

namespace Node

mutual

/-- The visits of a tree that stands at a path below some ancestors. -/
def visitsAt (path : Path) (ancestors : List Node) : Node → List Visit
  | ⟨v, u, cs⟩ =>
    ⟨path, ancestors, ⟨v, u, cs⟩⟩ :: visitsBelow path (⟨v, u, cs⟩ :: ancestors) 0 cs

/-- The visits of the children of a node, from the child with a given index on. -/
def visitsBelow (path : Path) (ancestors : List Node) (i : Nat) : List Node → List Visit
  | [] => []
  | n :: rest =>
    visitsAt (path ++ [i]) ancestors n ++ visitsBelow path ancestors (i + 1) rest

end

/-- Every node of a template in its place, in document order. -/
def visits (n : Node) : List Visit := visitsAt [] [] n

/-- The node a path leads to. -/
def at? : Path → Node → Option Node
  | [], n => some n
  | i :: rest, n => (n.children[i]?).bind (at? rest)

/-- Every expression of a template with the path of its node, in document order. -/
def expressions (n : Node) : List (Path × ExpressionSite) :=
  n.visits.flatMap fun visit => visit.node.value.expressionSites.map fun site => (visit.path, site)

mutual

theorem map_node_visitsAt (path : Path) (ancestors : List Node) :
    ∀ n : Node, (visitsAt path ancestors n).map Visit.node = n.nodes
  | ⟨v, u, cs⟩ => by
    simp [visitsAt, nodes, map_node_visitsBelow path (⟨v, u, cs⟩ :: ancestors) 0 cs]

theorem map_node_visitsBelow (path : Path) (ancestors : List Node) (i : Nat) :
    ∀ l : List Node, (visitsBelow path ancestors i l).map Visit.node = nodesOfAll l
  | [] => rfl
  | n :: rest => by
    simp [visitsBelow, nodesOfAll, map_node_visitsAt (path ++ [i]) ancestors n,
      map_node_visitsBelow path ancestors (i + 1) rest]

end

/-- The visits of a template are its nodes in document order. -/
theorem map_node_visits (n : Node) : n.visits.map Visit.node = n.nodes :=
  map_node_visitsAt [] [] n

end Node

namespace Visit

/-- The visits of the ancestors of a node at a path, nearest first. -/
def aboveFrom : Path → List Node → List Visit
  | _, [] => []
  | path, n :: rest => ⟨path.dropLast, rest, n⟩ :: aboveFrom path.dropLast rest

/-- The visits of the ancestors of a visited node, nearest first. -/
def above (visit : Visit) : List Visit := aboveFrom visit.path visit.ancestors

/-- The visits of the nodes below a visited node. -/
def below (visit : Visit) : List Visit :=
  (Node.visitsAt visit.path visit.ancestors visit.node).drop 1

end Visit
end TagGrammar
