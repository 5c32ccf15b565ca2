/-
Inserted constants.

An instruction that inserts the value of a literal or of a number is the same as the
text it outputs, and becomes that text.  One that asks for its output not to be
escaped is left as it is.
-/
import TagGrammar.Template.Node
import TagGrammar.XPath.Analysis

namespace TagGrammar

mutual

/-- Change the value of every node of a tree. -/
def Node.mapValues (f : Value → Value) : Node → Node
  | ⟨v, u, cs⟩ => ⟨f v, u, Node.mapValuesAll f cs⟩

def Node.mapValuesAll (f : Value → Value) : List Node → List Node
  | [] => []
  | n :: rest => n.mapValues f :: Node.mapValuesAll f rest

end

namespace Node

variable (f : Value → Value)

theorem mapValuesAll_eq (l : List Node) : mapValuesAll f l = l.map (mapValues f) := by
  induction l with
  | nil => rfl
  | cons n rest ih => rw [mapValuesAll, ih, List.map_cons]

theorem mapValues_mk (v : Value) (u : Bool) (cs : List Node) :
    mapValues f ⟨v, u, cs⟩ = ⟨f v, u, cs.map (mapValues f)⟩ := by
  rw [mapValues, mapValuesAll_eq]

theorem value_mapValues (n : Node) : (n.mapValues f).value = f n.value := by
  cases n
  rw [mapValues]

theorem unescaped_mapValues (n : Node) : (n.mapValues f).unescaped = n.unescaped := by
  cases n
  rw [mapValues]

theorem children_mapValues (n : Node) :
    (n.mapValues f).children = n.children.map (mapValues f) := by
  cases n
  rw [mapValues_mk]

mutual

/-- The tree keeps its shape. -/
theorem nodes_mapValues : ∀ n : Node, (n.mapValues f).nodes = n.nodes.map (mapValues f)
  | ⟨v, u, cs⟩ => by
    rw [mapValues_mk, nodes, nodesOfAll_map_mapValues cs, nodes, List.map_cons, mapValues_mk]

theorem nodesOfAll_map_mapValues : ∀ l : List Node,
    nodesOfAll (l.map (mapValues f)) = (nodesOfAll l).map (mapValues f)
  | [] => rfl
  | n :: rest => by
    rw [List.map_cons, nodesOfAll, nodes_mapValues n, nodesOfAll_map_mapValues rest, nodesOfAll,
      List.map_append]

end

end Node

namespace InlineLiteral

/-- The text that an expression always yields, if it is a constant. -/
def constantText? (source : String) : Option String :=
  match XPath.Expr.parse source with
  | .ok e => e.constant?
  | .error _ => none

/-- A value with an inserted constant made text. -/
def inlined : Value → Value
  | .valueOf select false =>
    match constantText? select with
    | some text => .plainText text
    | none => .valueOf select false
  | v => v

/-- Make the inserted constants of a template text. -/
def inline (n : Node) : Node := n.mapValues inlined

end InlineLiteral
end TagGrammar
