/-
Editing a template.

Nodes are named by their paths.  A node that is moved is taken out first, so the path of
its new place is read in the tree without it (`Path.without?`); a place inside the node
itself is gone then, and the edit is refused.  What is put in anew is a value without
children and without a mark.

The tree is edited below its root (`Node.append`, `Node.insertBefore`,
`Node.replaceValue`).  A draft follows what happens to the root as well.  A node that is
put before it leaves the tree.  Nodes stand in places: taking a node out vacates the
places of all that is below it and then its own, and a new node takes the place that has
been vacant longest.  The empty path always leads to the place in which the root stood,
so once the root is taken out it leads nowhere a value could be read until a new node
happens to take that place (`Draft.receive`).
-/
import TagGrammar.Template.Node

namespace TagGrammar

/-- Why an edit is refused. -/
inductive EditError where
  /-- A path leads nowhere. -/
  | noNode
  /-- A node would be put inside itself. -/
  | insideItself
  /-- The root has been taken out. -/
  | rootRemoved
deriving DecidableEq

/-- The second node of an edit or a comparison. -/
inductive Operand where
  /-- The node at a path.  If it is put somewhere it leaves its place. -/
  | attached (path : Path)
  /-- A new node. -/
  | fresh (value : Value)

/-- The paths that must lead to a node. -/
def Operand.paths : Operand → List Path
  | attached path => [path]
  | fresh _ => []

namespace Path

/-- Where a path leads after the node at another one has been taken out, if its node is
still there. -/
def without? : Path → Path → Option Path
  | [], _ => none
  | _ :: _, [] => some []
  | [gone], i :: rest =>
    if i = gone then none else some ((if gone < i then i - 1 else i) :: rest)
  | g :: gone, i :: rest =>
    if i = g then (without? gone rest).map (i :: ·) else some (i :: rest)

end Path

namespace Node

/-- Change the node at a path. -/
def modifyAt (f : Node → Node) : Path → Node → Node
  | [], n => f n
  | i :: rest, n => { n with children := n.children.modify i (modifyAt f rest) }

/-- Change the children of the node at a path. -/
def modifyChildrenAt (f : List Node → List Node) (path : Path) (n : Node) : Node :=
  n.modifyAt (fun parent => { parent with children := f parent.children }) path

/-- Take out the node at a path.  The root is not part of the content and stays. -/
def eraseAt (path : Path) (n : Node) : Node :=
  match path.getLast? with
  | none => n
  | some i => n.modifyChildrenAt (fun children => children.eraseIdx i) path.dropLast

/-- Put a node after the children of the node at a path. -/
def appendAt (new : Node) (path : Path) (n : Node) : Node :=
  n.modifyChildrenAt (fun children => children ++ [new]) path

/-- Put a node before the node at a path.  Before the root it is outside the tree. -/
def insertAt (new : Node) (path : Path) (n : Node) : Node :=
  match path.getLast? with
  | none => n
  | some i => n.modifyChildrenAt (fun children => children.insertIdx i new) path.dropLast

/-- Put something into a template at a path in one of the ways above. -/
def place (put : Node → Path → Node → Node) (what : Operand) (path : Path) (n : Node) :
    Except EditError Node :=
  match n.at? path, what with
  | none, _ => .error .noNode
  | some _, .fresh value => .ok (put { value } path n)
  | some _, .attached source =>
    match n.at? source, Path.without? source path with
    | none, _ => .error .noNode
    | some _, none => .error .insideItself
    | some m, some path => .ok (put m path (n.eraseAt source))

/-- Put something after the children of a node. -/
def append (what : Operand) (path : Path) (n : Node) : Except EditError Node :=
  n.place appendAt what path

/-- Put something before a node. -/
def insertBefore (what : Operand) (path : Path) (n : Node) : Except EditError Node :=
  n.place insertAt what path

/-- The node that an operand stands for. -/
def operand? (n : Node) : Operand → Option Node
  | .fresh value => some { value }
  | .attached path => n.at? path

/-- Give a node the value of another one.  Its children and its mark stay. -/
def replaceValue (what : Operand) (path : Path) (n : Node) : Except EditError Node :=
  match n.at? path, n.operand? what with
  | some _, some other => .ok (n.modifyAt (fun m => { m with value := other.value }) path)
  | _, _ => .error .noNode

/-- Compare a node with another one. -/
def compare (same : Node → Node → Bool) (what : Operand) (path : Path) (n : Node) :
    Except EditError Bool :=
  match n.at? path, n.operand? what with
  | some m, some other => .ok (same m other)
  | _, _ => .error .noNode

end Node

/-- A template that is edited. -/
inductive Draft where
  /-- The tree, whether a node stands before its root, and the number of vacant places. -/
  | tree (root : Node) (preceded : Bool) (vacant : Nat)
  /-- The root was taken out, and so many places have been vacant for longer than its
  own. -/
  | rootless (vacant : Nat)
  /-- The root was taken out and a new node took its place. -/
  | replaced (value : Value)

namespace Draft

/-- The draft of a template that has not been edited yet. -/
def start (root : Node) : Draft := tree root false 0

/-- The node that the empty path leads to. -/
def root? : Draft → Option Node
  | tree root _ _ => some root
  | rootless _ => none
  | replaced value => some { value }

/-- Whether a path leads to a place.  The place of the root is always there. -/
def hasPlace (path : Path) (d : Draft) : Bool :=
  ((d.root?.getD Node.emptyTemplate).at? path).isSome

/-- Why nothing can be done at some paths when the root is gone. -/
def refusal (paths : List Path) : EditError :=
  if paths.all List.isEmpty then .rootRemoved else .noNode

/-- The tree, to be read from the node at a path. -/
def treeAt (path : Path) (d : Draft) : Except EditError Node :=
  match d.root? with
  | some root => if (root.at? path).isSome then .ok root else .error .noNode
  | none => .error (refusal [path])

/-- The path of the node before the one at a path.  A node before the root is the top
of a tree of its own. -/
def previousSibling? (path : Path) : Draft → Option Path
  | tree _ preceded _ =>
    match path.getLast? with
    | none => if preceded then some [] else none
    | some 0 => none
    | some (i + 1) => some (path.dropLast ++ [i])
  | _ => none

/-- Make the node of an operand if it is a new one. -/
def receive : Operand → Draft → Draft
  | .fresh _, tree root preceded vacant => tree root preceded (vacant - 1)
  | .fresh value, rootless 0 => replaced value
  | .fresh _, rootless (vacant + 1) => rootless vacant
  | _, d => d

/-- Put something after the children of a node.  What is in the place of a root that was
taken out is not part of a template, and nothing can be put there. -/
def append (what : Operand) (path : Path) (d : Draft) : Except EditError Draft :=
  match d.receive what with
  | tree root preceded vacant => (root.append what path).map (tree · preceded vacant)
  | _ => .error (refusal (path :: what.paths))

/-- Put something before a node. -/
def insertBefore (what : Operand) (path : Path) (d : Draft) : Except EditError Draft :=
  match d.receive what with
  | tree root preceded vacant =>
    (root.insertBefore what path).map (tree · (preceded || path.isEmpty) vacant)
  | _ => .error (refusal (path :: what.paths))

/-- Give a node the value of another one. -/
def replaceValue (what : Operand) (path : Path) (d : Draft) : Except EditError Draft :=
  match d.receive what with
  | tree root preceded vacant => (root.replaceValue what path).map (tree · preceded vacant)
  | rootless _ => .error (refusal (path :: what.paths))
  | replaced value =>
    (Node.replaceValue what path { value }).map fun n => replaced n.value

/-- Take out a node with all that is below it, and tell whether its place is vacant
then.  A root is taken out only once, and what is in its place later stays there. -/
def remove (path : Path) (d : Draft) : Except EditError (Bool × Draft) :=
  match (d.root?.getD Node.emptyTemplate).at? path, d with
  | none, _ => .error .noNode
  | some n, tree root preceded vacant =>
    .ok (true,
      if path.isEmpty then rootless (vacant + Node.sizeOfAll n.children)
      else tree (root.eraseAt path) preceded (vacant + n.size))
  | some _, rootless vacant => .ok (true, rootless vacant)
  | some _, replaced value => .ok (false, replaced value)

/-- Whether the content of two nodes is the same.  A place without a node has none. -/
def sameContent (what : Operand) (path : Path) (d : Draft) : Except EditError (Bool × Draft) :=
  let d := d.receive what
  ((d.root?.getD Node.emptyTemplate).compare Node.sameContent what path).map (·, d)

/-- Whether two nodes are the same all the way down. -/
def deepEqual (what : Operand) (path : Path) (d : Draft) : Except EditError (Bool × Draft) :=
  let d := d.receive what
  match d.root? with
  | some root => (root.compare Node.deepEqual what path).map (·, d)
  | none => .error (refusal (path :: what.paths))

end Draft
end TagGrammar
