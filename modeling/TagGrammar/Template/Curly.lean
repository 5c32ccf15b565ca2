/-
Curly references in text.

In the text of literal elements `{@name}` and `{$name}` stand for an attribute and a
variable.  Such text is cut into plain pieces and references, leftmost references
first, and each reference becomes an instruction that inserts its value.  Text in
instructions and text instructions are left alone.

What is below a text goes with it when it is replaced.  A text has something below it
only if it was made of an instruction with content, and if that content holds text to be
replaced in turn, the two replacements contradict each other (`hasNestedReplacement`).
-/
import TagGrammar.Template.Node
import TagGrammar.ValueTemplate

namespace TagGrammar
namespace Curly

/-- The characters of the name in a reference. -/
def isNameChar (c : Char) : Bool := c.isAlphanum || c == '_' || c == '-'

/-- The expression of a reference at the start of a text, and what follows it. -/
def reference? : List Char → Option (List Char × List Char)
  | '{' :: sigil :: cs =>
    if sigil == '@' || sigil == '$' then
      match cs.takeWhile isNameChar, cs.dropWhile isNameChar with
      | [], _ => none
      | name, '}' :: rest => some (sigil :: name, rest)
      | _, _ => none
    else none
  | _ => none

theorem length_of_reference? {cs e rest : List Char} (h : reference? cs = some (e, rest)) :
    rest.length < cs.length := by
  unfold reference? at h
  split at h
  · rename_i sigil cs
    split at h
    · split at h
      · simp at h
      · rename_i heq _
        obtain ⟨-, rfl⟩ := Prod.mk.inj (Option.some.inj h)
        have hle := (List.dropWhile_sublist (l := cs) isNameChar).length_le
        rw [heq, List.length_cons] at hle
        simp only [List.length_cons]
        omega
      · simp at h
    · simp at h
  · simp at h

/-- The pieces of a text after some plain text that has been read already. -/
def piecesFrom (plain : List Char) (cs : List Char) : List ValuePart :=
  match cs with
  | [] => ValueTemplate.withLiteral plain []
  | c :: rest =>
    match h : reference? (c :: rest) with
    | some (source, rest') =>
      have := length_of_reference? h
      ValueTemplate.withLiteral plain
        (.expression (String.ofList source) :: piecesFrom [] rest')
    | none => piecesFrom (plain ++ [c]) rest
termination_by cs.length
decreasing_by
  · exact this
  · exact Nat.lt_succ_self rest.length

/-- The plain pieces and the references of a text, in order. -/
def pieces (text : String) : List ValuePart := piecesFrom [] text.toList

/-- The node that a piece becomes. -/
def pieceNode : ValuePart → Node
  | .literal text => { value := .plainText text }
  | .expression source => { value := .insertion source }

/-- The nodes that replace a child of a literal element, if it is text with a
reference. -/
def replacement? (n : Node) : Option (List Node) :=
  match n.value with
  | .text text _ false =>
    let ps := pieces text
    if ValueTemplate.isLiteral ps then none else some (ps.map pieceNode)
  | _ => none

mutual

/-- Replace the references everywhere below a node. -/
def convert : Node → Node
  | ⟨v, u, cs⟩ => ⟨v, u, if v.asElement?.isSome then convertContent cs else convertAll cs⟩

/-- Replace the references in the content of a literal element. -/
def convertContent : List Node → List Node
  | [] => []
  | n :: rest =>
    match replacement? n with
    | some nodes => nodes ++ convertContent rest
    | none => convert n :: convertContent rest

def convertAll : List Node → List Node
  | [] => []
  | n :: rest => convert n :: convertAll rest

end

/-- A visited text that is replaced. -/
def isReplaced (visit : Visit) : Bool :=
  (replacement? visit.node).isSome &&
    visit.ancestors.head?.any fun parent => parent.value.asElement?.isSome

/-- Whether some text that is replaced holds other text that is replaced. -/
def hasNestedReplacement (template : Node) : Bool :=
  template.visits.any fun visit => isReplaced visit && visit.below.any isReplaced

end Curly
end TagGrammar
