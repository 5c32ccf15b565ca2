/-
Changing a prefix.

A prefix stands for its nearest declaration: the last one of the start tag that the name is
in, or else that of the nearest element around it which has one.  `renamePrefix` gives one
declaration another prefix, and with it the names that stand for it, and a source that is read
as the tokens then is the source `Respelled`.
-/
import TagGrammar.Proofs.Markup.Tokenizer

namespace TagGrammar
namespace Markup

namespace Token

/-- Whether a token declares a prefix. -/
def declares (p : String) : Token → Bool
  | attr name _ => name.lead == "xmlns" && name.name == p
  | _ => false

/-- Whether a token has a name with a prefix. -/
def hasLead (p : String) (token : Token) : Bool := token.name?.any fun name => name.lead == p

/-- Whether a prefix occurs in a token. -/
def mentions (q : String) (token : Token) : Bool := token.declares q || token.hasLead q

/-- A declaration of another prefix, or the token of a name with another prefix. -/
def replacePrefix (q : String) (token : Token) : Token :=
  match token.name? with
  | some name => token.withName (if name.lead == "xmlns" then ⟨"xmlns", q⟩ else ⟨q, name.name⟩)
  | none => token

end Token

/-! ## What a prefix stands for -/

/-- Whether the last declaration of a prefix among the next attributes is a chosen one, if
there is a declaration. -/
def aheadFor (p : String) : List (Token × Bool) → Option Bool
  | [] => none
  | (.attr name value, chosen) :: rest =>
    (aheadFor p rest).or (if (Token.attr name value).declares p then some chosen else none)
  | _ :: _ => none

/-- Whether a prefix stands for a chosen declaration, in the elements that are open,
innermost first, and in the start tag that is being read. -/
structure Reach where
  inside : List Bool := []
  tag : Option Bool := none

/-- What the prefix stands for in the innermost open element. -/
def Reach.current (r : Reach) : Bool := r.inside.headD false

/-- What the prefix stands for after a token, before some more. -/
def Reach.after (p : String) (rest : List (Token × Bool)) (r : Reach) : Token → Reach
  | .elementStart _ => { r with tag := some ((aheadFor p rest).getD r.current) }
  | .openEnd =>
    match r.tag with
    | some here => ⟨here :: r.inside, none⟩
    | none => r
  | .emptyEnd => { r with tag := none }
  | .close _ => { r with inside := r.inside.tail }
  | _ => r

/-- What the prefix stands for in the name of a token. -/
def Reach.at (p : String) (rest : List (Token × Bool)) (r : Reach) : Token → Bool
  | .elementStart _ => (aheadFor p rest).getD r.current
  | .close _ => r.current
  | _ => r.tag.getD false

/-- A token with another prefix if it is a chosen declaration, or stands for one. -/
def renamedToken (p q : String) (chosen here : Bool) (token : Token) : Token :=
  if chosen || (here && token.hasLead p) then token.replacePrefix q else token

def renamedFrom (p q : String) : Reach → List (Token × Bool) → List Token
  | _, [] => []
  | r, (token, chosen) :: rest =>
    renamedToken p q chosen (r.at p rest token) token :: renamedFrom p q (r.after p rest token) rest

/-- The tokens with the one at a place chosen. -/
def chosenAt (i : Nat) (tokens : List Token) : List (Token × Bool) :=
  tokens.zipIdx.map fun t => (t.1, t.2 == i)

theorem map_fst_chosenAt (i : Nat) (tokens : List Token) :
    (chosenAt i tokens).map Prod.fst = tokens := by
  rw [chosenAt, List.map_map]
  exact List.zipIdx_map_fst 0 tokens

/-- The tokens with another prefix for the declaration at a place. -/
def renamePrefix (p q : String) (i : Nat) (tokens : List Token) : List Token :=
  renamedFrom p q {} (chosenAt i tokens)

/-- The second source is read as the first one is, but with another prefix for the declaration
at a place among its tokens. -/
def Tokenizer.Respelled (tokenizer : Tokenizer) (p q : String) (i : Nat)
    (source respelled : String) : Prop :=
  tokenizer respelled = (renamePrefix p q i (tokenizer source).1, none)

end Markup
end TagGrammar
