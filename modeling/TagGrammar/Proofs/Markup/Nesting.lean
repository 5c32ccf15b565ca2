/-
How tags are nested.

The tokens of a start tag make one part of a document, and every other token is a part of
its own.  Tokens in which tags alternate with content are the parts of a document, but for a
start tag that the end of the source may cut off (`alternates_iff`).  `Opens` says which
elements are open after some parts, and the parts are `Balanced` if every close tag ends an
element of its name and nothing is left open: exactly if no element is open after them.  After
parts in which a close tag offends there is no answer.
-/
import Mathlib.Data.List.Induction
import TagGrammar.Proofs.Markup.Tokenizer

namespace TagGrammar
namespace Markup

/-- A start tag as it is written, up to its end. -/
structure WrittenTag where
  name : QName
  attributes : List (QName × String) := []
deriving DecidableEq

def attrTokens (attributes : List (QName × String)) : List Token :=
  attributes.map fun a => .attr a.1 a.2

def WrittenTag.tokens (tag : WrittenTag) : List Token :=
  .elementStart tag.name :: attrTokens tag.attributes

/-- A part of a document. -/
inductive Part where
  /-- A start tag with content to come. -/
  | opening (tag : WrittenTag)
  /-- A start tag without content. -/
  | single (tag : WrittenTag)
  | closing (name : QName)
  | text (text : String)
  | cdata (text : String)
  | comment (text : String)
  | processingInstruction (target : String) (data : Option String)
deriving DecidableEq

namespace Part

def tokens : Part → List Token
  | opening tag => tag.tokens ++ [.openEnd]
  | single tag => tag.tokens ++ [.emptyEnd]
  | closing name => [.close name]
  | text t => [.text t]
  | cdata t => [.cdata t]
  | comment t => [.comment t]
  | processingInstruction target data => [.processingInstruction target data]

/-- Whether a part opens or closes an element. -/
def nests : Part → Bool
  | opening _ | closing _ => true
  | _ => false

/-- Whether a node stands for a part. -/
def makesNode : Part → Bool
  | opening _ | single _ | comment _ | processingInstruction _ _ => true
  | _ => false

end Part

/-- The tokens of some parts and of a start tag that is cut off after them. -/
def written (parts : List Part) (cut : Option WrittenTag) : List Token :=
  parts.flatMap Part.tokens ++ (cut.map WrittenTag.tokens).getD []

theorem written_cons (part : Part) (parts : List Part) (cut : Option WrittenTag) :
    written (part :: parts) cut = part.tokens ++ written parts cut := by
  rw [written, written, List.flatMap_cons, List.append_assoc]

/-- The end of a start tag. -/
def endToken (isEmpty : Bool) : Token := if isEmpty then .emptyEnd else .openEnd

/-- Between tags there are parts, inside a tag there are attributes before them. -/
theorem exists_written {tokens : List Token} :
    (Alternates false tokens → ∃ parts cut, tokens = written parts cut) ∧
      (Alternates true tokens → ∃ attributes, tokens = attrTokens attributes ∨
        ∃ isEmpty parts cut,
          tokens = attrTokens attributes ++ endToken isEmpty :: written parts cut) := by
  induction tokens with
  | nil => exact ⟨fun _ => ⟨[], none, rfl⟩, fun _ => ⟨[], Or.inl rfl⟩⟩
  | cons token tokens ih =>
    obtain ⟨between, inside⟩ := ih
    refine ⟨?_, ?_⟩
    · rintro ⟨hin, hrest⟩
      have alone : ∀ part : Part, part.tokens = [token] → token.insideAfter false = false →
          ∃ parts cut, token :: tokens = written parts cut := by
        intro part hpart hafter
        rw [hafter] at hrest
        obtain ⟨parts, cut, rfl⟩ := between hrest
        exact ⟨part :: parts, cut, by rw [written_cons, hpart]; rfl⟩
      cases token with
      | elementStart name =>
        obtain ⟨attributes, rfl | ⟨isEmpty, parts, cut, rfl⟩⟩ := inside hrest
        · exact ⟨[], some ⟨name, attributes⟩, rfl⟩
        · cases isEmpty
          · exact ⟨.opening ⟨name, attributes⟩ :: parts, cut, by
              simp [written_cons, Part.tokens, WrittenTag.tokens, endToken]⟩
          · exact ⟨.single ⟨name, attributes⟩ :: parts, cut, by
              simp [written_cons, Part.tokens, WrittenTag.tokens, endToken]⟩
      | close name => exact alone (.closing name) rfl rfl
      | text t => exact alone (.text t) rfl rfl
      | cdata t => exact alone (.cdata t) rfl rfl
      | comment t => exact alone (.comment t) rfl rfl
      | processingInstruction target data =>
        exact alone (.processingInstruction target data) rfl rfl
      | attr | openEnd | emptyEnd => cases hin
    · rintro ⟨hin, hrest⟩
      have ends : ∀ isEmpty, token = endToken isEmpty → Alternates false tokens →
          ∃ isEmpty parts cut, token :: tokens =
            attrTokens [] ++ endToken isEmpty :: written parts cut := by
        rintro isEmpty rfl h
        obtain ⟨parts, cut, rfl⟩ := between h
        exact ⟨isEmpty, parts, cut, rfl⟩
      cases token with
      | attr name value =>
        obtain ⟨attributes, rfl | ⟨isEmpty, parts, cut, rfl⟩⟩ := inside hrest
        · exact ⟨(name, value) :: attributes, Or.inl rfl⟩
        · exact ⟨(name, value) :: attributes, Or.inr ⟨isEmpty, parts, cut, rfl⟩⟩
      | openEnd => exact ⟨[], Or.inr (ends false rfl hrest)⟩
      | emptyEnd => exact ⟨[], Or.inr (ends true rfl hrest)⟩
      | elementStart | close | text | cdata | comment | processingInstruction => cases hin

theorem alternates_attrTokens (attributes : List (QName × String)) (tokens : List Token) :
    Alternates true (attrTokens attributes ++ tokens) ↔ Alternates true tokens := by
  induction attributes with
  | nil => rfl
  | cons a attributes ih => exact (and_iff_right rfl).trans ih

theorem alternates_written (parts : List Part) (cut : Option WrittenTag) :
    Alternates false (written parts cut) := by
  induction parts with
  | nil =>
    cases cut with
    | none => trivial
    | some tag =>
      have hattributes := (alternates_attrTokens tag.attributes []).mpr trivial
      rw [List.append_nil] at hattributes
      exact ⟨rfl, hattributes⟩
  | cons part parts ih =>
    have tagged : ∀ (tag : WrittenTag) (isEmpty : Bool), Alternates false
        (tag.tokens ++ [endToken isEmpty] ++ written parts cut) := by
      intro tag isEmpty
      rw [List.append_assoc]
      refine ⟨rfl, (alternates_attrTokens tag.attributes _).mpr ?_⟩
      cases isEmpty <;> exact ⟨rfl, ih⟩
    rw [written_cons]
    cases part with
    | opening tag => exact tagged tag false
    | single tag => exact tagged tag true
    | closing | text | cdata | comment | processingInstruction => exact ⟨rfl, ih⟩

/-- Tags alternate with content exactly in the tokens of parts, but for a start tag that is cut
off. -/
theorem alternates_iff {tokens : List Token} :
    Alternates false tokens ↔ ∃ parts cut, tokens = written parts cut := by
  constructor
  · exact exists_written.1
  · rintro ⟨parts, cut, rfl⟩
    exact alternates_written parts cut

/-! ## Open elements -/

/-- The number of parts that a node stands for. -/
def makers (parts : List Part) : Nat := parts.countP Part.makesNode

/-- An element that is open: its start tag, and how many nodes there are before it. -/
structure OpenElement where
  tag : WrittenTag
  number : Nat
deriving DecidableEq

/-- The elements that are open after some parts, innermost first. -/
inductive Opens : List Part → List OpenElement → Prop where
  | nil : Opens [] []
  | leaf {parts : List Part} {outer : List OpenElement} {part : Part} (h : Opens parts outer)
      (hpart : part.nests = false) : Opens (parts ++ [part]) outer
  | opening {parts : List Part} {outer : List OpenElement} (tag : WrittenTag)
      (h : Opens parts outer) :
      Opens (parts ++ [.opening tag]) (⟨tag, makers parts⟩ :: outer)
  | closing {parts : List Part} {outer : List OpenElement} {element : OpenElement}
      (h : Opens parts (element :: outer)) : Opens (parts ++ [.closing element.tag.name]) outer

/-- Parts in which every element is closed under the name it was opened with. -/
inductive Balanced : List Part → Prop where
  | nil : Balanced []
  | leaf {part : Part} {parts : List Part} (hpart : part.nests = false) (h : Balanced parts) :
      Balanced (part :: parts)
  | element (tag : WrittenTag) {inner after : List Part} (hinner : Balanced inner)
      (hafter : Balanced after) :
      Balanced (.opening tag :: (inner ++ .closing tag.name :: after))

section

variable {parts more : List Part} {part : Part} {outer outer' : List OpenElement}

theorem Opens.of_nil (h : Opens [] outer) : outer = [] := by
  generalize hparts : ([] : List Part) = parts at h
  cases h with
  | nil => rfl
  | leaf | opening | closing => simp at hparts

/-- What the last part does. -/
theorem Opens.concat_cases (h : Opens (parts ++ [part]) outer) :
    (part.nests = false ∧ Opens parts outer) ∨
    (∃ tag outer', part = .opening tag ∧ Opens parts outer' ∧
      outer = ⟨tag, makers parts⟩ :: outer') ∨
    ∃ element, part = .closing element.tag.name ∧ Opens parts (element :: outer) := by
  generalize hparts : parts ++ [part] = all at h
  cases h with
  | nil => simp at hparts
  | leaf h hpart =>
    obtain ⟨rfl, rfl⟩ := List.append_singleton_inj.mp hparts
    exact Or.inl ⟨hpart, h⟩
  | opening tag h =>
    obtain ⟨rfl, rfl⟩ := List.append_singleton_inj.mp hparts
    exact Or.inr (Or.inl ⟨tag, _, rfl, h, rfl⟩)
  | closing h =>
    obtain ⟨rfl, rfl⟩ := List.append_singleton_inj.mp hparts
    exact Or.inr (Or.inr ⟨_, rfl, h⟩)

theorem Opens.unique (h : Opens parts outer) (h' : Opens parts outer') : outer = outer' := by
  induction h generalizing outer' with
  | nil => exact h'.of_nil.symm
  | leaf _ hpart ih =>
    rcases h'.concat_cases with ⟨-, h'⟩ | ⟨tag, _, rfl, -, -⟩ | ⟨element, rfl, -⟩
    · exact ih h'
    · cases hpart
    · cases hpart
  | opening tag _ ih =>
    rcases h'.concat_cases with ⟨hpart, -⟩ | ⟨tag', outer', htag, hbefore, rfl⟩ | ⟨_, htag, -⟩
    · cases hpart
    · cases htag
      rw [ih hbefore]
    · cases htag
  | closing _ ih =>
    rcases h'.concat_cases with ⟨hpart, -⟩ | ⟨tag', outer', htag, -, -⟩ | ⟨element, -, h'⟩
    · cases hpart
    · cases htag
    · exact (List.cons.inj (ih h')).2

/-- Where there is an answer after some parts, there is one before the last of them. -/
theorem Opens.exists_before (h : Opens (parts ++ more) outer) : ∃ outer', Opens parts outer' := by
  induction more using List.reverseRecOn generalizing outer with
  | nil => exact ⟨outer, by simpa using h⟩
  | append_singleton more part ih =>
    rw [← List.append_assoc] at h
    rcases h.concat_cases with ⟨-, hbefore⟩ | ⟨_, _, -, hbefore, -⟩ | ⟨_, -, hbefore⟩
    all_goals exact ih hbefore

/-! ## Balanced parts -/

theorem Balanced.append (h : Balanced parts) (hmore : Balanced more) :
    Balanced (parts ++ more) := by
  induction h with
  | nil => exact hmore
  | leaf hpart _ ih => exact .leaf hpart ih
  | element tag hinner _ _ ih =>
    rw [List.cons_append, List.append_assoc, List.cons_append]
    exact .element tag hinner ih

/-- Balanced parts leave the same elements open as were open before them. -/
theorem Balanced.opens (h : Balanced more) (hparts : Opens parts outer) :
    Opens (parts ++ more) outer := by
  induction h generalizing parts outer with
  | nil => simpa using hparts
  | @leaf part more hpart _ ih =>
    have hall := ih (.leaf hparts hpart)
    rwa [List.append_assoc] at hall
  | @element tag inner after _ _ ihinner ihafter =>
    have hclosed := Opens.closing (ihinner (.opening tag hparts))
    have hall := ihafter hclosed
    simpa using hall

/-- Parts that fall into balanced stretches, each but the first after a start tag. -/
inductive Stretches : List Part → List OpenElement → Prop where
  | first {parts : List Part} (h : Balanced parts) : Stretches parts []
  | inside {before inner : List Part} {outer : List OpenElement} (tag : WrittenTag)
      (h : Stretches before outer) (hinner : Balanced inner) :
      Stretches (before ++ .opening tag :: inner) (⟨tag, makers before⟩ :: outer)

theorem Stretches.append (h : Stretches parts outer) (hmore : Balanced more) :
    Stretches (parts ++ more) outer := by
  cases h with
  | first h => exact .first (h.append hmore)
  | inside tag h hinner =>
    rw [List.append_assoc, List.cons_append]
    exact .inside tag h (hinner.append hmore)

theorem Opens.stretches (h : Opens parts outer) : Stretches parts outer := by
  induction h with
  | nil => exact .first .nil
  | leaf _ hpart ih => exact ih.append (.leaf hpart .nil)
  | opening tag _ ih => exact .inside tag ih .nil
  | closing _ ih =>
    cases ih with
    | @inside before inner _ tag hbefore hinner =>
      rw [List.append_assoc, List.cons_append]
      exact hbefore.append (.element tag hinner .nil)

/-- Parts are balanced exactly if nothing is open after them. -/
theorem balanced_iff : Balanced parts ↔ Opens parts [] := by
  constructor
  · intro h
    exact h.opens .nil
  · intro h
    cases h.stretches with
    | first h => exact h

/-! ## Close tags that offend -/

/-- The first close tag that does not end the innermost open element, and the name it should
have if an element is open. -/
def Offends (parts : List Part) (found : QName) (expected : Option QName) : Prop :=
  ∃ before after outer, parts = before ++ .closing found :: after ∧ Opens before outer ∧
    outer.head?.map (fun element => element.tag.name) = expected ∧ expected ≠ some found

variable {found found' : QName} {expected expected' : Option QName}

theorem Offends.append (h : Offends parts found expected) (more : List Part) :
    Offends (parts ++ more) found expected := by
  obtain ⟨before, after, outer, rfl, hbefore, hexpected, hne⟩ := h
  exact ⟨before, after ++ more, outer, by simp, hbefore, hexpected, hne⟩

theorem Offends.not_opens (h : Offends parts found expected) : ¬Opens parts outer := by
  intro hparts
  obtain ⟨before, after, outer', rfl, hbefore, rfl, hne⟩ := h
  rw [List.append_cons] at hparts
  obtain ⟨outer'', hclosed⟩ := hparts.exists_before
  rcases hclosed.concat_cases with ⟨hpart, -⟩ | ⟨_, _, htag, -, -⟩ | ⟨element, htag, hopen⟩
  · cases hpart
  · cases htag
  · cases htag
    rw [hbefore.unique hopen] at hne
    exact hne rfl

/-- Parts after which there is an answer do not go beyond a close tag that offends. -/
theorem Opens.length_le {before after before' after' : List Part}
    (h : Opens before outer) (hne : outer.head?.map (fun element => element.tag.name) ≠ some found)
    (h' : Opens before' outer') (heq : before ++ .closing found :: after = before' ++ after') :
    before'.length ≤ before.length := by
  by_contra hlonger
  obtain ⟨between, rfl⟩ : before ++ [.closing found] <+: before' := by
    refine List.prefix_of_prefix_length_le ⟨after, ?_⟩ (List.prefix_append before' after') ?_
    · rw [List.append_assoc, List.singleton_append, heq]
    · rw [List.length_append, List.length_singleton]
      omega
  have hoffends : Offends (before ++ [.closing found] ++ between) found _ :=
    ⟨before, between, outer, by simp, h, rfl, hne⟩
  exact hoffends.not_opens h'

theorem Offends.unique (h : Offends parts found expected) (h' : Offends parts found' expected') :
    found = found' ∧ expected = expected' := by
  obtain ⟨before, after, outer, rfl, hbefore, rfl, hne⟩ := h
  obtain ⟨before', after', outer', heq, hbefore', rfl, hne'⟩ := h'
  have hlength : before.length = before'.length :=
    Nat.le_antisymm (hbefore'.length_le hne' hbefore heq.symm) (hbefore.length_le hne hbefore' heq)
  obtain ⟨rfl, htail⟩ := List.append_inj heq hlength
  cases htail
  rw [hbefore.unique hbefore']
  exact ⟨rfl, rfl⟩

/-- After parts some elements are open, or a close tag among them offends. -/
theorem opens_or_offends (parts : List Part) :
    (∃ outer, Opens parts outer) ∨ ∃ found expected, Offends parts found expected := by
  induction parts using List.reverseRecOn with
  | nil => exact Or.inl ⟨[], .nil⟩
  | append_singleton parts part ih =>
    rcases ih with ⟨outer, h⟩ | ⟨found, expected, h⟩
    · cases part with
      | opening tag => exact Or.inl ⟨_, .opening tag h⟩
      | closing name =>
        by_cases hname : outer.head?.map (fun element => element.tag.name) = some name
        · obtain ⟨element, hhead, rfl⟩ := Option.map_eq_some_iff.mp hname
          obtain ⟨outer, rfl⟩ := List.head?_eq_some_iff.mp hhead
          exact Or.inl ⟨_, .closing h⟩
        · exact Or.inr ⟨name, _, parts, [], outer, rfl, h, rfl, hname⟩
      | single | text | cdata | comment | processingInstruction =>
        exact Or.inl ⟨outer, .leaf h rfl⟩
    · exact Or.inr ⟨found, expected, h.append [part]⟩

end
end Markup
end TagGrammar
