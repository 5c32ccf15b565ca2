/-
Trees that no check tells apart.

Two trees of one shape are the same for the checks (`SameTree`) if the values of their nodes
are.  What the checks of a node look at below it is the same then (`SameTree.kept`), so the one
tree is accepted wherever the other is (`acceptedAt_same`).
-/
import TagGrammar.Proofs.Safety.Locality
import TagGrammar.Template.Edit

namespace TagGrammar
namespace Safety

mutual

/-- Two trees that differ in names alone, in none that a check looks for. -/
inductive SameTree : Node → Node → Prop where
  | node {v v' : Value} {unescaped : Bool} {cs cs' : List Node} (hv : SameValue v v')
      (hcs : SameTrees cs cs') : SameTree ⟨v, unescaped, cs⟩ ⟨v', unescaped, cs'⟩

inductive SameTrees : List Node → List Node → Prop where
  | nil : SameTrees [] []
  | cons {n n' : Node} {rest rest' : List Node} (h : SameTree n n')
      (hrest : SameTrees rest rest') : SameTrees (n :: rest) (n' :: rest')

end

namespace SameTrees

theorem forall₂ {l l' : List Node} (h : SameTrees l l') : List.Forall₂ SameTree l l' := by
  cases h with
  | nil => exact .nil
  | cons h hrest => exact .cons h hrest.forall₂

theorem map {change : Node → Node} {l : List Node} (h : ∀ n ∈ l, SameTree n (change n)) :
    SameTrees l (l.map change) := by
  induction l with
  | nil => exact .nil
  | cons n rest ih =>
    rw [List.forall_mem_cons] at h
    exact .cons h.1 (ih h.2)

end SameTrees

theorem SameTree.refl (n : Node) : SameTree n n := by
  induction n using Node.of_children with
  | step n ih =>
    obtain ⟨v, u, cs⟩ := n
    have hchildren : SameTrees cs (cs.map id) := .map ih
    rw [List.map_id] at hchildren
    exact .node (.refl v) hchildren

theorem SameTrees.refl (l : List Node) : SameTrees l l := by
  have hsame : SameTrees l (l.map id) := .map fun n _ => .refl n
  rwa [List.map_id] at hsame

theorem SameTrees.replace {n n' : Node} (h : SameTree n n') (before after : List Node) :
    SameTrees (before ++ n :: after) (before ++ n' :: after) := by
  induction before with
  | nil => exact .cons h (.refl after)
  | cons first rest ih => exact .cons (.refl first) ih

/-- A change at a path that does not end at a node is one of a child. -/
theorem modifyAt_cons_cases {v : Value} {u : Bool} {cs : List Node} {i : Nat} {path : Path}
    {n : Node} (hat : Node.at? (i :: path) ⟨v, u, cs⟩ = some n) (change : Node → Node) :
    ∃ before c after, cs = before ++ c :: after ∧ c.at? path = some n ∧
      Node.modifyAt change (i :: path) ⟨v, u, cs⟩ =
        ⟨v, u, before ++ c.modifyAt change path :: after⟩ := by
  obtain ⟨c, hc, hat⟩ := Option.bind_eq_some_iff.mp hat
  obtain ⟨hi, rfl⟩ := List.getElem?_eq_some_iff.mp hc
  refine ⟨cs.take i, cs[i], cs.drop (i + 1), ?_, hat, ?_⟩
  · rw [List.cons_getElem_drop_succ, List.take_append_drop]
  · rw [Node.modifyAt, List.modify_eq_take_cons_drop hi]

/-- A change that no check tells at its place is one that no check tells in the tree. -/
theorem SameTree.modifyAt {change : Node → Node} {n : Node} (h : SameTree n (change n))
    {path : Path} {tree : Node} (hat : tree.at? path = some n) :
    SameTree tree (tree.modifyAt change path) := by
  induction path generalizing tree with
  | nil =>
    obtain rfl : tree = n := Option.some.inj hat
    exact h
  | cons i rest ih =>
    obtain ⟨v, u, cs⟩ := tree
    obtain ⟨before, c, after, rfl, hc, hmodify⟩ := modifyAt_cons_cases hat change
    rw [hmodify]
    exact .node (.refl v) (.replace (ih hc) before after)

mutual

theorem SameTree.nodes : ∀ {n n' : Node}, SameTree n n' → List.Forall₂ SameTree n.nodes n'.nodes
  | _, _, .node hv hcs => .cons (.node hv hcs) hcs.nodesOfAll

theorem SameTrees.nodesOfAll : ∀ {l l' : List Node}, SameTrees l l' →
    List.Forall₂ SameTree (Node.nodesOfAll l) (Node.nodesOfAll l')
  | _, _, .nil => .nil
  | _, _, .cons h hrest => List.rel_append h.nodes hrest.nodesOfAll

end

mutual

theorem SameTree.owned : ∀ {n n' : Node}, SameTree n n' → List.Forall₂ SameTree n.owned n'.owned
  | ⟨v, u, cs⟩, ⟨v', _, cs'⟩, .node hv hcs => by
    rw [Node.owned, Node.owned, hv.makesElement]
    refine .cons (.node hv hcs) ?_
    split
    · exact .nil
    · exact hcs.ownedOfAll

theorem SameTrees.ownedOfAll : ∀ {l l' : List Node}, SameTrees l l' →
    List.Forall₂ SameTree (Node.ownedOfAll l) (Node.ownedOfAll l')
  | _, _, .nil => .nil
  | _, _, .cons h hrest => List.rel_append h.owned hrest.ownedOfAll

end

namespace SameTree

variable {n n' : Node} (h : SameTree n n')

include h

theorem value : SameValue n.value n'.value := by
  cases h with
  | node hv _ => exact hv

theorem unescaped : n'.unescaped = n.unescaped := by
  cases h with
  | node _ _ => rfl

theorem children : SameTrees n.children n'.children := by
  cases h with
  | node _ hcs => exact hcs

/-! ## Settings of embedded movies -/

theorem makesAttribute {name : String} (hname : name ∈ soughtAttributes) :
    makesAttribute name n' = makesAttribute name n := by
  have hvalue := h.value
  unfold Safety.makesAttribute
  generalize n.value = v, n'.value = v' at hvalue
  cases hvalue with
  | attributeConstructor _ _ h => exact h.sought name hname
  | _ => rfl

theorem settingParam? : Option.Rel SameElement (settingParam? n) (settingParam? n') := by
  have helement := h.value.asElement?
  unfold Safety.settingParam?
  generalize n.value.asElement? = o, n'.value.asElement? = o' at helement
  cases helement with
  | none => exact .none
  | @some e e' he =>
    rw [Option.filter_some, Option.filter_some, Text.sameIgnoringCase_congr he.name,
      he.get? (by decide)]
    split
    · exact .some he
    · exact .none

theorem forall_not_makesAttribute {name : String} (hname : name ∈ soughtAttributes) :
    (∀ d ∈ Node.nodesOfAll n'.children, Safety.makesAttribute name d = false) ↔
      ∀ d ∈ Node.nodesOfAll n.children, Safety.makesAttribute name d = false :=
  forall_mem_iff_of_forall₂ (fun _ _ hd => by rw [hd.makesAttribute hname]) h.children.nodesOfAll

variable {most : ScriptAccess}

theorem embedAtMost : EmbedAtMost most n' ↔ EmbedAtMost most n := by
  have hsetting : (n'.value.asElement?.bind fun e => e.get? scriptAccessName) =
      n.value.asElement?.bind fun e => e.get? scriptAccessName := by
    have helement := h.value.asElement?
    generalize n.value.asElement? = o, n'.value.asElement? = o' at helement
    cases helement with
    | none => rfl
    | some he => exact he.get? (by decide)
  rw [EmbedAtMost, h.forall_not_makesAttribute (by decide), hsetting, EmbedAtMost]

theorem paramAtMost : ParamAtMost most n' ↔ ParamAtMost most n := by
  have hparam := h.settingParam?
  unfold ParamAtMost
  rw [h.forall_not_makesAttribute (by decide)]
  generalize Safety.settingParam? n = o, Safety.settingParam? n' = o' at hparam
  cases hparam with
  | none => simp
  | some he =>
    have hvalue := he.get? (by decide : "value" ∈ soughtAttributes)
    simp only [Option.some.injEq, forall_eq', hvalue]

theorem objectAtMost : ObjectAtMost most n' ↔ ObjectAtMost most n := by
  have hbelow : (∀ d ∈ Node.nodesOfAll n'.children, ParamAtMost most d) ↔
      ∀ d ∈ Node.nodesOfAll n.children, ParamAtMost most d :=
    forall_mem_iff_of_forall₂ (fun _ _ hd => hd.paramAtMost) h.children.nodesOfAll
  have hreplaced : (∀ c ∈ n'.children, ¬(Safety.settingParam? c).isSome = true) ↔
      ∀ c ∈ n.children, ¬(Safety.settingParam? c).isSome = true := by
    refine forall_mem_iff_of_forall₂ (fun c c' hc => ?_) h.children.forall₂
    have hparam := hc.settingParam?
    generalize Safety.settingParam? c = o, Safety.settingParam? c' = o' at hparam
    cases hparam <;> exact Iff.rfl
  have hsome : (∃ c ∈ n'.children, (Safety.settingParam? c).isSome = true) ↔
      ∃ c ∈ n.children, (Safety.settingParam? c).isSome = true := by
    simpa only [not_forall, not_not, exists_prop] using not_congr hreplaced
  rw [ObjectAtMost, hbelow, hsome, ObjectAtMost]

theorem grantsAtMost : GrantsAtMost most n' ↔ GrantsAtMost most n := by
  have hmade := h.value.makesSame
  rw [GrantsAtMost, hmade "embed" (by decide), hmade "object" (by decide), h.embedAtMost,
    h.objectAtMost, GrantsAtMost]

/-! ## Addresses -/

theorem isLiteralContent : isLiteralContent n' = isLiteralContent n := by
  have hvalue := h.value
  unfold Safety.isLiteralContent
  generalize n.value = v, n'.value = v' at hvalue
  cases hvalue <;> rfl

theorem madeAttribute? : Option.Rel SameEntry (madeAttribute? n) (madeAttribute? n') := by
  have hliteral : n'.children.all Safety.isLiteralContent =
      n.children.all Safety.isLiteralContent := by
    rw [Bool.eq_iff_iff, List.all_eq_true, List.all_eq_true]
    exact forall_mem_iff_of_forall₂ (fun _ _ hc => by rw [hc.isLiteralContent])
      h.children.forall₂
  have hvalue := h.value
  unfold Safety.madeAttribute?
  rw [hliteral]
  generalize n.value = v, n'.value = v' at hvalue
  cases hvalue with
  | attributeConstructor hname hname' h =>
    dsimp only
    rw [ValueTemplate.literalText?_of_plain hname, ValueTemplate.literalText?_of_plain hname']
    exact .some ⟨h, rfl⟩
  | refl => exact optionRel_refl SameEntry.refl _
  | _ => exact .none

theorem beginsMailto : Scope.beginsMailto n' = Scope.beginsMailto n := by
  have hchildren := h.children
  unfold Scope.beginsMailto
  generalize n.children = cs, n'.children = cs' at hchildren
  cases hchildren with
  | nil => rfl
  | @cons c c' rest rest' hc _ =>
    have hvalue := hc.value
    dsimp only
    generalize c.value = v, c'.value = v' at hvalue
    cases hvalue <;> rfl

theorem kept : Kept n n' where
  value := h.value
  unescaped := h.unescaped
  beginsMailto := h.beginsMailto
  made := List.rel_filterMap (fun _ _ hd => hd.madeAttribute?) h.children.ownedOfAll
  grants := fun _ => h.grantsAtMost

end SameTree

/-! ## Accepted trees -/

variable {g : Grant}

theorem rel_bind_inside? {n n' : Node} (h : Kept n n') {ancestors ancestors' : List Node}
    (habove : List.Forall₂ Alike ancestors ancestors') {scope? scope?' : Option Scope}
    (hscope : Option.Rel SameScope scope? scope?') :
    Option.Rel SameScope (scope?.bind fun scope => scope.inside? ancestors n)
      (scope?'.bind fun scope => scope.inside? ancestors' n') := by
  cases hscope with
  | none => exact .none
  | some hscope => exact inside?_same habove h.value h.beginsMailto hscope

mutual

/-- A tree is accepted at a place if one that is the same is accepted at one that looks alike. -/
theorem acceptedAt_same : ∀ {n n' : Node} {ancestors ancestors' : List Node}
    {scope? scope?' : Option Scope}, SameTree n n' → List.Forall₂ Alike ancestors ancestors' →
      Option.Rel SameScope scope? scope?' →
      (AcceptedAt g ancestors' scope?' n' ↔ AcceptedAt g ancestors scope? n)
  | ⟨v, u, cs⟩, ⟨v', _, cs'⟩, _, _, _, _, .node hv hcs, habove, hscope => by
    have h : Kept ⟨v, u, cs⟩ ⟨v', u, cs'⟩ := (SameTree.node hv hcs).kept
    rw [AcceptedAt, AcceptedAt, placeAccepted_kept h habove hscope,
      acceptedBelow_same hcs (.cons h.alike habove) (rel_bind_inside? h habove hscope)]

theorem acceptedBelow_same : ∀ {l l' : List Node} {ancestors ancestors' : List Node}
    {scope? scope?' : Option Scope}, SameTrees l l' → List.Forall₂ Alike ancestors ancestors' →
      Option.Rel SameScope scope? scope?' →
      (AcceptedBelow g ancestors' scope?' l' ↔ AcceptedBelow g ancestors scope? l)
  | _, _, _, _, _, _, .nil, _, _ => Iff.rfl
  | _, _, _, _, _, _, .cons h hrest, habove, hscope => by
    rw [AcceptedBelow, AcceptedBelow, acceptedAt_same h habove hscope,
      acceptedBelow_same hrest habove hscope]

end

/-- The verdict is the same for trees that no check tells apart. -/
theorem accepts_same (g : Grant) {template template' : Node} (h : SameTree template template') :
    accepts g template' = accepts g template := by
  have habove : List.Forall₂ Alike [template] [template'] := .cons h.kept.alike .nil
  rw [Bool.eq_iff_iff, accepts_iff_acceptedAt, accepts_iff_acceptedAt,
    nodeAccepted_kept h.kept .nil, ← acceptedBelow_iff, ← acceptedBelow_iff,
    acceptedBelow_same h.children habove (.some (.refl .outermost))]

end Safety
end TagGrammar
