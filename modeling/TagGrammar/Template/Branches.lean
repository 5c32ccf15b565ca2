/-
Branches of a choice with the same content.

Two branches with the same content can be one branch under either test.  Branches
that compare one operand with different constants exclude each other, so within a
run of such branches their order does not matter and all of one content are merged.
Other branches are merged only with the branch before them.  The first branch of
those merged stays and its test becomes their disjunction.
-/
import TagGrammar.Template.Node
import TagGrammar.XPath.Analysis

namespace TagGrammar
namespace Branches

/-- The test of a branch. -/
def test? (n : Node) : Option String :=
  match n.value with
  | .when test => some test
  | _ => none

/-- A test that holds if one of some tests does. -/
def joinTests (tests : List String) : String := String.intercalate " or " tests

/-- The operand and the constants of a branch that compares one operand with
constants. -/
def terms? (n : Node) : Option (String × List String) :=
  (test? n).bind fun test =>
    match XPath.Expr.parse test with
    | .ok e => e.equalityTerms?
    | .error _ => none

/-- The number of branches at the start of a list that compare one operand with
constants of which no two branches have one in common.  The operand and the constants
of the branches before are given. -/
def runLength (key : Option String) (constants : List String) : List Node → Nat
  | [] => 0
  | n :: rest =>
    match terms? n with
    | none => 0
    | some (k, cs) =>
      if key.any (· != k) || cs.any constants.contains then 0
      else runLength (some k) (constants ++ cs) rest + 1

/-- Put a branch with test `t` into the first group of its content, or into a new
group.  A group is its first branch and the tests of all of them. -/
def addToGroups (n : Node) (t : String) : List (Node × List String) → List (Node × List String)
  | [] => [(n, [t])]
  | g :: rest =>
    if g.1.sameContent n then (g.1, g.2 ++ [t]) :: rest else g :: addToGroups n t rest

/-- The groups of branches with the same content, by their first branches. -/
def groups (nodes : List Node) : List (Node × List String) :=
  nodes.foldl (fun gs n => addToGroups n ((test? n).getD "") gs) []

/-- The one branch that stands for a group. -/
def fuse (g : Node × List String) : Node := { g.1 with value := .when (joinTests g.2) }

/-- Merge within every run of branches that exclude each other. -/
def mergeRuns (nodes : List Node) : List Node :=
  match nodes with
  | [] => []
  | n :: rest =>
    let k := runLength none [] (n :: rest)
    if 1 < k then
      (groups ((n :: rest).take k)).map fuse ++ mergeRuns ((n :: rest).drop k)
    else n :: mergeRuns rest
termination_by nodes.length
decreasing_by
  · simp only [List.length_drop, List.length_cons]; omega
  · simp

/-- The first branch of a list with its test, and the list without it. -/
def firstBranch? : List Node → Option (Node × String × List Node)
  | [] => none
  | n :: rest =>
    match test? n with
    | some t => some (n, t, rest)
    | none => (firstBranch? rest).map fun r => (r.1, r.2.1, n :: r.2.2)

/-- Merge every branch with the next one if their contents are the same, from the last
branch on. -/
def mergeConsecutive : List Node → List Node
  | [] => []
  | n :: rest =>
    let rest := mergeConsecutive rest
    match test? n, firstBranch? rest with
    | some t, some (next, t', others) =>
      if n.sameContent next then { n with value := .when (joinTests [t, t']) } :: others
      else n :: rest
    | _, _ => n :: rest

/-- Merge the branches of a choice. -/
def merge (nodes : List Node) : List Node := mergeConsecutive (mergeRuns nodes)

/-! ## Where merged branches come from -/

/-- Every node of the first list has the children of one in the second. -/
def ContentFrom (new old : List Node) : Prop :=
  ∀ n ∈ new, ∃ m ∈ old, n.children = m.children

theorem ContentFrom.refl (l : List Node) : ContentFrom l l := fun n h => ⟨n, h, rfl⟩

theorem ContentFrom.trans {a b c : List Node} (hab : ContentFrom a b) (hbc : ContentFrom b c) :
    ContentFrom a c := by
  intro n hn
  obtain ⟨m, hm, e⟩ := hab n hn
  obtain ⟨k, hk, e'⟩ := hbc m hm
  exact ⟨k, hk, e.trans e'⟩

theorem mem_addToGroups {n : Node} {t : String} {gs : List (Node × List String)}
    {g : Node × List String} (h : g ∈ addToGroups n t gs) : g.1 = n ∨ ∃ g' ∈ gs, g.1 = g'.1 := by
  induction gs with
  | nil =>
    simp only [addToGroups, List.mem_singleton] at h
    exact Or.inl (congrArg Prod.fst h)
  | cons x rest ih =>
    simp only [addToGroups] at h
    split at h
    · rcases List.mem_cons.mp h with rfl | h
      · exact Or.inr ⟨x, List.mem_cons_self, rfl⟩
      · exact Or.inr ⟨g, List.mem_cons_of_mem _ h, rfl⟩
    · rcases List.mem_cons.mp h with rfl | h
      · exact Or.inr ⟨g, List.mem_cons_self, rfl⟩
      · rcases ih h with e | ⟨g', hg', e⟩
        · exact Or.inl e
        · exact Or.inr ⟨g', List.mem_cons_of_mem _ hg', e⟩

theorem mem_of_mem_groups {nodes : List Node} {g : Node × List String} (h : g ∈ groups nodes) :
    g.1 ∈ nodes := by
  have key : ∀ (l : List Node) (gs : List (Node × List String)) (g : Node × List String),
      g ∈ l.foldl (fun gs n => addToGroups n ((test? n).getD "") gs) gs →
        g.1 ∈ l ∨ ∃ g' ∈ gs, g.1 = g'.1 := by
    intro l
    induction l with
    | nil => exact fun gs g h => Or.inr ⟨g, h, rfl⟩
    | cons n rest ih =>
      intro gs g h
      rcases ih _ g h with h | ⟨g', hg', e⟩
      · exact Or.inl (List.mem_cons_of_mem _ h)
      · rcases mem_addToGroups hg' with e' | ⟨g'', hg'', e'⟩
        · exact Or.inl (by rw [e, e']; exact List.mem_cons_self)
        · exact Or.inr ⟨g'', hg'', e.trans e'⟩
  rcases key nodes [] g h with h | ⟨_, h, _⟩
  · exact h
  · exact absurd h List.not_mem_nil

theorem contentFrom_mergeRuns (nodes : List Node) : ContentFrom (mergeRuns nodes) nodes := by
  fun_induction mergeRuns nodes with
  | case1 => exact ContentFrom.refl []
  | case2 n rest k hk ih =>
    intro m hm
    rcases List.mem_append.mp hm with hm | hm
    · obtain ⟨g, hg, rfl⟩ := List.mem_map.mp hm
      exact ⟨g.1, List.mem_of_mem_take (mem_of_mem_groups hg), rfl⟩
    · obtain ⟨m', hm', e⟩ := ih m hm
      exact ⟨m', List.mem_of_mem_drop hm', e⟩
  | case3 n rest k hk ih =>
    intro m hm
    rcases List.mem_cons.mp hm with rfl | hm
    · exact ⟨m, List.mem_cons_self, rfl⟩
    · obtain ⟨m', hm', e⟩ := ih m hm
      exact ⟨m', List.mem_cons_of_mem _ hm', e⟩

theorem mem_of_firstBranch? {nodes : List Node} {n : Node} {t : String} {others : List Node}
    (h : firstBranch? nodes = some (n, t, others)) : ∀ m ∈ others, m ∈ nodes := by
  induction nodes generalizing others with
  | nil => simp [firstBranch?] at h
  | cons x rest ih =>
    simp only [firstBranch?] at h
    split at h
    · obtain ⟨-, -, rfl⟩ : x = n ∧ _ = t ∧ rest = others := by simpa using h
      exact fun m hm => List.mem_cons_of_mem _ hm
    · obtain ⟨⟨n', t', o⟩, hr, heq⟩ := Option.map_eq_some_iff.mp h
      obtain ⟨rfl, rfl, rfl⟩ : n' = n ∧ t' = t ∧ x :: o = others := by simpa using heq
      intro m hm
      rcases List.mem_cons.mp hm with rfl | hm
      · exact List.mem_cons_self
      · exact List.mem_cons_of_mem _ (ih hr m hm)

theorem contentFrom_mergeConsecutive (nodes : List Node) :
    ContentFrom (mergeConsecutive nodes) nodes := by
  induction nodes with
  | nil => exact ContentFrom.refl []
  | cons n rest ih =>
    have tail : ∀ m ∈ mergeConsecutive rest, ∃ m' ∈ n :: rest, m.children = m'.children := by
      intro m hm
      obtain ⟨m', hm', e⟩ := ih m hm
      exact ⟨m', List.mem_cons_of_mem _ hm', e⟩
    have keep : ContentFrom (n :: mergeConsecutive rest) (n :: rest) := by
      intro m hm
      rcases List.mem_cons.mp hm with rfl | hm
      · exact ⟨m, List.mem_cons_self, rfl⟩
      · exact tail m hm
    simp only [mergeConsecutive]
    split
    · rename_i hf
      split
      · intro m hm
        rcases List.mem_cons.mp hm with rfl | hm
        · exact ⟨n, List.mem_cons_self, rfl⟩
        · exact tail m (mem_of_firstBranch? hf m hm)
      · exact keep
    · exact keep

/-- Merging brings in no content of its own. -/
theorem contentFrom_merge (nodes : List Node) : ContentFrom (merge nodes) nodes :=
  (contentFrom_mergeConsecutive _).trans (contentFrom_mergeRuns nodes)

theorem size_lt_of_mem {n : Node} {nodes : List Node} (h : n ∈ nodes) :
    n.size < Node.sizeOfAll nodes + 1 := by
  induction nodes with
  | nil => exact absurd h List.not_mem_nil
  | cons m rest ih =>
    simp only [Node.sizeOfAll]
    rcases List.mem_cons.mp h with rfl | h
    · omega
    · have := ih h
      omega

theorem size_eq (n : Node) : n.size = 1 + Node.sizeOfAll n.children := by
  cases n
  simp [Node.size]

/-- The children of a node after merging, if it is a choice. -/
def mergedChildren (n : Node) : List Node :=
  match n.value with
  | .choose => merge n.children
  | _ => n.children

theorem size_of_mem_mergedChildren {n m : Node} (h : m ∈ mergedChildren n) :
    m.size < n.size := by
  have from_children : ContentFrom (mergedChildren n) n.children := by
    unfold mergedChildren
    split
    · exact contentFrom_merge _
    · exact ContentFrom.refl _
  obtain ⟨k, hk, e⟩ := from_children m h
  have := size_lt_of_mem hk
  rw [size_eq n, size_eq m, e, ← size_eq k]
  omega

/-- Merge the branches of every choice below a node.  An outer choice is merged before
the choices inside its branches are. -/
def mergeEverywhere (n : Node) : Node :=
  { n with children := (mergedChildren n).attach.map fun m => mergeEverywhere m.1 }
termination_by n.size
decreasing_by exact size_of_mem_mergedChildren m.2

end Branches
end TagGrammar
