/-
Choices that merging leaves as they are.

Every merge takes a branch away, so merging leaves a list of the same length only if it
leaves the list itself.  That is so exactly if the branches of a run differ in content from
each other and every branch from the next one (`merge_eq_self_iff`), and a template stays if
this holds of all its choices.
-/
import Mathlib.Data.List.Chain
import Mathlib.Data.List.Induction
import TagGrammar.Proofs.Template.Merged

namespace TagGrammar
namespace Branches

variable {n m : Node} {nodes run : List Node} {gs : List (Node × List String)} {t : String}

/-- Two branches of which the content is not the same. -/
def Differ (a b : Node) : Prop := content a ≠ content b

/-- The branches among some nodes. -/
def branches (nodes : List Node) : List Node := nodes.filter fun n => (test? n).isSome

/-- A choice without branches to merge: in a run all differ, and elsewhere neighbours do. -/
structure Settled (nodes : List Node) : Prop where
  runs : ∀ run ∈ runs nodes, run.Pairwise Differ
  neighbours : (branches nodes).IsChain Differ

theorem branches_cons_of_some (h : test? n = some t) :
    branches (n :: nodes) = n :: branches nodes := by
  simp [branches, h]

theorem branches_cons_of_none (h : test? n = none) : branches (n :: nodes) = branches nodes := by
  simp [branches, h]

/-! ## Groups -/

theorem addToGroups_of_differ (h : ∀ g ∈ gs, Differ g.1 n) :
    addToGroups n t gs = gs ++ [(n, [t])] := by
  induction gs with
  | nil => rfl
  | cons g gs ih =>
    obtain ⟨hg, hgs⟩ := List.forall_mem_cons.mp h
    rw [addToGroups, if_neg (fun hsame => hg ((sameContent_iff _ _).mp hsame)), ih hgs,
      List.cons_append]

theorem length_addToGroups_of_same {g : Node × List String} (hg : g ∈ gs)
    (h : content g.1 = content n) : (addToGroups n t gs).length = gs.length := by
  induction gs with
  | nil => cases hg
  | cons g' gs ih =>
    unfold addToGroups
    split
    · rfl
    · rename_i hdiffers
      rcases List.mem_cons.mp hg with rfl | hg
      · exact absurd ((sameContent_iff _ _).mpr h) hdiffers
      · rw [List.length_cons, List.length_cons, ih hg]

theorem length_addToGroups_le (n : Node) (t : String) (gs : List (Node × List String)) :
    (addToGroups n t gs).length ≤ gs.length + 1 := by
  by_cases h : ∀ g ∈ gs, Differ g.1 n
  · rw [addToGroups_of_differ h, List.length_append, List.length_singleton]
  · unfold Differ at h
    push Not at h
    obtain ⟨g, hg, hsame⟩ := h
    rw [length_addToGroups_of_same hg hsame]
    exact Nat.le_succ _

theorem groups_concat (run : List Node) (n : Node) :
    groups (run ++ [n]) = addToGroups n (groupedTest n) (groups run) := by
  rw [groups, List.foldl_append]
  rfl

theorem length_groups_le (run : List Node) : (groups run).length ≤ run.length := by
  induction run using List.reverseRecOn with
  | nil => exact Nat.le_refl 0
  | append_singleton run n ih =>
    have hstep := length_addToGroups_le n (groupedTest n) (groups run)
    rw [groups_concat, List.length_append, List.length_singleton]
    omega

/-- As many groups as branches are there only if no two branches have one content. -/
theorem pairwise_of_length_groups (h : (groups run).length = run.length) :
    run.Pairwise Differ := by
  induction run using List.reverseRecOn with
  | nil => exact List.Pairwise.nil
  | append_singleton run n ih =>
    have hle := length_groups_le run
    have hstep := length_addToGroups_le n (groupedTest n) (groups run)
    rw [groups_concat, List.length_append, List.length_singleton] at h
    refine List.pairwise_append.mpr ⟨ih (by omega), List.pairwise_singleton _ _, ?_⟩
    intro m hm k hk hsame
    obtain rfl := List.mem_singleton.mp hk
    obtain ⟨g, hg, -, hcontent, -⟩ := (grouped_groups run).covers m hm
    have := length_addToGroups_of_same (t := groupedTest k) hg (hcontent.symm.trans hsame)
    omega

theorem groups_of_pairwise (h : run.Pairwise Differ) :
    groups run = run.map fun n => (n, [groupedTest n]) := by
  induction run using List.reverseRecOn with
  | nil => rfl
  | append_singleton run n ih =>
    obtain ⟨hrun, -, hlast⟩ := List.pairwise_append.mp h
    have hdiffer : ∀ g ∈ groups run, Differ g.1 n := fun g hg =>
      hlast g.1 (mem_of_mem_groups hg) n (List.mem_singleton.mpr rfl)
    rw [groups_concat, addToGroups_of_differ hdiffer, ih hrun, List.map_append]
    rfl

/-! ## Runs -/

theorem fuse_alone (h : test? n = some t) : fuse (n, [t]) = n := by
  obtain ⟨value, unescaped, children⟩ := n
  have hvalue : value = .when t := test?_eq_some_iff.mp h
  rw [hvalue, fuse, joinTests, String.intercalate_singleton]

theorem length_mergedRun_le (run : List Node) : (mergedRun run).length ≤ run.length := by
  unfold mergedRun
  split
  · rw [List.length_map]
    exact length_groups_le run
  · exact Nat.le_refl _

theorem pairwise_of_length_mergedRun (h : (mergedRun run).length = run.length) :
    run.Pairwise Differ := by
  unfold mergedRun at h
  split at h
  · rw [List.length_map] at h
    exact pairwise_of_length_groups h
  · rename_i hshort
    match run, hshort with
    | [], _ => exact List.Pairwise.nil
    | [n], _ => exact List.pairwise_singleton _ _
    | _ :: _ :: _, hshort => exact absurd (by simp) hshort

theorem mergedRun_of_pairwise (hrun : run ∈ runs nodes) (h : run.Pairwise Differ) :
    mergedRun run = run := by
  rcases mem_runs hrun with ⟨n, rfl⟩ | ⟨hterms, -⟩
  · rfl
  · have halone : ∀ n ∈ run, fuse (n, [groupedTest n]) = n := fun n hn =>
      fuse_alone (test?_eq_groupedTest (hterms n hn))
    unfold mergedRun
    split
    · rw [groups_of_pairwise h, List.map_map]
      exact (List.map_congr_left halone).trans (List.map_id run)
    · rfl

theorem length_flatMap_mergedRun_le (rs : List (List Node)) :
    (rs.flatMap mergedRun).length ≤ rs.flatten.length := by
  induction rs with
  | nil => exact Nat.le_refl 0
  | cons run rs ih =>
    have := length_mergedRun_le run
    rw [List.flatMap_cons, List.flatten_cons, List.length_append, List.length_append]
    omega

theorem length_mergeRuns_le (nodes : List Node) : (mergeRuns nodes).length ≤ nodes.length := by
  have := length_flatMap_mergedRun_le (runs nodes)
  rwa [← mergeRuns_eq, flatten_runs] at this

theorem pairwise_of_length_flatMap {rs : List (List Node)}
    (h : (rs.flatMap mergedRun).length = rs.flatten.length) :
    ∀ run ∈ rs, run.Pairwise Differ := by
  induction rs with
  | nil => simp
  | cons run rs ih =>
    have hrun := length_mergedRun_le run
    have hrs := length_flatMap_mergedRun_le rs
    rw [List.flatMap_cons, List.flatten_cons, List.length_append, List.length_append] at h
    exact List.forall_mem_cons.mpr ⟨pairwise_of_length_mergedRun (by omega), ih (by omega)⟩

theorem pairwise_of_length_mergeRuns (h : (mergeRuns nodes).length = nodes.length) :
    ∀ run ∈ runs nodes, run.Pairwise Differ := by
  refine pairwise_of_length_flatMap ?_
  rw [← mergeRuns_eq, flatten_runs, h]

theorem mergeRuns_of_pairwise (h : ∀ run ∈ runs nodes, run.Pairwise Differ) :
    mergeRuns nodes = nodes := by
  have hruns : (runs nodes).map mergedRun = (runs nodes).map id :=
    List.map_congr_left fun run hrun => mergedRun_of_pairwise hrun (h run hrun)
  rw [mergeRuns_eq, List.flatMap_def, hruns, List.map_id, flatten_runs]

/-! ## Neighbours -/

theorem head?_branches (nodes : List Node) :
    (branches nodes).head? = (firstBranch? nodes).map Prod.fst := by
  induction nodes with
  | nil => rfl
  | cons n rest ih =>
    cases htest : test? n with
    | none =>
      rw [branches_cons_of_none htest, ih, firstBranch?, htest, Option.map_map]
      rfl
    | some t =>
      rw [branches_cons_of_some htest, firstBranch?, htest]
      rfl

theorem length_mergeConsecutive_le (nodes : List Node) :
    (mergeConsecutive nodes).length ≤ nodes.length := by
  induction nodes with
  | nil => exact Nat.le_refl 0
  | cons n rest ih =>
    simp only [mergeConsecutive]
    split
    · rename_i hfirst
      have hlength := (firstBranch?_perm hfirst).1.length_eq
      split <;> simp only [List.length_cons] at * <;> omega
    · simp only [List.length_cons]
      omega

theorem mergeConsecutive_of_isChain (h : (branches nodes).IsChain Differ) :
    mergeConsecutive nodes = nodes := by
  induction nodes with
  | nil => rfl
  | cons n rest ih =>
    simp only [mergeConsecutive]
    cases htest : test? n with
    | none =>
      rw [branches_cons_of_none htest] at h
      rw [ih h]
    | some t =>
      rw [branches_cons_of_some htest, List.isChain_cons] at h
      obtain ⟨hnext, hrest⟩ := h
      rw [ih hrest]
      rw [head?_branches] at hnext
      cases hfirst : firstBranch? rest with
      | none => rfl
      | some first =>
        obtain ⟨next, t', others⟩ := first
        have hdiffer : Differ n next := hnext next (by rw [hfirst]; rfl)
        dsimp only
        rw [if_neg fun hsame => hdiffer ((sameContent_iff _ _).mp hsame)]

theorem isChain_of_length_mergeConsecutive
    (h : (mergeConsecutive nodes).length = nodes.length) : (branches nodes).IsChain Differ := by
  induction nodes with
  | nil => exact .nil
  | cons n rest ih =>
    have hle := length_mergeConsecutive_le rest
    simp only [mergeConsecutive] at h
    cases htest : test? n with
    | none =>
      rw [htest] at h
      rw [branches_cons_of_none htest]
      exact ih (by simpa using h)
    | some t =>
      have hrest : (mergeConsecutive rest).length = rest.length := by
        rw [htest] at h
        split at h
        · rename_i hfirst
          have hlength := (firstBranch?_perm hfirst).1.length_eq
          split at h <;> simp only [List.length_cons] at * <;> omega
        · simpa using h
      rw [branches_cons_of_some htest, List.isChain_cons]
      refine ⟨?_, ih hrest⟩
      rw [mergeConsecutive_of_isChain (ih hrest), htest] at h
      intro next hnext
      rw [head?_branches] at hnext
      obtain ⟨⟨_, t', others⟩, hfirst, rfl⟩ := Option.map_eq_some_iff.mp hnext
      intro hsame
      have hlength := (firstBranch?_perm hfirst).1.length_eq
      rw [hfirst] at h
      simp only [(sameContent_iff _ _).mpr hsame, if_true, List.length_cons] at *
      omega

/-! ## Choices and templates -/

theorem merge_of_settled (h : Settled nodes) : merge nodes = nodes := by
  rw [merge, mergeRuns_of_pairwise h.runs, mergeConsecutive_of_isChain h.neighbours]

/-- Merging that takes no branch away had none to merge. -/
theorem settled_of_length_merge (h : (merge nodes).length = nodes.length) : Settled nodes := by
  have hruns := length_mergeRuns_le nodes
  have hconsecutive := length_mergeConsecutive_le (mergeRuns nodes)
  unfold merge at h
  have hpairs : ∀ run ∈ runs nodes, run.Pairwise Differ :=
    pairwise_of_length_mergeRuns (by omega)
  refine ⟨hpairs, isChain_of_length_mergeConsecutive ?_⟩
  rw [mergeRuns_of_pairwise hpairs] at h
  exact h

theorem merge_eq_self_iff : merge nodes = nodes ↔ Settled nodes :=
  ⟨fun h => settled_of_length_merge (congrArg List.length h), merge_of_settled⟩

theorem settled_of_length_mergedChildren (h : (mergedChildren n).length = n.children.length)
    (hchoice : n.value = .choose) : Settled n.children := by
  rw [mergedChildren, hchoice] at h
  exact settled_of_length_merge h

theorem mergedChildren_of_settled (h : n.value = .choose → Settled n.children) :
    mergedChildren n = n.children := by
  by_cases hchoice : n.value = .choose
  · rw [mergedChildren, hchoice]
    exact merge_of_settled (h hchoice)
  · exact mergedChildren_of_ne hchoice

theorem mergeEverywhere_eq_self_iff_children :
    mergeEverywhere n = n ↔ (mergedChildren n).map mergeEverywhere = n.children := by
  rw [← children_mergeEverywhere]
  constructor
  · exact congrArg Node.children
  · intro h
    refine Node.eq_of_children (value_mergeEverywhere n) ?_ h
    rw [mergeEverywhere]

/-- Merging leaves a template exactly if there is nothing to merge in any of its choices. -/
theorem mergeEverywhere_eq_self_iff (n : Node) :
    mergeEverywhere n = n ↔ ∀ m ∈ n.nodes, m.value = .choose → Settled m.children := by
  induction n using Node.of_children with
  | step n ih =>
    rw [mergeEverywhere_eq_self_iff_children, Node.nodes_eq, List.forall_mem_cons,
      Node.forall_mem_nodesOfAll]
    constructor
    · intro h
      have hlength : (mergedChildren n).length = n.children.length := by
        rw [← h, List.length_map]
      have hsettled := settled_of_length_mergedChildren hlength
      rw [mergedChildren_of_settled hsettled] at h
      have hchildren : ∀ c ∈ n.children, mergeEverywhere c = c :=
        List.map_inj_left.mp (h.trans (List.map_id _).symm)
      exact ⟨hsettled, fun c hc => (ih c hc).mp (hchildren c hc)⟩
    · rintro ⟨hsettled, hchildren⟩
      have hkept : n.children.map mergeEverywhere = n.children.map id :=
        List.map_congr_left fun c hc => (ih c hc).mpr (hchildren c hc)
      rw [mergedChildren_of_settled hsettled, hkept, List.map_id]

end Branches
end TagGrammar
