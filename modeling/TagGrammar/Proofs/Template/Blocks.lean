/-
Which branches a branch stands for after merging.

Both merging steps take branches out of the list that they go over, so a branch that is left
may stand for several that were far apart.  A `Block` is what one child of a choice stands
for: itself alone, or branches of one content in document order.  The children of a choice
are divided into blocks, and merging leaves one child for each (`merge_divides`).

Branches of one content are not always merged in one step, and the tests of the second step
are already joined ones.  They are in order nevertheless: within a run all branches of one
content are in one block, so blocks of one content come from different runs, and all of the
one are before all of the other (`Unmixed`).
-/
import TagGrammar.Proofs.Template.PlainChoices

namespace TagGrammar
namespace Branches

/-- A child of a choice with its place among the children. -/
abbrev Placed := Node × Nat

def Before (a b : Placed) : Prop := a.2 < b.2

/-- Children of which one is left: a child alone, or branches of one content in order. -/
structure Block where
  first : Placed
  others : List Placed := []
  ordered : (first :: others).Pairwise Before
  same : ∀ m ∈ others, first.1.sameContent m.1 = true
  branches : others ≠ [] → ∀ m ∈ first :: others, (test? m.1).isSome = true

namespace Block

variable {b c : Block} {p m : Placed}

def members (b : Block) : List Placed := b.first :: b.others

/-- The tests of the members, in order. -/
def tests (b : Block) : List String := b.members.map fun m => groupedTest m.1

/-- The child that is left: the first one, under the tests of all if it is a branch. -/
def survivor (b : Block) : Node :=
  if (test? b.first.1).isSome then
    { b.first.1 with value := .when (String.intercalate " or " b.tests) }
  else b.first.1

def alone (p : Placed) : Block where
  first := p
  ordered := List.pairwise_singleton _ _
  same := by simp
  branches h := absurd rfl h

theorem content_of_mem (b : Block) (hm : m ∈ b.members) : content m.1 = content b.first.1 := by
  rcases List.mem_cons.mp hm with rfl | hm
  · rfl
  · exact ((sameContent_iff _ _).mp (b.same m hm)).symm

theorem isSome_test?_of_mem (b : Block) (hb : (test? b.first.1).isSome = true)
    (hm : m ∈ b.members) : (test? m.1).isSome = true := by
  by_cases hothers : b.others = []
  · rw [members, hothers, List.mem_singleton] at hm
    rw [hm]
    exact hb
  · exact b.branches hothers m hm

/-- Nothing of a block is before its first member. -/
theorem before_of_mem (b : Block) (hp : Before p b.first) (hm : m ∈ b.members) : Before p m := by
  rcases List.mem_cons.mp hm with rfl | hm
  · exact hp
  · exact Nat.lt_trans hp ((List.pairwise_cons.mp b.ordered).1 m hm)

/-- The branches of two blocks, the second ones after the first ones. -/
def join (b c : Block) (hb : (test? b.first.1).isSome = true)
    (hc : (test? c.first.1).isSome = true) (hsame : content b.first.1 = content c.first.1)
    (horder : ∀ m ∈ b.members, ∀ m' ∈ c.members, Before m m') : Block where
  first := b.first
  others := b.others ++ c.members
  ordered := by
    show (b.members ++ c.members).Pairwise Before
    exact List.pairwise_append.mpr ⟨b.ordered, c.ordered, horder⟩
  same := by
    intro m hm
    rcases List.mem_append.mp hm with hm | hm
    · exact b.same m hm
    · exact (sameContent_iff _ _).mpr (hsame.trans (c.content_of_mem hm).symm)
  branches := by
    intro _ m hm
    change m ∈ b.members ++ c.members at hm
    rcases List.mem_append.mp hm with hm | hm
    · exact b.isSome_test?_of_mem hb hm
    · exact c.isSome_test?_of_mem hc hm

theorem content_survivor (b : Block) : content b.survivor = content b.first.1 := by
  unfold survivor
  split <;> rfl

theorem survivor_of_branch (h : (test? b.first.1).isSome = true) :
    b.survivor = fuse (b.first.1, b.tests) := if_pos h

theorem survivor_alone (p : Placed) : (alone p).survivor = p.1 := by
  unfold survivor
  split
  · rename_i h
    obtain ⟨t, ht⟩ := Option.isSome_iff_exists.mp h
    have ht' : groupedTest p.1 = t := congrArg (Option.getD · "") ht
    exact fuse_alone (ht.trans (congrArg some ht'.symm))
  · rfl

theorem test?_survivor (b : Block) :
    test? b.survivor = (test? b.first.1).map fun _ => joinTests b.tests := by
  unfold survivor
  cases h : test? b.first.1 with
  | none => exact h
  | some t => rfl

theorem of_test?_survivor {t : String} (h : test? b.survivor = some t) :
    (test? b.first.1).isSome = true ∧ joinTests b.tests = t := by
  rw [test?_survivor] at h
  obtain ⟨_, hfirst, rfl⟩ := Option.map_eq_some_iff.mp h
  exact ⟨Option.isSome_iff_exists.mpr ⟨_, hfirst⟩, rfl⟩

theorem tests_ne_nil (b : Block) : b.tests ≠ [] := List.cons_ne_nil _ _

theorem tests_join (hb : (test? b.first.1).isSome = true)
    (hc : (test? c.first.1).isSome = true) (hsame : content b.first.1 = content c.first.1)
    (horder : ∀ m ∈ b.members, ∀ m' ∈ c.members, Before m m') :
    (b.join c hb hc hsame horder).tests = b.tests ++ c.tests := by
  show (b.members ++ c.members).map _ = _
  rw [List.map_append]
  rfl

/-- Joined blocks leave the first branch under the joined tests of both. -/
theorem survivor_join (hb : (test? b.first.1).isSome = true)
    (hc : (test? c.first.1).isSome = true) (hsame : content b.first.1 = content c.first.1)
    (horder : ∀ m ∈ b.members, ∀ m' ∈ c.members, Before m m') :
    (b.join c hb hc hsame horder).survivor =
      { b.survivor with value := .when (joinTests [joinTests b.tests, joinTests c.tests]) } := by
  have hsingle : joinTests [joinTests c.tests] = joinTests c.tests :=
    String.intercalate_singleton
  have hjoin : joinTests (b.tests ++ c.tests) =
      joinTests [joinTests b.tests, joinTests c.tests] := by
    rw [joinTests_append b.tests_ne_nil c.tests_ne_nil, joinTests_cons (List.cons_ne_nil _ _),
      hsingle]
  have hfirst : (b.join c hb hc hsame horder).first = b.first := rfl
  rw [survivor_of_branch (hfirst ▸ hb), survivor_of_branch hb, tests_join, hfirst, fuse, hjoin]
  rfl

end Block

/-! ## Lists of blocks -/

variable {blocks rest : List Block} {b c : Block} {placed : List Placed} {p m : Placed}

def allMembers (blocks : List Block) : List Placed := blocks.flatMap Block.members

/-- Blocks in the order of their first members. -/
def FirstsOrdered (blocks : List Block) : Prop := (blocks.map Block.first).Pairwise Before

/-- If two blocks have one content, all of the first one is before all of the second one. -/
def Unmixed (b c : Block) : Prop :=
  content b.first.1 = content c.first.1 → ∀ m ∈ b.members, ∀ m' ∈ c.members, Before m m'

theorem mem_allMembers : m ∈ allMembers blocks ↔ ∃ b ∈ blocks, m ∈ b.members := List.mem_flatMap

theorem allMembers_cons : allMembers (b :: blocks) = b.members ++ allMembers blocks :=
  List.flatMap_cons

theorem allMembers_append : allMembers (blocks ++ rest) = allMembers blocks ++ allMembers rest :=
  List.flatMap_append

theorem first_mem_allMembers (h : b ∈ blocks) : b.first ∈ allMembers blocks :=
  mem_allMembers.mpr ⟨b, h, List.mem_cons_self⟩

theorem firstsOrdered_cons :
    FirstsOrdered (b :: blocks) ↔ (∀ c ∈ blocks, Before b.first c.first) ∧ FirstsOrdered blocks := by
  rw [FirstsOrdered, List.map_cons, List.pairwise_cons, List.forall_mem_map, FirstsOrdered]

theorem firstsOrdered_append : FirstsOrdered (blocks ++ rest) ↔
    FirstsOrdered blocks ∧ FirstsOrdered rest ∧
      ∀ b ∈ blocks, ∀ c ∈ rest, Before b.first c.first := by
  rw [FirstsOrdered, List.map_append, List.pairwise_append, List.forall_mem_map]
  simp only [List.forall_mem_map]
  rfl

theorem before_allMembers (h : ∀ b ∈ blocks, Before p b.first) :
    ∀ m ∈ allMembers blocks, Before p m := by
  intro m hm
  obtain ⟨b, hb, hm⟩ := mem_allMembers.mp hm
  exact b.before_of_mem (h b hb) hm

/-! ## Runs -/

theorem addToGroups_cases (n : Node) (t : String) (gs : List (Node × List String)) :
    addToGroups n t gs = gs ++ [(n, [t])] ∨
      ∃ before g after, gs = before ++ g :: after ∧ content g.1 = content n ∧
        addToGroups n t gs = before ++ (g.1, g.2 ++ [t]) :: after := by
  induction gs with
  | nil => exact Or.inl rfl
  | cons g gs ih =>
    by_cases hsame : g.1.sameContent n = true
    · refine Or.inr ⟨[], g, gs, rfl, (sameContent_iff _ _).mp hsame, ?_⟩
      rw [addToGroups, if_pos hsame, List.nil_append]
    · rw [addToGroups, if_neg hsame]
      rcases ih with hadd | ⟨before, g', after, rfl, hcontent, hadd⟩
      · exact Or.inl (by rw [hadd, List.cons_append])
      · exact Or.inr ⟨g :: before, g', after, rfl, hcontent, by rw [hadd, List.cons_append]⟩

/-- A block of branches as a group. -/
def Block.group (b : Block) : Node × List String := (b.first.1, b.tests)

/-- One more branch at the end goes into a block of its own or to the end of another one. -/
theorem exists_blocks_addToGroups (hp : (test? p.1).isSome = true)
    (hbranches : ∀ m ∈ allMembers blocks, (test? m.1).isSome = true)
    (hbefore : ∀ m ∈ allMembers blocks, Before m p) (hfirsts : FirstsOrdered blocks) :
    ∃ blocks', (allMembers blocks').Perm (allMembers blocks ++ [p]) ∧ FirstsOrdered blocks' ∧
      addToGroups p.1 (groupedTest p.1) (blocks.map Block.group) = blocks'.map Block.group := by
  rcases addToGroups_cases p.1 (groupedTest p.1) (blocks.map Block.group) with
    hadd | ⟨before, g, after, hsplit, hcontent, hadd⟩
  · refine ⟨blocks ++ [Block.alone p], ?_, ?_, ?_⟩
    · rw [allMembers_append]
      exact List.Perm.refl _
    · refine firstsOrdered_append.mpr ⟨hfirsts, List.pairwise_singleton _ _, fun b hb c hc => ?_⟩
      rw [List.mem_singleton.mp hc]
      exact hbefore b.first (first_mem_allMembers hb)
    · rw [hadd, List.map_append]
      rfl
  · obtain ⟨bs, rest, rfl, rfl, hrest⟩ := List.map_eq_append_iff.mp hsplit
    obtain ⟨b, cs, rfl, rfl, rfl⟩ := List.map_eq_cons_iff.mp hrest
    have hb : b ∈ bs ++ b :: cs := List.mem_append_right bs List.mem_cons_self
    have horder : ∀ m ∈ b.members, ∀ m' ∈ (Block.alone p).members, Before m m' := by
      intro m hm m' hm'
      rw [List.mem_singleton.mp hm']
      exact hbefore m (mem_allMembers.mpr ⟨b, hb, hm⟩)
    refine ⟨bs ++ b.join (.alone p) (hbranches _ (first_mem_allMembers hb)) hp hcontent horder :: cs,
      ?_, ?_, ?_⟩
    · have hstep : (b.members ++ [p] ++ allMembers cs).Perm (b.members ++ allMembers cs ++ [p]) := by
        rw [List.append_assoc, List.append_assoc]
        exact List.perm_append_comm.append_left b.members
      rw [allMembers_append, allMembers_append, allMembers_cons, allMembers_cons, List.append_assoc]
      exact hstep.append_left (allMembers bs)
    · unfold FirstsOrdered at hfirsts ⊢
      rw [List.map_append, List.map_cons] at hfirsts ⊢
      exact hfirsts
    · rw [hadd, List.map_append, List.map_cons]
      refine congrArg (fun tests => bs.map Block.group ++ (b.first.1, tests) :: _) ?_
      exact (Block.tests_join (b := b) (c := .alone p) _ _ _ _).symm

/-- Branches in order are grouped in blocks. -/
theorem exists_blocks_groups (hbranches : ∀ p ∈ placed, (test? p.1).isSome = true)
    (hordered : placed.Pairwise Before) :
    ∃ blocks, (allMembers blocks).Perm placed ∧ FirstsOrdered blocks ∧
      groups (placed.map Prod.fst) = blocks.map Block.group := by
  -- from the end, since a branch is put after those that are in groups already
  induction placed using List.reverseRecOn with
  | nil => exact ⟨[], List.Perm.refl _, List.Pairwise.nil, rfl⟩
  | append_singleton placed p ih =>
    obtain ⟨hplaced, -, hlast⟩ := List.pairwise_append.mp hordered
    obtain ⟨hbranches, hp⟩ := List.forall_mem_append.mp hbranches
    obtain ⟨blocks, hperm, hfirsts, hgroups⟩ := ih hbranches hplaced
    have hp : (test? p.1).isSome = true := hp p (List.mem_singleton.mpr rfl)
    obtain ⟨blocks', hperm', hfirsts', hadd⟩ := exists_blocks_addToGroups hp
      (fun m hm => hbranches m (hperm.mem_iff.mp hm))
      (fun m hm => hlast m (hperm.mem_iff.mp hm) p (List.mem_singleton.mpr rfl)) hfirsts
    refine ⟨blocks', hperm'.trans (hperm.append (List.Perm.refl [p])), hfirsts', ?_⟩
    rw [List.map_append, List.map_singleton, groups_concat, hgroups, hadd]

/-- A run leaves the survivors of blocks of different content. -/
theorem exists_blocks_mergedRun {run : List Node} (hordered : placed.Pairwise Before)
    (hplaced : placed.map Prod.fst = run)
    (hrun : (∃ n, run = [n]) ∨ ∀ n ∈ run, (terms? n).isSome = true) :
    ∃ blocks, (allMembers blocks).Perm placed ∧ FirstsOrdered blocks ∧
      blocks.Pairwise Unmixed ∧ mergedRun run = blocks.map Block.survivor := by
  by_cases hlong : 1 < run.length
  · have hterms : ∀ n ∈ run, (terms? n).isSome = true := by
      refine hrun.resolve_left ?_
      rintro ⟨n, rfl⟩
      simp at hlong
    have hbranches : ∀ p ∈ placed, (test? p.1).isSome = true := by
      intro p hp
      rw [test?_eq_groupedTest (hterms p.1 (hplaced ▸ List.mem_map_of_mem hp))]
      rfl
    obtain ⟨blocks, hperm, hfirsts, hgroups⟩ := exists_blocks_groups hbranches hordered
    rw [hplaced] at hgroups
    refine ⟨blocks, hperm, hfirsts, ?_, ?_⟩
    · have hdiffer := pairwise_groups run
      rw [hgroups, List.pairwise_map] at hdiffer
      exact hdiffer.imp fun hne hsame => absurd hsame hne
    · rw [mergedRun, if_pos hlong, hgroups, List.map_map]
      refine List.map_congr_left fun b hb => ?_
      have hbranch := hbranches b.first (hperm.mem_iff.mp (first_mem_allMembers hb))
      exact (Block.survivor_of_branch hbranch).symm
  · -- a single child, or none
    rw [mergedRun, if_neg hlong, ← hplaced]
    rw [← hplaced, List.length_map] at hlong
    cases placed with
    | nil => exact ⟨[], List.Perm.refl _, List.Pairwise.nil, List.Pairwise.nil, rfl⟩
    | cons p placed =>
      have hnil : placed = [] := by
        rw [List.length_cons] at hlong
        exact List.length_eq_zero_iff.mp (by omega)
      subst hnil
      refine ⟨[.alone p], List.Perm.refl _, List.pairwise_singleton _ _,
        List.pairwise_singleton _ _, ?_⟩
      rw [List.map_singleton, List.map_singleton, Block.survivor_alone]

/-- Blocks of children that all come before those of other blocks. -/
theorem pairwise_unmixed_append (hblocks : blocks.Pairwise Unmixed) (hrest : rest.Pairwise Unmixed)
    (hbefore : ∀ m ∈ allMembers blocks, ∀ m' ∈ allMembers rest, Before m m') :
    (blocks ++ rest).Pairwise Unmixed := by
  refine List.pairwise_append.mpr ⟨hblocks, hrest, fun b hb c hc _ m hm m' hm' => ?_⟩
  exact hbefore m (mem_allMembers.mpr ⟨b, hb, hm⟩) m' (mem_allMembers.mpr ⟨c, hc, hm'⟩)

theorem firstsOrdered_of_before (hblocks : FirstsOrdered blocks) (hrest : FirstsOrdered rest)
    (hbefore : ∀ m ∈ allMembers blocks, ∀ m' ∈ allMembers rest, Before m m') :
    FirstsOrdered (blocks ++ rest) := by
  refine firstsOrdered_append.mpr ⟨hblocks, hrest, fun b hb c hc => ?_⟩
  exact hbefore b.first (first_mem_allMembers hb) c.first (first_mem_allMembers hc)

/-- Merging within runs leaves the survivors of blocks, and those of one content are in order. -/
theorem exists_blocks_flatMap_mergedRun {rs : List (List Node)} (hordered : placed.Pairwise Before)
    (hplaced : placed.map Prod.fst = rs.flatten)
    (hruns : ∀ run ∈ rs, (∃ n, run = [n]) ∨ ∀ n ∈ run, (terms? n).isSome = true) :
    ∃ blocks, (allMembers blocks).Perm placed ∧ FirstsOrdered blocks ∧
      blocks.Pairwise Unmixed ∧ rs.flatMap mergedRun = blocks.map Block.survivor := by
  induction rs generalizing placed with
  | nil =>
    rw [List.map_eq_nil_iff.mp hplaced]
    exact ⟨[], List.Perm.refl _, List.Pairwise.nil, List.Pairwise.nil, rfl⟩
  | cons run rs ih =>
    obtain ⟨hrun, hruns⟩ := List.forall_mem_cons.mp hruns
    obtain ⟨here, later, rfl, hhere, hlater⟩ := List.map_eq_append_iff.mp hplaced
    obtain ⟨hordered, hordered', hbefore⟩ := List.pairwise_append.mp hordered
    obtain ⟨blocks, hperm, hfirsts, hunmixed, hmerged⟩ :=
      exists_blocks_mergedRun hordered hhere hrun
    obtain ⟨blocks', hperm', hfirsts', hunmixed', hmerged'⟩ := ih hordered' hlater hruns
    have hbefore : ∀ m ∈ allMembers blocks, ∀ m' ∈ allMembers blocks', Before m m' :=
      fun m hm m' hm' => hbefore m (hperm.mem_iff.mp hm) m' (hperm'.mem_iff.mp hm')
    refine ⟨blocks ++ blocks', ?_, firstsOrdered_of_before hfirsts hfirsts' hbefore,
      pairwise_unmixed_append hunmixed hunmixed' hbefore, ?_⟩
    · rw [allMembers_append]
      exact hperm.append hperm'
    · rw [List.flatMap_cons, List.map_append, hmerged, hmerged']

/-! ## Neighbours -/

/-- What is joined after a block comes from blocks that were there before, so those members that
have its content are after it. -/
theorem before_of_unmixed {later : List Block} (hperm : (allMembers later).Perm (allMembers rest))
    (hunmixed : ∀ d ∈ rest, Unmixed b d) (hc : c ∈ later)
    (hcontent : content b.first.1 = content c.first.1) :
    ∀ m ∈ b.members, ∀ m' ∈ c.members, Before m m' := by
  intro m hm m' hm'
  have hmem : m' ∈ allMembers rest := hperm.mem_iff.mp (mem_allMembers.mpr ⟨c, hc, hm'⟩)
  obtain ⟨d, hd, hmd⟩ := mem_allMembers.mp hmem
  refine hunmixed d hd ?_ m hm m' hmd
  rw [hcontent, ← c.content_of_mem hm', d.content_of_mem hmd]

/-- A block is joined with a later one of its content. -/
theorem exists_blocks_join {bs cs : List Block} (hb : (test? b.first.1).isSome = true)
    (hc : (test? c.first.1).isSome = true) (hsame : content b.first.1 = content c.first.1)
    (horder : ∀ m ∈ b.members, ∀ m' ∈ c.members, Before m m')
    (hfirst : ∀ m ∈ allMembers (bs ++ c :: cs), Before b.first m)
    (hfirsts : FirstsOrdered (bs ++ c :: cs)) :
    ∃ blocks', (allMembers blocks').Perm (b.members ++ allMembers (bs ++ c :: cs)) ∧
      FirstsOrdered blocks' ∧
      { b.survivor with value := .when (joinTests [joinTests b.tests, joinTests c.tests]) } ::
        (bs.map Block.survivor ++ cs.map Block.survivor) = blocks'.map Block.survivor := by
  refine ⟨b.join c hb hc hsame horder :: (bs ++ cs), ?_, ?_, ?_⟩
  · have hstep : (c.members ++ (allMembers bs ++ allMembers cs)).Perm
        (allMembers bs ++ (c.members ++ allMembers cs)) := List.perm_append_comm_assoc _ _ _
    rw [allMembers_cons, allMembers_append, allMembers_append, allMembers_cons]
    show (b.members ++ c.members ++ _).Perm _
    rw [List.append_assoc]
    exact hstep.append_left b.members
  · obtain ⟨hbs, hcs, hbetween⟩ := firstsOrdered_append.mp hfirsts
    have hrest : FirstsOrdered (bs ++ cs) := firstsOrdered_append.mpr
      ⟨hbs, (firstsOrdered_cons.mp hcs).2,
        fun d hd e he => hbetween d hd e (List.mem_cons_of_mem c he)⟩
    refine firstsOrdered_cons.mpr ⟨fun d hd => ?_, hrest⟩
    have hd' : d ∈ bs ++ c :: cs := by
      rcases List.mem_append.mp hd with hd | hd
      · exact List.mem_append_left _ hd
      · exact List.mem_append_right bs (List.mem_cons_of_mem c hd)
    exact hfirst d.first (first_mem_allMembers hd')
  · rw [List.map_cons, List.map_append, Block.survivor_join]

/-- Merging neighbours joins the blocks of the children before. -/
theorem exists_blocks_mergeConsecutive (hfirsts : FirstsOrdered blocks)
    (hunmixed : blocks.Pairwise Unmixed) :
    ∃ blocks', (allMembers blocks').Perm (allMembers blocks) ∧ FirstsOrdered blocks' ∧
      mergeConsecutive (blocks.map Block.survivor) = blocks'.map Block.survivor := by
  -- the rest is merged first, and what is left of it are survivors again
  induction blocks with
  | nil => exact ⟨[], List.Perm.refl _, List.Pairwise.nil, rfl⟩
  | cons b rest ih =>
    obtain ⟨hb, hrest⟩ := firstsOrdered_cons.mp hfirsts
    obtain ⟨hbmixed, hrmixed⟩ := List.pairwise_cons.mp hunmixed
    obtain ⟨later, hperm, hlater, hmerged⟩ := ih hrest hrmixed
    have hfirst : ∀ m ∈ allMembers later, Before b.first m := fun m hm =>
      before_allMembers hb m (hperm.mem_iff.mp hm)
    have hkeep : ∃ blocks', (allMembers blocks').Perm (allMembers (b :: rest)) ∧
        FirstsOrdered blocks' ∧
        b.survivor :: later.map Block.survivor = blocks'.map Block.survivor := by
      refine ⟨b :: later, ?_, ?_, rfl⟩
      · rw [allMembers_cons, allMembers_cons]
        exact hperm.append_left b.members
      · exact firstsOrdered_cons.mpr
          ⟨fun c hc => hfirst c.first (first_mem_allMembers hc), hlater⟩
    simp only [List.map_cons, mergeConsecutive, hmerged]
    split
    · rename_i t next t' others ht hnext
      split
      · rename_i hsame
        obtain ⟨ht', before, after, hsplit, rfl, -⟩ := exists_of_firstBranch? hnext
        obtain ⟨bs, tail, rfl, rfl, htail⟩ := List.map_eq_append_iff.mp hsplit
        obtain ⟨c, cs, rfl, rfl, rfl⟩ := List.map_eq_cons_iff.mp htail
        obtain ⟨hb', rfl⟩ := Block.of_test?_survivor ht
        obtain ⟨hc', rfl⟩ := Block.of_test?_survivor ht'
        have hcontent : content b.first.1 = content c.first.1 := by
          rw [← b.content_survivor, ← c.content_survivor]
          exact (sameContent_iff _ _).mp hsame
        have hc : c ∈ bs ++ c :: cs := List.mem_append_right bs List.mem_cons_self
        have horder := before_of_unmixed hperm hbmixed hc hcontent
        obtain ⟨blocks', hperm', hfirsts', hjoined⟩ :=
          exists_blocks_join hb' hc' hcontent horder hfirst hlater
        refine ⟨blocks', hperm'.trans ?_, hfirsts', hjoined⟩
        rw [allMembers_cons]
        exact hperm.append_left b.members
      · exact hkeep
    · exact hkeep

/-! ## Other children -/

def nonBranches (nodes : List Node) : List Node := nodes.filter fun n => (test? n).isNone

theorem nonBranches_eq_nil {nodes : List Node} (h : ∀ n ∈ nodes, (test? n).isSome = true) :
    nonBranches nodes = [] := by
  refine List.filter_eq_nil_iff.mpr fun n hn => ?_
  simp [Option.isNone_iff_eq_none, Option.ne_none_iff_isSome.mpr (h n hn)]

theorem nonBranches_append (nodes nodes' : List Node) :
    nonBranches (nodes ++ nodes') = nonBranches nodes ++ nonBranches nodes' := List.filter_append ..

theorem nonBranches_mergedRun {run : List Node}
    (hrun : (∃ n, run = [n]) ∨ ∀ n ∈ run, (terms? n).isSome = true) :
    nonBranches (mergedRun run) = nonBranches run := by
  rcases hrun with ⟨n, rfl⟩ | hterms
  · rfl
  · unfold mergedRun
    split
    · rw [nonBranches_eq_nil, nonBranches_eq_nil]
      · intro n hn
        rw [test?_eq_groupedTest (hterms n hn)]
        rfl
      · rw [List.forall_mem_map]
        intro g _
        rfl
    · rfl

theorem nonBranches_cons_of_branch {n : Node} (h : (test? n).isSome = true) (nodes : List Node) :
    nonBranches (n :: nodes) = nonBranches nodes := by
  rw [← List.singleton_append, nonBranches_append, nonBranches_eq_nil, List.nil_append]
  exact fun m hm => List.mem_singleton.mp hm ▸ h

theorem nonBranches_mergeConsecutive (nodes : List Node) :
    nonBranches (mergeConsecutive nodes) = nonBranches nodes := by
  induction nodes with
  | nil => rfl
  | cons n rest ih =>
    have hkeep : nonBranches (n :: mergeConsecutive rest) = nonBranches (n :: rest) := by
      rw [← List.singleton_append, nonBranches_append, ih, ← nonBranches_append,
        List.singleton_append]
    simp only [mergeConsecutive]
    split
    · rename_i t next t' others ht hnext
      split
      · obtain ⟨ht', before, after, hsplit, rfl, -⟩ := exists_of_firstBranch? hnext
        have hn : (test? n).isSome = true := Option.isSome_iff_exists.mpr ⟨t, ht⟩
        have hnext : (test? next).isSome = true := Option.isSome_iff_exists.mpr ⟨t', ht'⟩
        rw [← hkeep, hsplit, nonBranches_cons_of_branch hn, nonBranches_cons_of_branch rfl,
          nonBranches_append, nonBranches_append, nonBranches_cons_of_branch hnext]
      · exact hkeep
    · exact hkeep

theorem nonBranches_flatMap_mergedRun {rs : List (List Node)}
    (hruns : ∀ run ∈ rs, (∃ n, run = [n]) ∨ ∀ n ∈ run, (terms? n).isSome = true) :
    nonBranches (rs.flatMap mergedRun) = nonBranches rs.flatten := by
  induction rs with
  | nil => rfl
  | cons run rs ih =>
    obtain ⟨hrun, hruns⟩ := List.forall_mem_cons.mp hruns
    rw [List.flatMap_cons, List.flatten_cons, nonBranches_append, nonBranches_append,
      nonBranches_mergedRun hrun, ih hruns]

/-! ## Merging -/

theorem pairwise_before_zipIdx (nodes : List Node) : nodes.zipIdx.Pairwise Before := by
  have hplaces : (nodes.zipIdx.map Prod.snd).Pairwise (· < ·) := by
    rw [List.zipIdx_map_snd]
    exact List.pairwise_lt_range'
  rwa [List.pairwise_map] at hplaces

/-- Merging divides the children of a choice into blocks and leaves the survivor of each, in the
order of the first members.  The other children stay as they are, and of the branches that are
left no two in succession have the same content. -/
theorem merge_divides (nodes : List Node) :
    ∃ blocks : List Block, (allMembers blocks).Perm nodes.zipIdx ∧ FirstsOrdered blocks ∧
      merge nodes = blocks.map Block.survivor ∧
      nonBranches (merge nodes) = nonBranches nodes ∧
      (branches (merge nodes)).IsChain Differ := by
  have hruns : ∀ run ∈ runs nodes, (∃ n, run = [n]) ∨ ∀ n ∈ run, (terms? n).isSome = true :=
    fun run hrun => (mem_runs hrun).imp id And.left
  have hplaced : nodes.zipIdx.map Prod.fst = (runs nodes).flatten := by
    rw [List.zipIdx_map_fst, flatten_runs]
  obtain ⟨blocks, hperm, hfirsts, hunmixed, hmerged⟩ :=
    exists_blocks_flatMap_mergedRun (pairwise_before_zipIdx nodes) hplaced hruns
  obtain ⟨blocks', hperm', hfirsts', hmerged'⟩ := exists_blocks_mergeConsecutive hfirsts hunmixed
  refine ⟨blocks', hperm'.trans hperm, hfirsts', ?_, ?_, isChain_mergeConsecutive _⟩
  · rw [merge, mergeRuns_eq, hmerged, hmerged']
  · rw [merge, nonBranches_mergeConsecutive, mergeRuns_eq, nonBranches_flatMap_mergedRun hruns,
      flatten_runs]

/-- The branches that ask for one attribute are merged whatever is between them, the others only
with the next one. -/
example :
    let branch (test text : String) : Node :=
      { value := .when test, children := [{ value := .plainText text }] }
    (merge [branch "@a=1" "P", branch "@a=2" "Q", branch "@a=3" "P", branch "@b" "Q",
        branch "@c" "P"]).map (fun n => (n.value, n.children.map Node.value)) =
      [(.when "@a=1 or @a=3", [.plainText "P"]), (.when "@a=2 or @b", [.plainText "Q"]),
        (.when "@c", [.plainText "P"])] := by
  decide +kernel

end Branches
end TagGrammar
