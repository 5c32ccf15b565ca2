/-
What a choice takes after its branches were merged.

A choice takes the first branch whose test holds.  Merging within a run moves a branch
past others with another content, so the branch that is taken keeps its content only if
no two branches of the run hold together.  Branches of a run compare one operand with
constants that are displayed differently.  They exclude each other unless one text is
equal to a literal of one and to a number of the other, `Apart` says that no text is, and
`mergeRuns_takes` that the content taken is then the same.  Whether any branch is taken
never changes.
-/
import TagGrammar.Proofs.XPath.Holding
import TagGrammar.Template.Branches

namespace TagGrammar
namespace Node

mutual

/-- The tree with every mark where it has an effect and nowhere else. -/
def effective : Node → Node
  | ⟨v, u, cs⟩ => ⟨v, disablesEscaping ⟨v, u, []⟩, effectiveAll cs⟩

def effectiveAll : List Node → List Node
  | [] => []
  | n :: rest => n.effective :: effectiveAll rest

end

mutual

theorem deepEqual_iff : ∀ a b : Node, a.deepEqual b = true ↔ a.effective = b.effective
  | ⟨v, u, cs⟩, ⟨v', u', cs'⟩ => by
    simp [deepEqual, effective, allDeepEqual_iff cs cs', and_assoc]

theorem allDeepEqual_iff :
    ∀ as bs : List Node, allDeepEqual as bs = true ↔ effectiveAll as = effectiveAll bs
  | [], [] => by simp [allDeepEqual]
  | [], b :: bs => by simp [allDeepEqual, effectiveAll]
  | a :: as, [] => by simp [allDeepEqual, effectiveAll]
  | a :: as, b :: bs => by
    simp [allDeepEqual, effectiveAll, deepEqual_iff a b, allDeepEqual_iff as bs]

end

end Node

namespace Branches
open XPath (Expr)

/-- What stands in a branch. -/
def content (n : Node) : List Node := Node.effectiveAll n.children

theorem sameContent_iff (a b : Node) : a.sameContent b = true ↔ content a = content b :=
  Node.allDeepEqual_iff a.children b.children

/-- Whether the test of a branch holds where operands have some values. -/
def holds (values : String → String) (n : Node) : Bool := (test? n).any (Expr.holdsIn values)

/-- The constants that a branch compares its operand with. -/
def constants (n : Node) : List Expr :=
  ((test? n).bind fun test => (Expr.parse test).toOption).elim [] Expr.constants

/-- No literal of one branch is confusable with a number of the other. -/
def Apart (a b : Node) : Prop :=
  ∀ c ∈ constants a, ∀ d ∈ constants b, c.confusable d = false

instance (a b : Node) : Decidable (Apart a b) :=
  inferInstanceAs (Decidable (∀ c ∈ constants a, ∀ d ∈ constants b, c.confusable d = false))

/-! ## Runs -/

/-- The children of a choice divided into runs and single nodes between them. -/
def runs (nodes : List Node) : List (List Node) :=
  match nodes with
  | [] => []
  | n :: rest =>
    let k := runLength none [] (n :: rest)
    if 1 < k then (n :: rest).take k :: runs ((n :: rest).drop k) else [n] :: runs rest
termination_by nodes.length
decreasing_by
  · simp only [List.length_drop, List.length_cons]; omega
  · simp

/-- What a run becomes. -/
def mergedRun (run : List Node) : List Node :=
  if 1 < run.length then (groups run).map fuse else run

theorem runLength_le (key : Option String) (used : List String) (nodes : List Node) :
    runLength key used nodes ≤ nodes.length := by
  induction nodes generalizing key used with
  | nil => exact Nat.le_refl 0
  | cons n rest ih =>
    unfold runLength
    split
    · exact Nat.zero_le _
    · split
      · exact Nat.zero_le _
      · exact Nat.succ_le_succ (ih _ _)

theorem flatten_runs (nodes : List Node) : (runs nodes).flatten = nodes := by
  fun_induction runs nodes with
  | case1 => rfl
  | case2 n rest k hk ih => rw [List.flatten_cons, ih, List.take_append_drop]
  | case3 n rest k hk ih => rw [List.flatten_cons, ih, List.singleton_append]

theorem mergeRuns_eq (nodes : List Node) : mergeRuns nodes = (runs nodes).flatMap mergedRun := by
  fun_induction runs nodes with
  | case1 => rw [mergeRuns, List.flatMap_nil]
  | case2 n rest k hk ih =>
    have hlength : ((n :: rest).take k).length = k := by
      rw [List.length_take, Nat.min_eq_left (runLength_le none [] (n :: rest))]
    rw [mergeRuns, if_pos hk, List.flatMap_cons, mergedRun, hlength, if_pos hk, ih]
  | case3 n rest k hk ih =>
    rw [mergeRuns, if_neg hk, List.flatMap_cons, ih]
    rfl

/-- Two branches that compare one operand with different constants. -/
def Distinct (a b : Node) : Prop :=
  ∃ key texts texts', terms? a = some (key, texts) ∧ terms? b = some (key, texts') ∧
    ∀ x ∈ texts, x ∉ texts'

/-- The branches at the start of a list that make a run are distinct from each other and
compare the same operand as those before, with other constants. -/
theorem take_runLength (key : Option String) (used : List String) (nodes : List Node) :
    (∀ n ∈ nodes.take (runLength key used nodes), ∃ k texts, terms? n = some (k, texts) ∧
      (∀ k' ∈ key, k' = k) ∧ ∀ x ∈ used, x ∉ texts) ∧
    (nodes.take (runLength key used nodes)).Pairwise Distinct := by
  induction nodes generalizing key used with
  | nil => exact ⟨by simp, by simp⟩
  | cons n rest ih =>
    unfold runLength
    split
    · exact ⟨by simp, by simp⟩
    · rename_i k texts hterms
      split
      · exact ⟨by simp, by simp⟩
      · rename_i hfresh
        obtain ⟨hmembers, hpairs⟩ := ih (some k) (used ++ texts)
        rw [List.take_succ_cons]
        obtain ⟨hkey, hused⟩ : key.any (· != k) = false ∧ texts.any used.contains = false := by
          simpa using hfresh
        have later : ∀ m ∈ rest.take (runLength (some k) (used ++ texts) rest),
            ∃ texts', terms? m = some (k, texts') ∧ ∀ x ∈ used ++ texts, x ∉ texts' := by
          intro m hm
          obtain ⟨k', texts', hm', hk', hx⟩ := hmembers m hm
          obtain rfl : k = k' := hk' k rfl
          exact ⟨texts', hm', hx⟩
        have hkey : ∀ k' ∈ key, k' = k := by
          intro k' hk'
          obtain rfl : key = some k' := hk'
          simpa using hkey
        refine ⟨?_, List.Pairwise.cons ?_ hpairs⟩
        · intro m hm
          rcases List.mem_cons.mp hm with rfl | hm
          · refine ⟨k, texts, hterms, hkey, fun x hx hmem => ?_⟩
            have := List.any_eq_false.mp hused x hmem
            exact this (List.contains_iff_mem.mpr hx)
          · obtain ⟨texts', hm', hx⟩ := later m hm
            exact ⟨k, texts', hm', hkey, fun x hmem => hx x (List.mem_append_left texts hmem)⟩
        · intro m hm
          obtain ⟨texts', hm', hx⟩ := later m hm
          exact ⟨k, texts, texts', hterms, hm', fun x hmem => hx x (List.mem_append_right used hmem)⟩

theorem isSome_terms?_of_mem_take {n : Node} {nodes : List Node}
    (h : n ∈ nodes.take (runLength none [] nodes)) : (terms? n).isSome = true := by
  obtain ⟨k, texts, hterms, -⟩ := (take_runLength none [] nodes).1 n h
  rw [hterms]
  rfl

theorem mem_runs {nodes run : List Node} (h : run ∈ runs nodes) :
    (∃ n, run = [n]) ∨ (∀ n ∈ run, (terms? n).isSome = true) ∧ run.Pairwise Distinct := by
  fun_induction runs nodes with
  | case1 => cases h
  | case2 n rest k hk ih =>
    rcases List.mem_cons.mp h with rfl | h
    · refine Or.inr ⟨fun m hm => ?_, (take_runLength none [] (n :: rest)).2⟩
      exact isSome_terms?_of_mem_take hm
    · exact ih h
  | case3 n rest k hk ih =>
    rcases List.mem_cons.mp h with rfl | h
    · exact Or.inl ⟨n, rfl⟩
    · exact ih h

/-! ## Groups -/

/-- The test by which a branch is known in a group. -/
def groupedTest (n : Node) : String := (test? n).getD ""

/-- Groups that stand for some branches: each has branches of one content and begins with
its first branch, and every branch is in one. -/
structure Grouped (run : List Node) (gs : List (Node × List String)) : Prop where
  first : ∀ g ∈ gs, g.1 ∈ run
  head : ∀ g ∈ gs, g.2.head? = some (groupedTest g.1)
  tests : ∀ g ∈ gs, ∀ t ∈ g.2, ∃ n ∈ run, groupedTest n = t ∧ content n = content g.1
  covers : ∀ n ∈ run, ∃ g ∈ gs, groupedTest n ∈ g.2 ∧ content n = content g.1 ∧
    (n = g.1 ∨ 1 < g.2.length)

theorem mem_addToGroups_cases {n : Node} {t : String} {gs : List (Node × List String)}
    {g : Node × List String} (h : g ∈ addToGroups n t gs) :
    g ∈ gs ∨ g = (n, [t]) ∨
      ∃ g' ∈ gs, content g'.1 = content n ∧ g = (g'.1, g'.2 ++ [t]) := by
  induction gs with
  | nil => exact Or.inr (Or.inl (List.mem_singleton.mp h))
  | cons g₀ gs ih =>
    unfold addToGroups at h
    split at h
    · rename_i hsame
      rcases List.mem_cons.mp h with rfl | h
      · exact Or.inr (Or.inr ⟨g₀, List.mem_cons_self, (sameContent_iff _ _).mp hsame, rfl⟩)
      · exact Or.inl (List.mem_cons_of_mem g₀ h)
    · rcases List.mem_cons.mp h with rfl | h
      · exact Or.inl List.mem_cons_self
      · rcases ih h with h | h | ⟨g', hg', hsame, h⟩
        · exact Or.inl (List.mem_cons_of_mem g₀ h)
        · exact Or.inr (Or.inl h)
        · exact Or.inr (Or.inr ⟨g', List.mem_cons_of_mem g₀ hg', hsame, h⟩)

theorem exists_mem_addToGroups (n : Node) (t : String) {gs : List (Node × List String)}
    (h : ∀ g ∈ gs, g.2 ≠ []) :
    ∃ g ∈ addToGroups n t gs, t ∈ g.2 ∧ content n = content g.1 ∧ (n = g.1 ∨ 1 < g.2.length) := by
  induction gs with
  | nil => exact ⟨(n, [t]), by simp [addToGroups], by simp, rfl, Or.inl rfl⟩
  | cons g₀ gs ih =>
    obtain ⟨hg₀, hgs⟩ := List.forall_mem_cons.mp h
    unfold addToGroups
    split
    · rename_i hsame
      have hlong : 1 < (g₀.2 ++ [t]).length := by
        have := List.length_pos_iff.mpr hg₀
        rw [List.length_append, List.length_singleton]
        omega
      exact ⟨_, List.mem_cons_self, by simp, ((sameContent_iff _ _).mp hsame).symm, Or.inr hlong⟩
    · obtain ⟨g, hg, h⟩ := ih hgs
      exact ⟨g, List.mem_cons_of_mem g₀ hg, h⟩

theorem exists_mem_addToGroups_of_mem {g : Node × List String} {gs : List (Node × List String)}
    (n : Node) (t : String) (h : g ∈ gs) :
    ∃ g' ∈ addToGroups n t gs, g'.1 = g.1 ∧ g.2 <+: g'.2 := by
  induction gs with
  | nil => cases h
  | cons g₀ gs ih =>
    unfold addToGroups
    split
    · rcases List.mem_cons.mp h with rfl | h
      · exact ⟨_, List.mem_cons_self, rfl, List.prefix_append _ _⟩
      · exact ⟨g, List.mem_cons_of_mem _ h, rfl, List.prefix_rfl⟩
    · rcases List.mem_cons.mp h with rfl | h
      · exact ⟨g, List.mem_cons_self, rfl, List.prefix_rfl⟩
      · obtain ⟨g', hg', h⟩ := ih h
        exact ⟨g', List.mem_cons_of_mem g₀ hg', h⟩

theorem Grouped.nonempty {run : List Node} {gs : List (Node × List String)}
    (h : Grouped run gs) : ∀ g ∈ gs, g.2 ≠ [] := by
  intro g hg hnil
  have hhead := h.head g hg
  rw [hnil] at hhead
  cases hhead

theorem Grouped.add {run : List Node} {gs : List (Node × List String)} (h : Grouped run gs)
    (n : Node) : Grouped (run ++ [n]) (addToGroups n (groupedTest n) gs) where
  first g hg := by
    rcases mem_addToGroups_cases hg with hg | rfl | ⟨g', hg', -, rfl⟩
    · exact List.mem_append_left [n] (h.first g hg)
    · exact List.mem_append_right run (List.mem_singleton.mpr rfl)
    · exact List.mem_append_left [n] (h.first g' hg')
  head g hg := by
    rcases mem_addToGroups_cases hg with hg | rfl | ⟨g', hg', -, rfl⟩
    · exact h.head g hg
    · rfl
    · rw [List.head?_append, h.head g' hg']
      rfl
  tests g hg t ht := by
    have old : ∀ g ∈ gs, ∀ t ∈ g.2,
        ∃ m ∈ run ++ [n], groupedTest m = t ∧ content m = content g.1 := by
      intro g hg t ht
      obtain ⟨m, hm, hsame⟩ := h.tests g hg t ht
      exact ⟨m, List.mem_append_left [n] hm, hsame⟩
    have hn : n ∈ run ++ [n] := List.mem_append_right run (List.mem_singleton.mpr rfl)
    rcases mem_addToGroups_cases hg with hg | rfl | ⟨g', hg', hsame, rfl⟩
    · exact old g hg t ht
    · exact ⟨n, hn, (List.mem_singleton.mp ht).symm, rfl⟩
    · rcases List.mem_append.mp ht with ht | ht
      · exact old g' hg' t ht
      · exact ⟨n, hn, (List.mem_singleton.mp ht).symm, hsame.symm⟩
  covers m hm := by
    rcases List.mem_append.mp hm with hm | hm
    · obtain ⟨g, hg, ht, hsame, hcase⟩ := h.covers m hm
      obtain ⟨g', hg', hfirst, hmore⟩ := exists_mem_addToGroups_of_mem n (groupedTest n) hg
      have hlength := hmore.length_le
      refine ⟨g', hg', hmore.mem ht, by rw [hfirst, hsame], ?_⟩
      rcases hcase with rfl | hlong
      · exact Or.inl hfirst.symm
      · exact Or.inr (by omega)
    · obtain rfl := List.mem_singleton.mp hm
      exact exists_mem_addToGroups m (groupedTest m) h.nonempty

theorem grouped_groups (run : List Node) : Grouped run (groups run) := by
  have fold : ∀ (more done : List Node) (gs : List (Node × List String)), Grouped done gs →
      Grouped (done ++ more) (more.foldl (fun gs n => addToGroups n (groupedTest n) gs) gs) := by
    intro more
    induction more with
    | nil =>
      intro done gs h
      simpa using h
    | cons n more ih =>
      intro done gs h
      have := ih _ _ (h.add n)
      rwa [List.append_assoc] at this
  exact fold run [] [] ⟨by simp, by simp, by simp, by simp⟩

/-! ## The branch taken -/

variable {values : String → String}

theorem exists_of_terms? {n : Node} {key : String} {texts : List String}
    (h : terms? n = some (key, texts)) :
    ∃ test e, test? n = some test ∧ Expr.parse test = .ok e ∧
      e.equalityTerms? = some (key, texts) := by
  unfold terms? at h
  obtain ⟨test, htest, h⟩ := Option.bind_eq_some_iff.mp h
  split at h
  · rename_i e he
    exact ⟨test, e, htest, he, h⟩
  · cases h

theorem test?_eq_groupedTest {n : Node} (h : (terms? n).isSome = true) :
    test? n = some (groupedTest n) := by
  obtain ⟨⟨key, texts⟩, hterms⟩ := Option.isSome_iff_exists.mp h
  obtain ⟨test, e, htest, -⟩ := exists_of_terms? hterms
  rw [groupedTest, htest]
  rfl

/-- Distinct branches that are apart exclude each other. -/
theorem not_holds_of_distinct {a b : Node} (hdistinct : Distinct a b) (hapart : Apart a b)
    (h : holds values a = true) : holds values b = false := by
  obtain ⟨key, texts, texts', ha, hb, hne⟩ := hdistinct
  obtain ⟨t, e, ht, he, hterms⟩ := exists_of_terms? ha
  obtain ⟨t', e', ht', he', hterms'⟩ := exists_of_terms? hb
  have hholds : e.holds values = true := by
    simpa [holds, Expr.holdsIn, ht, he, Except.toOption] using h
  have hconstants : ∀ c ∈ e.constants, ∀ d ∈ e'.constants, c.confusable d = false := by
    simpa [Apart, constants, ht, he, ht', he', Except.toOption] using hapart
  have hother := Expr.not_holds_of_holds hterms hterms' hne hconstants hholds
  simpa [holds, Expr.holdsIn, ht', he', Except.toOption] using hother

theorem eq_of_holds {run : List Node} {n m : Node} (hdistinct : run.Pairwise Distinct)
    (hapart : run.Pairwise Apart) (hn : n ∈ run) (hm : m ∈ run) (h : holds values n = true)
    (h' : holds values m = true) : n = m := by
  induction run with
  | nil => cases hn
  | cons a run ih =>
    rw [List.pairwise_cons] at hdistinct hapart
    have first : ∀ b ∈ run, holds values a = true → holds values b = false := fun b hb =>
      not_holds_of_distinct (hdistinct.1 b hb) (hapart.1 b hb)
    rcases List.mem_cons.mp hn with rfl | hn'
    · rcases List.mem_cons.mp hm with rfl | hm'
      · rfl
      · rw [first m hm' h] at h'
        cases h'
    · rcases List.mem_cons.mp hm with rfl | hm'
      · rw [first n hn' h'] at h
        cases h
      · exact ih hdistinct.2 hapart.2 hn' hm'

/-- The branch that stands for a group holds if one of the branches in it does. -/
theorem holds_fuse {run : List Node} (hrun : ∀ n ∈ run, (terms? n).isSome = true)
    {g : Node × List String} (hg : g ∈ groups run) :
    holds values (fuse g) = g.2.any (Expr.holdsIn values) := by
  refine Expr.holdsIn_intercalate fun t ht => ?_
  obtain ⟨n, hn, rfl, -⟩ := (grouped_groups run).tests g hg t ht
  obtain ⟨⟨key, texts⟩, hterms⟩ := Option.isSome_iff_exists.mp (hrun n hn)
  obtain ⟨test, e, htest, he, hequal⟩ := exists_of_terms? hterms
  have hknown : groupedTest n = test := by simp [groupedTest, htest]
  exact ⟨e, by rw [hknown]; exact he, by rw [hequal]; rfl⟩

theorem holds_eq_groupedTest {n : Node} (h : (terms? n).isSome = true) :
    holds values n = Expr.holdsIn values (groupedTest n) := by
  rw [holds, test?_eq_groupedTest h, Option.any_some]

theorem exists_of_holds_fuse {run : List Node} (hrun : ∀ n ∈ run, (terms? n).isSome = true)
    {g : Node × List String} (hg : g ∈ groups run) (h : holds values (fuse g) = true) :
    ∃ n ∈ run, holds values n = true ∧ content n = content (fuse g) := by
  rw [holds_fuse hrun hg] at h
  obtain ⟨t, ht, hholds⟩ := List.any_eq_true.mp h
  obtain ⟨n, hn, rfl, hsame⟩ := (grouped_groups run).tests g hg t ht
  exact ⟨n, hn, by rw [holds_eq_groupedTest (hrun n hn)]; exact hholds, hsame⟩

theorem any_holds_groups {run : List Node} (hrun : ∀ n ∈ run, (terms? n).isSome = true) :
    ((groups run).map fuse).any (holds values) = run.any (holds values) := by
  rw [Bool.eq_iff_iff, List.any_eq_true, List.any_eq_true]
  constructor
  · rintro ⟨m, hm, h⟩
    obtain ⟨g, hg, rfl⟩ := List.mem_map.mp hm
    obtain ⟨n, hn, hholds, -⟩ := exists_of_holds_fuse hrun hg h
    exact ⟨n, hn, hholds⟩
  · rintro ⟨n, hn, h⟩
    obtain ⟨g, hg, ht, -⟩ := (grouped_groups run).covers n hn
    refine ⟨fuse g, List.mem_map_of_mem hg, ?_⟩
    rw [holds_fuse hrun hg]
    exact List.any_eq_true.mpr ⟨_, ht, by rw [← holds_eq_groupedTest (hrun n hn)]; exact h⟩

theorem content_find?_groups {run : List Node} (hrun : ∀ n ∈ run, (terms? n).isSome = true)
    (hdistinct : run.Pairwise Distinct) (hapart : run.Pairwise Apart) :
    (((groups run).map fuse).find? (holds values)).map content =
      (run.find? (holds values)).map content := by
  have hboth : (((groups run).map fuse).find? (holds values)).isSome =
      (run.find? (holds values)).isSome := by
    rw [List.isSome_find?, List.isSome_find?, any_holds_groups hrun]
  cases hafter : ((groups run).map fuse).find? (holds values) with
  | none =>
    have hbefore : run.find? (holds values) = none := by simpa [hafter] using hboth.symm
    rw [hbefore]
  | some f =>
    cases hbefore : run.find? (holds values) with
    | none =>
      rw [hafter, hbefore] at hboth
      cases hboth
    | some m =>
      obtain ⟨g, hg, rfl⟩ := List.mem_map.mp (List.mem_of_find?_eq_some hafter)
      obtain ⟨n, hn, hholds, hsame⟩ := exists_of_holds_fuse hrun hg (List.find?_some hafter)
      have hmem := List.mem_of_find?_eq_some hbefore
      obtain rfl := eq_of_holds hdistinct hapart hn hmem hholds (List.find?_some hbefore)
      rw [Option.map_some, Option.map_some, hsame]

/-- Merging turns the children of a choice run by run.  A run has a branch that holds
afterwards exactly if it had one before, and the first that holds has the same content if
the branches of the run are apart. -/
theorem mergeRuns_takes (nodes : List Node) :
    mergeRuns nodes = (runs nodes).flatMap mergedRun ∧ (runs nodes).flatten = nodes ∧
      ∀ run ∈ runs nodes, ∀ values : String → String,
        (mergedRun run).any (holds values) = run.any (holds values) ∧
          (run.Pairwise Apart → ((mergedRun run).find? (holds values)).map content =
            (run.find? (holds values)).map content) := by
  refine ⟨mergeRuns_eq nodes, flatten_runs nodes, fun run hrun values => ?_⟩
  rcases mem_runs hrun with ⟨n, rfl⟩ | ⟨hterms, hdistinct⟩
  · exact ⟨rfl, fun _ => rfl⟩
  · unfold mergedRun
    split
    · exact ⟨any_holds_groups hterms, content_find?_groups hterms hdistinct⟩
    · exact ⟨rfl, fun _ => rfl⟩

/-- A branch with one text in it. -/
def textBranch (test text : String) : Node :=
  { value := .when test, children := [{ value := .plainText text }] }

def alternatingRun : List Node :=
  [textBranch "@x='a'" "P", textBranch "@x=1" "Q", textBranch "@x='b'" "P"]

theorem mergeRuns_takes_alternating :
    alternatingRun ∈ runs alternatingRun ∧ alternatingRun.Pairwise Apart ∧
      ((mergedRun alternatingRun).find? (holds fun _ => "b")).map content =
        (alternatingRun.find? (holds fun _ => "b")).map content := by
  have hlength : runLength none [] alternatingRun = 3 := by decide +kernel
  have hrun : alternatingRun ∈ runs alternatingRun := by
    unfold alternatingRun at hlength ⊢
    rw [runs]
    simp [hlength]
  have hapart : alternatingRun.Pairwise Apart := by decide +kernel
  exact ⟨hrun, hapart, ((mergeRuns_takes alternatingRun).2.2 _ hrun fun _ => "b").2 hapart⟩

def numeralRun : List Node :=
  [textBranch "@x='a'" "P", textBranch "@x=1" "Q", textBranch "@x='1.0'" "P"]

/-- The text 1.0 is equal to the number 1 and to the literal in the last branch, which the
merged branch takes along past the number. -/
theorem numeral_literal_taken_early :
    numeralRun ∈ runs numeralRun ∧
      (numeralRun.find? (holds fun _ => "1.0")).map content =
        some [{ value := .plainText "Q" }] ∧
      ((mergedRun numeralRun).find? (holds fun _ => "1.0")).map content =
        some [{ value := .plainText "P" }] := by
  have hlength : runLength none [] numeralRun = 3 := by decide +kernel
  have hrun : numeralRun ∈ runs numeralRun := by
    unfold numeralRun at hlength ⊢
    rw [runs]
    simp [hlength]
  have hfirst : holds (fun _ => "1.0") (textBranch "@x='a'" "P") = false := by decide +kernel
  have hsecond : holds (fun _ => "1.0") (textBranch "@x=1" "Q") = true := by decide +kernel
  have hjoined : holds (fun _ => "1.0") (textBranch "@x='a' or @x='1.0'" "P") = true := by
    decide +kernel
  have hmerged : mergedRun numeralRun =
      [textBranch "@x='a' or @x='1.0'" "P", textBranch "@x=1" "Q"] := rfl
  refine ⟨hrun, ?_, ?_⟩
  · rw [numeralRun, List.find?_cons_of_neg (by simp [hfirst]), List.find?_cons_of_pos hsecond]
    rfl
  · rw [hmerged, List.find?_cons_of_pos hjoined]
    rfl

end Branches
end TagGrammar
