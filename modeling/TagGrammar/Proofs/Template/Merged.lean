/-
What merging keeps of the nodes of a template.

Of the branches that are merged one is left and the others are gone, after only their
content was compared.  What stood in them stands in the one that is left, too, so every
node of a template is found after merging as it was, or it is a branch and its test is one
of those that are joined in a branch that is left (`exists_shows_mergeEverywhere`).
Whether the branch disabled escaping is lost.  What is known of every node by its value and
those of its children, and holds of every choice and branch, is neither lost nor gained
(`Local.forall_mem_nodes_mergeEverywhere`).
-/
import TagGrammar.Proofs.Template.Choices
import TagGrammar.Proofs.Template.Places

namespace TagGrammar
namespace Node

mutual

theorem nodes_effective : ∀ n : Node, n.effective.nodes = n.nodes.map effective
  | ⟨v, u, cs⟩ => by
    rw [effective, nodes, nodes, List.map_cons, nodesOfAll_effectiveAll cs, effective]

theorem nodesOfAll_effectiveAll :
    ∀ l : List Node, nodesOfAll (effectiveAll l) = (nodesOfAll l).map effective
  | [] => rfl
  | n :: rest => by
    rw [effectiveAll, nodesOfAll, nodesOfAll, List.map_append, nodes_effective n,
      nodesOfAll_effectiveAll rest]

end

theorem value_effective (n : Node) : n.effective.value = n.value := by
  cases n
  rw [effective]

theorem unescaped_effective (n : Node) : n.effective.unescaped = n.disablesEscaping := by
  cases n
  rw [effective]
  rfl

theorem children_effective (n : Node) : n.effective.children = effectiveAll n.children := by
  cases n
  rw [effective]

theorem map_value_effectiveAll (l : List Node) : (effectiveAll l).map value = l.map value := by
  induction l with
  | nil => rfl
  | cons n rest ih => rw [effectiveAll, List.map_cons, value_effective, ih, List.map_cons]

theorem own_of_effective {m n : Node} (h : m.effective = n.effective) : m.own = n.own := by
  rw [own, ← value_effective m, ← unescaped_effective m, h, value_effective, unescaped_effective,
    own]

theorem map_value_children_of_effective {m n : Node} (h : m.effective = n.effective) :
    m.children.map value = n.children.map value := by
  rw [← map_value_effectiveAll, ← children_effective, h, children_effective,
    map_value_effectiveAll]

/-- Trees of one content have the same nodes up to marks that have no effect. -/
theorem exists_of_effectiveAll {as bs : List Node} (h : effectiveAll as = effectiveAll bs)
    {n : Node} (hn : n ∈ nodesOfAll as) : ∃ m ∈ nodesOfAll bs, m.effective = n.effective := by
  have hmem : n.effective ∈ (nodesOfAll bs).map effective := by
    rw [← nodesOfAll_effectiveAll bs, ← h, nodesOfAll_effectiveAll as]
    exact List.mem_map_of_mem hn
  exact List.mem_map.mp hmem

theorem foundIn_of_effectiveAll {as bs : List Node} (h : effectiveAll as = effectiveAll bs)
    {n : Node} (hn : n ∈ nodesOfAll as) : FoundIn (nodesOfAll bs) n := by
  obtain ⟨m, hm, heffective⟩ := exists_of_effectiveAll h hn
  exact ⟨m, hm, own_of_effective heffective⟩

end Node

namespace Branches
open Node (FoundIn)

variable {old mid new nodes : List Node} {k m n : Node} {tests : List String}

theorem test?_congr (h : m.own = n.own) : test? m = test? n := by
  have hvalue : m.value = n.value := congrArg Prod.fst h
  unfold test?
  rw [hvalue]

theorem test?_eq_some_iff {test : String} : test? n = some test ↔ n.value = .when test := by
  unfold test?
  split
  · rename_i hvalue
    simp [hvalue]
  · rename_i hne
    simp only [reduceCtorEq, false_iff]
    exact hne test

theorem joinTests_cons {t : String} (h : tests ≠ []) :
    joinTests (t :: tests) = t ++ " or " ++ joinTests tests :=
  String.intercalate_cons_of_ne_nil h

theorem joinTests_append {tests' : List String} (h : tests ≠ []) (h' : tests' ≠ []) :
    joinTests (tests ++ tests') = joinTests tests ++ " or " ++ joinTests tests' :=
  String.intercalate_append_of_ne_nil h h'

/-- The tests of some branches in a list, at least of one. -/
structure TestsIn (nodes : List Node) (tests : List String) : Prop where
  nonempty : tests ≠ []
  mem : ∀ t ∈ tests, ∃ n ∈ nodes, test? n = some t

theorem TestsIn.single {t : String} (hn : n ∈ nodes) (ht : test? n = some t) :
    TestsIn nodes [t] := by
  refine ⟨List.cons_ne_nil t [], fun s hs => ?_⟩
  obtain rfl := List.mem_singleton.mp hs
  exact ⟨n, hn, ht⟩

theorem TestsIn.append {tests' : List String} (h : TestsIn nodes tests)
    (h' : TestsIn nodes tests') : TestsIn nodes (tests ++ tests') := by
  refine ⟨List.append_ne_nil_of_left_ne_nil h.nonempty tests', fun s hs => ?_⟩
  rcases List.mem_append.mp hs with hs | hs
  · exact h.mem s hs
  · exact h'.mem s hs

theorem TestsIn.of_branches (hsub : ∀ n ∈ old, ∀ t, test? n = some t → FoundIn new n)
    (h : TestsIn old tests) : TestsIn new tests := by
  refine ⟨h.nonempty, fun t ht => ?_⟩
  obtain ⟨n, hn, htest⟩ := h.mem t ht
  obtain ⟨m, hm, hown⟩ := hsub n hn t htest
  exact ⟨m, hm, (test?_congr hown).trans htest⟩

theorem TestsIn.mono (hsub : ∀ n ∈ old, FoundIn new n) (h : TestsIn old tests) :
    TestsIn new tests := h.of_branches fun n hn _ _ => hsub n hn

/-- Two branches of which the test of one joins that of the other with tests of a list. -/
def JoinedIn (nodes : List Node) (m n : Node) : Prop :=
  ∃ t tests, test? n = some t ∧ t ∈ tests ∧ 1 < tests.length ∧ TestsIn nodes tests ∧
    test? m = some (joinTests tests)

/-- One node shows another one: it is the same apart from its children, or is a branch with
which the other one was merged. -/
def Shows (nodes : List Node) (m n : Node) : Prop := m.own = n.own ∨ JoinedIn nodes m n

theorem Shows.congr {m' n' : Node} (hm : m'.own = m.own) (hn : n'.own = n.own)
    (h : Shows nodes m n) : Shows nodes m' n' := by
  rcases h with h | ⟨t, tests, ht, hmem, hlong, htests, hjoined⟩
  · exact Or.inl (by rw [hm, h, hn])
  · exact Or.inr ⟨t, tests, (test?_congr hn).trans ht, hmem, hlong, htests,
      (test?_congr hm).trans hjoined⟩

theorem Shows.mono (hsub : ∀ n ∈ old, FoundIn new n) (h : Shows old m n) :
    Shows new m n := by
  rcases h with h | ⟨t, tests, ht, hmem, hlong, htests, hjoined⟩
  · exact Or.inl h
  · exact Or.inr ⟨t, tests, ht, hmem, hlong, htests.mono hsub, hjoined⟩

/-- Nodes made of others by merging: their tests are joined ones and each of the others
has one that shows it and has its content. -/
structure MergedFrom (new old : List Node) : Prop where
  joined : ∀ m ∈ new, ∀ s, test? m = some s → ∃ tests, TestsIn old tests ∧ joinTests tests = s
  shows : ∀ n ∈ old, ∃ m ∈ new, content m = content n ∧ Shows old m n

theorem MergedFrom.refl (nodes : List Node) : MergedFrom nodes nodes where
  joined _ hm s hs := ⟨[s], TestsIn.single hm hs, String.intercalate_singleton⟩
  shows n hn := ⟨n, hn, rfl, Or.inl rfl⟩

theorem MergedFrom.append {new' old' : List Node} (h : MergedFrom new old)
    (h' : MergedFrom new' old') : MergedFrom (new ++ new') (old ++ old') := by
  have left : ∀ n ∈ old, FoundIn (old ++ old') n := fun n hn =>
    FoundIn.of_mem (List.mem_append_left old' hn)
  have right : ∀ n ∈ old', FoundIn (old ++ old') n := fun n hn =>
    FoundIn.of_mem (List.mem_append_right old hn)
  constructor
  · intro m hm s hs
    rcases List.mem_append.mp hm with hm | hm
    · obtain ⟨tests, htests, hjoin⟩ := h.joined m hm s hs
      exact ⟨tests, htests.mono left, hjoin⟩
    · obtain ⟨tests, htests, hjoin⟩ := h'.joined m hm s hs
      exact ⟨tests, htests.mono right, hjoin⟩
  · intro n hn
    rcases List.mem_append.mp hn with hn | hn
    · obtain ⟨m, hm, hcontent, hshows⟩ := h.shows n hn
      exact ⟨m, List.mem_append_left new' hm, hcontent, hshows.mono left⟩
    · obtain ⟨m, hm, hcontent, hshows⟩ := h'.shows n hn
      exact ⟨m, List.mem_append_right new hm, hcontent, hshows.mono right⟩

/-- Tests that are joined of others are joined of all of these.  For one of them the others
can be chosen, as a text may be joined of tests in more than one way. -/
theorem MergedFrom.exists_unjoined (h : MergedFrom mid old) {chosen : List String}
    (hchosen : TestsIn old chosen) (htests : TestsIn mid tests) :
    ∃ ts, TestsIn old ts ∧ joinTests ts = joinTests tests ∧ tests.length ≤ ts.length ∧
      (joinTests chosen ∈ tests → ∀ t ∈ chosen, t ∈ ts) := by
  obtain ⟨hne, hmem⟩ := htests
  induction tests with
  | nil => exact absurd rfl hne
  | cons s rest ih =>
    have hfirst : ∃ ts, TestsIn old ts ∧ joinTests ts = s ∧
        (joinTests chosen = s → ∀ t ∈ chosen, t ∈ ts) := by
      by_cases hs : joinTests chosen = s
      · exact ⟨chosen, hchosen, hs, fun _ t ht => ht⟩
      · obtain ⟨m, hm, hms⟩ := hmem s List.mem_cons_self
        obtain ⟨ts, hts, hjoin⟩ := h.joined m hm s hms
        exact ⟨ts, hts, hjoin, fun heq => absurd heq hs⟩
    obtain ⟨ts, hts, rfl, hin⟩ := hfirst
    have hpos : 1 ≤ ts.length := List.length_pos_iff.mpr hts.nonempty
    by_cases hrest : rest = []
    · subst hrest
      refine ⟨ts, hts, String.intercalate_singleton.symm, hpos, fun hm => hin ?_⟩
      exact List.mem_singleton.mp hm
    · obtain ⟨ts', hts', hjoin, hlength, hin'⟩ :=
        ih hrest fun s hs => hmem s (List.mem_cons_of_mem _ hs)
      refine ⟨ts ++ ts', hts.append hts', ?_, ?_, fun hm t ht => ?_⟩
      · rw [joinTests_append hts.nonempty hts'.nonempty, hjoin, joinTests_cons hrest]
      · rw [List.length_cons, List.length_append]
        omega
      · rcases List.mem_cons.mp hm with heq | hm
        · exact List.mem_append_left ts' (hin heq t ht)
        · exact List.mem_append_right ts (hin' hm t ht)

theorem MergedFrom.trans (h : MergedFrom new mid) (h' : MergedFrom mid old) :
    MergedFrom new old := by
  constructor
  · intro m hm s hs
    obtain ⟨tests, htests, rfl⟩ := h.joined m hm s hs
    obtain ⟨t, ht⟩ := List.exists_mem_of_ne_nil tests htests.nonempty
    obtain ⟨k, hk, hkt⟩ := htests.mem t ht
    obtain ⟨ts, hts, -⟩ := h'.joined k hk t hkt
    obtain ⟨ts', hts', hjoin, -, -⟩ := h'.exists_unjoined hts htests
    exact ⟨ts', hts', hjoin⟩
  · intro n hn
    obtain ⟨k, hk, hcontent, hkn⟩ := h'.shows n hn
    obtain ⟨m, hm, hcontent', hmk⟩ := h.shows k hk
    refine ⟨m, hm, hcontent'.trans hcontent, ?_⟩
    rcases hmk with hmk | ⟨s, tests, hs, hmem, hlong, htests, hjoined⟩
    · exact hkn.congr hmk rfl
    -- The tests that the middle node joins are those to be chosen, its own if it joins none.
    obtain ⟨t, chosen, ht, htin, hchosen, hjoin⟩ : ∃ t chosen, test? n = some t ∧ t ∈ chosen ∧
        TestsIn old chosen ∧ joinTests chosen = s := by
      rcases hkn with hkn | ⟨t, chosen, ht, htin, -, hchosen, hk⟩
      · have hns : test? n = some s := (test?_congr hkn).symm.trans hs
        exact ⟨s, [s], hns, List.mem_singleton.mpr rfl, TestsIn.single hn hns,
          String.intercalate_singleton⟩
      · exact ⟨t, chosen, ht, htin, hchosen, Option.some.inj (hk.symm.trans hs)⟩
    obtain ⟨ts, hts, hjoin', hlength, hin⟩ := h'.exists_unjoined hchosen htests
    rw [hjoin] at hin
    have hlong' : 1 < ts.length := by omega
    exact Or.inr ⟨t, ts, ht, hin hmem t htin, hlong', hts, by rw [hjoined, hjoin']⟩

theorem mergedFrom_groups {run : List Node} (hrun : ∀ n ∈ run, (terms? n).isSome = true) :
    MergedFrom ((groups run).map fuse) run := by
  have known : ∀ n ∈ run, test? n = some (groupedTest n) := fun n hn =>
    test?_eq_groupedTest (hrun n hn)
  have hgroups := grouped_groups run
  have htests : ∀ g ∈ groups run, TestsIn run g.2 := by
    intro g hg
    refine ⟨hgroups.nonempty g hg, fun t ht => ?_⟩
    obtain ⟨n, hn, rfl, -⟩ := hgroups.tests g hg t ht
    exact ⟨n, hn, known n hn⟩
  constructor
  · intro m hm s hs
    obtain ⟨g, hg, rfl⟩ := List.mem_map.mp hm
    exact ⟨g.2, htests g hg, Option.some.inj hs⟩
  · intro n hn
    obtain ⟨g, hg, ht, hcontent, hcase⟩ := hgroups.covers n hn
    refine ⟨fuse g, List.mem_map_of_mem hg, hcontent.symm, ?_⟩
    by_cases hlong : 1 < g.2.length
    · exact Or.inr ⟨groupedTest n, g.2, known n hn, ht, hlong, htests g hg, rfl⟩
    · -- a branch that is alone in its group stays
      have hn' : n = g.1 := hcase.resolve_right hlong
      have hpos := List.length_pos_iff.mpr (hgroups.nonempty g hg)
      have hone : g.2 = [groupedTest n] := by
        obtain ⟨t, hg₂⟩ := List.length_eq_one_iff.mp (by omega : g.2.length = 1)
        rw [hg₂] at ht ⊢
        rw [List.mem_singleton.mp ht]
      have hjoin : joinTests g.2 = groupedTest n := by
        rw [hone]
        exact String.intercalate_singleton
      have hvalue : (fuse g).value = n.value := by
        rw [test?_eq_some_iff.mp (known n hn), ← hjoin]
        rfl
      have hmark : (fuse g).unescaped = n.unescaped := by
        rw [hn']
        rfl
      exact Or.inl (Node.own_congr hvalue hmark)

theorem mergedFrom_mergeRuns (nodes : List Node) : MergedFrom (mergeRuns nodes) nodes := by
  fun_induction mergeRuns nodes with
  | case1 => exact MergedFrom.refl []
  | case2 n rest k hk ih =>
    have hrun : ∀ m ∈ (n :: rest).take k, (terms? m).isSome = true := fun m hm =>
      isSome_terms?_of_mem_take hm
    have := (mergedFrom_groups hrun).append ih
    rwa [List.take_append_drop] at this
  | case3 n rest k hk ih => exact (MergedFrom.refl [n]).append ih

theorem firstBranch?_perm {t : String} {others : List Node}
    (h : firstBranch? nodes = some (n, t, others)) :
    nodes.Perm (n :: others) ∧ test? n = some t := by
  induction nodes generalizing others with
  | nil => cases h
  | cons x rest ih =>
    simp only [firstBranch?] at h
    split at h
    · rename_i hx
      cases h
      exact ⟨List.Perm.refl _, hx⟩
    · obtain ⟨⟨n', t', others'⟩, hr, heq⟩ := Option.map_eq_some_iff.mp h
      cases heq
      obtain ⟨hperm, htest⟩ := ih hr
      exact ⟨(hperm.cons x).trans (List.Perm.swap _ _ _), htest⟩

/-- The step of the merging of neighbours. -/
theorem mergedFrom_firstBranch? {t t' : String} {others : List Node} (ht : test? n = some t)
    (hfirst : firstBranch? nodes = some (m, t', others)) (hsame : n.sameContent m = true) :
    MergedFrom ({ n with value := .when (joinTests [t, t']) } :: others) (n :: nodes) := by
  obtain ⟨hperm, ht'⟩ := firstBranch?_perm hfirst
  have hm : m ∈ nodes := hperm.mem_iff.mpr List.mem_cons_self
  have hothers : ∀ k ∈ others, k ∈ nodes := fun k hk =>
    hperm.mem_iff.mpr (List.mem_cons_of_mem m hk)
  have htests : TestsIn (n :: nodes) [t, t'] :=
    (TestsIn.single List.mem_cons_self ht).append
      (TestsIn.single (List.mem_cons_of_mem n hm) ht')
  constructor
  · intro k hk s hs
    rcases List.mem_cons.mp hk with rfl | hk
    · exact ⟨[t, t'], htests, Option.some.inj hs⟩
    · exact (MergedFrom.refl (n :: nodes)).joined k (List.mem_cons_of_mem n (hothers k hk)) s hs
  · have joins : ∀ k s, test? k = some s → s ∈ [t, t'] → content n = content k →
        ∃ m' ∈ ({ n with value := .when (joinTests [t, t']) } : Node) :: others,
          content m' = content k ∧ Shows (n :: nodes) m' k := by
      intro k s hs hin hcontent
      exact ⟨_, List.mem_cons_self, hcontent,
        Or.inr ⟨s, [t, t'], hs, hin, by simp, htests, rfl⟩⟩
    intro k hk
    rcases List.mem_cons.mp hk with rfl | hk
    · exact joins k t ht List.mem_cons_self rfl
    · rcases List.mem_cons.mp (hperm.mem_iff.mp hk) with rfl | hk
      · exact joins k t' ht' (by simp) ((sameContent_iff _ _).mp hsame)
      · exact ⟨k, List.mem_cons_of_mem _ hk, rfl, Or.inl rfl⟩

theorem mergedFrom_mergeConsecutive (nodes : List Node) :
    MergedFrom (mergeConsecutive nodes) nodes := by
  induction nodes with
  | nil => exact MergedFrom.refl []
  | cons n rest ih =>
    have keep : MergedFrom (n :: mergeConsecutive rest) (n :: rest) :=
      (MergedFrom.refl [n]).append ih
    simp only [mergeConsecutive]
    split
    · rename_i ht hfirst
      split
      · rename_i hsame
        exact (mergedFrom_firstBranch? ht hfirst hsame).trans keep
      · exact keep
    · exact keep

theorem mergedFrom_mergedChildren (n : Node) : MergedFrom (mergedChildren n) n.children := by
  unfold mergedChildren
  split
  · exact (mergedFrom_mergeConsecutive _).trans (mergedFrom_mergeRuns _)
  · exact MergedFrom.refl _

/-! ## Below a node -/

theorem children_mergeEverywhere (n : Node) :
    (mergeEverywhere n).children = (mergedChildren n).map mergeEverywhere := by
  rw [mergeEverywhere]
  simp

theorem own_mergeEverywhere (n : Node) : (mergeEverywhere n).own = n.own := by
  rw [mergeEverywhere]
  exact Node.own_congr rfl rfl

theorem mem_nodesOfAll_mergeEverywhere (hm : m ∈ mergedChildren n) :
    mergeEverywhere m ∈ Node.nodesOfAll (mergeEverywhere n).children ∧
      ∀ e ∈ Node.nodesOfAll (mergeEverywhere m).children,
        e ∈ Node.nodesOfAll (mergeEverywhere n).children := by
  have hchild : mergeEverywhere m ∈ (mergeEverywhere n).children := by
    rw [children_mergeEverywhere]
    exact List.mem_map_of_mem hm
  exact ⟨Node.mem_nodesOfAll.mpr ⟨_, hchild, Or.inl rfl⟩,
    fun e he => Node.mem_nodesOfAll.mpr ⟨_, hchild, Or.inr he⟩⟩

theorem exists_shows_below (n : Node) :
    ∀ d ∈ Node.nodesOfAll n.children, ∃ e ∈ Node.nodesOfAll (mergeEverywhere n).children,
      Shows (Node.nodesOfAll n.children) e d := by
  induction n using mergeEverywhere.induct with
  | case1 n ih =>
    intro d hd
    obtain ⟨c, hc, hdc⟩ := Node.mem_nodesOfAll.mp hd
    obtain ⟨m, hm, hcontent, hshows⟩ := (mergedFrom_mergedChildren n).shows c hc
    obtain ⟨hmem, hbelow⟩ := mem_nodesOfAll_mergeEverywhere hm
    rcases hdc with rfl | hdc
    · refine ⟨mergeEverywhere m, hmem, (hshows.mono ?_).congr (own_mergeEverywhere m) rfl⟩
      exact fun k hk => FoundIn.of_mem (Node.mem_nodesOfAll.mpr ⟨k, hk, Or.inl rfl⟩)
    · obtain ⟨d', hd', hown⟩ := Node.foundIn_of_effectiveAll hcontent.symm hdc
      obtain ⟨e, he, hshows'⟩ := ih ⟨m, hm⟩ d' hd'
      refine ⟨e, hbelow e he, (hshows'.mono fun k hk => ?_).congr rfl hown.symm⟩
      -- What stands in the merged branch is found in the branch with the same content.
      obtain ⟨k', hk', hown'⟩ := Node.foundIn_of_effectiveAll hcontent hk
      exact ⟨k', Node.mem_nodesOfAll.mpr ⟨c, hc, Or.inr hk'⟩, hown'⟩

/-- Every node of a template is shown by one of the merged template. -/
theorem exists_shows_mergeEverywhere (n : Node) :
    ∀ d ∈ n.nodes, ∃ e ∈ (mergeEverywhere n).nodes, Shows n.nodes e d := by
  intro d hd
  rw [Node.nodes_eq] at hd
  rw [Node.nodes_eq, Node.nodes_eq n]
  rcases List.mem_cons.mp hd with rfl | hd
  · exact ⟨_, List.mem_cons_self, Or.inl (own_mergeEverywhere d)⟩
  · obtain ⟨e, he, hshows⟩ := exists_shows_below n d hd
    exact ⟨e, List.mem_cons_of_mem _ he,
      hshows.mono fun k hk => FoundIn.of_mem (List.mem_cons_of_mem n hk)⟩

/-! ## What holds of every node -/

section
variable {p : Node → Prop}

/-- What is kept by a branch that gets another test. -/
def KeptByTests (p : Node → Prop) : Prop :=
  ∀ n test, (test? n).isSome = true → p n → p { n with value := .when test }

theorem forall_mem_mergeRuns (hp : KeptByTests p) (h : ∀ n ∈ nodes, p n) :
    ∀ m ∈ mergeRuns nodes, p m := by
  fun_induction mergeRuns nodes with
  | case1 => exact h
  | case2 n rest k hk ih =>
    refine List.forall_mem_append.mpr ⟨fun m hm => ?_, ih fun m hm => h m (List.mem_of_mem_drop hm)⟩
    obtain ⟨g, hg, rfl⟩ := List.mem_map.mp hm
    have hfirst := mem_of_mem_groups hg
    have htest := test?_eq_groupedTest (isSome_terms?_of_mem_take hfirst)
    exact hp g.1 _ (by rw [htest]; rfl) (h g.1 (List.mem_of_mem_take hfirst))
  | case3 n rest k hk ih =>
    obtain ⟨hn, hrest⟩ := List.forall_mem_cons.mp h
    exact List.forall_mem_cons.mpr ⟨hn, ih hrest⟩

theorem forall_mem_mergeConsecutive (hp : KeptByTests p) (h : ∀ n ∈ nodes, p n) :
    ∀ m ∈ mergeConsecutive nodes, p m := by
  induction nodes with
  | nil => exact h
  | cons n rest ih =>
    obtain ⟨hn, hrest⟩ := List.forall_mem_cons.mp h
    simp only [mergeConsecutive]
    split
    · rename_i htest hfirst
      split
      · refine List.forall_mem_cons.mpr ⟨hp n _ (by rw [htest]; rfl) hn, fun m hm => ?_⟩
        exact ih hrest m (mem_of_firstBranch? hfirst m hm)
      · exact List.forall_mem_cons.mpr ⟨hn, ih hrest⟩
    · exact List.forall_mem_cons.mpr ⟨hn, ih hrest⟩

theorem forall_mem_mergedChildren (hp : KeptByTests p) (h : ∀ c ∈ n.children, p c) :
    ∀ m ∈ mergedChildren n, p m := by
  unfold mergedChildren
  split
  · exact forall_mem_mergeConsecutive hp (forall_mem_mergeRuns hp h)
  · exact h

/-- What is known of a node by its value and those of its children, and holds of all choices
and branches. -/
structure Local (p : Node → Prop) : Prop where
  congr : ∀ m n : Node, m.value = n.value →
    m.children.map Node.value = n.children.map Node.value → p n → p m
  choice : ∀ n : Node, n.value = .choose → p n
  branch : ∀ (n : Node) (test : String), n.value = .when test → p n

theorem mergedChildren_of_ne (h : n.value ≠ .choose) : mergedChildren n = n.children := by
  unfold mergedChildren
  split
  · rename_i hchoice
    exact absurd hchoice h
  · rfl

theorem value_mergeEverywhere (n : Node) : (mergeEverywhere n).value = n.value :=
  congrArg Prod.fst (own_mergeEverywhere n)

theorem Local.mergeEverywhere_iff (hp : Local p) (n : Node) : p (mergeEverywhere n) ↔ p n := by
  by_cases hchoice : n.value = .choose
  · have hmerged := hp.choice (mergeEverywhere n) (by rw [value_mergeEverywhere, hchoice])
    exact iff_of_true hmerged (hp.choice n hchoice)
  · have hchildren : (mergeEverywhere n).children.map Node.value = n.children.map Node.value := by
      rw [children_mergeEverywhere, mergedChildren_of_ne hchoice, List.map_map]
      exact List.map_congr_left fun c _ => value_mergeEverywhere c
    exact ⟨hp.congr _ _ (value_mergeEverywhere n).symm hchildren.symm,
      hp.congr _ _ (value_mergeEverywhere n) hchildren⟩

theorem Local.of_content (hp : Local p) {as bs : List Node}
    (h : Node.effectiveAll as = Node.effectiveAll bs) (has : ∀ d ∈ Node.nodesOfAll as, p d) :
    ∀ d ∈ Node.nodesOfAll bs, p d := by
  intro d hd
  obtain ⟨m, hm, heffective⟩ := Node.exists_of_effectiveAll h.symm hd
  have hvalue : m.value = d.value := congrArg Prod.fst (Node.own_of_effective heffective)
  have hchildren := Node.map_value_children_of_effective heffective
  exact hp.congr d m hvalue.symm hchildren.symm (has m hm)

/-- What is known locally holds everywhere in a template exactly if it does after merging. -/
theorem Local.forall_mem_nodes_mergeEverywhere (hp : Local p) (n : Node) :
    (∀ d ∈ (mergeEverywhere n).nodes, p d) ↔ ∀ d ∈ n.nodes, p d := by
  induction n using mergeEverywhere.induct with
  | case1 n ih =>
    rw [Node.forall_mem_nodes, Node.forall_mem_nodes, hp.mergeEverywhere_iff n,
      children_mergeEverywhere, List.forall_mem_map]
    refine and_congr_right fun _ => ⟨fun h c hc => ?_, fun h m hm => ?_⟩
    · -- the branch that is left shows the one that is gone
      obtain ⟨m, hm, hcontent, hshows⟩ := (mergedFrom_mergedChildren n).shows c hc
      obtain ⟨hroot, hbelow⟩ := Node.forall_mem_nodes.mp ((ih ⟨m, hm⟩).mp (h m hm))
      rw [← Node.forall_mem_nodesOfAll] at hbelow
      rw [Node.forall_mem_nodes, ← Node.forall_mem_nodesOfAll]
      refine ⟨?_, hp.of_content hcontent hbelow⟩
      rcases hshows with hown | ⟨t, tests, ht, -⟩
      · have hvalue : m.value = c.value := congrArg Prod.fst hown
        have hchildren : m.children.map Node.value = c.children.map Node.value := by
          rw [← Node.map_value_effectiveAll, ← Node.map_value_effectiveAll c.children]
          exact congrArg (List.map Node.value) hcontent
        exact hp.congr c m hvalue.symm hchildren.symm hroot
      · exact hp.branch c t (test?_eq_some_iff.mp ht)
    · refine (ih ⟨m, hm⟩).mpr ?_
      refine forall_mem_mergedChildren (p := fun m => ∀ d ∈ m.nodes, p d) ?_ h m hm
      intro k test _ hk
      obtain ⟨-, hbelow⟩ := Node.forall_mem_nodes.mp hk
      exact Node.forall_mem_nodes.mpr ⟨hp.branch _ test rfl, hbelow⟩

end

end Branches
end TagGrammar
