/-
Choices that settle at once.

Merging can be repeated with an effect where joined tests compare other constants than each
branch before, or where merging inside a branch changes what the branches around it are
compared by.  Neither happens in a plain choice: its tests can be joined, no two of them
compare one operand with the same constant, and no branch has a choice below it.  The
branches of one operand that follow each other are then one run, which has one branch for
each content when it is merged and keeps them apart when neighbours are.  So a template of
plain choices has nothing to be merged after it was merged once
(`settled_of_plain`).
-/
import TagGrammar.Proofs.Template.Settled
import TagGrammar.Proofs.XPath.Compared

namespace TagGrammar
namespace Branches
open XPath (Expr Joinable)

variable {n m : Node} {nodes run : List Node} {gs : List (Node × List String)}
  {key : String} {used : List String}

/-- The operand that a branch compares with constants. -/
def key? (n : Node) : Option String := (test? n).bind Expr.key?

/-- Branches that do not compare one operand with the same constant. -/
def Unshared (a b : Node) : Prop :=
  ∀ key texts texts', terms? a = some (key, texts) → terms? b = some (key, texts') →
    ∀ x ∈ texts, x ∉ texts'

/-- The branches of one operand at the start of a list. -/
def lead (key : String) (nodes : List Node) : List Node :=
  nodes.takeWhile fun n => key? n == some key

/-- Every branch differs from those of its operand that follow it without others between. -/
def Spread : List Node → Prop
  | [] => True
  | n :: rest => (∀ key, key? n = some key → ∀ m ∈ lead key rest, Differ n m) ∧ Spread rest

theorem key?_eq_map_terms? (n : Node) : key? n = (terms? n).map Prod.fst := by
  unfold key? terms?
  cases test? n with
  | none => rfl
  | some t =>
    simp only [Option.bind_some, Expr.key?]
    cases Expr.parse t <;> rfl

theorem key?_of_terms? {texts : List String} (h : terms? n = some (key, texts)) :
    key? n = some key := by
  rw [key?_eq_map_terms?, h]
  rfl

theorem exists_of_key? (h : key? n = some key) :
    ∃ t, test? n = some t ∧ Expr.key? t = some key := Option.bind_eq_some_iff.mp h

theorem lead_cons_of_key? (h : key? n = some key) :
    lead key (n :: nodes) = n :: lead key nodes := by
  simp [lead, h]

theorem lead_eq_nil (h : nodes.head?.bind key? ≠ some key) : lead key nodes = [] := by
  cases nodes with
  | nil => rfl
  | cons n rest =>
    rw [lead, List.takeWhile_cons_of_neg]
    simpa using h

theorem lead_append_of_all (h : ∀ n ∈ run, key? n = some key)
    (hstop : nodes.head?.bind key? ≠ some key) : lead key (run ++ nodes) = run := by
  have hrun : ∀ n ∈ run, (key? n == some key) = true := fun n hn => beq_iff_eq.mpr (h n hn)
  have hnil : nodes.takeWhile (fun n => key? n == some key) = [] := lead_eq_nil hstop
  rw [lead, List.takeWhile_append_of_pos hrun, hnil, List.append_nil]

theorem key?_of_mem_lead (h : m ∈ lead key nodes) : key? m = some key :=
  beq_iff_eq.mp (all_takeWhile _ _ m h)

/-! ## Spread branches -/

theorem Spread.drop (h : Spread nodes) (k : Nat) : Spread (nodes.drop k) := by
  induction k generalizing nodes with
  | zero => exact h
  | succ k ih =>
    cases nodes with
    | nil => exact h
    | cons n rest => exact ih h.2

theorem mem_lead_of_mem_take (h : m ∈ nodes.take (runLength (some key) used nodes)) :
    m ∈ lead key nodes := by
  induction nodes generalizing used with
  | nil => cases h
  | cons n rest ih =>
    unfold runLength at h
    split at h
    · cases h
    · rename_i key' texts hterms
      split at h
      · cases h
      · rename_i hfresh
        obtain rfl : key = key' := by
          simp only [Option.any_some, Bool.or_eq_true, not_or] at hfresh
          simpa using hfresh.1
        rw [List.take_succ_cons] at h
        rw [lead_cons_of_key? (key?_of_terms? hterms)]
        rcases List.mem_cons.mp h with rfl | h
        · exact List.mem_cons_self
        · exact List.mem_cons_of_mem _ (ih h)

theorem Spread.pairwise_take (h : Spread nodes) (start : Option String) (used : List String) :
    (nodes.take (runLength start used nodes)).Pairwise Differ := by
  induction nodes generalizing start used with
  | nil => exact List.Pairwise.nil
  | cons n rest ih =>
    unfold runLength
    split
    · exact List.Pairwise.nil
    · rename_i key texts hterms
      split
      · exact List.Pairwise.nil
      · rw [List.take_succ_cons]
        refine List.pairwise_cons.mpr ⟨fun m hm => ?_, ih h.2 _ _⟩
        exact h.1 key (key?_of_terms? hterms) m (mem_lead_of_mem_take hm)

/-- Nothing is left to be merged in the runs of spread branches. -/
theorem Spread.pairwise_runs (h : Spread nodes) : ∀ run ∈ runs nodes, run.Pairwise Differ := by
  fun_induction runs nodes with
  | case1 => simp
  | case2 n rest k hk ih =>
    exact List.forall_mem_cons.mpr ⟨h.pairwise_take none [], ih (h.drop k)⟩
  | case3 n rest k hk ih =>
    exact List.forall_mem_cons.mpr ⟨List.pairwise_singleton _ _, ih h.2⟩

theorem Spread.of_pairwise_append (hrun : ∀ n ∈ run, key? n = some key)
    (hdiffer : run.Pairwise Differ) (hnodes : Spread nodes)
    (hstop : nodes.head?.bind key? ≠ some key) : Spread (run ++ nodes) := by
  induction run with
  | nil => exact hnodes
  | cons n rest ih =>
    obtain ⟨hn, hrest⟩ := List.forall_mem_cons.mp hrun
    obtain ⟨hfirst, hdiffer⟩ := List.pairwise_cons.mp hdiffer
    rw [List.cons_append]
    refine ⟨fun key' hkey' m hm => ?_, ih hrest hdiffer⟩
    obtain rfl : key = key' := Option.some.inj (hn.symm.trans hkey')
    rw [lead_append_of_all hrest hstop] at hm
    exact hfirst m hm

/-! ## Merged runs -/

theorem pairwise_addToGroups {t : String}
    (h : gs.Pairwise fun g g' => Differ g.1 g'.1) :
    (addToGroups n t gs).Pairwise fun g g' => Differ g.1 g'.1 := by
  induction gs with
  | nil => exact List.pairwise_singleton _ _
  | cons g gs ih =>
    obtain ⟨hg, hgs⟩ := List.pairwise_cons.mp h
    unfold addToGroups
    split
    · exact List.pairwise_cons.mpr ⟨hg, hgs⟩
    · rename_i hnew
      refine List.pairwise_cons.mpr ⟨fun g' hg' => ?_, ih hgs⟩
      rcases mem_addToGroups hg' with hn | ⟨g'', hg'', hsame⟩
      · rw [hn]
        exact fun hsame => hnew ((sameContent_iff _ _).mpr hsame)
      · rw [hsame]
        exact hg g'' hg''

/-- Groups are of different content. -/
theorem pairwise_groups (run : List Node) :
    (groups run).Pairwise fun g g' => Differ g.1 g'.1 := by
  induction run using List.reverseRecOn with
  | nil => exact List.Pairwise.nil
  | append_singleton run n ih =>
    rw [groups_concat]
    exact pairwise_addToGroups ih

theorem key?_fuse (hrun : ∀ n ∈ run, key? n = some key) {g : Node × List String}
    (hg : g ∈ groups run) : key? (fuse g) = some key := by
  have hgroups := grouped_groups run
  have htests : ∀ t ∈ g.2, Expr.key? t = some key := by
    intro t ht
    obtain ⟨n, hn, rfl, -⟩ := hgroups.tests g hg t ht
    obtain ⟨t, htest, hkey⟩ := exists_of_key? (hrun n hn)
    rw [groupedTest, htest]
    exact hkey
  exact (Expr.key?_intercalate_iff (hgroups.nonempty g hg)
    fun t ht => Expr.joinable_of_key? (htests t ht)).mpr htests

theorem head?_groups (n : Node) (rest : List Node) :
    (groups (n :: rest)).head?.map Prod.fst = some n := by
  induction rest using List.reverseRecOn with
  | nil => rfl
  | append_singleton rest m ih =>
    rw [← List.cons_append, groups_concat]
    cases hgroups : groups (n :: rest) with
    | nil => rw [hgroups] at ih; cases ih
    | cons g gs =>
      rw [hgroups] at ih
      unfold addToGroups
      split <;> exact ih

/-- Branches without a shared constant that follow each other with one operand are a run. -/
theorem runLength_eq_length_lead (hpairs : nodes.Pairwise Unshared)
    (hused : ∀ n ∈ nodes, ∀ texts, terms? n = some (key, texts) → ∀ x ∈ used, x ∉ texts) :
    runLength (some key) used nodes = (lead key nodes).length := by
  induction nodes generalizing used with
  | nil => rfl
  | cons n rest ih =>
    obtain ⟨hn, hrest⟩ := List.pairwise_cons.mp hpairs
    unfold runLength
    split
    · rename_i hterms
      rw [lead_eq_nil (by simp [key?_eq_map_terms?, hterms])]
      rfl
    · rename_i key' texts hterms
      by_cases hkey : key' = key
      · subst hkey
        have hfresh : texts.any used.contains = false := by
          rw [List.any_eq_false]
          intro x hx hmem
          exact hused n List.mem_cons_self texts hterms x (by simpa using hmem) hx
        have hmore : ∀ m ∈ rest, ∀ texts', terms? m = some (key', texts') →
            ∀ x ∈ used ++ texts, x ∉ texts' := by
          intro m hm texts' hterms' x hx
          rcases List.mem_append.mp hx with hx | hx
          · exact hused m (List.mem_cons_of_mem n hm) texts' hterms' x hx
          · exact hn m hm key' texts texts' hterms hterms' x hx
        rw [lead_cons_of_key? (key?_of_terms? hterms), List.length_cons, ← ih hrest hmore]
        simp [hfresh]
      · rw [lead_eq_nil (by simp [key?_of_terms? hterms, hkey])]
        simp [Ne.symm hkey]

theorem runLength_of_terms? {texts : List String} {rest : List Node}
    (h : terms? n = some (key, texts)) :
    runLength none [] (n :: rest) = runLength (some key) texts rest + 1 := by
  simp [runLength, h]

theorem exists_terms?_of_key? (h : key? n = some key) :
    ∃ texts, terms? n = some (key, texts) := by
  rw [key?_eq_map_terms?] at h
  obtain ⟨⟨key', texts⟩, hterms, rfl⟩ := Option.map_eq_some_iff.mp h
  exact ⟨texts, hterms⟩

theorem exists_key?_of_runLength {rest : List Node} (h : 1 < runLength none [] (n :: rest)) :
    ∃ key, key? n = some key := by
  unfold runLength at h
  split at h
  · cases h
  · rename_i key texts hterms
    exact ⟨key, key?_of_terms? hterms⟩

theorem key?_of_mem_run {rest : List Node} (hkey : key? n = some key)
    (h : m ∈ (n :: rest).take (runLength none [] (n :: rest))) : key? m = some key := by
  obtain ⟨texts, hterms⟩ := exists_terms?_of_key? hkey
  rw [runLength_of_terms? hterms, List.take_succ_cons] at h
  rcases List.mem_cons.mp h with rfl | h
  · exact hkey
  · exact key?_of_mem_lead (mem_lead_of_mem_take h)

/-- Merging the runs leaves the operand at the start of a list. -/
theorem key?_head?_mergeRuns (nodes : List Node) :
    (mergeRuns nodes).head?.bind key? = nodes.head?.bind key? := by
  fun_cases mergeRuns nodes with
  | case1 => rfl
  | case2 n rest k hk =>
    obtain ⟨key, hkey⟩ := exists_key?_of_runLength hk
    have hrun : ∀ m ∈ (n :: rest).take k, key? m = some key := fun m hm => key?_of_mem_run hkey hm
    have hpos : 0 < k := Nat.lt_of_succ_lt hk
    obtain ⟨k', hk'⟩ : ∃ k', k = k' + 1 := ⟨k - 1, by omega⟩
    have htake : (n :: rest).take k = n :: rest.take k' := by
      rw [hk', List.take_succ_cons]
    rw [htake] at hrun
    rw [htake, List.head?_append, List.head?_map]
    obtain ⟨g, hg, -⟩ := Option.map_eq_some_iff.mp (head?_groups n (rest.take k'))
    rw [hg, Option.map_some, Option.some_or, Option.bind_some,
      key?_fuse hrun (List.mem_of_head? hg)]
    exact hkey.symm
  | case3 => rfl

theorem lead_mergeRuns_eq_nil (h : nodes.head?.bind key? ≠ some key) :
    lead key (mergeRuns nodes) = [] := by
  refine lead_eq_nil ?_
  rw [key?_head?_mergeRuns]
  exact h

/-- The branches of an operand at the start of a list are all that are there. -/
theorem key?_head?_drop_lead (key : String) (nodes : List Node) :
    (nodes.drop (lead key nodes).length).head?.bind key? ≠ some key := by
  induction nodes with
  | nil => exact nofun
  | cons n rest ih =>
    by_cases hkey : key? n = some key
    · rw [lead_cons_of_key? hkey]
      exact ih
    · rw [lead_eq_nil (by simpa using hkey)]
      simpa using hkey

/-- In merged runs without shared constants all branches are spread. -/
theorem spread_mergeRuns (hpairs : nodes.Pairwise Unshared) : Spread (mergeRuns nodes) := by
  have hlength : ∀ {n : Node} {rest : List Node} {key : String}, key? n = some key →
      (n :: rest).Pairwise Unshared →
        runLength none [] (n :: rest) = (lead key rest).length + 1 := by
    intro n rest key hkey hpairs
    obtain ⟨texts, hterms⟩ := exists_terms?_of_key? hkey
    obtain ⟨hn, hrest⟩ := List.pairwise_cons.mp hpairs
    rw [runLength_of_terms? hterms, runLength_eq_length_lead hrest]
    exact fun m hm texts' hterms' x hx => hn m hm key texts texts' hterms hterms' x hx
  fun_induction mergeRuns nodes with
  | case1 => trivial
  | case2 n rest k hk ih =>
    obtain ⟨key, hkey⟩ := exists_key?_of_runLength hk
    have hrun : ∀ m ∈ (n :: rest).take k, key? m = some key := fun m hm => key?_of_mem_run hkey hm
    have hfused : ∀ f ∈ (groups ((n :: rest).take k)).map fuse, key? f = some key := by
      intro f hf
      obtain ⟨g, hg, rfl⟩ := List.mem_map.mp hf
      exact key?_fuse hrun hg
    have hdiffer : ((groups ((n :: rest).take k)).map fuse).Pairwise Differ :=
      List.pairwise_map.mpr (pairwise_groups _)
    refine Spread.of_pairwise_append hfused hdiffer (ih hpairs.drop) ?_
    have hk' : k = (lead key rest).length + 1 := hlength hkey hpairs
    rw [key?_head?_mergeRuns, hk', List.drop_succ_cons]
    exact key?_head?_drop_lead key rest
  | case3 n rest k hk ih =>
    refine ⟨fun key hkey m hm => ?_, ih hpairs.tail⟩
    have hk' : k = (lead key rest).length + 1 := hlength hkey hpairs
    have hnone : (lead key rest).length = 0 := by omega
    have hstop := key?_head?_drop_lead key rest
    rw [hnone, List.drop_zero] at hstop
    rw [lead_mergeRuns_eq_nil hstop] at hm
    cases hm

/-! ## Merged neighbours -/

/-- Every branch has a test that can be joined. -/
def TestsJoin (nodes : List Node) : Prop :=
  ∀ n ∈ nodes, ∀ t, test? n = some t → Joinable t

theorem MergedFrom.testsJoin {old new : List Node} (h : MergedFrom new old)
    (hold : TestsJoin old) : TestsJoin new := by
  intro m hm s hs
  obtain ⟨tests, htests, rfl⟩ := h.joined m hm s hs
  refine Joinable.intercalate htests.nonempty fun t ht => ?_
  obtain ⟨n, hn, hnt⟩ := htests.mem t ht
  exact hold n hn t hnt

theorem exists_of_firstBranch? {t : String} {others : List Node}
    (h : firstBranch? nodes = some (m, t, others)) : test? m = some t ∧
      ∃ before after, nodes = before ++ m :: after ∧ others = before ++ after ∧
        ∀ k ∈ before, test? k = none := by
  induction nodes generalizing others with
  | nil => cases h
  | cons n rest ih =>
    simp only [firstBranch?] at h
    split at h
    · rename_i htest
      cases h
      exact ⟨htest, [], rest, rfl, rfl, by simp⟩
    · rename_i htest
      obtain ⟨⟨m', t', others'⟩, hfirst, heq⟩ := Option.map_eq_some_iff.mp h
      cases heq
      obtain ⟨hm, before, after, rfl, rfl, hbefore⟩ := ih hfirst
      exact ⟨hm, n :: before, after, rfl, rfl, List.forall_mem_cons.mpr ⟨htest, hbefore⟩⟩

theorem branches_append_of_none {before after : List Node} (h : ∀ k ∈ before, test? k = none) :
    branches (before ++ after) = branches after := by
  induction before with
  | nil => rfl
  | cons n rest ih =>
    obtain ⟨hn, hrest⟩ := List.forall_mem_cons.mp h
    rw [List.cons_append, branches_cons_of_none hn, ih hrest]

theorem key?_of_test?_none (h : test? n = none) : key? n = none := by
  rw [key?, h]
  rfl

theorem spread_append_iff_of_none {before after : List Node} (h : ∀ k ∈ before, test? k = none) :
    Spread (before ++ after) ↔ Spread after := by
  induction before with
  | nil => rfl
  | cons n rest ih =>
    obtain ⟨hn, hrest⟩ := List.forall_mem_cons.mp h
    rw [List.cons_append, Spread, ih hrest]
    refine and_iff_right fun key hkey => ?_
    rw [key?_of_test?_none hn] at hkey
    cases hkey

theorem isChain_mergeConsecutive (nodes : List Node) :
    (branches (mergeConsecutive nodes)).IsChain Differ := by
  induction nodes with
  | nil => exact .nil
  | cons n rest ih =>
    simp only [mergeConsecutive]
    cases htest : test? n with
    | none =>
      rw [branches_cons_of_none htest]
      exact ih
    | some t =>
      cases hfirst : firstBranch? (mergeConsecutive rest) with
      | none =>
        have hhead : (branches (mergeConsecutive rest)).head? = none := by
          rw [head?_branches, hfirst]
          rfl
        rw [branches_cons_of_some htest, List.head?_eq_none_iff.mp hhead]
        exact .singleton n
      | some first =>
        obtain ⟨next, t', others⟩ := first
        obtain ⟨hnext, before, after, hmerged, rfl, hbefore⟩ := exists_of_firstBranch? hfirst
        have hbranches : branches (mergeConsecutive rest) = next :: branches after := by
          rw [hmerged, branches_append_of_none hbefore, branches_cons_of_some hnext]
        rw [hbranches] at ih
        dsimp only
        split
        · rename_i hsame
          have hcontent := (sameContent_iff _ _).mp hsame
          rw [branches_cons_of_some (t := joinTests [t, t']) rfl, branches_append_of_none hbefore]
          rw [List.isChain_cons] at ih ⊢
          refine ⟨fun k hk hsame' => ih.1 k hk ?_, ih.2⟩
          exact hcontent.symm.trans hsame'
        · rename_i hdiffer
          rw [branches_cons_of_some htest, hbranches]
          refine .cons_cons (fun hsame => hdiffer ((sameContent_iff _ _).mpr hsame)) ih

/-- A branch that two are merged to has an operand only if both have it. -/
theorem key?_of_joined {t t' : String} (ht : test? n = some t) (ht' : test? m = some t')
    (hjoin : Joinable t) (hjoin' : Joinable t')
    (hkey : key? { n with value := .when (joinTests [t, t']) } = some key) :
    key? n = some key ∧ key? m = some key := by
  have hboth := (Expr.key?_intercalate_iff (List.cons_ne_nil t [t'])
    (by simp [hjoin, hjoin'])).mp hkey
  rw [key?, ht, key?, ht']
  exact ⟨hboth t (by simp), hboth t' (by simp)⟩

/-- Spread branches made of others by merging: those of one operand at the start have the
content of some that were there before. -/
structure SpreadFrom (new old : List Node) : Prop where
  spread : Spread new
  start : ∀ key, ∀ m ∈ lead key new, ∃ k ∈ lead key old, content m = content k

theorem SpreadFrom.cons {new rest : List Node} (hn : Spread (n :: rest))
    (h : SpreadFrom new rest) : SpreadFrom (n :: new) (n :: rest) := by
  refine ⟨⟨fun key hkey m hm hsame => ?_, h.spread⟩, fun key m hm => ?_⟩
  · obtain ⟨k, hk, hcontent⟩ := h.start key m hm
    exact hn.1 key hkey k hk (hsame.trans hcontent)
  · by_cases hkey : key? n = some key
    · rw [lead_cons_of_key? hkey] at hm ⊢
      rcases List.mem_cons.mp hm with rfl | hm
      · exact ⟨m, List.mem_cons_self, rfl⟩
      · obtain ⟨k, hk, hcontent⟩ := h.start key m hm
        exact ⟨k, List.mem_cons_of_mem n hk, hcontent⟩
    · rw [lead_eq_nil (by simpa using hkey)] at hm
      cases hm

/-- After a branch that is merged with the next one of its operand there is no branch of that
operand: the two did not follow each other, so what was between them does now. -/
theorem SpreadFrom.lead_others_eq_nil {rest before after : List Node} (hn : Spread (n :: rest))
    (h : SpreadFrom (before ++ m :: after) rest) (hbefore : ∀ k ∈ before, test? k = none)
    (hsame : content n = content m) (hkeyn : key? n = some key) (hkeym : key? m = some key) :
    lead key (before ++ after) = [] := by
  cases before with
  | nil =>
    obtain ⟨k, hk, hcontent⟩ := h.start key m (by
      rw [List.nil_append, lead_cons_of_key? hkeym]
      exact List.mem_cons_self)
    exact absurd (hsame.trans hcontent) (hn.1 key hkeyn k hk)
  | cons k before =>
    refine lead_eq_nil ?_
    simp [key?_of_test?_none (hbefore k List.mem_cons_self)]

theorem SpreadFrom.join {t t' : String} {rest before after : List Node}
    (hn : Spread (n :: rest)) (h : SpreadFrom (before ++ m :: after) rest)
    (hbefore : ∀ k ∈ before, test? k = none) (hsame : content n = content m)
    (ht : test? n = some t) (ht' : test? m = some t') (hjoin : Joinable t)
    (hjoin' : Joinable t') :
    SpreadFrom ({ n with value := .when (joinTests [t, t']) } :: (before ++ after))
      (n :: rest) := by
  have hsplit : ∀ key, key? { n with value := .when (joinTests [t, t']) } = some key →
      key? n = some key ∧ lead key (before ++ after) = [] := by
    intro key hkey
    obtain ⟨hkeyn, hkeym⟩ := key?_of_joined ht ht' hjoin hjoin' hkey
    exact ⟨hkeyn, h.lead_others_eq_nil hn hbefore hsame hkeyn hkeym⟩
  refine ⟨⟨fun key hkey k hk => ?_, ?_⟩, fun key k hk => ?_⟩
  · rw [(hsplit key hkey).2] at hk
    cases hk
  · have hspread := (spread_append_iff_of_none hbefore).mp h.spread
    exact (spread_append_iff_of_none hbefore).mpr hspread.2
  · by_cases hkey : key? { n with value := .when (joinTests [t, t']) } = some key
    · obtain ⟨hkeyn, hnone⟩ := hsplit key hkey
      rw [lead_cons_of_key? hkey, hnone, List.mem_singleton] at hk
      rw [hk, lead_cons_of_key? hkeyn]
      exact ⟨n, List.mem_cons_self, rfl⟩
    · rw [lead_eq_nil (by simpa using hkey)] at hk
      cases hk

/-- Merging neighbours leaves branches spread. -/
theorem spreadFrom_mergeConsecutive (hspread : Spread nodes) (hjoin : TestsJoin nodes) :
    SpreadFrom (mergeConsecutive nodes) nodes := by
  induction nodes with
  | nil => exact ⟨trivial, fun key m hm => absurd hm List.not_mem_nil⟩
  | cons n rest ih =>
    obtain ⟨hn, hrest⟩ := List.forall_mem_cons.mp hjoin
    have hmerged := ih hspread.2 hrest
    simp only [mergeConsecutive]
    split
    · rename_i t next t' others ht hfirst
      split
      · rename_i hsame
        obtain ⟨ht', before, after, hsplit, rfl, hbefore⟩ := exists_of_firstBranch? hfirst
        have hnext : next ∈ mergeConsecutive rest := by simp [hsplit]
        have hjoin' := (mergedFrom_mergeConsecutive rest).testsJoin hrest next hnext t' ht'
        rw [hsplit] at hmerged
        exact hmerged.join hspread hbefore ((sameContent_iff _ _).mp hsame) ht ht' (hn t ht) hjoin'
      · exact hmerged.cons hspread
    · exact hmerged.cons hspread

/-! ## Plain choices -/

/-- A choice whose tests can be joined and share no constant of one operand, and in whose
branches there is no other choice. -/
structure IsPlainChoice (nodes : List Node) : Prop where
  tests : TestsJoin nodes
  constants : nodes.Pairwise Unshared
  content : ∀ n ∈ nodes, (test? n).isSome = true → ∀ d ∈ n.nodes, d.value ≠ .choose

theorem unshared_iff {a b : Node} : Unshared a b ↔ ∀ compared ∈ terms? a,
    ∀ compared' ∈ terms? b, compared.1 = compared'.1 →
      ∀ x ∈ compared.2, x ∉ compared'.2 := by
  constructor
  · rintro h ⟨key, texts⟩ ha ⟨key', texts'⟩ hb rfl
    exact h key texts texts' ha hb
  · intro h key texts texts' ha hb
    exact h (key, texts) ha (key, texts') hb rfl

instance (a b : Node) : Decidable (Unshared a b) := decidable_of_iff _ unshared_iff.symm

theorem isPlainChoice_iff : IsPlainChoice nodes ↔ (∀ n ∈ nodes, ∀ t ∈ test? n, Joinable t) ∧
    nodes.Pairwise Unshared ∧
      ∀ n ∈ nodes, (test? n).isSome = true → ∀ d ∈ n.nodes, d.value ≠ .choose :=
  ⟨fun h => ⟨h.tests, h.constants, h.content⟩, fun h => ⟨h.1, h.2.1, h.2.2⟩⟩

instance (nodes : List Node) : Decidable (IsPlainChoice nodes) :=
  decidable_of_iff _ isPlainChoice_iff.symm

/-- A plain choice has nothing to be merged after it was merged once. -/
theorem IsPlainChoice.settled_merge (h : IsPlainChoice nodes) : Settled (merge nodes) where
  runs := by
    have hjoin := (mergedFrom_mergeRuns nodes).testsJoin h.tests
    exact (spreadFrom_mergeConsecutive (spread_mergeRuns h.constants) hjoin).spread.pairwise_runs
  neighbours := isChain_mergeConsecutive _

theorem terms?_congr (h : test? m = test? n) : terms? m = terms? n := by
  rw [terms?, h, terms?]

section
variable {f : Node → Node}

theorem runLength_map (h : ∀ n, test? (f n) = test? n) (start : Option String)
    (used : List String) (nodes : List Node) :
    runLength start used (nodes.map f) = runLength start used nodes := by
  induction nodes generalizing start used with
  | nil => rfl
  | cons n rest ih => simp only [List.map_cons, runLength, terms?_congr (h n), ih]

theorem runs_map (h : ∀ n, test? (f n) = test? n) (nodes : List Node) :
    runs (nodes.map f) = (runs nodes).map (List.map f) := by
  fun_induction runs nodes with
  | case1 => rw [List.map_nil, runs, List.map_nil]
  | case2 n rest k hk ih =>
    have hlength := runLength_map h none [] (n :: rest)
    rw [List.map_cons] at hlength ⊢
    rw [runs, hlength, if_pos hk, ← List.map_cons, ← List.map_take, ← List.map_drop, ih,
      List.map_cons]
  | case3 n rest k hk ih =>
    have hlength := runLength_map h none [] (n :: rest)
    rw [List.map_cons] at hlength ⊢
    rw [runs, hlength, if_neg hk, ih, List.map_cons, List.map_singleton]

/-- A change that leaves branches as they are, and other nodes no branches, leaves a choice
settled. -/
theorem Settled.map (h : ∀ n, test? (f n) = test? n)
    (hbranch : ∀ n ∈ nodes, (test? n).isSome = true → f n = n) (hsettled : Settled nodes) :
    Settled (nodes.map f) := by
  constructor
  · rw [runs_map h, List.forall_mem_map]
    intro run hrun
    rcases mem_runs hrun with ⟨n, rfl⟩ | ⟨hterms, -⟩
    · exact List.pairwise_singleton _ _
    · have hkept : ∀ n ∈ run, f n = n := by
        intro n hn
        have hmem : n ∈ nodes := by
          rw [← flatten_runs nodes]
          exact List.mem_flatten_of_mem hrun hn
        exact hbranch n hmem (by rw [test?_eq_groupedTest (hterms n hn)]; rfl)
      rw [List.map_congr_left hkept, List.map_id']
      exact hsettled.runs run hrun
  · have hkept : ∀ n ∈ branches nodes, f n = n := fun n hn =>
      hbranch n (List.mem_filter.mp hn).1 (List.mem_filter.mp hn).2
    have hsame : branches (nodes.map f) = branches nodes := by
      have hfilter : (fun n => (test? n).isSome) ∘ f = fun n => (test? n).isSome :=
        funext fun n => congrArg Option.isSome (h n)
      rw [branches, List.filter_map, hfilter, ← branches, List.map_congr_left hkept, List.map_id']
    rw [hsame]
    exact hsettled.neighbours

theorem IsPlainChoice.map (h : ∀ n, test? (f n) = test? n)
    (hcontent : ∀ n, (∀ d ∈ n.nodes, d.value ≠ .choose) → ∀ d ∈ (f n).nodes, d.value ≠ .choose)
    (hplain : IsPlainChoice nodes) : IsPlainChoice (nodes.map f) where
  tests := by
    rw [TestsJoin, List.forall_mem_map]
    intro n hn t ht
    exact hplain.tests n hn t ((h n).symm.trans ht)
  constants := by
    refine List.pairwise_map.mpr (hplain.constants.imp fun {a b} hab => ?_)
    rw [Unshared, terms?_congr (h a), terms?_congr (h b)]
    exact hab
  content := by
    rw [List.forall_mem_map]
    intro n hn hbranch
    rw [h] at hbranch
    exact hcontent n (hplain.content n hn hbranch)

end

/-- A template of plain choices has nothing to be merged after it was merged once. -/
theorem settled_of_plain (n : Node)
    (h : ∀ c ∈ n.nodes, c.value = .choose → IsPlainChoice c.children) :
    ∀ m ∈ (mergeEverywhere n).nodes, m.value = .choose → Settled m.children := by
  induction n using mergeEverywhere.induct with
  | case1 n ih =>
    obtain ⟨hroot, hbelow⟩ := Node.forall_mem_nodes.mp h
    rw [Node.forall_mem_nodes, children_mergeEverywhere, List.forall_mem_map]
    refine ⟨fun hchoice => ?_, fun m hm => ih ⟨m, hm⟩ ?_⟩
    · rw [value_mergeEverywhere] at hchoice
      have hplain := hroot hchoice
      have hkept : KeptByTests fun b =>
          (test? b).isSome = true → ∀ d ∈ b.nodes, d.value ≠ .choose := by
        intro b test hbranch hb _
        obtain ⟨-, hb⟩ := Node.forall_mem_nodes.mp (hb hbranch)
        exact Node.forall_mem_nodes.mpr ⟨by rintro ⟨⟩, hb⟩
      have hcontent := forall_mem_mergedChildren hkept hplain.content
      have hmerged : mergedChildren n = merge n.children := by rw [mergedChildren, hchoice]
      refine Settled.map (fun c => test?_congr (own_mergeEverywhere c)) (fun b hb hbranch => ?_)
        (hmerged ▸ hplain.settled_merge)
      rw [mergeEverywhere_eq_self_iff]
      exact fun d hd hd' => absurd hd' (hcontent b hb hbranch d hd)
    · refine forall_mem_mergedChildren ?_ hbelow m hm
      intro b test _ hb
      obtain ⟨-, hb⟩ := Node.forall_mem_nodes.mp hb
      exact Node.forall_mem_nodes.mpr ⟨by rintro ⟨⟩, hb⟩

end Branches
end TagGrammar
