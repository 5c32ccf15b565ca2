/-
Tables rebuilt from their entries.

The entries of a table may come in any order.  `Consistent` says which lists of entries
number their tags, name them apart and give each bitfield the right width, without sorting
and without a running number.  The lists that are accepted are exactly these, and the table
of one is its entries in the order of their ordinals.
-/
import TagGrammar.Proofs.Except
import TagGrammar.Proofs.RuleTable

namespace TagGrammar
namespace RuleTable

/-- Entries that a table may consist of. -/
structure Consistent (entries : List CompiledTag) : Prop where
  ordinals : (entries.map CompiledTag.ordinal).Perm (List.range entries.length)
  names : (entries.map CompiledTag.name).Nodup
  widths : ∀ e ∈ entries, e.allowedChildren.width = entries.length ∧
    e.allowedDescendants.width = entries.length

/-- The entries in the order of their ordinals. -/
def inOrder (entries : List CompiledTag) : List CompiledTag :=
  entries.mergeSort fun a b => a.ordinal ≤ b.ordinal

theorem inOrder_perm (entries : List CompiledTag) : (inOrder entries).Perm entries :=
  List.mergeSort_perm _ _

theorem ordinals_inOrder_sorted (entries : List CompiledTag) :
    ((inOrder entries).map CompiledTag.ordinal).Pairwise (· ≤ ·) := by
  have hsorted : (inOrder entries).Pairwise fun a b => decide (a.ordinal ≤ b.ordinal) = true :=
    List.pairwise_mergeSort
      (fun a b c hab hbc => by simp only [decide_eq_true_eq] at *; omega)
      (fun a b => by simp only [Bool.or_eq_true, decide_eq_true_eq]; omega) entries
  exact List.pairwise_map.mpr (hsorted.imp fun h => by simpa using h)

/-- The pass over the sorted entries, after entries with some names. -/
theorem checkEntries_eq_ok_iff {width : Nat} {seen : List TagName} {rest : List CompiledTag}
    (hseen : seen.Nodup) :
    checkEntries width seen rest = .ok () ↔
      rest.map CompiledTag.ordinal = List.range' seen.length rest.length ∧
        (seen ++ rest.map CompiledTag.name).Nodup ∧
          ∀ e ∈ rest, e.allowedChildren.width = width ∧ e.allowedDescendants.width = width := by
  induction rest generalizing seen with
  | nil => simp [checkEntries, hseen]
  | cons e rest ih =>
    have hnames : seen ++ (e :: rest).map CompiledTag.name =
        (seen ++ [e.name]) ++ rest.map CompiledTag.name := by
      rw [List.map_cons, List.append_assoc, List.singleton_append]
    rw [checkEntries, hnames, List.map_cons, List.length_cons, List.range'_succ, List.cons.injEq,
      List.forall_mem_cons]
    by_cases hordinal : e.ordinal = seen.length
    · by_cases hname : e.name ∈ seen
      · have hrepeated : ¬(seen ++ [e.name] ++ rest.map CompiledTag.name).Nodup := by
          rw [← hnames]
          intro hnodup
          exact (List.nodup_append.mp hnodup).2.2 _ hname _ (by simp) rfl
        simp only [hordinal, ne_eq, not_true, if_false, List.contains_iff_mem.mpr hname, if_true,
          reduceCtorEq, hrepeated, false_and, and_false]
      · have hseen' : (seen ++ [e.name]).Nodup :=
          List.nodup_append.mpr ⟨hseen, List.nodup_singleton _, fun a ha b hb hab =>
            hname (List.mem_singleton.mp hb ▸ hab ▸ ha)⟩
        by_cases hwidth : e.allowedChildren.width = width ∧ e.allowedDescendants.width = width
        · simp [hordinal, hname, hwidth, ih hseen']
        · have hbad : (e.allowedChildren.width ≠ width || e.allowedDescendants.width ≠ width) =
              true := by
            simpa [Classical.or_iff_not_imp_left] using hwidth
          simp only [hordinal, hname, hbad, hwidth, ne_eq, not_true, if_false, if_true,
            List.contains_iff_mem, reduceCtorEq, false_and, and_false]
    · simp [hordinal]

theorem widths_congr {entries entries' : List CompiledTag} (hperm : entries'.Perm entries)
    {n : Nat} :
    (∀ e ∈ entries', e.allowedChildren.width = n ∧ e.allowedDescendants.width = n) ↔
      ∀ e ∈ entries, e.allowedChildren.width = n ∧ e.allowedDescendants.width = n :=
  forall_congr' fun _ => imp_congr_left hperm.mem_iff

/-- Sorting makes the ordinals run from zero exactly if they are the first numbers. -/
theorem ordinals_inOrder_eq_range_iff {entries : List CompiledTag} :
    (inOrder entries).map CompiledTag.ordinal = List.range entries.length ↔
      (entries.map CompiledTag.ordinal).Perm (List.range entries.length) := by
  have hperm := (inOrder_perm entries).map CompiledTag.ordinal
  constructor
  · intro h
    rw [← h]
    exact hperm.symm
  · intro h
    exact (hperm.trans h).eq_of_pairwise (fun _ _ _ _ => Nat.le_antisymm)
      (ordinals_inOrder_sorted entries) List.pairwise_le_range

theorem ofEntries_eq_ok_iff {entries : List CompiledTag} {t : RuleTable} :
    ofEntries entries = .ok t ↔ Consistent entries ∧ t = ⟨inOrder entries⟩ := by
  have hlength : (inOrder entries).length = entries.length := (inOrder_perm entries).length_eq
  have hcheck : checkEntries entries.length [] (inOrder entries) = .ok () ↔
      Consistent entries := by
    rw [checkEntries_eq_ok_iff List.nodup_nil, List.length_nil, hlength, ← List.range_eq_range',
      ordinals_inOrder_eq_range_iff, List.nil_append,
      ((inOrder_perm entries).map CompiledTag.name).nodup_iff, widths_congr (inOrder_perm entries)]
    exact ⟨fun ⟨ho, hn, hw⟩ => ⟨ho, hn, hw⟩, fun h => ⟨h.ordinals, h.names, h.widths⟩⟩
  rw [← hcheck, ofEntries, map_eq_ok_iff]
  constructor
  · rintro ⟨⟨⟩, hok, rfl⟩
    exact ⟨hok, rfl⟩
  · rintro ⟨hok, rfl⟩
    exact ⟨(), hok, rfl⟩

/-! ## What the table holds -/

theorem Consistent.of_perm {entries entries' : List CompiledTag} (h : Consistent entries)
    (hperm : entries'.Perm entries) : Consistent entries' where
  ordinals := by
    rw [hperm.length_eq]
    exact (hperm.map _).trans h.ordinals
  names := (hperm.map _).nodup_iff.mpr h.names
  widths := by
    rw [hperm.length_eq]
    exact (widths_congr hperm).mpr h.widths

/-- Entries in the order of their ordinals are what every order of them is sorted into. -/
theorem inOrder_eq_of_perm {entries l : List CompiledTag} (hperm : entries.Perm l)
    (hl : l.map CompiledTag.ordinal = List.range l.length) : inOrder entries = l := by
  have hsorted : ∀ l' : List CompiledTag, l'.map CompiledTag.ordinal = List.range l.length →
      l'.Pairwise fun a b => a.ordinal < b.ordinal := by
    intro l' hl'
    exact List.pairwise_map.mp (hl' ▸ List.pairwise_lt_range)
  have hinOrder : (inOrder entries).map CompiledTag.ordinal = List.range l.length := by
    rw [← hperm.length_eq, ordinals_inOrder_eq_range_iff, hperm.length_eq, ← hl]
    exact hperm.map _
  exact ((inOrder_perm entries).trans hperm).eq_of_pairwise
    (fun _ _ _ _ hab hba => absurd hab (Nat.lt_asymm hba)) (hsorted _ hinOrder) (hsorted _ hl)

/-- A table of some entries, each found under its name and its ordinal. -/
structure Holds (entries : List CompiledTag) (t : RuleTable) : Prop where
  perm : t.tags.Perm entries
  ordinals : t.tags.map CompiledTag.ordinal = List.range entries.length
  ordinal? : ∀ e ∈ entries, t.ordinal? e.name.text = some e.ordinal
  name? : ∀ e ∈ entries, t.name? e.ordinal = some e.name

theorem holds_of_ofEntries {entries : List CompiledTag} {t : RuleTable}
    (h : ofEntries entries = .ok t) : Holds entries t := by
  obtain ⟨hconsistent, rfl⟩ := ofEntries_eq_ok_iff.mp h
  have hperm := inOrder_perm entries
  have hordinals := ordinals_inOrder_eq_range_iff.mpr hconsistent.ordinals
  have hnames : (names ⟨inOrder entries⟩).Nodup := (hperm.map _).nodup_iff.mpr hconsistent.names
  have hname : ∀ e ∈ entries, (names ⟨inOrder entries⟩)[e.ordinal]? = some e.name := by
    intro e he
    obtain ⟨i, hi⟩ := List.mem_iff_getElem?.mp (hperm.mem_iff.mpr he)
    -- The ordinal of the entry at a place is that place.
    have hplace : (List.range entries.length)[i]? = some e.ordinal := by
      rw [← hordinals, List.getElem?_map, hi, Option.map_some]
    obtain ⟨hlt, hval⟩ := List.getElem?_eq_some_iff.mp hplace
    rw [List.getElem_range] at hval
    rw [← hval, names, List.getElem?_map, hi, Option.map_some]
  refine ⟨hperm, hordinals, fun e he => ?_, fun e he => ?_⟩
  · rw [RuleTable.ordinal?, (indexOf?_eq_some_iff hnames).mpr (hname e he)]
  · rw [RuleTable.name?, byOrdinal?, ← hname e he, names, List.getElem?_map]

theorem ordinals_compile (tags : List Tag) :
    (compile tags).tags.map CompiledTag.ordinal = List.range (compile tags).tags.length := by
  refine List.ext_getElem (by simp) fun i _ _ => ?_
  simp [compile, compileTag]

theorem consistent_compile (tags : List Tag) : Consistent (compile tags).tags where
  ordinals := by rw [ordinals_compile]
  names := by
    show (compile tags).names.Nodup
    rw [names_compile]
    exact (enabledNames_increasing tags).nodup
  widths := by
    intro e he
    have hsize : (compile tags).tags.length = (enabledNames tags).length := size_compile tags
    obtain ⟨i, hi⟩ := List.mem_iff_getElem?.mp he
    change (compile tags).byOrdinal? i = some e at hi
    rw [byOrdinal?_compile, Option.map_eq_some_iff] at hi
    obtain ⟨tag, -, rfl⟩ := hi
    rw [hsize]
    exact ⟨width_childBits tag, width_descendantBits tag⟩

/-- Two tables that give the same answers. -/
structure AnswersAlike (t t' : RuleTable) : Prop where
  ordinal? : ∀ name, t.ordinal? name = t'.ordinal? name
  name? : ∀ ordinal, t.name? ordinal = t'.name? ordinal
  allowsChild : ∀ parent child, t.allowsChild parent child = t'.allowsChild parent child
  allowsDescendant : ∀ ancestor descendant,
    t.allowsDescendant ancestor descendant = t'.allowsDescendant ancestor descendant

/-- Exactly the consistent lists of entries are accepted, whatever their order, and the table
holds what they held.  The entries of a table, compiled or rebuilt, give that table back. -/
theorem ofEntries_restores :
    (∀ entries, ((∃ t, ofEntries entries = .ok t) ↔ Consistent entries) ∧
      ∀ t, ofEntries entries = .ok t → Holds entries t ∧ ofEntries t.tags = .ok t) ∧
    ∀ tags entries, entries.Perm (compile tags).tags →
      ∃ t, ofEntries entries = .ok t ∧ t = compile tags ∧ AnswersAlike t (compile tags) := by
  refine ⟨fun entries => ⟨⟨?_, ?_⟩, fun t h => ?_⟩, fun tags entries hperm => ?_⟩
  · rintro ⟨t, h⟩
    exact (ofEntries_eq_ok_iff.mp h).1
  · intro h
    exact ⟨_, ofEntries_eq_ok_iff.mpr ⟨h, rfl⟩⟩
  · have hholds := holds_of_ofEntries h
    refine ⟨hholds, ofEntries_eq_ok_iff.mpr ⟨(ofEntries_eq_ok_iff.mp h).1.of_perm hholds.perm, ?_⟩⟩
    rw [inOrder_eq_of_perm (List.Perm.refl t.tags) (hholds.perm.length_eq ▸ hholds.ordinals)]
  · have hordered := inOrder_eq_of_perm hperm (ordinals_compile tags)
    refine ⟨_, ofEntries_eq_ok_iff.mpr ⟨(consistent_compile tags).of_perm hperm, rfl⟩, ?_⟩
    rw [hordered]
    exact ⟨rfl, fun _ => rfl, fun _ => rfl, fun _ _ => rfl, fun _ _ => rfl⟩

/-- The entry of a tag in a table of two that allows everything. -/
def openEntry (name : String) (ordinal : Nat) : CompiledTag where
  name := ⟨name⟩
  ordinal := ordinal
  allowedChildren := .filled 2
  allowedDescendants := .filled 2
  disallowAsRoot := false
  nestingLimit := 10
  tagLimit := 100
  closeAncestor := []
  closeParent := []
  reopenChild := []
  requireAncestor := []
  requireParent := []

/-- Names that differ in case alone, which no compiled table has, and the last entry first. -/
def turnedEntries : List CompiledTag := [openEntry "B" 1, openEntry "b" 0]

theorem ofEntries_restores_turnedEntries :
    (∃ t, ofEntries turnedEntries = .ok t ∧ ofEntries t.tags = .ok t ∧
        t.ordinal? "b" = some 0 ∧ t.ordinal? "B" = some 1) ∧
      (¬∃ t, ofEntries [openEntry "B" 1, openEntry "b" 1] = .ok t) ∧
      ofEntries (compile conflictingTags).tags.reverse = .ok (compile conflictingTags) := by
  have hturned : Consistent turnedEntries :=
    ⟨by decide, by decide, by decide⟩
  obtain ⟨t, ht⟩ := (ofEntries_restores.1 turnedEntries).1.mpr hturned
  obtain ⟨hholds, hagain⟩ := (ofEntries_restores.1 turnedEntries).2 t ht
  refine ⟨⟨t, ht, hagain, ?_, ?_⟩, ?_, ?_⟩
  · exact hholds.ordinal? (openEntry "b" 0) (by decide)
  · exact hholds.ordinal? (openEntry "B" 1) (by decide)
  · rw [(ofEntries_restores.1 _).1]
    intro h
    exact absurd h.ordinals (by decide)
  · obtain ⟨t', ht', rfl, -⟩ :=
      ofEntries_restores.2 conflictingTags _ (List.reverse_perm (compile conflictingTags).tags)
    exact ht'

end RuleTable
end TagGrammar
