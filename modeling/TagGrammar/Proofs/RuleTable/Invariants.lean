/-
What holds of every table.

A table should allow no child that it does not allow as a descendant, and a tag should have
one ordinal under every spelling of its name.  Compilation sees to both.  Rebuilding looks at
ordinals, names and widths alone, so a rebuilt table keeps each of the two exactly if its
entries did: their bits are included in each other and their names are in capitals.
-/
import TagGrammar.Proofs.RuleTable.Rebuilt
import TagGrammar.Serialized.Decoding

namespace TagGrammar

/-- Every child that the entry allows it allows as a descendant. -/
def CompiledTag.ChildrenIncluded (e : CompiledTag) : Prop :=
  ∀ i, e.allowedChildren.get i = true → e.allowedDescendants.get i = true

/-- The entry has a name in capitals, as declared names are. -/
def CompiledTag.NamedInCapitals (e : CompiledTag) : Prop := Text.upper e.name.text = e.name.text

namespace RuleTable

/-- No tag allows a child that it does not allow as a descendant. -/
def AllowsChildrenAsDescendants (t : RuleTable) : Prop :=
  ∀ parent child, t.allowsChild parent child = true → t.allowsDescendant parent child = true

/-- The case of a name does not matter. -/
def IgnoresCase (t : RuleTable) : Prop :=
  ∀ name name', Text.sameIgnoringCase name name' = true → t.ordinal? name = t.ordinal? name'

/-- The entries of a table fit together and stand in the order of their ordinals. -/
structure Numbered (t : RuleTable) : Prop where
  consistent : Consistent t.tags
  ordinals : t.tags.map CompiledTag.ordinal = List.range t.tags.length

theorem numbered_compile (tags : List Tag) : (compile tags).Numbered :=
  ⟨consistent_compile tags, ordinals_compile tags⟩

theorem numbered_of_ofEntries {entries : List CompiledTag} {t : RuleTable}
    (h : ofEntries entries = .ok t) : t.Numbered := by
  have hholds := holds_of_ofEntries h
  refine ⟨(ofEntries_eq_ok_iff.mp h).1.of_perm hholds.perm, ?_⟩
  rw [hholds.perm.length_eq]
  exact hholds.ordinals

namespace Numbered

variable {t : RuleTable} {e : CompiledTag} {i : Nat}

theorem nodup_names (h : t.Numbered) : t.names.Nodup := h.consistent.names

theorem ordinal?_of_getElem? (h : t.Numbered) (hi : t.tags[i]? = some e) :
    t.ordinal? e.name.text = some i := by
  have hname : t.names[i]? = some e.name := by rw [names, List.getElem?_map, hi, Option.map_some]
  rw [ordinal?, (indexOf?_eq_some_iff h.nodup_names).mpr hname]

theorem find?_of_getElem? (h : t.Numbered) (hi : t.tags[i]? = some e) :
    t.find? e.name.text = some e := by
  rw [find?, h.ordinal?_of_getElem? hi]
  exact hi

/-- Every bit of an entry is about a tag of the table, so what the bits say can be asked. -/
theorem allowsChildrenAsDescendants_iff (h : t.Numbered) :
    t.AllowsChildrenAsDescendants ↔ ∀ e ∈ t.tags, e.ChildrenIncluded := by
  constructor
  · intro hall e he i hchild
    obtain ⟨j, hj⟩ := List.mem_iff_getElem?.mp he
    have hwidth := (h.consistent.widths e he).1
    have hi : i < t.tags.length := by
      by_contra hge
      rw [e.allowedChildren.get_of_width_le (by omega)] at hchild
      cases hchild
    have hc : t.tags[i]? = some t.tags[i] := List.getElem?_eq_getElem hi
    have hasked := hall e.name.text t.tags[i].name.text
    rw [allowsChild, allowsDescendant, h.find?_of_getElem? hj, h.ordinal?_of_getElem? hc] at hasked
    exact hasked hchild
  · intro hall parent child hchild
    unfold allowsChild at hchild
    unfold allowsDescendant
    split at hchild
    · rename_i e i hfind hordinal
      obtain ⟨j, -, hj⟩ := Option.bind_eq_some_iff.mp hfind
      exact hall e (List.mem_of_getElem? hj) i hchild
    · cases hchild

/-- A name in another case is looked up in capitals, so it is found exactly if the entry is
named in capitals. -/
theorem ignoresCase_iff (h : t.Numbered) :
    t.IgnoresCase ↔ ∀ e ∈ t.tags, e.NamedInCapitals := by
  constructor
  · intro hall e he
    obtain ⟨i, hi⟩ := List.mem_iff_getElem?.mp he
    have hsame : Text.sameIgnoringCase e.name.text (Text.upper e.name.text) = true := by
      simp [Text.sameIgnoringCase, Text.lower_upper]
    have hupper := (hall _ _ hsame).symm.trans (h.ordinal?_of_getElem? hi)
    have hname : t.names[i]? = some ⟨Text.upper e.name.text⟩ := by
      unfold ordinal? at hupper
      rw [Text.upper_upper] at hupper
      split at hupper
      · rename_i hfound
        cases hupper
        exact (indexOf?_eq_some_iff h.nodup_names).mp hfound
      · exact (indexOf?_eq_some_iff h.nodup_names).mp hupper
    rw [names, List.getElem?_map, hi, Option.map_some, Option.some.injEq] at hname
    exact (congrArg TagName.text hname).symm
  · intro hall name name' hsame
    have hordinal : ∀ s, t.ordinal? s = indexOf? t.names ⟨Text.upper s⟩ := by
      intro s
      unfold ordinal?
      cases hs : indexOf? t.names ⟨s⟩ with
      | none => rfl
      | some i =>
        have hi := (indexOf?_eq_some_iff h.nodup_names).mp hs
        obtain ⟨e, he, hname⟩ := List.mem_map.mp (List.mem_of_getElem? hi)
        have hupper := hall e he
        rw [CompiledTag.NamedInCapitals, hname] at hupper
        rw [show Text.upper s = s from hupper, hs]
    rw [hordinal, hordinal, Text.upper_eq_of_sameIgnoringCase hsame]

end Numbered

/-! ## Compiled tables -/

theorem childrenIncluded_compile {tags : List Tag} :
    ∀ e ∈ (compile tags).tags, e.ChildrenIncluded := by
  intro e he i hchild
  obtain ⟨k, hk⟩ := List.mem_iff_getElem?.mp he
  change (compile tags).byOrdinal? k = some e at hk
  rw [byOrdinal?_compile, Option.map_eq_some_iff] at hk
  obtain ⟨tag, -, rfl⟩ := hk
  have hi : i < (enabledNames tags).length := by
    by_contra hge
    have hwidth : (enabledNames tags).length ≤ i := by omega
    rw [← width_childBits tag] at hwidth
    rw [compileTag, Bitfield.get_of_width_le _ hwidth] at hchild
    cases hchild
  have hname : (enabledNames tags)[i]? = some (enabledNames tags)[i] := List.getElem?_eq_getElem hi
  exact ((get_childBits (enabledNames_increasing tags).nodup hname).mp hchild).1

theorem namedInCapitals_compile {tags : List Tag} (h : ∀ tag ∈ tags, tag.name.IsDeclared) :
    ∀ e ∈ (compile tags).tags, e.NamedInCapitals := by
  intro e he
  have hname : e.name ∈ enabledNames tags := by
    rw [← names_compile]
    exact List.mem_map_of_mem he
  obtain ⟨tag, htag⟩ := Option.isSome_iff_exists.mp (mem_enabledNames.mp hname)
  have hdeclared := h tag (mem_of_lastEnabled? htag)
  rw [name_of_lastEnabled? htag] at hdeclared
  exact hdeclared.upper_text

/-! ## Rebuilt tables -/

section Rebuilt

variable {entries : List CompiledTag} {t : RuleTable}

/-- A rebuilt table holds the entries that it was built from, so what it keeps is up to them. -/
theorem keeps_of_ofEntries (h : ofEntries entries = .ok t) :
    (t.AllowsChildrenAsDescendants ↔ ∀ e ∈ entries, e.ChildrenIncluded) ∧
      (t.IgnoresCase ↔ ∀ e ∈ entries, e.NamedInCapitals) := by
  have hnumbered := numbered_of_ofEntries h
  have hmem : ∀ e, e ∈ t.tags ↔ e ∈ entries := fun e => (holds_of_ofEntries h).perm.mem_iff
  rw [hnumbered.allowsChildrenAsDescendants_iff, hnumbered.ignoresCase_iff]
  exact ⟨forall_congr' fun e => imp_congr_left (hmem e),
    forall_congr' fun e => imp_congr_left (hmem e)⟩

/-- A table that is read from data is one that is rebuilt from the entries in them. -/
theorem keeps_of_decodeRuleTable {d : Datum} (h : Datum.decodeRuleTable d = .ok t) :
    ∃ entries, Datum.decodeList Datum.decodeCompiledTag d = .ok entries ∧
      (t.AllowsChildrenAsDescendants ↔ ∀ e ∈ entries, e.ChildrenIncluded) ∧
        (t.IgnoresCase ↔ ∀ e ∈ entries, e.NamedInCapitals) := by
  obtain ⟨entries, hentries, h⟩ := bind_eq_ok_iff.mp h
  cases hbuilt : ofEntries entries with
  | error cause =>
    rw [hbuilt] at h
    cases h
  | ok built =>
    rw [hbuilt] at h
    obtain rfl := Except.ok.inj h
    exact ⟨entries, hentries, keeps_of_ofEntries hbuilt⟩

end Rebuilt

/-- A compiled table keeps both invariants.  A rebuilt one keeps each of them exactly if all of
its entries do. -/
theorem keeps_invariants_iff (tags : List Tag) (entries : List CompiledTag) (t : RuleTable) :
    ((compile tags).AllowsChildrenAsDescendants ∧
        ((∀ tag ∈ tags, tag.name.IsDeclared) → (compile tags).IgnoresCase)) ∧
      (ofEntries entries = .ok t →
        (t.AllowsChildrenAsDescendants ↔ ∀ e ∈ entries, e.ChildrenIncluded) ∧
          (t.IgnoresCase ↔ ∀ e ∈ entries, e.NamedInCapitals)) := by
  refine ⟨⟨?_, fun h => ?_⟩, keeps_of_ofEntries⟩
  · exact (numbered_compile tags).allowsChildrenAsDescendants_iff.mpr childrenIncluded_compile
  · exact (numbered_compile tags).ignoresCase_iff.mpr (namedInCapitals_compile h)

/-- An entry that allows the tag as its own child, but not as its own descendant, under a name
that is not in capitals. -/
def smallEntry : CompiledTag :=
  { openEntry "b" 0 with allowedChildren := .filled 1, allowedDescendants := .new 1 }

theorem keeps_invariants_conflictingTags :
    ((compile conflictingTags).AllowsChildrenAsDescendants ∧
        (compile conflictingTags).IgnoresCase) ∧
      (∃ t, ofEntries turnedEntries = .ok t ∧ t.AllowsChildrenAsDescendants ∧ ¬t.IgnoresCase) ∧
      ∃ t, ofEntries [smallEntry] = .ok t ∧
        ¬t.AllowsChildrenAsDescendants ∧ ¬t.IgnoresCase := by
  obtain ⟨hchildren, hcase⟩ := (keeps_invariants_iff conflictingTags [] ⟨[]⟩).1
  refine ⟨⟨hchildren, hcase isDeclared_conflictingTags⟩, ?_, ?_⟩
  · obtain ⟨t, ht⟩ : ∃ t, ofEntries turnedEntries = .ok t :=
      ⟨_, ofEntries_eq_ok_iff.mpr ⟨⟨by decide, by decide, by decide⟩, rfl⟩⟩
    obtain ⟨hchildren, hcase⟩ := (keeps_invariants_iff [] turnedEntries t).2 ht
    refine ⟨t, ht, hchildren.mpr ?_, fun h => ?_⟩
    · simp [turnedEntries, openEntry, CompiledTag.ChildrenIncluded]
    · exact absurd (hcase.mp h (openEntry "b" 0) (by decide)) (by
        simp only [CompiledTag.NamedInCapitals, openEntry]; decide +kernel)
  · obtain ⟨t, ht⟩ : ∃ t, ofEntries [smallEntry] = .ok t :=
      ⟨_, ofEntries_eq_ok_iff.mpr ⟨⟨by decide, by decide, by decide⟩, rfl⟩⟩
    obtain ⟨hchildren, hcase⟩ := (keeps_invariants_iff [] [smallEntry] t).2 ht
    refine ⟨t, ht, fun h => ?_, fun h => ?_⟩
    · exact absurd (hchildren.mp h smallEntry (by decide) 0 (by decide)) (by decide)
    · exact absurd (hcase.mp h smallEntry (by decide)) (by
        simp only [CompiledTag.NamedInCapitals, smallEntry, openEntry]; decide +kernel)

/-- Rebuilding checks neither invariant: an allowed child need not be an allowed descendant, and
a name that is not in capitals is not found under another spelling. -/
theorem rebuilt_table_breaks_invariants :
    ∃ t, ofEntries [smallEntry] = .ok t ∧
      t.allowsChild "b" "b" = true ∧ t.allowsDescendant "b" "b" = false ∧
      Text.sameIgnoringCase "b" "B" = true ∧ t.ordinal? "b" = some 0 ∧ t.ordinal? "B" = none :=
  ⟨⟨[smallEntry]⟩, by decide +kernel, by decide +kernel, by decide +kernel, by decide +kernel,
    by decide +kernel, by decide +kernel⟩

end RuleTable
end TagGrammar
