/-
What a dictionary holds after a change.

Each change is told by what is found under a key afterwards, and where keys increase a
dictionary is determined by what is found in it (`eq_of_find?`).  The keys of a dictionary made
of a list are increasing, and under a key it holds the last value that the list gives for
that key.
-/
import Mathlib.Data.List.Nodup
import TagGrammar.Dictionary
import TagGrammar.Increasing

namespace TagGrammar
namespace Dictionary

/-! ## Changes -/

section Changes

variable {κ α : Type} [DecidableEq κ]

theorem find?_mapValues (f : κ → α → α) (d : Dictionary κ α) (k : κ) :
    (d.mapValues f).find? k = (d.find? k).map (f k) := by
  obtain ⟨l⟩ := d
  show findIn k (l.map _) = (findIn k l).map (f k)
  induction l with
  | nil => rfl
  | cons e rest ih =>
    rw [List.map_cons, findIn, findIn, ih]
    by_cases hk : e.1 = k
    · rw [if_pos hk, if_pos hk, hk, Option.map_some]
    · rw [if_neg hk, if_neg hk]

theorem find?_erase (d : Dictionary κ α) (k k' : κ) :
    (d.erase k).find? k' = if k' = k then none else d.find? k' := by
  obtain ⟨l⟩ := d
  show findIn k' (l.filter _) = if k' = k then none else findIn k' l
  induction l with
  | nil => simp [findIn]
  | cons e rest ih =>
    rw [List.filter_cons, findIn]
    by_cases he : e.1 = k
    · rw [if_neg (by simp [he]), ih]
      by_cases hk : k' = k
      · rw [if_pos hk, if_pos hk]
      · rw [if_neg hk, if_neg hk, if_neg fun h => hk (h.symm.trans he)]
    · rw [if_pos (by simp [he]), findIn, ih]
      by_cases hk : e.1 = k'
      · rw [if_pos hk, if_pos hk, if_neg fun h => he (hk.trans h)]
      · rw [if_neg hk, if_neg hk]

theorem contains_mapValues (f : κ → α → α) (d : Dictionary κ α) (k : κ) :
    (d.mapValues f).contains k = d.contains k := by
  rw [contains, find?_mapValues, Option.isSome_map, contains]

theorem contains_erase (d : Dictionary κ α) (k k' : κ) :
    (d.erase k).contains k' = true ↔ k' ≠ k ∧ d.contains k' = true := by
  rw [contains, find?_erase, contains]
  by_cases hk : k' = k
  · simp [hk]
  · simp [hk]

omit [DecidableEq κ] in
theorem keys_mapValues (f : κ → α → α) (d : Dictionary κ α) : (d.mapValues f).keys = d.keys := by
  rw [keys, mapValues, List.map_map]
  rfl

omit [DecidableEq κ] in
theorem mapValues_self (d : Dictionary κ α) : d.mapValues (fun _ a => a) = d :=
  congrArg Dictionary.mk (List.map_id d.entries)

omit [DecidableEq κ] in
theorem mapValues_mapValues (f g : κ → α → α) (d : Dictionary κ α) :
    (d.mapValues f).mapValues g = d.mapValues fun k a => g k (f k a) := by
  rw [mapValues, mapValues, mapValues, List.map_map]
  rfl

/-- Changes of single values one after the other are one change of all values. -/
theorem foldl_modify {β : Type} (f : β → α → α) (l : List (κ × β)) (d : Dictionary κ α) :
    l.foldl (fun d e => d.modify e.1 (f e.2)) d =
      d.mapValues fun k a => l.foldl (fun a e => if k = e.1 then f e.2 a else a) a := by
  induction l generalizing d with
  | nil => exact (mapValues_self d).symm
  | cons e rest ih =>
    rw [List.foldl_cons, ih, modify, mapValues_mapValues]
    rfl

theorem findIn_eq_none {l : List (κ × α)} {k : κ} (h : k ∉ l.map Prod.fst) : findIn k l = none := by
  induction l with
  | nil => rfl
  | cons e rest ih =>
    rw [List.map_cons, List.mem_cons, not_or] at h
    rw [findIn, if_neg (Ne.symm h.1), ih h.2]

theorem mem_keys_of_find? {d : Dictionary κ α} {k : κ} {a : α} (h : d.find? k = some a) :
    k ∈ d.keys := by
  by_contra hnot
  have hnone : d.find? k = none := findIn_eq_none hnot
  rw [hnone] at h
  cases h

/-- Where the keys differ, at most one of the changes is of a value. -/
theorem foldl_ite_of_nodup {β : Type} (f : β → α → α) {l : List (κ × β)}
    (h : (l.map Prod.fst).Nodup) (k : κ) (a : α) :
    l.foldl (fun a e => if k = e.1 then f e.2 a else a) a =
      ((findIn k l).map fun b => f b a).getD a := by
  induction l generalizing a with
  | nil => rfl
  | cons e rest ih =>
    obtain ⟨hnot, hrest⟩ := List.nodup_cons.mp (List.map_cons ▸ h)
    rw [List.foldl_cons, ih hrest, findIn]
    by_cases hk : e.1 = k
    · rw [findIn_eq_none (hk ▸ hnot), if_pos hk.symm, if_pos hk]
      rfl
    · rw [if_neg hk, if_neg (Ne.symm hk)]

end Changes

/-! ## Increasing keys -/

variable {κ α : Type} [DecidableEq κ] [LT κ]

/-- What is found under a key is an entry, and the only one of the key if the keys
increase. -/
theorem findIn_eq_some_iff [StrictTotal κ] {k : κ} {a : α} {l : List (κ × α)}
    (h : Increasing (l.map Prod.fst)) : findIn k l = some a ↔ (k, a) ∈ l := by
  induction l with
  | nil => simp [findIn]
  | cons e rest ih =>
    rw [List.map_cons, Increasing.cons_iff] at h
    obtain ⟨he, hrest⟩ := h
    rw [findIn, List.mem_cons]
    by_cases hk : e.1 = k
    · subst hk
      have hnot : (e.1, a) ∉ rest := fun hm =>
        StrictTotal.irrefl e.1 (he e.1 (List.mem_map.mpr ⟨_, hm, rfl⟩))
      simp [hnot, Prod.ext_iff, eq_comm]
    · have hne : (k, a) ≠ e := fun e' => hk (e' ▸ rfl)
      rw [if_neg hk, ih hrest]
      simp [hne]

section Increasing

variable [StrictTotal κ] {d d' : Dictionary κ α} {k : κ}

theorem find?_retain (h : Increasing d.keys) (p : α → Bool) :
    (d.retain p).find? k = (d.find? k).filter p := by
  refine Option.ext fun a => ?_
  rw [Option.filter_eq_some_iff]
  show findIn k _ = some a ↔ findIn k _ = some a ∧ p a = true
  rw [findIn_eq_some_iff (increasing_keys_retain h p), findIn_eq_some_iff h]
  exact List.mem_filter

omit [DecidableEq κ] in
theorem nodup_entries (h : Increasing d.keys) : d.entries.Nodup := h.nodup.of_map

/-- Where keys increase, a dictionary is determined by what is found in it. -/
theorem eq_of_find? (h : Increasing d.keys) (h' : Increasing d'.keys)
    (hfind : ∀ k, d.find? k = d'.find? k) : d = d' := by
  have hmem : ∀ e, e ∈ d.entries ↔ e ∈ d'.entries := by
    rintro ⟨k, a⟩
    rw [← findIn_eq_some_iff h, ← findIn_eq_some_iff h']
    exact iff_of_eq (congrArg (· = some a) (hfind k))
  have hperm : d.entries.Perm d'.entries :=
    (List.perm_ext_iff_of_nodup (nodup_entries h) (nodup_entries h')).mpr hmem
  have hentries : d.entries = d'.entries := by
    refine hperm.eq_of_pairwise ?_ (List.pairwise_map.mp h) (List.pairwise_map.mp h')
    intro e e' _ _ hlt hgt
    exact absurd (StrictTotal.trans hlt hgt) (StrictTotal.irrefl _)
  cases d
  cases d'
  cases hentries
  rfl

end Increasing

/-! ## Dictionaries made of lists -/

variable [DecidableLT κ]

theorem contains_insert (d : Dictionary κ α) (k k' : κ) (a : α) :
    (d.insert k a).contains k' = true ↔ k' = k ∨ d.contains k' = true := by
  by_cases hk : k' = k
  · subst hk
    simp [contains, find?_insert_self]
  · simp [contains, find?_insert_of_ne (Ne.symm hk), hk]

variable [StrictTotal κ]

theorem increasing_keys_ofList (l : List (κ × α)) : Increasing (ofList l).keys := by
  -- The dictionary so far is increasing, whatever it is.
  have hfold : ∀ d : Dictionary κ α, Increasing d.keys →
      Increasing (l.foldl (fun d e => d.insert e.1 e.2) d).keys := by
    induction l with
    | nil => exact fun d hd => hd
    | cons e rest ih => exact fun d hd => ih _ (increasing_insertIn e.1 e.2 hd)
  exact hfold empty Increasing.nil

omit [StrictTotal κ] in
/-- Of the values that a list gives for a key the last one counts. -/
theorem find?_ofList (l : List (κ × α)) (k : κ) :
    (ofList l).find? k = (l.reverse.find? fun e => e.1 = k).map Prod.snd := by
  have hfold : ∀ d : Dictionary κ α,
      (l.foldl (fun d e => d.insert e.1 e.2) d).find? k =
        ((l.reverse.find? fun e => e.1 = k).map Prod.snd).or (d.find? k) := by
    induction l with
    | nil => exact fun d => rfl
    | cons e rest ih =>
      intro d
      rw [List.foldl_cons, ih, List.reverse_cons, List.find?_append]
      cases hr : rest.reverse.find? fun e => decide (e.1 = k) with
      | some e' => simp
      | none =>
        by_cases hk : e.1 = k
        · subst hk
          simp [find?_insert_self]
        · simp [find?_insert_of_ne hk, hk]
  rw [ofList, hfold empty]
  exact Option.or_none

omit [StrictTotal κ] in
/-- In a list that gives every key one value, that value is found. -/
theorem find?_ofList_eq_some_iff {l : List (κ × α)} (h : (l.map Prod.fst).Nodup) {k : κ} {a : α} :
    (ofList l).find? k = some a ↔ (k, a) ∈ l := by
  rw [find?_ofList, Option.map_eq_some_iff]
  constructor
  · rintro ⟨e, he, rfl⟩
    have hk : e.1 = k := by simpa using List.find?_some he
    exact hk ▸ List.mem_reverse.mp (List.mem_of_find?_eq_some he)
  · intro hmem
    have hsome : (l.reverse.find? fun e => decide (e.1 = k)).isSome := by
      rw [List.find?_isSome]
      exact ⟨(k, a), List.mem_reverse.mpr hmem, decide_eq_true rfl⟩
    obtain ⟨e, he⟩ := Option.isSome_iff_exists.mp hsome
    have hk : e.1 = k := by simpa using List.find?_some he
    have hel : e ∈ l := List.mem_reverse.mp (List.mem_of_find?_eq_some he)
    exact ⟨e, he, congrArg Prod.snd (List.inj_on_of_nodup_map h hel hmem hk)⟩

theorem mem_entries_ofList {l : List (κ × α)} {k : κ} {a : α} :
    (k, a) ∈ (ofList l).entries ↔
      (l.reverse.find? fun e => e.1 = k).map Prod.snd = some a := by
  rw [← find?_ofList]
  exact (findIn_eq_some_iff (increasing_keys_ofList l)).symm

end Dictionary
end TagGrammar
