/-
Dictionaries kept in key order.

Tags, attributes and filters are declared under a name, at most one to a name,
and are listed in the order of their names.  A dictionary is therefore a list of
entries in strictly increasing key order.  Insertion places an entry and replaces
the one of an equal key in a single pass, so that what is found under a key
afterwards (`find?_insert_self`, `find?_insert_of_ne`) needs no hypothesis on the
order of the entries.
-/
import TagGrammar.Increasing

namespace TagGrammar

/-- Entries in the order of their keys, one to a key. -/
structure Dictionary (κ : Type) (α : Type) where
  entries : List (κ × α) := []
deriving DecidableEq

namespace Dictionary

variable {κ α : Type}

def empty : Dictionary κ α := {}

def keys (d : Dictionary κ α) : List κ := d.entries.map Prod.fst

def values (d : Dictionary κ α) : List α := d.entries.map Prod.snd

def size (d : Dictionary κ α) : Nat := d.entries.length

def isEmpty (d : Dictionary κ α) : Bool := d.entries.isEmpty

/-- Change every value, leaving the keys as they are. -/
def mapValues (f : κ → α → α) (d : Dictionary κ α) : Dictionary κ α :=
  ⟨d.entries.map fun e => (e.1, f e.1 e.2)⟩

/-- The entries whose value passes a test. -/
def retain (p : α → Bool) (d : Dictionary κ α) : Dictionary κ α :=
  ⟨d.entries.filter fun e => p e.2⟩

section Lookup

variable [DecidableEq κ]

def findIn (k : κ) : List (κ × α) → Option α
  | [] => none
  | e :: rest => if e.1 = k then some e.2 else findIn k rest

/-- The value declared under a key. -/
def find? (d : Dictionary κ α) (k : κ) : Option α := findIn k d.entries

def contains (d : Dictionary κ α) (k : κ) : Bool := (d.find? k).isSome

/-- The dictionary without the entry of a key. -/
def erase (d : Dictionary κ α) (k : κ) : Dictionary κ α :=
  ⟨d.entries.filter fun e => e.1 ≠ k⟩

/-- Change the value under a key, if there is one. -/
def modify (d : Dictionary κ α) (k : κ) (f : α → α) : Dictionary κ α :=
  d.mapValues fun k' a => if k' = k then f a else a

end Lookup

section Insertion

variable [DecidableEq κ] [LT κ] [DecidableLT κ]

/-- Place an entry before the first greater key, replacing an equal one. -/
def insertIn (k : κ) (a : α) : List (κ × α) → List (κ × α)
  | [] => [(k, a)]
  | e :: rest =>
    if e.1 = k then (k, a) :: rest
    else if k < e.1 then (k, a) :: e :: rest
    else e :: insertIn k a rest

/-- Declare a value under a key.  A value already there is replaced. -/
def insert (d : Dictionary κ α) (k : κ) (a : α) : Dictionary κ α :=
  ⟨insertIn k a d.entries⟩

/-- The entries of a list, the last one of each key winning. -/
def ofList (entries : List (κ × α)) : Dictionary κ α :=
  entries.foldl (fun d e => d.insert e.1 e.2) empty

theorem findIn_insertIn_self (k : κ) (a : α) (l : List (κ × α)) :
    findIn k (insertIn k a l) = some a := by
  induction l with
  | nil => simp [insertIn, findIn]
  | cons e rest ih =>
    simp only [insertIn]
    split
    · simp [findIn]
    · rename_i hne
      split
      · simp [findIn]
      · simp [findIn, hne, ih]

/-- What was declared last under a key is what is found there. -/
theorem find?_insert_self (d : Dictionary κ α) (k : κ) (a : α) :
    (d.insert k a).find? k = some a := findIn_insertIn_self k a d.entries

theorem findIn_insertIn_of_ne {k k' : κ} (h : k ≠ k') (a : α) (l : List (κ × α)) :
    findIn k' (insertIn k a l) = findIn k' l := by
  induction l with
  | nil => simp [insertIn, findIn, h]
  | cons e rest ih =>
    simp only [insertIn]
    split
    · rename_i he
      subst he
      simp [findIn, h]
    · split
      · simp [findIn, h]
      · simp [findIn, ih]

/-- A declaration leaves what is found under other keys. -/
theorem find?_insert_of_ne {k k' : κ} (h : k ≠ k') (d : Dictionary κ α) (a : α) :
    (d.insert k a).find? k' = d.find? k' := findIn_insertIn_of_ne h a d.entries

end Insertion

/-! ## Keys and values after a change -/

theorem of_mem_values_retain {p : α → Bool} {d : Dictionary κ α} {a : α}
    (h : a ∈ (d.retain p).values) : p a = true := by
  obtain ⟨e, he, rfl⟩ := List.mem_map.mp h
  exact (List.mem_filter.mp he).2

theorem mem_values_of_erase [DecidableEq κ] {d : Dictionary κ α} {k : κ} {a : α}
    (h : a ∈ (d.erase k).values) : a ∈ d.values := (List.filter_sublist.map _).mem h

section Increasing

variable [LT κ]

theorem increasing_keys_mapValues {d : Dictionary κ α} (h : Increasing d.keys)
    (f : κ → α → α) : Increasing (d.mapValues f).keys := by
  rw [keys, mapValues, List.map_map]
  exact h

theorem increasing_keys_retain {d : Dictionary κ α} (h : Increasing d.keys) (p : α → Bool) :
    Increasing (d.retain p).keys := List.Pairwise.sublist (List.filter_sublist.map _) h

variable [DecidableEq κ]

theorem increasing_keys_erase {d : Dictionary κ α} (h : Increasing d.keys) (k : κ) :
    Increasing (d.erase k).keys := List.Pairwise.sublist (List.filter_sublist.map _) h

variable [DecidableLT κ]

theorem mem_map_fst_insertIn {k k' : κ} {a : α} {l : List (κ × α)} :
    k' ∈ (insertIn k a l).map Prod.fst ↔ k' = k ∨ k' ∈ l.map Prod.fst := by
  induction l with
  | nil => simp [insertIn]
  | cons e rest ih =>
    simp only [insertIn]
    split
    · rename_i he
      simp [he]
    · split
      · simp
      · rw [List.map_cons, List.mem_cons, ih, List.map_cons, List.mem_cons]
        exact or_left_comm

theorem eq_or_mem_of_mem_insertIn {k : κ} {a : α} {l : List (κ × α)} {e : κ × α}
    (h : e ∈ insertIn k a l) : e = (k, a) ∨ e ∈ l := by
  induction l with
  | nil => exact Or.inl (List.mem_singleton.mp h)
  | cons e' rest ih =>
    simp only [insertIn] at h
    split at h
    · rcases List.mem_cons.mp h with rfl | h
      · exact Or.inl rfl
      · exact Or.inr (List.mem_cons_of_mem _ h)
    · split at h
      · exact List.mem_cons.mp h
      · rcases List.mem_cons.mp h with rfl | h
        · exact Or.inr List.mem_cons_self
        · exact (ih h).imp_right (List.mem_cons_of_mem _)

theorem eq_or_mem_of_mem_values_insert {d : Dictionary κ α} {k : κ} {a b : α}
    (h : b ∈ (d.insert k a).values) : b = a ∨ b ∈ d.values := by
  obtain ⟨e, he, rfl⟩ := List.mem_map.mp h
  rcases eq_or_mem_of_mem_insertIn he with rfl | he
  · exact Or.inl rfl
  · exact Or.inr (List.mem_map_of_mem he)

variable [StrictTotal κ]

theorem increasing_insertIn (k : κ) (a : α) {l : List (κ × α)}
    (h : Increasing (l.map Prod.fst)) : Increasing ((insertIn k a l).map Prod.fst) := by
  induction l with
  | nil => exact Increasing.cons_iff.mpr ⟨fun _ hb => absurd hb List.not_mem_nil, Increasing.nil⟩
  | cons e rest ih =>
    rw [List.map_cons, Increasing.cons_iff] at h
    obtain ⟨he, hrest⟩ := h
    simp only [insertIn]
    split
    · rename_i hk
      exact Increasing.cons_iff.mpr ⟨hk ▸ he, hrest⟩
    · rename_i hne
      split
      · rename_i hlt
        refine Increasing.cons_iff.mpr ⟨fun b hb => ?_, Increasing.cons_iff.mpr ⟨he, hrest⟩⟩
        rcases List.mem_cons.mp hb with rfl | hb
        · exact hlt
        · exact StrictTotal.trans hlt (he b hb)
      · rename_i hnlt
        refine Increasing.cons_iff.mpr ⟨fun b hb => ?_, ih hrest⟩
        rcases mem_map_fst_insertIn.mp hb with rfl | hb
        · exact StrictTotal.total hnlt fun hk => hne hk.symm
        · exact he b hb

theorem increasing_keys_insert {d : Dictionary κ α} (h : Increasing d.keys) (k : κ) (a : α) :
    Increasing (d.insert k a).keys := increasing_insertIn k a h

end Increasing

end Dictionary
end TagGrammar
