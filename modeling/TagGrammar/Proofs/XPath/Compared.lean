/-
Texts that compare one operand with constants.

A text that is a disjunction of equalities has a key, the operand that all of them share.
Texts with one key keep it when they are joined by `or`, and a joined text has a key only if
every text in it has that key.
-/
import TagGrammar.Proofs.XPath.Joined

namespace TagGrammar
namespace XPath

/-- An expression that can be joined to another one by `or` on either side. -/
structure Joinable (source : String) : Prop where
  read : ∃ e, Expr.parse source = .ok e
  goesOn : endsOnSlash source = false

theorem joinable_iff {source : String} : Joinable source ↔
    (Expr.parse source).toOption.isSome = true ∧ endsOnSlash source = false := by
  have hread : (∃ e, Expr.parse source = .ok e) ↔ (Expr.parse source).toOption.isSome = true := by
    cases Expr.parse source <;> simp [Except.toOption]
  rw [← hread]
  exact ⟨fun h => ⟨h.read, h.goesOn⟩, fun h => ⟨h.1, h.2⟩⟩

instance (source : String) : Decidable (Joinable source) := decidable_of_iff _ joinable_iff.symm

theorem endsOnSlash_or {s₁ s₂ : String} {e₁ e₂ : Expr} (h₁ : Expr.parse s₁ = .ok e₁)
    (hend : endsOnSlash s₁ = false) (h₂ : Expr.parse s₂ = .ok e₂) :
    endsOnSlash (s₁ ++ " or " ++ s₂) = endsOnSlash s₂ := by
  obtain ⟨ts₁, htokens₁, hderives₁⟩ := Expr.parse_eq_ok_iff.mp h₁
  obtain ⟨ts₂, htokens₂, hderives₂⟩ := Expr.parse_eq_ok_iff.mp h₂
  rw [endsOnSlash_eq htokens₁, beq_eq_false_iff_ne] at hend
  have hclose : Closes ts₁ := hderives₁.endsInRootOr.resolve_right hend
  rw [endsOnSlash_eq (tokenize_or htokens₁ htokens₂ hclose), endsOnSlash_eq htokens₂]
  cases ts₂ with
  | nil => simp
  | cons t ts₂ => simp [List.getLast?_append, List.getLast?_cons]

/-- Joined texts can be joined further. -/
theorem Joinable.intercalate {sources : List String} (hne : sources ≠ [])
    (h : ∀ s ∈ sources, Joinable s) : Joinable (String.intercalate " or " sources) := by
  induction sources with
  | nil => exact absurd rfl hne
  | cons s sources ih =>
    obtain ⟨hs, hsources⟩ := List.forall_mem_cons.mp h
    by_cases hlast : sources = []
    · rw [hlast, String.intercalate_singleton]
      exact hs
    · obtain ⟨⟨e₂, h₂⟩, hend₂⟩ := ih hlast hsources
      obtain ⟨e₁, h₁⟩ := hs.read
      obtain ⟨e, he, -⟩ := Expr.parse_or h₁ hs.goesOn h₂
      rw [String.intercalate_cons_of_ne_nil hlast]
      exact ⟨⟨e, he⟩, (endsOnSlash_or h₁ hs.goesOn h₂).trans hend₂⟩

namespace Expr

/-- An equality of an operand that is displayed as the key. -/
def EqualityOf (key : String) (d : Expr) : Prop :=
  ∃ operand value, d.equality? = some (operand, value) ∧ operand.display = key

theorem exists_mapM_of_equalities {key : String} {ds : List Expr}
    (h : ∀ d ∈ ds, EqualityOf key d) :
    ∃ terms, ds.mapM equality? = some terms ∧ terms.length = ds.length ∧
      ∀ t ∈ terms, t.1.display = key := by
  induction ds with
  | nil => exact ⟨[], rfl, rfl, by simp⟩
  | cons d ds ih =>
    obtain ⟨⟨operand, value, hd, hkey⟩, hds⟩ := List.forall_mem_cons.mp h
    obtain ⟨terms, hterms, hlength, hkeys⟩ := ih hds
    refine ⟨(operand, value) :: terms, ?_, by simp [hlength], ?_⟩
    · rw [List.mapM_cons, hd, hterms]
      rfl
    · exact List.forall_mem_cons.mpr ⟨hkey, hkeys⟩

/-- A disjunction has a key if all of its leaves are equalities of that operand. -/
theorem map_equalityTerms?_iff {e : Expr} {key : String} :
    e.equalityTerms?.map Prod.fst = some key ↔ ∀ d ∈ e.disjuncts, EqualityOf key d := by
  constructor
  · intro h
    obtain ⟨⟨key', values⟩, hterms, rfl⟩ := Option.map_eq_some_iff.mp h
    intro d hd
    obtain ⟨operand, value, heq, hkey, -⟩ := equality?_of_equalityTerms? hterms d hd
    exact ⟨operand, value, heq, hkey⟩
  · intro h
    obtain ⟨terms, hterms, hlength, hkeys⟩ := exists_mapM_of_equalities h
    cases terms with
    | nil => exact absurd (List.eq_nil_of_length_eq_zero hlength.symm) (leaves_disjuncts e).ne_nil
    | cons t terms =>
      have hall : (t :: terms).all (fun t' => t'.1.display == key) = true :=
        List.all_eq_true.mpr fun t' ht' => beq_iff_eq.mpr (hkeys t' ht')
      have ht : t.1.display = key := hkeys t List.mem_cons_self
      simp only [equalityTerms?, hterms, Option.bind_some, ht, hall, if_true, Option.map_some]

/-- The operand that a text compares with constants. -/
def key? (source : String) : Option String :=
  match Expr.parse source with
  | .ok e => e.equalityTerms?.map Prod.fst
  | .error _ => none

theorem key?_of_parse {source : String} {e : Expr} (h : Expr.parse source = .ok e) :
    key? source = e.equalityTerms?.map Prod.fst := by
  unfold key?
  rw [h]

theorem exists_of_key? {source key : String} (h : key? source = some key) :
    ∃ e, Expr.parse source = .ok e ∧ ∀ d ∈ e.disjuncts, EqualityOf key d := by
  unfold key? at h
  split at h
  · rename_i e he
    exact ⟨e, he, map_equalityTerms?_iff.mp h⟩
  · cases h

theorem joinable_of_key? {source key : String} (h : key? source = some key) :
    Joinable source := by
  obtain ⟨e, he, hleaves⟩ := exists_of_key? h
  refine ⟨⟨e, he⟩, endsOnSlash_of_isClosed he (isClosed_of_disjuncts fun d hd => ?_)⟩
  obtain ⟨operand, value, heq, -⟩ := hleaves d hd
  exact isClosed_of_equality? (by rw [heq]; rfl)

/-- Joined texts have a key if all of them have it. -/
theorem key?_intercalate_iff {sources : List String} {key : String} (hne : sources ≠ [])
    (h : ∀ s ∈ sources, Joinable s) :
    key? (String.intercalate " or " sources) = some key ↔
      ∀ s ∈ sources, key? s = some key := by
  obtain ⟨e, he, hleaves⟩ := parse_intercalate hne (fun s hs => (h s hs).read)
    fun s hs => (h s (List.dropLast_subset sources hs)).goesOn
  rw [key?_of_parse he, map_equalityTerms?_iff, hleaves, List.forall_mem_flatMap]
  refine forall₂_congr fun s hs => ?_
  obtain ⟨e', he'⟩ := (h s hs).read
  rw [leaves_of_parse he', key?_of_parse he', map_equalityTerms?_iff]

end Expr
end XPath
end TagGrammar
