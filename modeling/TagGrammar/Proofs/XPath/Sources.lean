/-
Where the text of an expression comes from.

No expression is evaluated here, so what `sources?` says is about readings: relations between
the attributes of the current node, an expression and a text that it may yield.  `Reading`
says how little such a relation needs to keep to.  Literals yield themselves, numbers and
truth values are spelled with the letters of an alphabet, and a text function yields no
character that its arguments do not.  What else there is, such as a variable or a path to an
element, may yield any text.
-/
import Mathlib.Data.List.Forall2
import TagGrammar.XPath.Analysis

namespace TagGrammar
namespace XPath

/-! ## Readings -/

/-- The values of the attributes of the current node. -/
abbrev Attributes := String → String

def Over (alphabet : Char → Prop) (s : String) : Prop := ∀ c ∈ s.toList, alphabet c

/-- The texts that expressions may yield, with an alphabet for numbers and truth values. -/
structure Reading (alphabet : Char → Prop) (yields : Attributes → Expr → String → Prop) :
    Prop where
  literal : ∀ {attributes value s}, yields attributes (.literal value) s → s = value
  number : ∀ {attributes value s}, yields attributes (.number value) s → Over alphabet s
  scalar : ∀ {attributes name arguments s}, name ∈ Expr.scalarFunctions →
    yields attributes (.call name arguments) s → Over alphabet s
  operation : ∀ {attributes left op right s}, op ≠ .union →
    yields attributes (.binary left op right) s → Over alphabet s
  negation : ∀ {attributes operand s}, yields attributes (.negate operand) s → Over alphabet s
  ownAttribute : ∀ {attributes name s}, '*' ∉ name.toList →
    yields attributes (.path false [.mk .attributes (.name name) []]) s → s = attributes name
  /-- A text function with arguments takes every character from the text of one of them. -/
  text : ∀ {attributes name arguments s}, name ∈ Expr.textFunctions → arguments ≠ [] →
    yields attributes (.call name arguments) s →
      ∃ values, List.Forall₂ (yields attributes) arguments values ∧
        ∀ c ∈ s.toList, ∃ value ∈ values, c ∈ value.toList

/-- Literals, attributes, equalities and concatenations as they are evaluated. -/
inductive Spelled (attributes : Attributes) : Expr → String → Prop where
  | literal (value : String) : Spelled attributes (.literal value) value
  | ownAttribute (name : String) :
    Spelled attributes (.path false [.mk .attributes (.name name) []]) (attributes name)
  | equality {left right : Expr} {s s' : String} :
    Spelled attributes left s → Spelled attributes right s' →
      Spelled attributes (.binary left .equal right) (if s = s' then "true" else "false")
  | concatenation {arguments : List Expr} {values : List String} :
    List.Forall₂ (Spelled attributes) arguments values →
      Spelled attributes (.call "concat" arguments) (String.join values)

def IsTruthLetter (c : Char) : Prop := c ∈ "true".toList ∨ c ∈ "false".toList

theorem spelled_reading : Reading IsTruthLetter Spelled where
  literal h := by
    cases h
    rfl
  number h := by cases h
  scalar hname h := by
    cases h
    exact absurd hname (by decide)
  operation _ h := by
    cases h
    split
    · exact fun c hc => Or.inl hc
    · exact fun c hc => Or.inr hc
  negation h := by cases h
  ownAttribute _ h := by
    cases h
    rfl
  text _ _ h := by
    cases h with
    | concatenation hvalues =>
      refine ⟨_, hvalues, fun c hc => ?_⟩
      rwa [String.toList_join, List.mem_flatMap] at hc

/-- A link to a member, with a mark if it is one to oneself. -/
def memberLink : Expr :=
  .call "concat" [.literal "#", .path false [.mk .attributes (.name "id") []],
    .binary (.path false [.mk .attributes (.name "id") []]) .equal (.literal "me")]

/-! ## Literals -/

namespace Expr

mutual

def literals : Expr → List String
  | .literal value => [value]
  | .number _ | .variable _ => []
  | .call _ arguments => literalsOfAll arguments
  | .binary left _ right => left.literals ++ right.literals
  | .negate operand => operand.literals
  | .path _ steps => literalsOfSteps steps
  | .filter primary predicates steps =>
    primary.literals ++ literalsOfAll predicates ++ literalsOfSteps steps

def literalsOfAll : List Expr → List String
  | [] => []
  | e :: rest => e.literals ++ literalsOfAll rest

def literalsOfStep : Step → List String
  | .mk _ _ predicates => literalsOfAll predicates

def literalsOfSteps : List Step → List String
  | [] => []
  | s :: rest => literalsOfStep s ++ literalsOfSteps rest

end

/-! ## Names -/

theorem mem_unite {known new : List String} {name : String} :
    name ∈ unite known new ↔ name ∈ known ∨ name ∈ new := by
  unfold unite
  induction new generalizing known with
  | nil => simp
  | cons n rest ih =>
    rw [List.foldl_cons, ih, List.mem_cons]
    split
    · rename_i hknown
      have hn : n ∈ known := List.contains_iff_mem.mp hknown
      constructor
      · rintro (h | h)
        · exact Or.inl h
        · exact Or.inr (Or.inr h)
      · rintro (h | rfl | h)
        · exact Or.inl h
        · exact Or.inl hn
        · exact Or.inr h
    · rw [List.mem_append, List.mem_singleton, or_assoc]

theorem nodup_unite {known : List String} (new : List String) (h : known.Nodup) :
    (unite known new).Nodup := by
  unfold unite
  induction new generalizing known with
  | nil => exact h
  | cons n rest ih =>
    rw [List.foldl_cons]
    split
    · exact ih h
    · rename_i hunknown
      refine ih (List.nodup_append.mpr ⟨h, List.pairwise_singleton _ n, fun a ha b hb hab => ?_⟩)
      rw [List.mem_singleton] at hb
      exact hunknown (List.contains_iff_mem.mpr (hb ▸ hab ▸ ha))

theorem eq_path_of_asAttribute? {e : Expr} {name : String} (h : e.asAttribute? = some name) :
    e = .path false [.mk .attributes (.name name) []] ∧ '*' ∉ name.toList := by
  unfold asAttribute? at h
  split at h
  · split at h
    · cases h
    · rename_i hstar
      cases h
      exact ⟨rfl, mt List.contains_iff_mem.mpr hstar⟩
  · cases h

end Expr

/-! ## Accounts of a text -/

/-- Every character of a text is in a literal, in the alphabet or in the value of a name. -/
def Accounts (alphabet : Char → Prop) (attributes : Attributes) (literals names : List String)
    (s : String) : Prop :=
  ∀ c ∈ s.toList, (∃ literal ∈ literals, c ∈ literal.toList) ∨ alphabet c ∨
    ∃ name ∈ names, c ∈ (attributes name).toList

section Accounts

variable {alphabet : Char → Prop} {attributes : Attributes}
  {literals literals' names names' : List String} {s : String}

theorem Accounts.mono (h : Accounts alphabet attributes literals names s)
    (hliterals : literals ⊆ literals') (hnames : names ⊆ names') :
    Accounts alphabet attributes literals' names' s := by
  intro c hc
  rcases h c hc with ⟨literal, hliteral, hc⟩ | hc | ⟨name, hname, hc⟩
  · exact Or.inl ⟨literal, hliterals hliteral, hc⟩
  · exact Or.inr (Or.inl hc)
  · exact Or.inr (Or.inr ⟨name, hnames hname, hc⟩)

theorem Over.accounts (h : Over alphabet s) : Accounts alphabet attributes literals names s :=
  fun c hc => Or.inr (Or.inl (h c hc))

/-- A text all of whose characters are in texts that are accounted for. -/
theorem accounts_of_values {values : List String}
    (hvalues : ∀ value ∈ values, Accounts alphabet attributes literals names value)
    (hs : ∀ c ∈ s.toList, ∃ value ∈ values, c ∈ value.toList) :
    Accounts alphabet attributes literals names s := by
  intro c hc
  obtain ⟨value, hvalue, hc⟩ := hs c hc
  exact hvalues value hvalue c hc

end Accounts

/-! ## Names that are given -/

theorem nodup_of_allSources? {es : List Expr} {known names : List String}
    (h : Expr.allSources? known es = some names) (hknown : known.Nodup) : names.Nodup := by
  induction es generalizing known with
  | nil =>
    cases h
    exact hknown
  | cons e rest ih =>
    rw [Expr.allSources?] at h
    obtain ⟨new, -, hrest⟩ := Option.bind_eq_some_iff.mp h
    exact ih hrest (Expr.nodup_unite new hknown)

theorem subset_of_allSources? {es : List Expr} {known names : List String}
    (h : Expr.allSources? known es = some names) : known ⊆ names := by
  induction es generalizing known with
  | nil =>
    cases h
    exact List.Subset.refl _
  | cons e rest ih =>
    rw [Expr.allSources?] at h
    obtain ⟨new, -, hrest⟩ := Option.bind_eq_some_iff.mp h
    exact fun name hname => ih hrest (Expr.mem_unite.mpr (Or.inl hname))

/-- An expression that is neither one attribute nor a call of a text function has no sources. -/
theorem nodup_of_sources? {e : Expr} {names : List String} (h : e.sources? = some names) :
    names.Nodup := by
  cases e with
  | literal | number | negate =>
    cases h
    exact List.nodup_nil
  | path absolute steps =>
    obtain ⟨name, -, rfl⟩ := Option.map_eq_some_iff.mp h
    exact List.pairwise_singleton _ name
  | binary left op right =>
    rw [Expr.sources?] at h
    split at h
    · cases h
    · cases h
      exact List.nodup_nil
  | call name arguments =>
    rw [Expr.sources?] at h
    split at h
    · cases h
      exact List.nodup_nil
    · split at h
      · exact nodup_of_allSources? h List.nodup_nil
      · cases h
  | _ => cases h

/-! ## Soundness -/

section Soundness

variable {alphabet : Char → Prop} {yields : Attributes → Expr → String → Prop}

mutual

theorem accounts_of_sources? (h : Reading alphabet yields) {attributes : Attributes} :
    ∀ (e : Expr) {names : List String} {s : String}, e.sources? = some names →
      yields attributes e s → Accounts alphabet attributes e.literals names s
  | .literal value, names, s, _, hs => by
    intro c hc
    rw [h.literal hs] at hc
    exact Or.inl ⟨value, by rw [Expr.literals]; exact List.mem_singleton_self value, hc⟩
  | .number _, _, _, _, hs => (h.number hs).accounts
  | .negate _, _, _, _, hs => (h.negation hs).accounts
  | .binary left op right, names, s, hnames, hs => by
    rw [Expr.sources?] at hnames
    split at hnames
    · cases hnames
    · rename_i hop
      exact (h.operation (fun e => hop (beq_iff_eq.mpr e)) hs).accounts
  | .path absolute steps, names, s, hnames, hs => by
    rw [Expr.sources?] at hnames
    obtain ⟨name, hname, rfl⟩ := Option.map_eq_some_iff.mp hnames
    obtain ⟨hpath, hstar⟩ := Expr.eq_path_of_asAttribute? hname
    rw [hpath] at hs
    intro c hc
    rw [h.ownAttribute hstar hs] at hc
    exact Or.inr (Or.inr ⟨name, List.mem_singleton_self name, hc⟩)
  | .call name arguments, names, s, hnames, hs => by
    rw [Expr.sources?] at hnames
    split at hnames
    · rename_i hscalar
      exact (h.scalar (List.contains_iff_mem.mp hscalar) hs).accounts
    · split at hnames
      · rename_i htext
        rw [Bool.and_eq_true, List.contains_iff_mem, Bool.not_eq_true', List.isEmpty_eq_false_iff]
          at htext
        obtain ⟨values, hvalues, hchars⟩ := h.text htext.1 htext.2 hs
        rw [Expr.literals]
        exact accounts_of_values (accounts_of_allSources? h arguments hnames hvalues) hchars
      · cases hnames

/-- What the arguments yield is accounted for by the names of all of them. -/
theorem accounts_of_allSources? (h : Reading alphabet yields) {attributes : Attributes} :
    ∀ (es : List Expr) {known names values : List String},
      Expr.allSources? known es = some names → List.Forall₂ (yields attributes) es values →
      ∀ value ∈ values, Accounts alphabet attributes (Expr.literalsOfAll es) names value
  | [], _, _, _, _, .nil, _, hvalue => absurd hvalue List.not_mem_nil
  | e :: rest, known, names, v :: values, hnames, .cons hv hvalues, value, hvalue => by
    rw [Expr.allSources?] at hnames
    obtain ⟨new, hnew, hrest⟩ := Option.bind_eq_some_iff.mp hnames
    rw [Expr.literalsOfAll]
    rcases List.mem_cons.mp hvalue with rfl | hvalue
    · have hsub : new ⊆ names := fun name hname =>
        subset_of_allSources? hrest (Expr.mem_unite.mpr (Or.inr hname))
      exact (accounts_of_sources? h e hnew hv).mono (List.subset_append_left _ _) hsub
    · have hrest := accounts_of_allSources? h rest hrest hvalues value hvalue
      exact hrest.mono (List.subset_append_right _ _) (List.Subset.refl names)

end

/-- Whatever an expression may yield, its characters are in its literals, in the alphabet or in
the values of its sources, and no source is named twice. -/
theorem sources?_account_for_text (h : Reading alphabet yields) {e : Expr} {names : List String}
    (hnames : e.sources? = some names) :
    names.Nodup ∧ ∀ attributes s, yields attributes e s →
      Accounts alphabet attributes e.literals names s :=
  ⟨nodup_of_sources? hnames, fun _ _ hs => accounts_of_sources? h e hnames hs⟩

theorem memberLink_accounted : memberLink.display = "concat('#',@id,(@id = 'me'))" ∧
    memberLink.sources? = some ["id"] ∧ Spelled (fun _ => "me") memberLink "#metrue" ∧
    ["id"].Nodup ∧
    Accounts IsTruthLetter (fun _ => "me") memberLink.literals ["id"] "#metrue" := by
  have hsources : memberLink.sources? = some ["id"] := by decide +kernel
  have hspelled : Spelled (fun _ => "me") memberLink "#metrue" :=
    .concatenation (.cons (.literal "#") (.cons (.ownAttribute "id")
      (.cons (.equality (.ownAttribute "id") (.literal "me")) .nil)))
  obtain ⟨hnodup, haccounts⟩ := sources?_account_for_text spelled_reading hsources
  exact ⟨by decide +kernel, hsources, hspelled, hnodup, haccounts _ _ hspelled⟩

end Soundness

end XPath
end TagGrammar
