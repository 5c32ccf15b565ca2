/-
Roots in joined texts.

A text that ends in a slash for the root cannot be joined to another one: `or` after a slash
is a name, so the slash goes on with a step and the root is lost.  The roots of an
expression are counted by its text, because a slash is one of them exactly if nothing after
it goes on with a path.  Reading a text again in a longer one leaves its slashes and what
follows them as they were, so at each joint a root is lost exactly if the text before it
ends in one.  Hence texts of expressions are joined to the disjunction of all exactly if only
the last of them ends in the root.
-/
import TagGrammar.Proofs.XPath.JoinedCalls
import TagGrammar.Template.Branches

namespace TagGrammar
namespace XPath

/-! ## Roots of an expression -/

namespace Expr

mutual

/-- How often the root alone is a path in an expression. -/
def roots : Expr → Nat
  | .literal _ | .number _ | .variable _ => 0
  | .call _ arguments => rootsOfAll arguments
  | .binary left _ right => left.roots + right.roots
  | .negate operand => operand.roots
  | .path true [] => 1
  | .path _ steps => rootsOfSteps steps
  | .filter primary predicates steps =>
    primary.roots + rootsOfAll predicates + rootsOfSteps steps

def rootsOfAll : List Expr → Nat
  | [] => 0
  | e :: rest => e.roots + rootsOfAll rest

def rootsOfStep : Step → Nat
  | .mk _ _ predicates => rootsOfAll predicates

def rootsOfSteps : List Step → Nat
  | [] => 0
  | s :: rest => rootsOfStep s + rootsOfSteps rest

end

theorem roots_path {absolute : Bool} {ss : List Step} (h : ss ≠ []) :
    (path absolute ss).roots = rootsOfSteps ss := by
  cases ss with
  | nil => exact absurd rfl h
  | cons s ss => rw [roots]; simp

theorem rootsOfAll_append (es es' : List Expr) :
    rootsOfAll (es ++ es') = rootsOfAll es + rootsOfAll es' := by
  induction es with
  | nil => rw [List.nil_append, rootsOfAll, Nat.zero_add]
  | cons e es ih => rw [List.cons_append, rootsOfAll, rootsOfAll, ih, Nat.add_assoc]

/-- The roots of a disjunction are those of its leaves. -/
theorem rootsOfAll_disjuncts (e : Expr) : rootsOfAll e.disjuncts = e.roots := by
  fun_induction disjuncts e with
  | case1 left right ihl ihr => rw [rootsOfAll_append, ihl, ihr, roots]
  | case2 e _ => rw [rootsOfAll, rootsOfAll, Nat.add_zero]

end Expr

/-- How many roots a phrase has. -/
def Phrase.roots : Phrase → Nat
  | operation _ e | path e | primary e => e.roots
  | steps ss | trailing ss => Expr.rootsOfSteps ss
  | step s => Expr.rootsOfStep s
  | test _ => 0
  | predicates es | arguments es => Expr.rootsOfAll es

/-! ## Roots among tokens -/

/-- Whether a token after a slash goes on with the path, or is refused there. -/
def goesOn (t : Token) : Bool :=
  Parser.startsStep t || t matches .functionName _

/-- Nothing follows that goes on with a path. -/
def EndsPath (rest : List Token) : Prop := rest.head?.any goesOn = false

theorem endsPath_cons {t : Token} (h : goesOn t = false) (rest : List Token) :
    EndsPath (t :: rest) := h

/-- The number of slashes that stand for the root. -/
def rootSlashes : List Token → Nat
  | [] => 0
  | .slash :: ts => (if ts.head?.any goesOn then 0 else 1) + rootSlashes ts
  | _ :: ts => rootSlashes ts

theorem rootSlashes_cons {t : Token} (ht : t ≠ .slash) (ts : List Token) :
    rootSlashes (t :: ts) = rootSlashes ts := by
  cases t <;> first | rfl | exact absurd rfl ht

theorem rootSlashes_slash_of_begins {ts : List Token} (h : Begins Parser.startsStep ts)
    (rest : List Token) : rootSlashes (.slash :: (ts ++ rest)) = rootSlashes (ts ++ rest) := by
  obtain ⟨t, ts, rfl, ht⟩ := h.exists_cons
  simp [rootSlashes, goesOn, ht]

theorem Derives.endsPath_predicates {ts rest : List Token} {ps : List Expr}
    (h : Derives ts (.predicates ps)) (hrest : EndsPath rest) : EndsPath (ts ++ rest) := by
  cases h with
  | noPredicates => exact hrest
  | predicate _ _ => rfl

theorem Derives.endsPath_trailing {ts rest : List Token} {ss : List Step}
    (h : Derives ts (.trailing ss)) (hrest : EndsPath rest) : EndsPath (ts ++ rest) := by
  cases h with
  | noTrailing => exact hrest
  | trailingChild _ | trailingBelow _ => rfl

/-- The tokens that derive a phrase hold its roots, whatever follows them that does not go on
with a path. -/
theorem Derives.rootSlashes_append {ts : List Token} {phrase : Phrase} (h : Derives ts phrase) :
    ∀ rest, EndsPath rest → rootSlashes (ts ++ rest) = phrase.roots + rootSlashes rest := by
  induction h with
  | operand _ _ ih | ofPath _ ih | alone _ ih | oneStep _ ih | oneArgument _ ih =>
    intro rest hrest
    rw [ih rest hrest]
    simp [Phrase.roots, Expr.rootsOfSteps, Expr.rootsOfAll]
  | relative h ih =>
    intro rest hrest
    rw [ih rest hrest, Phrase.roots, Phrase.roots, Expr.roots_path h.steps_ne_nil]
  | binary _ _ ihl ihr =>
    intro rest hrest
    rw [List.append_assoc, List.cons_append, ihl _ (endsPath_cons rfl _),
      rootSlashes_cons (by simp), ihr rest hrest]
    simp [Phrase.roots, Expr.roots, Nat.add_assoc]
  | negate _ ih =>
    intro rest hrest
    rw [List.cons_append, rootSlashes_cons (by simp), ih rest hrest]
    simp [Phrase.roots, Expr.roots]
  | root =>
    intro rest hrest
    have hnone : rest.head?.any goesOn = false := hrest
    simp [rootSlashes, hnone, Phrase.roots, Expr.roots]
  | absolute h ih =>
    intro rest hrest
    rw [List.cons_append, rootSlashes_slash_of_begins h.beginsIn, ih rest hrest, Phrase.roots,
      Phrase.roots, Expr.roots_path h.steps_ne_nil]
  | anywhere _ ih | trailingBelow _ ih =>
    intro rest hrest
    rw [List.cons_append, rootSlashes_cons (by simp), ih rest hrest]
    simp [Phrase.roots, Expr.roots, Expr.rootsOfSteps, Expr.rootsOfStep, Expr.rootsOfAll]
  | filter _ hps hss _ ihe ihps ihss =>
    intro rest hrest
    have hafter := hss.endsPath_trailing hrest
    rw [List.append_assoc, List.append_assoc, ihe _ (hps.endsPath_predicates hafter),
      ihps _ hafter, ihss rest hrest]
    simp [Phrase.roots, Expr.roots, Nat.add_assoc]
  | stepChild _ hss ihs ihss =>
    intro rest hrest
    rw [List.append_assoc, List.cons_append, ihs _ (endsPath_cons rfl _),
      rootSlashes_slash_of_begins hss.beginsIn, ihss rest hrest]
    simp [Phrase.roots, Expr.rootsOfSteps, Nat.add_assoc]
  | stepBelow _ _ ihs ihss =>
    intro rest hrest
    rw [List.append_assoc, List.cons_append, ihs _ (endsPath_cons rfl _),
      rootSlashes_cons (by simp), ihss rest hrest]
    simp [Phrase.roots, Expr.rootsOfSteps, Expr.rootsOfStep, Expr.rootsOfAll, Nat.add_assoc]
  | trailingChild h ih =>
    intro rest hrest
    rw [List.cons_append, rootSlashes_slash_of_begins h.beginsIn, ih rest hrest]
    rfl
  | plain _ hps iht ihps =>
    intro rest hrest
    rw [List.append_assoc, iht _ (hps.endsPath_predicates hrest), ihps rest hrest]
    simp [Phrase.roots, Expr.rootsOfStep]
  | attributes _ hps iht ihps =>
    intro rest hrest
    rw [List.cons_append, rootSlashes_cons (by simp), List.append_assoc,
      iht _ (hps.endsPath_predicates hrest), ihps rest hrest]
    simp [Phrase.roots, Expr.rootsOfStep]
  | along _ hps iht ihps =>
    intro rest hrest
    rw [List.cons_append, rootSlashes_cons (by simp), List.cons_append,
      rootSlashes_cons (by simp), List.append_assoc, iht _ (hps.endsPath_predicates hrest),
      ihps rest hrest]
    simp [Phrase.roots, Expr.rootsOfStep]
  | predicate _ _ ihp ihps =>
    intro rest hrest
    rw [List.cons_append, rootSlashes_cons (by simp), List.append_assoc, List.cons_append,
      ihp _ (endsPath_cons rfl _), rootSlashes_cons (by simp), ihps rest hrest]
    simp [Phrase.roots, Expr.rootsOfAll, Nat.add_assoc]
  | parens _ ih =>
    intro rest _
    rw [List.cons_append, rootSlashes_cons (by simp), List.append_assoc, List.singleton_append,
      ih _ (endsPath_cons rfl _), rootSlashes_cons (by simp)]
    rfl
  | call _ ih =>
    intro rest _
    rw [List.cons_append, rootSlashes_cons (by simp), List.cons_append,
      rootSlashes_cons (by simp), List.append_assoc, List.singleton_append,
      ih _ (endsPath_cons rfl _), rootSlashes_cons (by simp)]
    simp [Phrase.roots, Expr.roots]
  | argument _ _ ihe ihes =>
    intro rest hrest
    rw [List.append_assoc, List.cons_append, ihe _ (endsPath_cons rfl _),
      rootSlashes_cons (by simp), ihes rest hrest]
    simp [Phrase.roots, Expr.rootsOfAll, Nat.add_assoc]
  | noTrailing | noPredicates | here | up | name | comment | text | node | instruction
  | instructionFor | variableName | literal | number | emptyCall =>
    intro rest _
    simp [rootSlashes, Phrase.roots, Expr.roots, Expr.rootsOfSteps, Expr.rootsOfStep,
      Expr.rootsOfAll]

theorem Expr.rootSlashes_of_parse {source : String} {e : Expr} (h : Expr.parse source = .ok e)
    {ts : List Token} (hts : tokenize source = .ok ts) : rootSlashes ts = e.roots := by
  obtain ⟨ts', hts', hderives⟩ := parse_eq_ok_iff.mp h
  obtain rfl : ts' = ts := Except.ok.inj (hts'.symm.trans hts)
  have hcount := hderives.rootSlashes_append [] rfl
  rwa [List.append_nil] at hcount

/-! ## Slashes that are read again -/

namespace Lexer

variable {previous other : Option Token} {w : List Char}

/-- Read again, tokens hold the same slashes with the same tokens after them, but for a slash
at their end, which is one for the root only as far as what follows does not go on with a
path. -/
theorem Reread.rootSlashes_append {ts us : List Token} (h : Reread previous other ts us)
    (rest : List Token) :
    rootSlashes (us ++ rest) +
        (if ts.getLast? = some .slash ∧ rest.head?.any goesOn = true then 1 else 0) =
      rootSlashes ts + rootSlashes rest := by
  induction h with
  | nil => simp [rootSlashes]
  | @cons previous other t t' ts us htoken _ h ih =>
    by_cases ht : t = .slash
    · obtain rfl := htoken.slash.mp ht
      subst ht
      cases h with
      | nil =>
        cases hgoes : rest.head?.any goesOn <;> simp [rootSlashes, hgoes]
        omega
      | @cons _ _ u u' ts us htoken' hsame h =>
        -- What comes after a slash is read as it was.
        obtain rfl := hsame rfl
        have hhead : (u :: us ++ rest).head? = (u :: ts).head? := rfl
        rw [List.getLast?_cons_cons, rootSlashes, List.cons_append, rootSlashes, hhead]
        omega
    · have ht' : t' ≠ .slash := mt htoken.slash.mpr ht
      rw [List.cons_append, rootSlashes_cons ht', rootSlashes_cons ht, ← ih]
      cases ts with
      | nil => simp [ht]
      | cons u ts => rw [List.getLast?_cons_cons]

theorem Reread.getLast?_eq_slash {ts us : List Token} (h : Reread previous other ts us)
    (hlast : ts.getLast? = some .slash) : us.getLast? = some .slash := by
  induction h with
  | nil => exact hlast
  | cons htoken _ h ih =>
    cases h with
    | nil =>
      obtain rfl := Option.some.inj hlast
      rw [htoken.slash.mp rfl]
      rfl
    | cons _ _ _ =>
      rw [List.getLast?_cons_cons] at hlast ⊢
      exact ih hlast

/-- At a joint there is no slash, and if the text before it ends in one, the joint goes on
with the path. -/
theorem joint_goesOn {t : Token} {rest : List Char}
    (h : token previous ('o' :: 'r' :: ' ' :: w) = .ok (t, rest)) :
    t ≠ .slash ∧ (previous = some .slash → goesOn t = true) := by
  refine ⟨ne_slash_of_token h (by decide), ?_⟩
  · rintro rfl
    rw [token_of_startsWord (by decide)] at h
    change nameToken (some .slash) 'o' ('r' :: ' ' :: w) = .ok (t, rest) at h
    obtain ⟨⟨name, rest'⟩, -, h⟩ := bind_eq_ok_iff.mp h
    obtain ⟨t', ht, h⟩ := bind_eq_ok_iff.mp h
    cases h
    rcases classify_name ht with ⟨op, rfl⟩ | rfl | rfl | rfl | rfl
    · unfold classify at ht
      rw [if_neg (by decide)] at ht
      split at ht
      · cases ht
      · split at ht <;> cases ht
      · cases ht
    all_goals rfl

end Lexer

/-! ## Joined texts -/

/-- The tokens of joined texts hold the roots of the texts, but for one at each joint after
a text that ends in the root. -/
theorem rootSlashes_intercalate {sources : List String} {other : Option Token} {k : Nat}
    {us : List Token} (hne : sources ≠ []) (h : ∀ s ∈ sources, ∃ e, Expr.parse s = .ok e)
    (hk : (String.intercalate " or " sources).toList.length < k)
    (h' : Lexer.tokensFrom k other (String.intercalate " or " sources).toList = .ok us) :
    rootSlashes us + sources.dropLast.countP endsOnSlash =
      Expr.rootsOfAll (sources.flatMap Expr.leaves) := by
  induction sources generalizing other k us with
  | nil => exact absurd rfl hne
  | cons s sources ih =>
    obtain ⟨e, he⟩ := h s List.mem_cons_self
    obtain ⟨ts, hts, -⟩ := Expr.parse_eq_ok_iff.mp he
    have hcount := Expr.rootSlashes_of_parse he hts
    rw [List.flatMap_cons, Expr.rootsOfAll_append, Expr.leaves_of_parse he,
      Expr.rootsOfAll_disjuncts, ← hcount]
    by_cases hlast : sources = []
    · subst hlast
      rw [String.intercalate_singleton, ← List.append_nil s.toList] at h' hk
      obtain ⟨us₁, us₂, m, rfl, hreread, hm, hnone⟩ :=
        Lexer.tokensFrom_again (Or.inl rfl) (Nat.lt_succ_self _) hk hts h'
      obtain rfl : us₂ = [] := by
        obtain ⟨m, rfl⟩ : ∃ m', m = m' + 1 := ⟨m - 1, by simp at hm; omega⟩
        cases hnone
        rfl
      simpa [rootSlashes, Expr.rootsOfAll] using hreread.rootSlashes_append []
    · rw [Lexer.toList_intercalate_cons hlast] at h' hk
      obtain ⟨us₁, us₂, m, rfl, hreread, hm, hrest⟩ :=
        Lexer.tokensFrom_again (Or.inr ⟨_, rfl⟩) (Nat.lt_succ_self _) hk hts h'
      obtain ⟨t, us₃, m', rfl, ht, hm', hmore⟩ :=
        Lexer.exists_of_tokensFrom_or (by simpa using hm) hrest
      obtain ⟨hne', hgoes⟩ := Lexer.joint_goesOn ht
      have hothers := ih hlast (fun s' hs' => h s' (List.mem_cons_of_mem s hs')) hm' hmore
      have hthis := hreread.rootSlashes_append (t :: us₃)
      rw [rootSlashes_cons hne'] at hthis
      rw [List.dropLast_cons_of_ne_nil hlast, List.countP_cons, endsOnSlash_eq hts]
      have hjoint : (ts.getLast? = some .slash ∧ (t :: us₃).head?.any goesOn = true) ↔
          (ts.getLast? == some .slash) = true := by
        rw [beq_iff_eq]
        refine ⟨And.left, fun hend => ⟨hend, hgoes ?_⟩⟩
        rw [hreread.getLast?_eq_slash hend, Option.some_or]
      simp only [hjoint] at hthis
      omega

end XPath

namespace Branches
open XPath

/-- Tests of branches are joined to their disjunction exactly if none but the last ends in the
root. -/
theorem parse_joinTests_iff {tests : List String} (hne : tests ≠ [])
    (h : ∀ t ∈ tests, ∃ e, Expr.parse t = .ok e) :
    (∃ e, Expr.parse (joinTests tests) = .ok e ∧ e.disjuncts = tests.flatMap Expr.leaves) ↔
      ∀ t ∈ tests.dropLast, endsOnSlash t = false := by
  constructor
  · rintro ⟨e, he, hleaves⟩
    obtain ⟨us, hus, -⟩ := Expr.parse_eq_ok_iff.mp he
    have hcount := rootSlashes_intercalate hne h (Nat.lt_succ_self _) hus
    rw [Expr.rootSlashes_of_parse he hus, ← e.rootsOfAll_disjuncts, hleaves] at hcount
    have hnone : tests.dropLast.countP endsOnSlash = 0 := by omega
    intro t ht
    simpa using List.countP_eq_zero.mp hnone t ht
  · exact Expr.parse_intercalate hne h

/-- Whether a text is read as an expression. -/
def isRead (source : String) : Bool := (Expr.parse source).toOption.any fun _ => true

theorem exists_of_isRead {tests : List String} (h : ∀ t ∈ tests, isRead t = true) :
    ∀ t ∈ tests, ∃ e, Expr.parse t = .ok e := by
  intro t ht
  obtain ⟨e, he, -⟩ := exists_ok_of_any (h t ht)
  exact ⟨e, he⟩

/-- The root may be the last test, or stand in parentheses. -/
theorem parse_joinTests_iff_lastRoot :
    (∃ e, Expr.parse (joinTests ["(/)", "@a or b", "/"]) = .ok e ∧
        e.disjuncts = ["(/)", "@a or b", "/"].flatMap Expr.leaves) ∧
      ¬∃ e, Expr.parse (joinTests ["@a", "-/", "b"]) = .ok e ∧
        e.disjuncts = ["@a", "-/", "b"].flatMap Expr.leaves := by
  have hread : ∀ t ∈ ["(/)", "@a or b", "/"], ∃ e, Expr.parse t = .ok e :=
    exists_of_isRead (by decide +kernel)
  have hread' : ∀ t ∈ ["@a", "-/", "b"], ∃ e, Expr.parse t = .ok e :=
    exists_of_isRead (by decide +kernel)
  refine ⟨(parse_joinTests_iff (by simp) hread).mpr (by decide +kernel), fun h => ?_⟩
  have hend := (parse_joinTests_iff (by simp) hread').mp h "-/" (by simp)
  exact absurd hend (by decide +kernel)

/-- After the root `or` is a name: the root or an attribute is no expression, and the root or a
path from it is one path. -/
theorem root_before_or_lost :
    (∀ t ∈ ["/", "@a", "/b"], ∃ e, Expr.parse t = .ok e) ∧
      (¬∃ e, Expr.parse (joinTests ["/", "@a"]) = .ok e) ∧
      ∃ e, Expr.parse (joinTests ["/", "/b"]) = .ok e ∧ e.disjuncts.length = 1 ∧
        e.disjuncts ≠ ["/", "/b"].flatMap Expr.leaves := by
  have hread : ∀ t ∈ ["/", "@a", "/b"], ∃ e, Expr.parse t = .ok e :=
    exists_of_isRead (by decide +kernel)
  refine ⟨hread, ?_, ?_⟩
  · rintro ⟨e, he⟩
    have hnone : isRead (joinTests ["/", "@a"]) = false := by decide +kernel
    rw [isRead, he] at hnone
    cases hnone
  · have hone : (Expr.parse (joinTests ["/", "/b"])).toOption.any
        (fun e => e.disjuncts.length == 1) = true := by
      decide +kernel
    obtain ⟨e, he, hlength⟩ := exists_ok_of_any hone
    rw [beq_iff_eq] at hlength
    refine ⟨e, he, hlength, fun heq => ?_⟩
    have htwo : (["/", "/b"].flatMap Expr.leaves).length = 2 := by decide +kernel
    rw [← heq, hlength] at htwo
    cases htwo

end Branches
end TagGrammar
