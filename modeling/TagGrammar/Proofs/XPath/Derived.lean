/-
What derives an expression is read as it.

A parser takes as much as it can, so what it makes of tokens that derive a phrase depends on
what follows them.  `StopsAt` says that what follows cannot go on with an operation of a rank,
and `ReadBy` says for each kind of phrase how its tokens are read before such tokens.  For
operations it says more: the loop over the operators of the rank goes on with the expression
as its left operand.  The main statement is that the grammar has exactly the expressions that
are read.
-/
import TagGrammar.Proofs.XPath.Grammar

namespace TagGrammar
namespace XPath

/-- The token ends an operation of a rank: it closes what the operation is in, or it is an
operator that binds less tight. -/
def Token.ends (k : Nat) : Token → Bool
  | .rightParen | .rightBracket | .comma => true
  | .operator op => op.rank < k
  | _ => false

/-- What follows an operation of a rank does not go on with it. -/
def StopsAt (k : Nat) (rest : List Token) : Prop := ∀ t ∈ rest.head?, t.ends k = true

theorem Token.ends_mono {k m : Nat} (h : k ≤ m) {t : Token} (ht : t.ends k = true) :
    t.ends m = true := by
  cases t with
  | operator op =>
    simp only [ends, decide_eq_true_eq] at ht ⊢
    omega
  | rightParen | rightBracket | comma => rfl
  | _ => exact ht

theorem StopsAt.mono {k m : Nat} (h : k ≤ m) {rest : List Token} (hrest : StopsAt k rest) :
    StopsAt m rest := fun t ht => Token.ends_mono h (hrest t ht)

theorem StopsAt.nil (k : Nat) : StopsAt k [] := by
  intro t ht
  cases ht

theorem StopsAt.cons {k : Nat} {t : Token} (h : t.ends k = true) (rest : List Token) :
    StopsAt k (t :: rest) := by
  rintro _ ⟨⟩
  exact h

theorem StopsAt.head?_ne {k : Nat} {rest : List Token} (h : StopsAt k rest) {t : Token}
    (ht : t.ends k = false) : rest.head? ≠ some t := by
  intro heq
  rw [h t heq] at ht
  cases ht

/-- The operators of a rank. -/
def operatorsOf (k : Nat) : List Operator :=
  [.or, .and, .equal, .notEqual, .less, .lessOrEqual, .greater, .greaterOrEqual, .plus, .minus,
    .multiply, .div, .mod, .union].filter fun op => op.rank == k

theorem mem_operatorsOf {k : Nat} {op : Operator} : op ∈ operatorsOf k ↔ op.rank = k := by
  rw [operatorsOf, List.mem_filter, beq_iff_eq, and_iff_right]
  cases op <;> decide

/-! ## How phrases begin -/

/-- The tokens that a path starts with. -/
def startsPath (t : Token) : Bool :=
  Parser.startsPrimary t || Parser.startsStep t || t == .slash || t == .doubleSlash

/-- The tokens that a test starts with. -/
def startsTest : Token → Bool
  | .nameTest _ | .nodeType _ => true
  | _ => false

/-- There is a first token and it is one of some. -/
def Begins (p : Token → Bool) (ts : List Token) : Prop := ts.head?.any p = true

theorem Begins.append {p : Token → Bool} {ts : List Token} (h : Begins p ts) (us : List Token) :
    Begins p (ts ++ us) := by
  cases ts with
  | nil => cases h
  | cons t ts => exact h

theorem Begins.mono {p q : Token → Bool} (hpq : ∀ t, p t = true → q t = true) {ts : List Token}
    (h : Begins p ts) : Begins q ts := by
  cases ts with
  | nil => cases h
  | cons t ts => exact hpq t h

theorem Begins.exists_cons {p : Token → Bool} {ts : List Token} (h : Begins p ts) :
    ∃ t us, ts = t :: us ∧ p t = true := by
  cases ts with
  | nil => cases h
  | cons t ts => exact ⟨t, ts, rfl, h⟩

theorem Begins.length_pos {p : Token → Bool} {ts : List Token} (h : Begins p ts) :
    0 < ts.length := by
  obtain ⟨t, us, rfl, -⟩ := h.exists_cons
  exact Nat.zero_lt_succ _

/-- What a phrase that is not empty begins with. -/
def Phrase.BeginsIn : Phrase → List Token → Prop
  | operation k _ => Begins fun t => startsPath t || (k ≤ 6 && t == .operator .minus)
  | path _ => Begins startsPath
  | steps _ | step _ => Begins Parser.startsStep
  | test _ => Begins startsTest
  | primary _ => Begins Parser.startsPrimary
  | arguments _ => Begins fun t => startsPath t || t == .operator .minus
  | predicates _ | trailing _ => fun _ => True

theorem Derives.beginsIn {ts : List Token} {phrase : Phrase} (h : Derives ts phrase) :
    phrase.BeginsIn ts := by
  have ofPrimary : ∀ t, Parser.startsPrimary t = true → startsPath t = true := by
    intro t ht
    simp [startsPath, ht]
  have ofStep : ∀ t, Parser.startsStep t = true → startsPath t = true := by
    intro t ht
    simp [startsPath, ht]
  have ofTest : ∀ t, startsTest t = true → Parser.startsStep t = true := by
    intro t ht
    cases t <;> first | rfl | cases ht
  induction h with
  | operand hk _ ih =>
    refine Begins.mono (fun t ht => ?_) ih
    simp only [Bool.or_eq_true, Bool.and_eq_true, decide_eq_true_eq] at ht ⊢
    exact ht.imp_right fun h => ⟨by omega, h.2⟩
  | binary _ _ ih _ => exact Begins.append ih _
  | ofPath _ ih => exact Begins.mono (fun t ht => by simp [ht]) ih
  | relative _ ih => exact Begins.mono ofStep ih
  | alone _ ih => exact Begins.mono ofPrimary ih
  | filter _ _ _ _ ih =>
    rw [List.append_assoc]
    exact (Begins.mono ofPrimary ih).append _
  | oneStep _ ih => exact ih
  | stepChild _ _ ih _ | stepBelow _ _ ih _ => exact Begins.append ih _
  | plain _ _ ih _ => exact (Begins.mono ofTest ih).append _
  | oneArgument _ ih => exact Begins.mono (fun t ht => by simpa using ht) ih
  | argument _ _ ih _ =>
    exact (Begins.mono (q := fun t => startsPath t || t == .operator .minus)
      (fun t ht => by simpa using ht) ih).append _
  | noTrailing | trailingChild | trailingBelow | noPredicates | predicate => trivial
  | _ => rfl

theorem Derives.head?_ne_leftBracket {ts : List Token} {ss : List Step}
    (h : Derives ts (.trailing ss)) : ts.head? ≠ some .leftBracket := by
  cases h <;> exact fun heq => nomatch heq

theorem Derives.steps_ne_nil {ts : List Token} {ss : List Step} (h : Derives ts (.steps ss)) :
    ss ≠ [] := by
  cases h <;> exact List.cons_ne_nil _ _

/-! ## What derives a phrase is read as it -/

namespace Parser

variable {nested : Parser Expr} {depth : Nat}

theorem expect_cons (t : Token) (ts : List Token) : expect t (t :: ts) = .ok ((), ts) :=
  if_pos rfl

/-- The parser of the operations of a rank. -/
def ofRank (nested : Parser Expr) : Nat → Parser Expr
  | 6 => signed nested
  | 7 => unions nested
  | 8 => path nested
  | k => (levels.drop k).foldr chain (signed nested)

/-- The sign is the only rank without binary operators. -/
theorem ofRank_eq_chain {k : Nat} (hk : k < 8) (h6 : k ≠ 6) :
    ofRank nested k = chain (operatorsOf k) (ofRank nested (k + 1)) := by
  match k, hk with
  | 0, _ | 1, _ | 2, _ | 3, _ | 4, _ | 5, _ | 7, _ => rfl
  | 6, _ => exact absurd rfl h6

theorem chainUpTo_eq_ok {next : Parser Expr} {k : Nat} {rest : List Token}
    (hrest : ∀ op, rest.head? = some (.operator op) → op.rank ≠ k) (fuel : Nat) (left : Expr) :
    chainUpTo next (operatorsOf k) fuel left rest = .ok (left, rest) := by
  unfold chainUpTo
  split
  · rename_i op ts
    have hop : (operatorsOf k).contains op = false := by
      simpa only [List.contains_eq_mem, decide_eq_false_iff_not, mem_operatorsOf] using hrest op rfl
    rw [if_neg (by rw [hop]; decide)]
  · rfl

theorem chainUpTo_of_stopsAt {next : Parser Expr} {k : Nat} {rest : List Token}
    (hrest : StopsAt k rest) (fuel : Nat) (left : Expr) :
    chainUpTo next (operatorsOf k) fuel left rest = .ok (left, rest) := by
  refine chainUpTo_eq_ok (fun op hop => ?_) fuel left
  have hrank : op.rank < k := by simpa [Token.ends] using hrest _ hop
  omega

/-- The sign and the paths have no binary operators. -/
theorem chainUpTo_of_no_operator {next : Parser Expr} {k : Nat} (hk : k = 6 ∨ k = 8) (fuel : Nat)
    (left : Expr) (rest : List Token) :
    chainUpTo next (operatorsOf k) fuel left rest = .ok (left, rest) := by
  refine chainUpTo_eq_ok (fun op _ => ?_) fuel left
  rcases hk with rfl | rfl <;> cases op <;> decide

theorem chainUpTo_cons {next : Parser Expr} {op : Operator} {fuel : Nat} {left right : Expr}
    {ts rest : List Token} (h : next ts = .ok (right, rest)) :
    chainUpTo next (operatorsOf op.rank) (fuel + 1) left (.operator op :: ts) =
      chainUpTo next (operatorsOf op.rank) fuel (.binary left op right) rest := by
  have hop : (operatorsOf op.rank).contains op = true :=
    List.contains_iff_mem.mpr (mem_operatorsOf.mpr rfl)
  rw [chainUpTo, if_pos hop, h]
  rfl

theorem signed_of_begins {ts : List Token} (h : Begins startsPath ts) :
    signed nested ts = unions nested ts := by
  obtain ⟨t, us, rfl, ht⟩ := h.exists_cons
  unfold signed
  split
  · rename_i heq
    cases heq
    cases ht
  · rfl

/-- How the tokens of a phrase are read before tokens that do not go on with it, by parsers
that allow for expressions nested as deep as given, which for arguments does not count the
arguments themselves. -/
def ReadBy (depth : Nat) (ts : List Token) : Phrase → Prop
  | .operation k e => ∀ rest, StopsAt (k + 1) rest → ∃ fuel, rest.length ≤ fuel ∧
      ofRank (expression depth) k (ts ++ rest) =
        chainUpTo (ofRank (expression depth) (k + 1)) (operatorsOf k) fuel e rest
  | .path e => ∀ rest, StopsAt 9 rest → path (expression depth) (ts ++ rest) = .ok (e, rest)
  | .steps ss => ∀ rest, StopsAt 9 rest → ∃ s more left, ss = s :: more ∧
      step (expression depth) (ts ++ rest) = .ok (s, left) ∧
      left.length ≤ ts.length + rest.length ∧
      ∀ fuel, left.length ≤ fuel → moreStepsUpTo (expression depth) fuel left = .ok (more, rest)
  | .trailing ss => ∀ rest, StopsAt 9 rest →
      trailingSteps (expression depth) (ts ++ rest) = .ok (ss, rest)
  | .step s => ∀ rest, rest.head? ≠ some .leftBracket →
      step (expression depth) (ts ++ rest) = .ok (s, rest)
  | .test t => ∀ rest, nodeTest (ts ++ rest) = .ok (t, rest)
  | .predicates ps => ∀ rest, rest.head? ≠ some .leftBracket → ∀ fuel, ts.length ≤ fuel →
      predicatesUpTo (expression depth) fuel (ts ++ rest) = .ok (ps, rest)
  | .primary e => ∀ rest, primary (expression depth) (ts ++ rest) = .ok (e, rest)
  | .arguments es => ∀ rest fuel, ts.length ≤ fuel →
      argumentsUpTo (expression (depth + 1)) fuel (ts ++ .rightParen :: rest) = .ok (es, rest)

theorem ReadBy.eq_ok {k : Nat} {ts rest : List Token} {e : Expr}
    (h : ReadBy depth ts (.operation k e)) (hrest : StopsAt k rest) :
    ofRank (expression depth) k (ts ++ rest) = .ok (e, rest) := by
  obtain ⟨fuel, -, heq⟩ := h rest (hrest.mono (Nat.le_succ k))
  rw [heq, chainUpTo_of_stopsAt hrest]

/-- Expressions in brackets are read as the loosest operations. -/
theorem ReadBy.nested_eq_ok {ts rest : List Token} {e : Expr}
    (h : ReadBy depth ts (.operation 0 e)) (hrest : StopsAt 0 rest) :
    expression (depth + 1) (ts ++ rest) = .ok (e, rest) :=
  h.eq_ok hrest

theorem ReadBy.operand {k : Nat} (hk : k < 8) {ts : List Token} {e : Expr}
    (hts : Phrase.BeginsIn (.operation (k + 1) e) ts)
    (h : ReadBy depth ts (.operation (k + 1) e)) : ReadBy depth ts (.operation k e) := by
  intro rest hrest
  refine ⟨rest.length, Nat.le_refl _, ?_⟩
  by_cases h6 : k = 6
  · subst h6
    have hbegins : Begins startsPath (ts ++ rest) :=
      Begins.append (Begins.mono (fun t ht => by simpa using ht) hts) rest
    rw [chainUpTo_of_no_operator (.inl rfl)]
    exact (signed_of_begins hbegins).trans (h.eq_ok hrest)
  · rw [ofRank_eq_chain hk h6, chain, h.eq_ok hrest]
    rfl

theorem ReadBy.binary {op : Operator} {ts us : List Token} {left right : Expr}
    (hl : ReadBy depth ts (.operation op.rank left))
    (hr : ReadBy depth us (.operation (op.rank + 1) right)) :
    ReadBy depth (ts ++ .operator op :: us) (.operation op.rank (.binary left op right)) := by
  intro rest hrest
  have hop : StopsAt (op.rank + 1) (.operator op :: (us ++ rest)) :=
    .cons (by simp [Token.ends]) _
  obtain ⟨fuel, hfuel, heq⟩ := hl _ hop
  obtain ⟨fuel, rfl⟩ := Nat.exists_eq_add_of_lt (Nat.lt_of_lt_of_le (Nat.zero_lt_succ _) hfuel)
  refine ⟨0 + fuel, ?_, ?_⟩
  · simp only [List.length_cons, List.length_append] at hfuel
    omega
  · rw [List.append_assoc, List.cons_append, heq, chainUpTo_cons (hr.eq_ok hrest)]

theorem ReadBy.negate {ts : List Token} {e : Expr} (h : ReadBy depth ts (.operation 6 e)) :
    ReadBy depth (.operator .minus :: ts) (.operation 6 (.negate e)) := by
  intro rest hrest
  refine ⟨rest.length, Nat.le_refl _, ?_⟩
  obtain ⟨fuel, -, heq⟩ := h rest hrest
  rw [chainUpTo_of_no_operator (.inl rfl)] at heq ⊢
  exact bind_eq_ok heq rfl

theorem ReadBy.ofPath {ts : List Token} {e : Expr} (h : ReadBy depth ts (.path e)) :
    ReadBy depth ts (.operation 8 e) := by
  intro rest hrest
  refine ⟨rest.length, Nat.le_refl _, ?_⟩
  rw [chainUpTo_of_no_operator (.inr rfl)]
  exact h rest hrest

/-! ### Steps and predicates -/

theorem ReadBy.steps_eq_ok {ts rest : List Token} {ss : List Step}
    (h : ReadBy depth ts (.steps ss)) (hrest : StopsAt 9 rest) :
    steps (expression depth) (ts ++ rest) = .ok (ss, rest) := by
  obtain ⟨s, more, left, rfl, hs, -, hmore⟩ := h rest hrest
  exact bind_eq_ok hs (bind_eq_ok (hmore _ (Nat.le_refl _)) rfl)

theorem ReadBy.predicates_eq_ok {ts rest : List Token} {ps : List Expr}
    (h : ReadBy depth ts (.predicates ps)) (hrest : rest.head? ≠ some .leftBracket) :
    predicates (expression depth) (ts ++ rest) = .ok (ps, rest) :=
  h rest hrest _ (by rw [List.length_append]; omega)

theorem ReadBy.stepAlong_eq_ok {ts us rest : List Token} {t : NodeTest} {ps : List Expr}
    (ht : ReadBy depth ts (.test t)) (hps : ReadBy depth us (.predicates ps)) (axis : Axis)
    (hrest : rest.head? ≠ some .leftBracket) :
    stepAlong (expression depth) axis (ts ++ us ++ rest) = .ok (.mk axis t ps, rest) := by
  rw [List.append_assoc]
  exact bind_eq_ok (ht _) (bind_eq_ok (hps.predicates_eq_ok hrest) rfl)

theorem ReadBy.plain {ts us : List Token} {t : NodeTest} {ps : List Expr}
    (hts : Begins startsTest ts) (ht : ReadBy depth ts (.test t))
    (hps : ReadBy depth us (.predicates ps)) :
    ReadBy depth (ts ++ us) (.step (.mk .child t ps)) := by
  intro rest hrest
  rw [← ht.stepAlong_eq_ok hps .child hrest]
  obtain ⟨t', ts', rfl, ht'⟩ := hts.exists_cons
  cases t' <;> first | rfl | cases ht'

theorem ReadBy.along {axis : Axis} {ts us : List Token} {t : NodeTest} {ps : List Expr}
    (ht : ReadBy depth ts (.test t)) (hps : ReadBy depth us (.predicates ps)) :
    ReadBy depth (.axisName axis.text :: .doubleColon :: (ts ++ us))
      (.step (.mk axis t ps)) := by
  intro rest hrest
  have haxis : Axis.ofString? axis.text = some axis := by cases axis <;> decide
  refine bind_eq_ok (expect_cons _ _) ?_
  dsimp only
  rw [haxis]
  exact ht.stepAlong_eq_ok hps axis hrest

theorem ReadBy.oneStep {ts : List Token} {s : Step} (h : ReadBy depth ts (.step s)) :
    ReadBy depth ts (.steps [s]) := by
  intro rest hrest
  refine ⟨s, [], rest, rfl, h rest (hrest.head?_ne rfl), by omega, fun fuel _ => ?_⟩
  unfold moreStepsUpTo
  split
  · exact absurd rfl (hrest.head?_ne (t := .slash) rfl)
  · exact absurd rfl (hrest.head?_ne (t := .doubleSlash) rfl)
  · rfl

/-- The tokens between two steps, with the steps that they stand for. -/
inductive JoinsSteps : Token → List Step → Prop where
  | slash : JoinsSteps .slash []
  | doubleSlash : JoinsSteps .doubleSlash [.anywhere]

theorem JoinsSteps.moreSteps_eq_ok {t : Token} {between : List Step} (h : JoinsSteps t between)
    {fuel : Nat} {ts left rest : List Token} {s : Step} {more : List Step}
    (hs : step nested ts = .ok (s, left))
    (hmore : moreStepsUpTo nested fuel left = .ok (more, rest)) :
    moreStepsUpTo nested (fuel + 1) (t :: ts) = .ok (between ++ s :: more, rest) := by
  cases h <;> exact bind_eq_ok hs (bind_eq_ok hmore rfl)

theorem ReadBy.joinedSteps {t : Token} {between : List Step} (h : JoinsSteps t between)
    {ts us : List Token} {s : Step} {ss : List Step} (hs : ReadBy depth ts (.step s))
    (hss : ReadBy depth us (.steps ss)) :
    ReadBy depth (ts ++ t :: us) (.steps (s :: (between ++ ss))) := by
  intro rest hrest
  obtain ⟨s', more, left, rfl, hs', hleft, hmore⟩ := hss rest hrest
  have hstep := hs (t :: (us ++ rest)) (by cases h <;> simp)
  refine ⟨s, between ++ s' :: more, t :: (us ++ rest), rfl, ?_, ?_, fun fuel hfuel => ?_⟩
  · rw [List.append_assoc]
    exact hstep
  · simp only [List.length_cons, List.length_append]
    omega
  · simp only [List.length_cons, List.length_append] at hfuel
    match fuel, hfuel with
    | fuel + 1, hfuel => exact h.moreSteps_eq_ok hs' (hmore fuel (by omega))

/-! ### Paths -/

theorem path_of_startsPrimary {ts : List Token} (hts : Begins startsPrimary ts) :
    path nested ts = filterExpr nested ts := by
  obtain ⟨t, ts, rfl, ht⟩ := hts.exists_cons
  cases t <;> first | rfl | cases ht

theorem path_of_startsStep {ts : List Token} (hts : Begins startsStep ts) :
    path nested ts = (do let (ss, ts) ← steps nested ts; .ok (.path false ss, ts)) := by
  obtain ⟨t, ts, rfl, ht⟩ := hts.exists_cons
  cases t <;> first | rfl | cases ht

theorem ReadBy.root : ReadBy depth [.slash] (.path (.path true [])) := by
  intro rest hrest
  refine if_neg fun h => ?_
  cases rest with
  | nil => cases h
  | cons t rest =>
    have ht := hrest t rfl
    have hstep : startsStep t = true := h
    cases t <;> first | exact absurd hstep Bool.false_ne_true | exact absurd ht Bool.false_ne_true

theorem ReadBy.absolute {ts : List Token} {ss : List Step} (hts : Begins startsStep ts)
    (h : ReadBy depth ts (.steps ss)) : ReadBy depth (.slash :: ts) (.path (.path true ss)) := by
  intro rest hrest
  exact (if_pos (hts.append rest)).trans (bind_eq_ok (h.steps_eq_ok hrest) rfl)

theorem ReadBy.relative {ts : List Token} {ss : List Step} (hts : Begins startsStep ts)
    (h : ReadBy depth ts (.steps ss)) : ReadBy depth ts (.path (.path false ss)) := by
  intro rest hrest
  rw [path_of_startsStep (hts.append rest)]
  exact bind_eq_ok (h.steps_eq_ok hrest) rfl

theorem ReadBy.noTrailing : ReadBy depth [] (.trailing []) := by
  intro rest hrest
  rw [List.nil_append]
  unfold trailingSteps
  split
  · exact absurd rfl (hrest.head?_ne (t := .slash) rfl)
  · exact absurd rfl (hrest.head?_ne (t := .doubleSlash) rfl)
  · rfl

theorem ReadBy.trailing {ts : List Token} {ss : List Step} (h : ReadBy depth ts (.steps ss)) :
    ReadBy depth (.slash :: ts) (.trailing ss) :=
  fun _ hrest => h.steps_eq_ok hrest

theorem filtered_of_ne {e : Expr} {ps : List Expr} {ss : List Step} (h : ps ≠ [] ∨ ss ≠ []) :
    filtered e ps ss = .filter e ps ss := by
  refine if_neg ?_
  rw [Bool.and_eq_true, List.isEmpty_iff, List.isEmpty_iff]
  exact fun ⟨hps, hss⟩ => h.elim (· hps) (· hss)

theorem ReadBy.filter {ts us vs : List Token} {e : Expr} {ps : List Expr} {ss : List Step}
    (hts : Begins startsPrimary ts) (he : ReadBy depth ts (.primary e))
    (hps : ReadBy depth us (.predicates ps)) (hss : ReadBy depth vs (.trailing ss))
    (hvs : vs.head? ≠ some .leftBracket) :
    ReadBy depth (ts ++ us ++ vs) (.path (filtered e ps ss)) := by
  intro rest hrest
  have hhead : (vs ++ rest).head? ≠ some .leftBracket := by
    cases vs with
    | nil => exact hrest.head?_ne rfl
    | cons t vs => exact hvs
  simp only [List.append_assoc]
  rw [path_of_startsPrimary (hts.append _)]
  exact bind_eq_ok (he _) (bind_eq_ok (hps.predicates_eq_ok hhead) (bind_eq_ok (hss rest hrest) rfl))

/-! ### Brackets -/

theorem ReadBy.noPredicates : ReadBy depth [] (.predicates []) := by
  intro rest hrest fuel _
  rw [List.nil_append]
  unfold predicatesUpTo
  split
  · exact absurd rfl hrest
  · rfl

theorem ReadBy.predicate {ts us : List Token} {p : Expr} {ps : List Expr}
    (hp : ReadBy depth ts (.operation 0 p))
    (hps : ReadBy (depth + 1) us (.predicates ps)) :
    ReadBy (depth + 1) (.leftBracket :: (ts ++ .rightBracket :: us))
      (.predicates (p :: ps)) := by
  intro rest hrest fuel hfuel
  simp only [List.length_cons, List.length_append] at hfuel
  match fuel, hfuel with
  | fuel + 1, hfuel =>
    rw [List.cons_append, List.append_assoc]
    exact bind_eq_ok (hp.nested_eq_ok (.cons rfl _))
      (bind_eq_ok (expect_cons _ _) (bind_eq_ok (hps rest hrest fuel (by omega)) rfl))

theorem ReadBy.parens {ts : List Token} {e : Expr}
    (h : ReadBy depth ts (.operation 0 e)) :
    ReadBy (depth + 1) (.leftParen :: (ts ++ [.rightParen])) (.primary e) := by
  intro rest
  rw [List.cons_append, List.append_assoc]
  exact bind_eq_ok (h.nested_eq_ok (.cons rfl _)) (bind_eq_ok (expect_cons _ _) rfl)

theorem ReadBy.oneArgument {ts : List Token} {e : Expr} (hts : 0 < ts.length)
    (h : ReadBy depth ts (.operation 0 e)) : ReadBy depth ts (.arguments [e]) := by
  intro rest fuel hfuel
  match fuel, hfuel with
  | 0, hfuel => omega
  | fuel + 1, _ => exact bind_eq_ok (h.nested_eq_ok (.cons rfl _)) rfl

theorem ReadBy.argument {ts us : List Token} {e : Expr} {es : List Expr}
    (he : ReadBy depth ts (.operation 0 e)) (hes : ReadBy depth us (.arguments es)) :
    ReadBy depth (ts ++ .comma :: us) (.arguments (e :: es)) := by
  intro rest fuel hfuel
  simp only [List.length_cons, List.length_append] at hfuel
  match fuel, hfuel with
  | fuel + 1, hfuel =>
    rw [List.append_assoc]
    exact bind_eq_ok (he.nested_eq_ok (.cons rfl _))
      (bind_eq_ok (expect_cons _ _) (bind_eq_ok (hes rest fuel (by omega)) rfl))

theorem arguments_of_begins {p : Token → Bool} (hp : p .rightParen = false) {ts : List Token}
    (hts : Begins p ts) : arguments nested ts = argumentsUpTo nested (ts.length + 1) ts := by
  obtain ⟨t, ts, rfl, ht⟩ := hts.exists_cons
  unfold arguments
  split
  · rename_i heq
    cases heq
    rw [hp] at ht
    cases ht
  · rfl

theorem ReadBy.call {f : String} {ts : List Token} {es : List Expr}
    (hts : Phrase.BeginsIn (.arguments es) ts) (h : ReadBy depth ts (.arguments es)) :
    ReadBy (depth + 1) (.functionName f :: .leftParen :: (ts ++ [.rightParen]))
      (.primary (.call f es)) := by
  intro rest
  have hargs : arguments (expression (depth + 1)) (ts ++ .rightParen :: rest) = .ok (es, rest) := by
    rw [arguments_of_begins rfl (Begins.append hts _)]
    exact h rest _ (by rw [List.length_append]; omega)
  simp only [List.cons_append, List.append_assoc, List.nil_append]
  exact bind_eq_ok (expect_cons _ _) (bind_eq_ok hargs rfl)

/-- Tokens that derive a phrase are read as it by parsers that allow for expressions nested as
deep as there are tokens. -/
theorem readBy_of_derives {ts : List Token} {phrase : Phrase} (h : Derives ts phrase)
    {depth : Nat} (hdepth : ts.length ≤ depth) : ReadBy depth ts phrase := by
  induction h generalizing depth with
  | operand hk h ih => exact (ih hdepth).operand hk h.beginsIn
  | binary hl hr ihl ihr =>
    simp only [List.length_append, List.length_cons] at hdepth
    exact (ihl (by omega)).binary (ihr (by omega))
  | negate h ih =>
    rw [List.length_cons] at hdepth
    exact (ih (by omega)).negate
  | ofPath h ih => exact (ih hdepth).ofPath
  | root => exact .root
  | absolute h ih =>
    rw [List.length_cons] at hdepth
    exact (ih (by omega)).absolute h.beginsIn
  | anywhere h ih =>
    rw [List.length_cons] at hdepth
    exact fun rest hrest => bind_eq_ok ((ih (by omega)).steps_eq_ok hrest) rfl
  | relative h ih => exact (ih hdepth).relative h.beginsIn
  | alone h ih =>
    have hread := (ih hdepth).filter h.beginsIn .noPredicates .noTrailing (by simp)
    rw [List.append_nil, List.append_nil] at hread
    exact hread
  | filter he hps hss hne ihe ihps ihss =>
    simp only [List.length_append] at hdepth
    rw [← filtered_of_ne hne]
    exact (ihe (by omega)).filter he.beginsIn (ihps (by omega)) (ihss (by omega))
      hss.head?_ne_leftBracket
  | oneStep h ih => exact (ih hdepth).oneStep
  | stepChild hs hss ihs ihss =>
    simp only [List.length_append, List.length_cons] at hdepth
    exact (ihs (by omega)).joinedSteps .slash (ihss (by omega))
  | stepBelow hs hss ihs ihss =>
    simp only [List.length_append, List.length_cons] at hdepth
    exact (ihs (by omega)).joinedSteps .doubleSlash (ihss (by omega))
  | noTrailing => exact .noTrailing
  | trailingChild h ih =>
    rw [List.length_cons] at hdepth
    exact (ih (by omega)).trailing
  | trailingBelow h ih =>
    rw [List.length_cons] at hdepth
    exact fun rest hrest => bind_eq_ok ((ih (by omega)).steps_eq_ok hrest) rfl
  | plain ht hps iht ihps =>
    rw [List.length_append] at hdepth
    exact (iht (by omega)).plain ht.beginsIn (ihps (by omega))
  | attributes ht hps iht ihps =>
    simp only [List.length_append, List.length_cons] at hdepth
    exact fun rest hrest => (iht (by omega)).stepAlong_eq_ok (ihps (by omega)) _ hrest
  | along ht hps iht ihps =>
    simp only [List.length_append, List.length_cons] at hdepth
    exact (iht (by omega)).along (ihps (by omega))
  | noPredicates => exact .noPredicates
  | predicate hp hps ihp ihps =>
    simp only [List.length_append, List.length_cons] at hdepth
    obtain ⟨depth, rfl⟩ : ∃ d, depth = d + 1 := ⟨depth - 1, by omega⟩
    exact (ihp (by omega)).predicate (ihps (by omega))
  | parens h ih =>
    simp only [List.length_append, List.length_cons] at hdepth
    obtain ⟨depth, rfl⟩ : ∃ d, depth = d + 1 := ⟨depth - 1, by omega⟩
    exact (ih (by omega)).parens
  | call h ih =>
    simp only [List.length_append, List.length_cons] at hdepth
    obtain ⟨depth, rfl⟩ : ∃ d, depth = d + 1 := ⟨depth - 1, by omega⟩
    exact (ih (by omega)).call h.beginsIn
  | oneArgument h ih => exact (ih hdepth).oneArgument (Begins.length_pos h.beginsIn)
  | argument he hes ihe ihes =>
    simp only [List.length_append, List.length_cons] at hdepth
    exact (ihe (by omega)).argument (ihes (by omega))
  | here | up => exact fun _ _ => rfl
  | variableName | literal | number | name | comment | text | node | instruction
  | instructionFor | emptyCall => exact fun _ => rfl

end Parser

theorem Derives.expr_eq_ok {ts : List Token} {e : Expr} (h : Derives ts (.operation 0 e)) :
    Parser.expr ts = .ok (e, []) := by
  have hread := (Parser.readBy_of_derives h (Nat.le_refl _)).nested_eq_ok (.nil 0)
  rwa [List.append_nil] at hread

/-- The grammar is not ambiguous: the same tokens derive one expression at most. -/
theorem Derives.unique {ts : List Token} {e e' : Expr} (h : Derives ts (.operation 0 e))
    (h' : Derives ts (.operation 0 e')) : e = e' := by
  have heq := h.expr_eq_ok.symm.trans h'.expr_eq_ok
  cases heq
  rfl

/-- The parser accepts exactly the expressions of the grammar: it reads all of some tokens as an
expression if and only if they derive it. -/
theorem expr_eq_ok_iff_derives {ts : List Token} (hts : KnownTypes ts) (e : Expr) :
    Parser.expr ts = .ok (e, []) ↔ Derives ts (.operation 0 e) :=
  ⟨Parser.derives_of_expr hts, Derives.expr_eq_ok⟩

/-- In `-a | b * text()` the sign is looser than the union and tighter than the product. -/
theorem expr_eq_ok_iff_derives_signedUnion :
    KnownTypes [.operator .minus, .nameTest "a", .operator .union, .nameTest "b",
      .operator .multiply, .nodeType "text", .leftParen, .rightParen] ∧
    Derives [.operator .minus, .nameTest "a", .operator .union, .nameTest "b",
        .operator .multiply, .nodeType "text", .leftParen, .rightParen]
      (.operation 0 (.binary
        (.negate (.binary (.path false [.mk .child (.name "a") []]) .union
          (.path false [.mk .child (.name "b") []])))
        .multiply (.path false [.mk .child .text []]))) := by
  have hknown : KnownTypes [.operator .minus, .nameTest "a", .operator .union, .nameTest "b",
      .operator .multiply, .nodeType "text", .leftParen, .rightParen] := by
    intro name hname
    obtain rfl : name = "text" := by simpa using hname
    decide
  exact ⟨hknown, (expr_eq_ok_iff_derives hknown _).mp rfl⟩

end XPath
end TagGrammar
