/-
The grammar of expressions.

`Derives` says which tokens make which expression, production by production: nothing is
tried in an order, no token is looked at before its turn and no depth is counted.  A parser
`Reads` a phrase if what it takes derives what it makes, and tokens that derive a phrase are
`ReadBy` the parser of the phrase whatever follows that cannot go on with it.  So the tokens
that are read as an expression are exactly those that derive one.
-/
import TagGrammar.Proofs.Except
import TagGrammar.XPath.Parser

namespace TagGrammar
namespace XPath

/-- How tight a binary operator binds.  The sign has the rank 6, between products and
unions. -/
def Operator.rank : Operator → Nat
  | or => 0
  | and => 1
  | equal | notEqual => 2
  | less | lessOrEqual | greater | greaterOrEqual => 3
  | plus | minus => 4
  | multiply | div | mod => 5
  | union => 7

/-- What a symbol of the grammar stands for. -/
inductive Phrase where
  /-- An expression with no operator looser than a rank outside its brackets.  From 0 to 7
  these are disjunctions, conjunctions, equalities, comparisons, sums, products, signed
  unions and unions. -/
  | operation (rank : Nat) (e : Expr)
  | path (e : Expr)
  /-- Steps separated by slashes. -/
  | steps (ss : List Step)
  /-- The steps that may follow an expression. -/
  | trailing (ss : List Step)
  | step (s : Step)
  | test (t : NodeTest)
  /-- Predicates, each in brackets. -/
  | predicates (ps : List Expr)
  /-- What a path may start from instead of a step. -/
  | primary (e : Expr)
  /-- Arguments separated by commas. -/
  | arguments (es : List Expr)

/-- The productions of the grammar. -/
inductive Derives : List Token → Phrase → Prop where
  | operand {k : Nat} {ts : List Token} {e : Expr} (hk : k < 8)
      (h : Derives ts (.operation (k + 1) e)) : Derives ts (.operation k e)
  | binary {op : Operator} {ts us : List Token} {left right : Expr}
      (hl : Derives ts (.operation op.rank left))
      (hr : Derives us (.operation (op.rank + 1) right)) :
      Derives (ts ++ .operator op :: us) (.operation op.rank (.binary left op right))
  | negate {ts : List Token} {e : Expr} (h : Derives ts (.operation 6 e)) :
      Derives (.operator .minus :: ts) (.operation 6 (.negate e))
  | ofPath {ts : List Token} {e : Expr} (h : Derives ts (.path e)) : Derives ts (.operation 8 e)
  | root : Derives [.slash] (.path (.path true []))
  | absolute {ts : List Token} {ss : List Step} (h : Derives ts (.steps ss)) :
      Derives (.slash :: ts) (.path (.path true ss))
  | anywhere {ts : List Token} {ss : List Step} (h : Derives ts (.steps ss)) :
      Derives (.doubleSlash :: ts) (.path (.path true (.mk .descendantOrSelf .node [] :: ss)))
  | relative {ts : List Token} {ss : List Step} (h : Derives ts (.steps ss)) :
      Derives ts (.path (.path false ss))
  | alone {ts : List Token} {e : Expr} (h : Derives ts (.primary e)) : Derives ts (.path e)
  | filter {ts us vs : List Token} {e : Expr} {ps : List Expr} {ss : List Step}
      (he : Derives ts (.primary e)) (hps : Derives us (.predicates ps))
      (hss : Derives vs (.trailing ss)) (hne : ps ≠ [] ∨ ss ≠ []) :
      Derives (ts ++ us ++ vs) (.path (.filter e ps ss))
  | oneStep {ts : List Token} {s : Step} (h : Derives ts (.step s)) : Derives ts (.steps [s])
  | stepChild {ts us : List Token} {s : Step} {ss : List Step} (hs : Derives ts (.step s))
      (hss : Derives us (.steps ss)) : Derives (ts ++ .slash :: us) (.steps (s :: ss))
  | stepBelow {ts us : List Token} {s : Step} {ss : List Step} (hs : Derives ts (.step s))
      (hss : Derives us (.steps ss)) :
      Derives (ts ++ .doubleSlash :: us) (.steps (s :: .mk .descendantOrSelf .node [] :: ss))
  | noTrailing : Derives [] (.trailing [])
  | trailingChild {ts : List Token} {ss : List Step} (h : Derives ts (.steps ss)) :
      Derives (.slash :: ts) (.trailing ss)
  | trailingBelow {ts : List Token} {ss : List Step} (h : Derives ts (.steps ss)) :
      Derives (.doubleSlash :: ts) (.trailing (.mk .descendantOrSelf .node [] :: ss))
  | here : Derives [.dot] (.step (.mk .self .node []))
  | up : Derives [.dotDot] (.step (.mk .parent .node []))
  | plain {ts us : List Token} {t : NodeTest} {ps : List Expr} (ht : Derives ts (.test t))
      (hps : Derives us (.predicates ps)) : Derives (ts ++ us) (.step (.mk .child t ps))
  | attributes {ts us : List Token} {t : NodeTest} {ps : List Expr} (ht : Derives ts (.test t))
      (hps : Derives us (.predicates ps)) :
      Derives (.atSign :: (ts ++ us)) (.step (.mk .attributes t ps))
  | along {axis : Axis} {ts us : List Token} {t : NodeTest} {ps : List Expr}
      (ht : Derives ts (.test t)) (hps : Derives us (.predicates ps)) :
      Derives (.axisName axis.text :: .doubleColon :: (ts ++ us)) (.step (.mk axis t ps))
  | name {n : String} : Derives [.nameTest n] (.test (.name n))
  | comment : Derives [.nodeType "comment", .leftParen, .rightParen] (.test .comment)
  | text : Derives [.nodeType "text", .leftParen, .rightParen] (.test .text)
  | node : Derives [.nodeType "node", .leftParen, .rightParen] (.test .node)
  | instruction : Derives [.nodeType "processing-instruction", .leftParen, .rightParen]
      (.test (.processingInstruction none))
  | instructionFor {target : String} :
      Derives [.nodeType "processing-instruction", .leftParen, .literal target, .rightParen]
        (.test (.processingInstruction (some target)))
  | noPredicates : Derives [] (.predicates [])
  | predicate {ts us : List Token} {p : Expr} {ps : List Expr}
      (hp : Derives ts (.operation 0 p)) (hps : Derives us (.predicates ps)) :
      Derives (.leftBracket :: (ts ++ .rightBracket :: us)) (.predicates (p :: ps))
  | variableName {n : String} : Derives [.variable n] (.primary (.variable n))
  | literal {value : String} : Derives [.literal value] (.primary (.literal value))
  | number {value : Number} : Derives [.number value] (.primary (.number value))
  | parens {ts : List Token} {e : Expr} (h : Derives ts (.operation 0 e)) :
      Derives (.leftParen :: (ts ++ [.rightParen])) (.primary e)
  | emptyCall {f : String} :
      Derives [.functionName f, .leftParen, .rightParen] (.primary (.call f []))
  | call {f : String} {ts : List Token} {es : List Expr} (h : Derives ts (.arguments es)) :
      Derives (.functionName f :: .leftParen :: (ts ++ [.rightParen])) (.primary (.call f es))
  | oneArgument {ts : List Token} {e : Expr} (h : Derives ts (.operation 0 e)) :
      Derives ts (.arguments [e])
  | argument {ts us : List Token} {e : Expr} {es : List Expr}
      (he : Derives ts (.operation 0 e)) (hes : Derives us (.arguments es)) :
      Derives (ts ++ .comma :: us) (.arguments (e :: es))

/-- Every node type among some tokens is one of those there are. -/
def KnownTypes (ts : List Token) : Prop :=
  ∀ name, Token.nodeType name ∈ ts → name ∈ Lexer.nodeTypes

theorem KnownTypes.right {a b : List Token} (h : KnownTypes (a ++ b)) : KnownTypes b :=
  fun name hname => h name (List.mem_append_right a hname)

theorem KnownTypes.tail {t : Token} {ts : List Token} (h : KnownTypes (t :: ts)) :
    KnownTypes ts := KnownTypes.right (a := [t]) h

namespace Parser

variable {nested : Parser Expr}

/-! ## What is read derives what is made -/

theorem eq_cons_of_expect {t : Token} {ts rest : List Token} {u : Unit}
    (h : expect t ts = .ok (u, rest)) : ts = t :: rest := by
  cases ts with
  | nil => simp [expect] at h
  | cons t' ts =>
    by_cases ht : t' = t
    · simp only [expect, ht, if_true, Except.ok.injEq, Prod.mk.injEq, true_and] at h
      rw [ht, h]
    · simp [expect, ht] at h

/-- What a parser takes derives what it makes of it. -/
def Reads {α : Type} (p : Parser α) (phrase : α → Phrase) : Prop :=
  ∀ ts x rest, KnownTypes ts → p ts = .ok (x, rest) →
    ∃ read, ts = read ++ rest ∧ Derives read (phrase x)

theorem predicatesUpTo_reads (hn : Reads nested (.operation 0)) (fuel : Nat) :
    Reads (predicatesUpTo nested fuel) .predicates := by
  induction fuel with
  | zero =>
    intro ts es rest _ h
    cases h
    exact ⟨[], rfl, .noPredicates⟩
  | succ fuel ih =>
    intro ts es rest hts h
    unfold predicatesUpTo at h
    split at h
    · rename_i fuel' ts hfuel
      obtain rfl : fuel = fuel' := Nat.succ.inj hfuel
      obtain ⟨⟨e, ts₁⟩, he, h⟩ := bind_eq_ok_iff.mp h
      obtain ⟨⟨_, ts₂⟩, hclose, h⟩ := bind_eq_ok_iff.mp h
      obtain ⟨⟨es', ts₃⟩, hes, h⟩ := bind_eq_ok_iff.mp h
      cases h
      obtain ⟨r₁, rfl, h₁⟩ := hn _ _ _ hts.tail he
      obtain rfl := eq_cons_of_expect hclose
      obtain ⟨r₂, rfl, h₂⟩ := ih _ _ _ hts.tail.right.tail hes
      exact ⟨_, by simp, .predicate h₁ h₂⟩
    · cases h
      exact ⟨[], rfl, .noPredicates⟩

theorem predicates_reads (hn : Reads nested (.operation 0)) :
    Reads (predicates nested) .predicates :=
  fun ts => predicatesUpTo_reads hn ts.length ts

theorem typeTest_reads {name : String} (hname : name ∈ Lexer.nodeTypes) {ts rest : List Token}
    {t : NodeTest} (h : typeTest name ts = .ok (t, rest)) :
    ∃ read, ts = read ++ rest ∧
      Derives (.nodeType name :: .leftParen :: (read ++ [.rightParen])) (.test t) := by
  simp only [Lexer.nodeTypes, List.mem_cons, List.not_mem_nil, or_false] at hname
  rcases hname with rfl | rfl | rfl | rfl
  · cases h
    exact ⟨[], rfl, .comment⟩
  · cases h
    exact ⟨[], rfl, .node⟩
  · cases ts with
    | nil =>
      cases h
      exact ⟨[], rfl, .instruction⟩
    | cons t' ts =>
      cases t' with
      | literal target =>
        cases h
        exact ⟨[.literal target], rfl, .instructionFor⟩
      | _ =>
        cases h
        exact ⟨[], rfl, .instruction⟩
  · cases h
    exact ⟨[], rfl, .text⟩

theorem nodeTest_reads : Reads nodeTest .test := by
  intro ts t rest hts h
  unfold nodeTest at h
  split at h
  · cases h
  · cases h
    exact ⟨_, rfl, .name⟩
  · rename_i name ts
    obtain ⟨⟨_, ts₁⟩, hopen, h⟩ := bind_eq_ok_iff.mp h
    obtain ⟨⟨t', ts₂⟩, htest, h⟩ := bind_eq_ok_iff.mp h
    obtain ⟨⟨_, ts₃⟩, hclose, h⟩ := bind_eq_ok_iff.mp h
    cases h
    obtain rfl := eq_cons_of_expect hopen
    obtain rfl := eq_cons_of_expect hclose
    obtain ⟨read, rfl, hread⟩ := typeTest_reads (hts name (List.mem_cons_self ..)) htest
    exact ⟨_, by simp, hread⟩
  · cases h

theorem stepAlong_reads (hn : Reads nested (.operation 0)) {axis : Axis} (lead : List Token)
    {ts rest : List Token} {s : Step} (hts : KnownTypes ts)
    (hlead : ∀ {us vs t ps}, Derives us (.test t) → Derives vs (.predicates ps) →
      Derives (lead ++ (us ++ vs)) (.step (.mk axis t ps)))
    (h : stepAlong nested axis ts = .ok (s, rest)) :
    ∃ read, lead ++ ts = read ++ rest ∧ Derives read (.step s) := by
  obtain ⟨⟨t, ts₁⟩, ht, h⟩ := bind_eq_ok_iff.mp h
  obtain ⟨⟨ps, ts₂⟩, hps, h⟩ := bind_eq_ok_iff.mp h
  cases h
  obtain ⟨r₁, rfl, h₁⟩ := nodeTest_reads _ _ _ hts ht
  obtain ⟨r₂, rfl, h₂⟩ := predicates_reads hn _ _ _ hts.right hps
  exact ⟨_, by simp, hlead h₁ h₂⟩

theorem step_reads (hn : Reads nested (.operation 0)) : Reads (step nested) .step := by
  intro ts s rest hts h
  unfold step at h
  split at h
  · cases h
  · cases h
    exact ⟨_, rfl, .here⟩
  · cases h
    exact ⟨_, rfl, .up⟩
  · exact stepAlong_reads hn [.atSign] hts.tail .attributes h
  · rename_i name ts
    obtain ⟨⟨_, ts₁⟩, hcolon, h⟩ := bind_eq_ok_iff.mp h
    obtain rfl := eq_cons_of_expect hcolon
    split at h
    · rename_i axis haxis
      have hname : axis.text = name := by simpa using List.find?_some haxis
      rw [← hname]
      exact stepAlong_reads hn [.axisName axis.text, .doubleColon] hts.tail.tail .along h
    · cases h
  · exact stepAlong_reads hn [] hts .plain h

theorem moreStepsUpTo_reads (hn : Reads nested (.operation 0)) (fuel : Nat) {lead ts rest : List Token}
    {s : Step} {ss : List Step} (hts : KnownTypes ts) (hlead : Derives lead (.step s))
    (h : moreStepsUpTo nested fuel ts = .ok (ss, rest)) :
    ∃ read, ts = read ++ rest ∧ Derives (lead ++ read) (.steps (s :: ss)) := by
  induction fuel generalizing lead ts s ss with
  | zero =>
    cases h
    exact ⟨[], rfl, by simpa using .oneStep hlead⟩
  | succ fuel ih =>
    unfold moreStepsUpTo at h
    split at h
    · rename_i fuel' ts hfuel
      obtain rfl : fuel = fuel' := Nat.succ.inj hfuel
      obtain ⟨⟨s', ts₁⟩, hs, h⟩ := bind_eq_ok_iff.mp h
      obtain ⟨⟨ss', ts₂⟩, hss, h⟩ := bind_eq_ok_iff.mp h
      cases h
      obtain ⟨r₁, rfl, h₁⟩ := step_reads hn _ _ _ hts.tail hs
      obtain ⟨r₂, rfl, h₂⟩ := ih hts.tail.right h₁ hss
      exact ⟨.slash :: (r₁ ++ r₂), by simp, .stepChild hlead h₂⟩
    · rename_i fuel' ts hfuel
      obtain rfl : fuel = fuel' := Nat.succ.inj hfuel
      obtain ⟨⟨s', ts₁⟩, hs, h⟩ := bind_eq_ok_iff.mp h
      obtain ⟨⟨ss', ts₂⟩, hss, h⟩ := bind_eq_ok_iff.mp h
      cases h
      obtain ⟨r₁, rfl, h₁⟩ := step_reads hn _ _ _ hts.tail hs
      obtain ⟨r₂, rfl, h₂⟩ := ih hts.tail.right h₁ hss
      exact ⟨.doubleSlash :: (r₁ ++ r₂), by simp, .stepBelow hlead h₂⟩
    · cases h
      exact ⟨[], rfl, by simpa using .oneStep hlead⟩

theorem steps_reads (hn : Reads nested (.operation 0)) : Reads (steps nested) .steps := by
  intro ts ss rest hts h
  obtain ⟨⟨s, ts₁⟩, hs, h⟩ := bind_eq_ok_iff.mp h
  obtain ⟨⟨ss', ts₂⟩, hss, h⟩ := bind_eq_ok_iff.mp h
  cases h
  obtain ⟨r₁, rfl, h₁⟩ := step_reads hn _ _ _ hts hs
  obtain ⟨r₂, rfl, h₂⟩ := moreStepsUpTo_reads hn _ hts.right h₁ hss
  exact ⟨r₁ ++ r₂, by simp, h₂⟩

theorem argumentsUpTo_reads (hn : Reads nested (.operation 0)) (fuel : Nat) {ts rest : List Token}
    {es : List Expr} (hts : KnownTypes ts) (h : argumentsUpTo nested fuel ts = .ok (es, rest)) :
    ∃ read, ts = read ++ .rightParen :: rest ∧ Derives read (.arguments es) := by
  induction fuel generalizing ts es with
  | zero => cases h
  | succ fuel ih =>
    rw [argumentsUpTo, bind_eq_ok_iff] at h
    obtain ⟨⟨e, ts₁⟩, he, h⟩ := h
    obtain ⟨r₁, rfl, h₁⟩ := hn _ _ _ hts he
    dsimp only at h
    split at h
    · cases h
      exact ⟨r₁, rfl, .oneArgument h₁⟩
    · obtain ⟨⟨_, ts₂⟩, hcomma, h⟩ := bind_eq_ok_iff.mp h
      obtain ⟨⟨es', ts₃⟩, hes, h⟩ := bind_eq_ok_iff.mp h
      cases h
      obtain rfl := eq_cons_of_expect hcomma
      obtain ⟨r₂, rfl, h₂⟩ := ih hts.right.tail hes
      exact ⟨r₁ ++ .comma :: r₂, by simp, .argument h₁ h₂⟩

theorem primary_reads (hn : Reads nested (.operation 0)) : Reads (primary nested) .primary := by
  intro ts e rest hts h
  unfold primary at h
  split at h
  · cases h
  · cases h
    exact ⟨_, rfl, .variableName⟩
  · cases h
    exact ⟨_, rfl, .literal⟩
  · cases h
    exact ⟨_, rfl, .number⟩
  · obtain ⟨⟨e', ts₁⟩, he, h⟩ := bind_eq_ok_iff.mp h
    obtain ⟨⟨_, ts₂⟩, hclose, h⟩ := bind_eq_ok_iff.mp h
    cases h
    obtain ⟨read, rfl, hread⟩ := hn _ _ _ hts.tail he
    obtain rfl := eq_cons_of_expect hclose
    exact ⟨_, by simp, .parens hread⟩
  · obtain ⟨⟨_, ts₁⟩, hopen, h⟩ := bind_eq_ok_iff.mp h
    obtain ⟨⟨es, ts₂⟩, hes, h⟩ := bind_eq_ok_iff.mp h
    cases h
    obtain rfl := eq_cons_of_expect hopen
    unfold arguments at hes
    split at hes
    · cases hes
      exact ⟨_, rfl, .emptyCall⟩
    · obtain ⟨read, rfl, hread⟩ := argumentsUpTo_reads hn _ hts.tail.tail hes
      exact ⟨_, by simp, .call hread⟩
  · cases h

theorem trailingSteps_reads (hn : Reads nested (.operation 0)) :
    Reads (trailingSteps nested) .trailing := by
  intro ts ss rest hts h
  unfold trailingSteps at h
  split at h
  · obtain ⟨read, rfl, hread⟩ := steps_reads hn _ _ _ hts.tail h
    exact ⟨.slash :: read, rfl, .trailingChild hread⟩
  · obtain ⟨⟨ss', ts₁⟩, hss, h⟩ := bind_eq_ok_iff.mp h
    cases h
    obtain ⟨read, rfl, hread⟩ := steps_reads hn _ _ _ hts.tail hss
    exact ⟨.doubleSlash :: read, rfl, .trailingBelow hread⟩
  · cases h
    exact ⟨[], rfl, .noTrailing⟩

theorem filterExpr_reads (hn : Reads nested (.operation 0)) : Reads (filterExpr nested) .path := by
  intro ts e rest hts h
  obtain ⟨⟨e', ts₁⟩, he, h⟩ := bind_eq_ok_iff.mp h
  obtain ⟨⟨ps, ts₂⟩, hps, h⟩ := bind_eq_ok_iff.mp h
  obtain ⟨⟨ss, ts₃⟩, hss, h⟩ := bind_eq_ok_iff.mp h
  cases h
  obtain ⟨r₁, rfl, h₁⟩ := primary_reads hn _ _ _ hts he
  obtain ⟨r₂, rfl, h₂⟩ := predicates_reads hn _ _ _ hts.right hps
  obtain ⟨r₃, rfl, h₃⟩ := trailingSteps_reads hn _ _ _ hts.right.right hss
  refine ⟨r₁ ++ r₂ ++ r₃, by simp, ?_⟩
  unfold filtered
  split
  · rename_i hempty
    rw [Bool.and_eq_true, List.isEmpty_iff, List.isEmpty_iff] at hempty
    obtain ⟨rfl, rfl⟩ := hempty
    cases h₂
    cases h₃ with
    | noTrailing => simpa using .alone h₁
    | trailingChild hsteps => cases hsteps
  · rename_i hne
    refine .filter h₁ h₂ h₃ ?_
    simpa [Classical.or_iff_not_imp_left] using hne

theorem path_reads (hn : Reads nested (.operation 0)) : Reads (path nested) .path := by
  intro ts e rest hts h
  unfold path at h
  split at h
  · cases h
  · split at h
    · obtain ⟨⟨ss, ts₁⟩, hss, h⟩ := bind_eq_ok_iff.mp h
      cases h
      obtain ⟨read, rfl, hread⟩ := steps_reads hn _ _ _ hts.tail hss
      exact ⟨.slash :: read, rfl, .absolute hread⟩
    · cases h
      exact ⟨[.slash], rfl, .root⟩
  · obtain ⟨⟨ss, ts₁⟩, hss, h⟩ := bind_eq_ok_iff.mp h
    cases h
    obtain ⟨read, rfl, hread⟩ := steps_reads hn _ _ _ hts.tail hss
    exact ⟨.doubleSlash :: read, rfl, .anywhere hread⟩
  · split at h
    · exact filterExpr_reads hn _ _ _ hts h
    · obtain ⟨⟨ss, ts₁⟩, hss, h⟩ := bind_eq_ok_iff.mp h
      cases h
      obtain ⟨read, heq, hread⟩ := steps_reads hn _ _ _ hts hss
      exact ⟨read, heq, .relative hread⟩

/-- The operators of a level group to the left: what was read before is the left operand. -/
theorem chainUpTo_reads {next : Parser Expr} {operators : List Operator} {k : Nat}
    (hops : ∀ op ∈ operators, op.rank = k) (hn : Reads next (.operation (k + 1))) (fuel : Nat)
    {before ts rest : List Token} {left e : Expr} (hts : KnownTypes ts)
    (hleft : Derives before (.operation k left))
    (h : chainUpTo next operators fuel left ts = .ok (e, rest)) :
    ∃ read, ts = read ++ rest ∧ Derives (before ++ read) (.operation k e) := by
  induction fuel generalizing before ts left with
  | zero =>
    cases h
    exact ⟨[], rfl, by simpa using hleft⟩
  | succ fuel ih =>
    unfold chainUpTo at h
    split at h
    · rename_i fuel' op ts hfuel
      obtain rfl : fuel = fuel' := Nat.succ.inj hfuel
      split at h
      · rename_i hop
        obtain rfl := hops op (List.contains_iff_mem.mp hop)
        rw [bind_eq_ok_iff] at h
        obtain ⟨⟨right, ts₁⟩, hright, h⟩ := h
        obtain ⟨r₁, rfl, h₁⟩ := hn _ _ _ hts.tail hright
        obtain ⟨r₂, rfl, h₂⟩ := ih hts.tail.right (.binary hleft h₁) h
        exact ⟨.operator op :: (r₁ ++ r₂), by simp, by simpa using h₂⟩
      · cases h
        exact ⟨[], rfl, by simpa using hleft⟩
    · cases h
      exact ⟨[], rfl, by simpa using hleft⟩

theorem chain_reads {next : Parser Expr} {operators : List Operator} {k : Nat} (hk : k < 8)
    (hops : ∀ op ∈ operators, op.rank = k) (hn : Reads next (.operation (k + 1))) :
    Reads (chain operators next) (.operation k) := by
  intro ts e rest hts hchain
  obtain ⟨⟨left, ts₁⟩, hleft, h⟩ := bind_eq_ok_iff.mp hchain
  obtain ⟨r₁, rfl, h₁⟩ := hn _ _ _ hts hleft
  obtain ⟨r₂, heq, h₂⟩ := chainUpTo_reads hops hn _ hts.right (.operand hk h₁) h
  exact ⟨r₁ ++ r₂, by rw [heq, List.append_assoc], h₂⟩

theorem unions_reads (hn : Reads nested (.operation 0)) : Reads (unions nested) (.operation 7) := by
  refine chain_reads (by decide) (by decide) fun ts e rest hts h => ?_
  obtain ⟨read, rfl, hread⟩ := path_reads hn ts e rest hts h
  exact ⟨read, rfl, .ofPath hread⟩

theorem signed_reads (hn : Reads nested (.operation 0)) : Reads (signed nested) (.operation 6) := by
  intro ts
  induction ts with
  | nil =>
    intro e rest hts h
    obtain ⟨read, hread, hd⟩ := unions_reads hn [] e rest hts h
    exact ⟨read, hread, .operand (by decide) hd⟩
  | cons t ts ih =>
    intro e rest hts h
    unfold signed at h
    split at h
    · rename_i ts' heq
      obtain ⟨rfl, rfl⟩ := List.cons.inj heq
      obtain ⟨⟨e', ts₁⟩, he, h⟩ := bind_eq_ok_iff.mp h
      cases h
      obtain ⟨read, rfl, hread⟩ := ih _ _ hts.tail he
      exact ⟨.operator .minus :: read, rfl, .negate hread⟩
    · obtain ⟨read, hread, hd⟩ := unions_reads hn _ e rest hts h
      exact ⟨read, hread, .operand (by decide) hd⟩

theorem disjunction_reads (hn : Reads nested (.operation 0)) :
    Reads (disjunction nested) (.operation 0) :=
  chain_reads (by decide) (by decide) <| chain_reads (by decide) (by decide) <|
    chain_reads (by decide) (by decide) <| chain_reads (by decide) (by decide) <|
      chain_reads (by decide) (by decide) <| chain_reads (by decide) (by decide) (signed_reads hn)

theorem expression_reads (depth : Nat) : Reads (expression depth) (.operation 0) := by
  induction depth with
  | zero =>
    intro ts e rest _ h
    cases h
  | succ depth ih => exact disjunction_reads ih

theorem derives_of_expr {ts : List Token} {e : Expr} (hts : KnownTypes ts)
    (h : expr ts = .ok (e, [])) : Derives ts (.operation 0 e) := by
  obtain ⟨read, rfl, hread⟩ := expression_reads _ ts e [] hts h
  rwa [List.append_nil]

end Parser
end XPath
end TagGrammar
