/-
Displayed expressions that are read again.

The display puts every operation in parentheses and writes the rest in its shortest form, so
what it writes need not be what was read: a primary expression in parentheses loses them, a
root before a named operator takes the operator for a name, and the target of a processing
instruction is always put between single quotes.  An expression is `isFaithful` if none of
this is in it, and what is displayed of such an expression is read as the same one.
-/
import TagGrammar.Proofs.XPath.Calls
import TagGrammar.Proofs.XPath.Cut

namespace TagGrammar
namespace XPath
open Lexer

/-- The text of the expression ends in a slash that stands for the root. -/
def Expr.endsInRoot : Expr → Bool
  | .path true [] => true
  | .negate operand => operand.endsInRoot
  | _ => false

/-- The expression is written as a primary expression. -/
def Expr.isPrimary : Expr → Bool
  | .literal _ | .number _ | .variable _ | .call _ _ | .binary _ _ _ => true
  | .negate _ | .path _ _ | .filter _ _ _ => false

def Expr.isNegation : Expr → Bool
  | .negate _ => true
  | _ => false

def NodeTest.isFaithful : NodeTest → Bool
  | .processingInstruction (some target) => !target.toList.contains '\''
  | _ => true

/-- The operands of an operation can be told from the operator: none that ends in the root is
before an operator that is written like a step, and none of a union has a sign. -/
def Operator.suits (op : Operator) (left right : Expr) : Bool :=
  !(isWritten op && left.endsInRoot) &&
    !(op == .union && (left.isNegation || right.isNegation))

mutual

/-- What the display writes of the expression is read as the expression. -/
def Expr.isFaithful : Expr → Bool
  | .literal _ | .number _ | .variable _ => true
  | .call _ arguments => allFaithful arguments
  | .binary left op right => left.isFaithful && right.isFaithful && op.suits left right
  | .negate operand => operand.isFaithful
  | .path _ steps => stepsFaithful steps
  | .filter primary predicates steps =>
    primary.isFaithful && primary.isPrimary && allFaithful predicates && stepsFaithful steps

def Step.isFaithful : Step → Bool
  | .mk _ test predicates => test.isFaithful && allFaithful predicates

def allFaithful : List Expr → Bool
  | [] => true
  | e :: rest => e.isFaithful && allFaithful rest

def stepsFaithful : List Step → Bool
  | [] => true
  | s :: rest => s.isFaithful && stepsFaithful rest

end

/-- A sign is all that can stand before a displayed expression outside parentheses. -/
def Expr.level : Expr → Nat
  | .negate _ => 6
  | _ => 8

/-- What is displayed of an expression derives it. -/
def Expr.Shown (e : Expr) : Prop :=
  ∃ ts, Derives ts (.operation e.level e) ∧ (e.isPrimary = true → Derives ts (.primary e)) ∧
    CutsInto false e.display (!e.endsInRoot) ts

/-- What is displayed of a phrase that can be read again derives it. -/
def Phrase.Shown : Phrase → Prop
  | operation _ e | path e | primary e => e.isFaithful = true → e.Shown
  | steps ss => stepsFaithful ss = true →
      ∃ ts, Derives ts (.steps ss) ∧ CutsInto false (displaySteps ss) true ts
  | trailing ss => stepsFaithful ss = true →
      ∃ ts, Derives ts (.trailing ss) ∧ CutsInto true (displayTrailing ss) true ts
  | step s => s.isFaithful = true → ∃ ts, Derives ts (.step s) ∧ CutsInto false s.display true ts
  | test t => t.isFaithful = true → ∃ ts, Derives ts (.test t) ∧ CutsInto false t.display true ts
  | predicates ps => allFaithful ps = true →
      ∃ ts, Derives ts (.predicates ps) ∧ CutsInto true (displayPredicates ps) true ts
  | arguments es => allFaithful es = true →
      ∃ ts, Derives ts (.arguments es) ∧ CutsInto false (displayArguments es) false ts

/-! ## Steps -/

theorem stops_displayPredicates (ps : List Expr) {z : List Char} (hz : Stops z) :
    Stops ((displayPredicates ps).toList ++ z) := by
  cases ps with
  | nil => simpa [displayPredicates] using hz
  | cons p ps => simpa [displayPredicates] using Stops.of_mem (c := '[') (by decide) _

theorem stops_displayTrailing (ss : List Step) {z : List Char} (hz : Stops z) :
    Stops ((displayTrailing ss).toList ++ z) := by
  cases ss with
  | nil => simpa [displayTrailing] using hz
  | cons s ss => simpa [displayTrailing] using Stops.of_mem (c := '/') (by decide) _

theorem displayTrailing_eq {ss : List Step} (h : ss ≠ []) :
    displayTrailing ss = "/" ++ displaySteps ss := by
  cases ss with
  | nil => exact absurd rfl h
  | cons s ss => simp [displayTrailing, displaySteps, String.append_assoc]

/-- Nothing that begins a step begins with a slash. -/
theorem head?_ne_slash {previous : Option Token} {cs : List Char} {ts : List Token}
    (hts : Begins Parser.startsStep ts) (h : Cut previous cs ts) : cs.head? ≠ some '/' := by
  intro hslash
  obtain ⟨cs, rfl⟩ := List.head?_eq_some_iff.mp hslash
  obtain ⟨t, ts, rfl, ht⟩ := hts.exists_cons
  obtain ⟨rest, htoken⟩ := h.token_eq_ok (by decide)
  cases cs with
  | nil =>
    cases htoken
    cases ht
  | cons c cs =>
    by_cases hc : c = '/'
    · subst hc
      cases htoken
      cases ht
    · rw [token] at htoken
      · cases htoken
        cases ht
      · rintro cs' heq
        exact hc (List.cons.inj heq).1

/-- Steps after a slash. -/
theorem cutsInto_slash {start : Bool} {text : String} {ts : List Token}
    (hts : Begins Parser.startsStep ts) (h : CutsInto false text true ts) :
    CutsInto start ("/" ++ text) true (.slash :: ts) := by
  intro previous z us _ hz hslash hcut
  have hrest := h (some .slash) z us rfl hz hslash hcut
  rw [String.toList_append]
  exact Cut.slash hrest (head?_ne_slash (hts.append us) hrest)

/-- A node type with its parentheses and what is between them. -/
theorem cutsInto_nodeType {name inside : String} {ts : List Token} (hname : name ∈ nodeTypes)
    (h : ∀ z us, Cut (some .rightParen) z us →
      Cut (some .leftParen) (inside.toList ++ ')' :: z) (ts ++ .rightParen :: us)) :
    CutsInto false (name ++ "(" ++ inside ++ ")") true
      (.nodeType name :: .leftParen :: (ts ++ [.rightParen])) := by
  intro previous z us hp _ _ hcut
  have hrest := h z us (hcut _ fun _ => rfl)
  have hparen : Cut (some (.nodeType name)) ('(' :: (inside.toList ++ ')' :: z))
      (.leftParen :: (ts ++ .rightParen :: us)) := .cons (by decide) rfl hrest
  simpa using Cut.nodeType hname hp hparen

theorem cutsInto_nodeType_empty {name : String} (hname : name ∈ nodeTypes) :
    CutsInto false (name ++ "()") true [.nodeType name, .leftParen, .rightParen] := by
  have hclose : ∀ z us, Cut (some .rightParen) z us →
      Cut (some .leftParen) ("".toList ++ ')' :: z) ([] ++ .rightParen :: us) := by
    intro z us h
    have hparen : Cut (some .leftParen) (')' :: z) (.rightParen :: us) := .cons (by decide) rfl h
    simpa using hparen
  have h := cutsInto_nodeType hname hclose
  rwa [String.append_empty, String.append_assoc] at h

theorem shown_name {name : String} (h : name = "*" ∨ IsName name) :
    (Phrase.test (.name name)).Shown := by
  intro _
  refine ⟨_, .name, ?_⟩
  rcases h with rfl | h
  · exact .star
  · exact .name h

theorem cutsInto_instructionFor {target : String} (htarget : '\'' ∉ target.toList) :
    CutsInto false ("processing-instruction('" ++ target ++ "')") true
      [.nodeType "processing-instruction", .leftParen, .literal target, .rightParen] := by
  have hliteral : ∀ z us, Cut (some .rightParen) z us →
      Cut (some .leftParen) (("'" ++ target ++ "'").toList ++ ')' :: z)
        ([.literal target] ++ .rightParen :: us) := by
    intro z us h
    have hparen : Cut (some (.literal target)) (')' :: z) (.rightParen :: us) :=
      .cons (by decide) rfl h
    simpa using Cut.literal (Or.inr rfl) htarget hparen
  have h := cutsInto_nodeType (by decide : "processing-instruction" ∈ nodeTypes) hliteral
  have htext : "processing-instruction" ++ "(" ++ ("'" ++ target ++ "'") ++ ")" =
      "processing-instruction('" ++ target ++ "')" := by
    have hlead : "processing-instruction('" = "processing-instruction" ++ "(" ++ "'" := by decide
    have hclose : "')" = "'" ++ ")" := by decide
    rw [hlead, hclose]
    simp only [String.append_assoc]
  rwa [htext] at h

/-- A test along an axis. -/
theorem cutsInto_test (axis : Axis) {t : NodeTest} {ts us : List Token} {ps : List Expr}
    (ht : Derives ts (.test t)) (hcut : CutsInto false t.display true ts)
    (hps : Derives us (.predicates ps)) :
    ∃ lead, Derives (lead ++ us) (.step (.mk axis t ps)) ∧
      CutsInto false (displayTest axis t) true lead := by
  have along : ∃ lead, Derives (lead ++ us) (.step (.mk axis t ps)) ∧
      CutsInto false (axis.text ++ "::" ++ t.display) true lead := by
    refine ⟨.axisName axis.text :: .doubleColon :: ts, .along ht hps, ?_⟩
    intro previous z us hp hz hslash hrest
    have hcolon : Cut (some (.axisName axis.text)) (':' :: ':' :: (t.display.toList ++ z))
        (.doubleColon :: (ts ++ us)) :=
      .cons (by decide) rfl (hcut (some .doubleColon) z us rfl hz hslash hrest)
    simpa using Cut.axisName hp hcolon
  cases axis with
  | child => exact ⟨ts, .plain ht hps, hcut⟩
  | attributes =>
    refine ⟨.atSign :: ts, .attributes ht hps, ?_⟩
    intro previous z us _ hz hslash hrest
    have htest := hcut (some .atSign) z us rfl hz hslash hrest
    have hat : Cut previous ('@' :: (t.display.toList ++ z)) (.atSign :: (ts ++ us)) :=
      .cons (by decide) rfl htest
    simpa [displayTest] using hat
  | _ => exact along

theorem cutsInto_here : CutsInto false "." true [.dot] := by
  intro previous z us _ hz _ hcut
  refine Cut.cons (by decide) ?_ (hcut (some .dot) fun _ => rfl)
  rcases hz with rfl | ⟨c, z, rfl, hc⟩ | ⟨op, z, rfl⟩
  · rfl
  · simp only [List.mem_cons, List.not_mem_nil, or_false] at hc
    rcases hc with rfl | rfl | rfl | rfl | rfl <;> rfl
  · rfl

theorem cutsInto_up : CutsInto false ".." true [.dotDot] := by
  intro previous z us _ _ _ hcut
  exact Cut.cons (by decide) rfl (hcut (some .dotDot) fun _ => rfl)

/-- A step is shown in its shortest form, whichever form was read. -/
theorem shown_step {axis : Axis} {t : NodeTest} {ps : List Expr} (ht : (Phrase.test t).Shown)
    (hps : (Phrase.predicates ps).Shown) : (Phrase.step (.mk axis t ps)).Shown := by
  intro hfaithful
  rw [Step.isFaithful, Bool.and_eq_true] at hfaithful
  obtain ⟨ts, hts, hcut⟩ := ht hfaithful.1
  obtain ⟨us, hus, hcuts⟩ := hps hfaithful.2
  obtain ⟨lead, hstep, htest⟩ := cutsInto_test axis hts hcut hus
  have long : ∃ vs, Derives vs (.step (.mk axis t ps)) ∧
      CutsInto false (displayTest axis t ++ displayPredicates ps) true vs :=
    ⟨_, hstep, htest.append hcuts fun _ => stops_displayPredicates ps⟩
  unfold Step.display
  split
  · rename_i heq
    cases heq
    exact ⟨_, .here, cutsInto_here⟩
  · rename_i heq
    cases heq
    exact ⟨_, .up, cutsInto_up⟩
  · rename_i heq
    cases heq
    exact long

theorem shown_oneStep {s : Step} (h : (Phrase.step s).Shown) : (Phrase.steps [s]).Shown := by
  intro hfaithful
  rw [stepsFaithful, stepsFaithful, Bool.and_true] at hfaithful
  obtain ⟨ts, hts, hcut⟩ := h hfaithful
  refine ⟨ts, .oneStep hts, ?_⟩
  rwa [displaySteps, displayTrailing, String.append_empty]

theorem shown_stepChild {s : Step} {ss : List Step} (hs : (Phrase.step s).Shown)
    (hss : (Phrase.steps ss).Shown) : (Phrase.steps (s :: ss)).Shown := by
  intro hfaithful
  rw [stepsFaithful, Bool.and_eq_true] at hfaithful
  obtain ⟨ts, hts, hcut⟩ := hs hfaithful.1
  obtain ⟨us, hus, hcuts⟩ := hss hfaithful.2
  refine ⟨_, .stepChild hts hus, ?_⟩
  have hslash : CutsInto true (displayTrailing ss) true (.slash :: us) := by
    rw [displayTrailing_eq hus.steps_ne_nil]
    exact cutsInto_slash hus.beginsIn hcuts
  exact hcut.append hslash fun _ => stops_displayTrailing ss

theorem shown_anywhere : (Phrase.step .anywhere).Shown :=
  shown_step (fun _ => ⟨_, .node, cutsInto_nodeType_empty (by decide : "node" ∈ nodeTypes)⟩)
    (fun _ => ⟨_, .noPredicates, .empty⟩)

theorem shown_trailing {ss : List Step} (h : (Phrase.steps ss).Shown) :
    (Phrase.trailing ss).Shown := by
  intro hfaithful
  obtain ⟨ts, hts, hcut⟩ := h hfaithful
  refine ⟨_, .trailingChild hts, ?_⟩
  rw [displayTrailing_eq hts.steps_ne_nil]
  exact cutsInto_slash hts.beginsIn hcut

/-! ## Expressions -/

theorem Derives.loosen {k m : Nat} {ts : List Token} {e : Expr} (hkm : k ≤ m) (hm : m ≤ 8)
    (h : Derives ts (.operation m e)) : Derives ts (.operation k e) := by
  induction hkm with
  | refl => exact h
  | step _ ih => exact ih (by omega) (.operand (by omega) h)

theorem Expr.level_le (e : Expr) : e.level ≤ 8 := by
  unfold level
  split <;> decide

theorem Expr.le_level (e : Expr) : 6 ≤ e.level := by
  unfold level
  split <;> decide

theorem Expr.level_of_not_negation {e : Expr} (h : e.isNegation = false) : e.level = 8 := by
  cases e <;> first | rfl | cases h

theorem Expr.not_endsInRoot {e : Expr} (h : e.isPrimary = true) : e.endsInRoot = false := by
  cases e <;> first | rfl | cases h

theorem shown_of_primary {e : Expr} (h : e.isPrimary = true) {ts : List Token}
    (hts : Derives ts (.primary e)) (hcut : CutsInto false e.display true ts) : e.Shown := by
  refine ⟨ts, (Derives.ofPath (.alone hts)).loosen e.level_le (by decide), fun _ => hts, ?_⟩
  rwa [Expr.not_endsInRoot h]

theorem shown_path {absolute : Bool} {ss : List Step} {ts : List Token}
    (hts : Derives ts (.path (.path absolute ss))) (hss : ss ≠ [])
    (hcut : CutsInto false (Expr.path absolute ss).display true ts) :
    (Expr.path absolute ss).Shown := by
  refine ⟨ts, .ofPath hts, nofun, ?_⟩
  have hend : (Expr.path absolute ss).endsInRoot = false := by
    cases ss with
    | nil => exact absurd rfl hss
    | cons s ss => cases absolute <;> rfl
  rwa [hend]

theorem shown_absolute {ss : List Step} (h : (Phrase.steps ss).Shown) :
    (Phrase.path (.path true ss)).Shown := by
  intro hfaithful
  obtain ⟨ts, hts, hcut⟩ := h hfaithful
  refine shown_path (.absolute hts) hts.steps_ne_nil ?_
  exact cutsInto_slash hts.beginsIn hcut

theorem shown_relative {ss : List Step} (h : (Phrase.steps ss).Shown) :
    (Phrase.path (.path false ss)).Shown := by
  intro hfaithful
  obtain ⟨ts, hts, hcut⟩ := h hfaithful
  refine shown_path (.relative hts) hts.steps_ne_nil ?_
  rwa [Expr.display, if_neg Bool.false_ne_true, String.empty_append]

theorem shown_root : (Phrase.path (.path true [])).Shown := by
  intro _
  refine ⟨[.slash], .ofPath .root, nofun, ?_⟩
  intro previous z us _ _ hslash hcut
  have hroot : Cut previous ('/' :: z) (.slash :: us) :=
    .slash (hcut (some .slash) nofun) (hslash rfl)
  simpa [Expr.display, displaySteps] using hroot

theorem shown_negate {e : Expr} (h : e.isFaithful = true → e.Shown) :
    (Phrase.operation 6 (.negate e)).Shown := by
  intro hfaithful
  obtain ⟨ts, hts, -, hcut⟩ := h hfaithful
  refine ⟨.operator .minus :: ts, .negate (hts.loosen e.le_level e.level_le),
    nofun, ?_⟩
  intro previous z us _ hz hslash hrest
  have hsign : Cut previous ('-' :: (e.display.toList ++ z)) (.operator .minus :: (ts ++ us)) :=
    .cons (by decide) rfl (hcut (some (.operator .minus)) z us rfl hz hslash hrest)
  simpa [Expr.display] using hsign

theorem shown_filter {e : Expr} {ps : List Expr} {ss : List Step}
    (he : (Phrase.primary e).Shown) (hps : (Phrase.predicates ps).Shown)
    (hss : (Phrase.trailing ss).Shown) (hne : ps ≠ [] ∨ ss ≠ []) :
    (Phrase.path (.filter e ps ss)).Shown := by
  intro hfaithful
  simp only [Expr.isFaithful, Bool.and_eq_true] at hfaithful
  obtain ⟨⟨⟨hfe, hprimary⟩, hfps⟩, hfss⟩ := hfaithful
  obtain ⟨ts, -, hts, hcut⟩ := he hfe
  obtain ⟨us, hus, hcuts⟩ := hps hfps
  obtain ⟨vs, hvs, hcutss⟩ := hss hfss
  refine ⟨ts ++ us ++ vs, .ofPath (.filter (hts hprimary) hus hvs hne), nofun, ?_⟩
  rw [Expr.not_endsInRoot hprimary] at hcut
  exact (hcut.append hcuts fun _ => stops_displayPredicates ps).append hcutss
    fun _ => stops_displayTrailing ss

theorem Operator.rank_le_of_suits {op : Operator} {left right : Expr}
    (h : op.suits left right = true) : op.rank ≤ left.level ∧ op.rank + 1 ≤ right.level := by
  by_cases hop : op = .union
  · subst hop
    have hsigns : left.isNegation = false ∧ right.isNegation = false := by
      rw [Operator.suits, Bool.and_eq_true] at h
      simpa using h.2
    rw [Expr.level_of_not_negation hsigns.1, Expr.level_of_not_negation hsigns.2]
    decide
  · have hrank : op.rank ≤ 5 := by
      cases op <;> first | decide | exact absurd rfl hop
    have hleft := left.le_level
    have hright := right.le_level
    omega

theorem shown_binary {op : Operator} {left right : Expr} (hl : left.isFaithful = true → left.Shown)
    (hr : right.isFaithful = true → right.Shown) (hfaithful : (left.binary op right).isFaithful) :
    (Expr.binary left op right).Shown := by
  simp only [Expr.isFaithful, Bool.and_eq_true] at hfaithful
  obtain ⟨⟨hfl, hfr⟩, hsuits⟩ := hfaithful
  obtain ⟨hrankl, hrankr⟩ := Operator.rank_le_of_suits hsuits
  obtain ⟨ts, hts, -, hcutl⟩ := hl hfl
  obtain ⟨us, hus, -, hcutr⟩ := hr hfr
  have hbinary := Derives.binary (hts.loosen hrankl left.level_le)
    (hus.loosen hrankr right.level_le)
  refine shown_of_primary rfl (.parens (hbinary.loosen (Nat.zero_le _) (by cases op <;> decide))) ?_
  intro previous z us' _ _ _ hcut
  have hclose : ∀ last, Cut last (')' :: z) (.rightParen :: us') :=
    fun last => .cons (by decide) rfl (hcut (some .rightParen) fun _ => rfl)
  have hright := hcutr (some (.operator op)) _ _ rfl (.of_mem (by decide) z) (by simp)
    fun last _ => hclose last
  have hleft := hcutl (some .leftParen) _ _ rfl (.operator op _) (by simp) fun last hlast =>
    Cut.operator (fun hop => hlast (by simp_all [Operator.suits])) hright
  have hopen : Cut previous ('(' :: _) (.leftParen :: _) := .cons (by decide) rfl hleft
  simpa [Expr.display] using hopen

/-! ## Lists in brackets -/

theorem shown_predicate {p : Expr} {ps : List Expr} (hp : p.isFaithful = true → p.Shown)
    (hps : (Phrase.predicates ps).Shown) : (Phrase.predicates (p :: ps)).Shown := by
  intro hfaithful
  rw [allFaithful, Bool.and_eq_true] at hfaithful
  obtain ⟨ts, hts, -, hcut⟩ := hp hfaithful.1
  obtain ⟨us, hus, hcuts⟩ := hps hfaithful.2
  refine ⟨_, .predicate (hts.loosen (Nat.zero_le _) p.level_le) hus, ?_⟩
  have hbracket : CutsInto false (p.display ++ "]") true (ts ++ [.rightBracket]) := by
    intro previous z us' hp _ _ hrest
    have hclose : ∀ last, Cut last (']' :: z) (.rightBracket :: us') :=
      fun last => .cons (by decide) rfl (hrest _ fun _ => rfl)
    have hinside := hcut previous _ _ hp (.of_mem (by decide) z) (by simp) fun last _ => hclose last
    simpa using hinside
  have hlist := hbracket.append hcuts fun _ => stops_displayPredicates ps
  intro previous z us' _ hz hslash hrest
  have hopen : Cut previous ('[' :: _) (.leftBracket :: _) :=
    .cons (by decide) rfl (hlist (some .leftBracket) z us' rfl hz hslash hrest)
  simpa [displayPredicates] using hopen

theorem displayMoreArguments_eq {es : List Expr} (h : es ≠ []) :
    displayMoreArguments es = "," ++ displayArguments es := by
  cases es with
  | nil => exact absurd rfl h
  | cons e es => simp [displayMoreArguments, displayArguments, String.append_assoc]

theorem Derives.arguments_ne_nil {ts : List Token} {es : List Expr}
    (h : Derives ts (.arguments es)) : es ≠ [] := by
  cases h <;> simp

theorem shown_oneArgument {e : Expr} (h : e.isFaithful = true → e.Shown) :
    (Phrase.arguments [e]).Shown := by
  intro hfaithful
  rw [allFaithful, allFaithful, Bool.and_true] at hfaithful
  obtain ⟨ts, hts, -, hcut⟩ := h hfaithful
  refine ⟨ts, .oneArgument (hts.loosen (Nat.zero_le _) e.level_le), ?_⟩
  rw [displayArguments, displayMoreArguments, String.append_empty]
  exact hcut.weaken

theorem shown_argument {e : Expr} {es : List Expr} (he : e.isFaithful = true → e.Shown)
    (hes : (Phrase.arguments es).Shown) : (Phrase.arguments (e :: es)).Shown := by
  intro hfaithful
  rw [allFaithful, Bool.and_eq_true] at hfaithful
  obtain ⟨ts, hts, -, hcut⟩ := he hfaithful.1
  obtain ⟨us, hus, hcuts⟩ := hes hfaithful.2
  refine ⟨_, .argument (hts.loosen (Nat.zero_le _) e.level_le) hus, ?_⟩
  rw [displayArguments, displayMoreArguments_eq hus.arguments_ne_nil]
  intro previous z us' hp hz hslash hrest
  have hcomma : ∀ last, Cut last (',' :: ((displayArguments es).toList ++ z))
      (.comma :: (us ++ us')) :=
    fun last => .cons (by decide) rfl (hcuts (some .comma) z us' rfl hz hslash hrest)
  have hfirst := hcut previous _ _ hp (.of_mem (by decide) _) (by simp) fun last _ => hcomma last
  simpa using hfirst

theorem shown_call {f : String} {es : List Expr} (ts : List Token) (hname : IsName f)
    (hnode : f ∉ nodeTypes)
    (hts : Derives (.functionName f :: .leftParen :: (ts ++ [.rightParen])) (.primary (.call f es)))
    (hcut : ∀ z us, Cut (some .rightParen) z us →
      Cut (some .leftParen) ((displayArguments es).toList ++ ')' :: z) (ts ++ .rightParen :: us)) :
    (Expr.call f es).Shown := by
  refine shown_of_primary rfl hts ?_
  intro previous z us hp _ _ hrest
  have hparen : Cut (some (.functionName f)) ('(' :: _) (.leftParen :: _) :=
    .cons (by decide) rfl (hcut z us (hrest _ fun _ => rfl))
  simpa [Expr.display] using Cut.functionName hname hnode hp hparen

theorem shown_emptyCall {f : String} (hname : IsName f) (hnode : f ∉ nodeTypes) :
    (Expr.call f []).Shown := by
  refine shown_call [] hname hnode .emptyCall fun z us h => ?_
  have hparen : Cut (some .leftParen) (')' :: z) (.rightParen :: us) := .cons (by decide) rfl h
  simpa [displayArguments] using hparen

theorem shown_someCall {f : String} {es : List Expr} (hname : IsName f) (hnode : f ∉ nodeTypes)
    (hes : (Phrase.arguments es).Shown) : (Phrase.primary (.call f es)).Shown := by
  intro hfaithful
  obtain ⟨ts, hts, hcut⟩ := hes hfaithful
  refine shown_call ts hname hnode (.call hts) fun z us h => ?_
  exact hcut (some .leftParen) _ _ rfl (.of_mem (by decide) z) (by simp) fun _ _ =>
    .cons (by decide) rfl h

/-! ## Every phrase -/

/-- What the text of a token is like where no numbers are. -/
def Plain (t : Token) : Prop := Spelled t ∧ ∀ n, t ≠ .number n

/-- What is displayed of a phrase that was read derives the phrase again. -/
theorem Derives.shown {ts : List Token} {phrase : Phrase} (h : Derives ts phrase)
    (hts : ∀ t ∈ ts, Plain t) : phrase.Shown := by
  induction h with
  | operand _ _ ih | ofPath _ ih => exact ih hts
  | binary _ _ ihl ihr =>
    rw [List.forall_mem_append, List.forall_mem_cons] at hts
    exact shown_binary (ihl hts.1) (ihr hts.2.2)
  | negate _ ih => exact shown_negate (ih (List.forall_mem_cons.mp hts).2)
  | root => exact shown_root
  | absolute _ ih => exact shown_absolute (ih (List.forall_mem_cons.mp hts).2)
  | anywhere h ih =>
    exact shown_absolute (shown_stepChild shown_anywhere (ih (List.forall_mem_cons.mp hts).2))
  | relative _ ih => exact shown_relative (ih hts)
  | alone _ ih => exact ih hts
  | filter _ _ _ hne ihe ihps ihss =>
    rw [List.forall_mem_append, List.forall_mem_append] at hts
    exact shown_filter (ihe hts.1.1) (ihps hts.1.2) (ihss hts.2) hne
  | oneStep _ ih => exact shown_oneStep (ih hts)
  | stepChild _ _ ihs ihss =>
    rw [List.forall_mem_append, List.forall_mem_cons] at hts
    exact shown_stepChild (ihs hts.1) (ihss hts.2.2)
  | stepBelow _ _ ihs ihss =>
    rw [List.forall_mem_append, List.forall_mem_cons] at hts
    exact shown_stepChild (ihs hts.1) (shown_stepChild shown_anywhere (ihss hts.2.2))
  | noTrailing => exact fun _ => ⟨_, .noTrailing, .empty⟩
  | trailingChild _ ih => exact shown_trailing (ih (List.forall_mem_cons.mp hts).2)
  | trailingBelow _ ih =>
    exact shown_trailing (shown_stepChild shown_anywhere (ih (List.forall_mem_cons.mp hts).2))
  | here | up =>
    exact shown_step (fun _ => ⟨_, .node, cutsInto_nodeType_empty (by decide : "node" ∈ nodeTypes)⟩)
      (fun _ => ⟨_, .noPredicates, .empty⟩)
  | plain _ _ iht ihps =>
    rw [List.forall_mem_append] at hts
    exact shown_step (iht hts.1) (ihps hts.2)
  | attributes _ _ iht ihps =>
    rw [List.forall_mem_cons, List.forall_mem_append] at hts
    exact shown_step (iht hts.2.1) (ihps hts.2.2)
  | along _ _ iht ihps =>
    rw [List.forall_mem_cons, List.forall_mem_cons, List.forall_mem_append] at hts
    exact shown_step (iht hts.2.2.1) (ihps hts.2.2.2)
  | name => exact shown_name (hts _ List.mem_cons_self).1
  | comment =>
    exact fun _ => ⟨_, .comment, cutsInto_nodeType_empty (by decide : "comment" ∈ nodeTypes)⟩
  | text => exact fun _ => ⟨_, .text, cutsInto_nodeType_empty (by decide : "text" ∈ nodeTypes)⟩
  | node => exact fun _ => ⟨_, .node, cutsInto_nodeType_empty (by decide : "node" ∈ nodeTypes)⟩
  | instruction =>
    exact fun _ => ⟨_, .instruction,
      cutsInto_nodeType_empty (by decide : "processing-instruction" ∈ nodeTypes)⟩
  | instructionFor =>
    intro hfaithful
    exact ⟨_, .instructionFor, cutsInto_instructionFor (by simpa [NodeTest.isFaithful] using hfaithful)⟩
  | noPredicates => exact fun _ => ⟨_, .noPredicates, .empty⟩
  | predicate _ _ ihp ihps =>
    rw [List.forall_mem_cons, List.forall_mem_append, List.forall_mem_cons] at hts
    exact shown_predicate (ihp hts.2.1) (ihps hts.2.2.2)
  | variableName =>
    exact fun _ => shown_of_primary rfl .variableName (.variable (hts _ List.mem_cons_self).1)
  | literal =>
    exact fun _ => shown_of_primary rfl .literal (.literal (hts _ List.mem_cons_self).1)
  | number => exact absurd rfl ((hts _ List.mem_cons_self).2 _)
  | parens _ ih =>
    rw [List.forall_mem_cons, List.forall_mem_append] at hts
    exact ih hts.2.1
  | emptyCall =>
    have hname := (hts _ List.mem_cons_self).1
    exact fun _ => shown_emptyCall hname.1 hname.2
  | call _ ih =>
    have hname := (hts _ List.mem_cons_self).1
    rw [List.forall_mem_cons, List.forall_mem_cons, List.forall_mem_append] at hts
    exact shown_someCall hname.1 hname.2 (ih hts.2.2.1)
  | oneArgument _ ih => exact shown_oneArgument (ih hts)
  | argument _ _ ihe ihes =>
    rw [List.forall_mem_append, List.forall_mem_cons] at hts
    exact shown_argument (ihe hts.1) (ihes hts.2.2)

def Token.isNumber : Token → Bool
  | .number _ => true
  | _ => false

/-- No token of the text is a number. -/
def withoutNumbers (source : String) : Bool :=
  (tokenize source).toOption.all fun ts => ts.all fun t => !t.isNumber

namespace Expr

/-- What is displayed of an expression that was read from a text without numbers is read as the
same expression, if the display has a way to write it. -/
theorem parse_display {source : String} (hnumbers : withoutNumbers source = true) {e : Expr}
    (h : Expr.parse source = .ok e) (hfaithful : e.isFaithful = true) :
    Expr.parse e.display = .ok e := by
  obtain ⟨ts, htokens, hderives⟩ := parse_eq_ok_iff.mp h
  have hplain : ∀ t ∈ ts, Plain t := by
    intro t ht
    refine ⟨tokensFrom_spelled htokens t ht, ?_⟩
    rintro n rfl
    rw [withoutNumbers, htokens] at hnumbers
    have hnumber := List.all_eq_true.mp hnumbers _ ht
    cases hnumber
  obtain ⟨us, hus, -, hcut⟩ := hderives.shown hplain hfaithful
  have hall : Cut none (e.display.toList ++ []) (us ++ []) :=
    hcut none [] [] rfl (Or.inl rfl) (by simp) fun _ _ => .nil
  rw [List.append_nil, List.append_nil] at hall
  exact parse_eq_ok_iff.mpr
    ⟨us, hall.tokensFrom_eq_ok (Nat.lt_succ_self _), hus.loosen (Nat.zero_le _) e.level_le⟩

/-- Predicates, abbreviated steps, quotes of both kinds and parentheses that are kept. -/
theorem parse_display_filteredUnion :
    withoutNumbers "//a[@b = \"it's\"]/.. | (/ = -$c and f(d, text()))[e]/node()" = true ∧
      ∃ e, Expr.parse "//a[@b = \"it's\"]/.. | (/ = -$c and f(d, text()))[e]/node()" = .ok e ∧
        e.isFaithful = true ∧ Expr.parse e.display = .ok e := by
  have hnumbers :
      withoutNumbers "//a[@b = \"it's\"]/.. | (/ = -$c and f(d, text()))[e]/node()" = true := by
    decide +kernel
  have hfaithful :
      (Expr.parse "//a[@b = \"it's\"]/.. | (/ = -$c and f(d, text()))[e]/node()").toOption.any
        isFaithful = true := by
    decide +kernel
  obtain ⟨e, he, hfaithful⟩ := exists_ok_of_any hfaithful
  exact ⟨hnumbers, e, he, hfaithful, parse_display hnumbers he hfaithful⟩

/-- A text without numbers is an expression that is displayed in a way that is not read as it. -/
def IsLost (source shown : String) : Prop :=
  withoutNumbers source = true ∧
    ∃ e, Expr.parse source = .ok e ∧ e.display = shown ∧ Expr.parse shown ≠ .ok e

/-- A property tells what was read from what is read of the display. -/
theorem isLost_of {source shown : String} (p : Expr → Bool) (hnumbers : withoutNumbers source = true)
    (h : (Expr.parse source).toOption.any (fun e => e.display == shown && p e) = true)
    (hread : (Expr.parse shown).toOption.any p = false) : IsLost source shown := by
  obtain ⟨e, he, htest⟩ := exists_ok_of_any h
  rw [Bool.and_eq_true, beq_iff_eq] at htest
  refine ⟨hnumbers, e, he, htest.1, fun hshown => ?_⟩
  rw [hshown] at hread
  have hp : p e = false := hread
  rw [htest.2] at hp
  cases hp

def isFilter : Expr → Bool
  | .filter _ _ _ => true
  | _ => false

/-- Predicates on a step in parentheses become those of the step, a path from the root in
parentheses becomes one from anywhere, the sign of an operand of a union becomes that of the
union, a named operator after the root becomes a name, and a target with an apostrophe ends at
it. -/
theorem parentheses_lost :
    IsLost "(a)[b]" "a[b]" ∧ IsLost "(/)/a" "//a" ∧ IsLost "(-a)|b" "(-a | b)" ∧
      IsLost "(/) or a" "(/ or a)" ∧
      IsLost "processing-instruction(\"it's\")" "processing-instruction('it's')" := by
  refine ⟨?_, ?_, ?_, ?_, ?_⟩
  · exact isLost_of isFilter (by decide +kernel) (by decide +kernel) (by decide +kernel)
  · exact isLost_of isFilter (by decide +kernel) (by decide +kernel) (by decide +kernel)
  · exact isLost_of (!·.isNegation) (by decide +kernel) (by decide +kernel) (by decide +kernel)
  · exact isLost_of (fun _ => true) (by decide +kernel) (by decide +kernel) (by decide +kernel)
  · exact isLost_of (fun _ => true) (by decide +kernel) (by decide +kernel) (by decide +kernel)

end Expr
end XPath
end TagGrammar
