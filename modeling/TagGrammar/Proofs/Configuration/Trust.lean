/-
Trust in templates.

Trust is kept beside the tags.  What it should be is told by the calls that were not refused:
a template is trusted if the last call that set it, since its tag was declared, said so
(`Vouched`).  A rule table is built exactly if every other template is accepted under what
its tag is granted when the table is built, whatever has changed since the template was set.
-/
import TagGrammar.Proofs.Configuration.Calls

namespace TagGrammar
namespace Configuration

/-! ## Trust told by the calls -/

/-- The last call that set the template of a name, with no declaration of its tag after it,
set it to be trusted. -/
def Vouched (log : List Call) (name : TagName) : Prop :=
  ∃ before call later, log = before ++ call :: later ∧ call.SetsTemplate name true ∧
    ∀ next ∈ later, ¬next.Declares name ∧ ∀ trust, ¬next.SetsTemplate name trust

section Log

variable {log : List Call} {call : Call} {name : TagName}

theorem not_vouched_nil : ¬Vouched [] name := by
  rintro ⟨before, call, later, hlog, -⟩
  exact List.append_ne_nil_of_right_ne_nil before (List.cons_ne_nil call later) hlog.symm

/-- One more call vouches for a name, or it leaves it as it was vouched for. -/
theorem vouched_concat : Vouched (log ++ [call]) name ↔
    call.SetsTemplate name true ∨
      Vouched log name ∧ ¬call.Declares name ∧ ∀ trust, ¬call.SetsTemplate name trust := by
  constructor
  · rintro ⟨before, first, later, hlog, hfirst, hlater⟩
    rcases List.eq_nil_or_concat later with rfl | ⟨middle, last, rfl⟩
    · obtain ⟨-, hcall⟩ := List.append_inj' hlog rfl
      obtain rfl := List.singleton_inj.mp hcall
      exact Or.inl hfirst
    · rw [List.concat_eq_append] at hlog hlater
      have hlog : log ++ [call] = (before ++ first :: middle) ++ [last] := by simpa using hlog
      obtain ⟨rfl, hcall⟩ := List.append_inj' hlog rfl
      obtain rfl := List.singleton_inj.mp hcall
      refine Or.inr ⟨⟨before, first, middle, rfl, hfirst, fun next hnext => ?_⟩, ?_⟩
      · exact hlater next (List.mem_append_left _ hnext)
      · exact hlater call (List.mem_append_right _ List.mem_cons_self)
  · rintro (hcall | ⟨⟨before, first, later, rfl, hfirst, hlater⟩, hcall⟩)
    · exact ⟨log, call, [], rfl, hcall, fun _ hnext => absurd hnext List.not_mem_nil⟩
    · refine ⟨before, first, later ++ [call], ?_, hfirst, fun next hnext => ?_⟩
      · rw [List.append_assoc, List.cons_append]
      · rcases List.mem_append.mp hnext with hnext | hnext
        · exact hlater next hnext
        · exact List.mem_singleton.mp hnext ▸ hcall

end Log

/-- The trusted names are those of the tags that the calls so far vouch for. -/
def TrustsVouched (log : List Call) (c : Configuration) : Prop :=
  ∀ name, name ∈ c.trusted ↔ c.tags.contains name = true ∧ Vouched log name

/-- A tag that is declared anew was not there, so it is neither trusted nor vouched for; a tag
that is removed is vouched for until it is declared again, but not there. -/
theorem Change.trustsVouched {c c' : Configuration} {call : Call} (h : Change c call c')
    {log : List Call} (hc : TrustsVouched log c) : TrustsVouched (log ++ [call]) c' := by
  intro name
  rw [h.mem_trusted_iff, h.contains_iff, vouched_concat, hc name]
  constructor
  · rintro (hsets | ⟨⟨hcontains, hvouched⟩, hsets, hremoves⟩)
    · exact ⟨Or.inr ⟨h.contains_of_setsTemplate hsets, h.not_removes_of_setsTemplate hsets⟩,
        Or.inl hsets⟩
    · refine ⟨Or.inr ⟨hcontains, hremoves⟩, Or.inr ⟨hvouched, fun hdeclares => ?_, hsets⟩⟩
      rw [h.not_contains_of_declares hdeclares] at hcontains
      cases hcontains
  · rintro ⟨hthere, hsets | ⟨hvouched, hdeclares, hsets⟩⟩
    · exact Or.inl hsets
    · obtain ⟨hcontains, hremoves⟩ := hthere.resolve_left hdeclares
      exact Or.inr ⟨⟨hcontains, hvouched⟩, hsets, hremoves⟩

theorem trustsVouched_run (tokenizer : Markup.Tokenizer) (calls : List Call) :
    TrustsVouched (performed tokenizer {} calls) (run tokenizer calls) :=
  (run_induction tokenizer (fun name => by simp [not_vouched_nil])
    (fun _ _ _ _ hc hchange => hchange.trustsVouched hc) calls).2

/-! ## Building the rule table -/

theorem tagViolation?_eq_none_iff {c : Configuration} {t : Tag} :
    c.tagViolation? t = none ↔ (t.name ∉ c.trusted →
      ∀ template, t.template = some template → Safety.accepts (c.grant t) template = true) := by
  unfold tagViolation?
  by_cases htrusted : t.name ∈ c.trusted
  · simp [htrusted]
  · rw [if_neg (by simpa using htrusted), Option.bind_eq_none_iff]
    simp [htrusted, Safety.accepts]

/-- The table is that of all tags, and all that can fail is the check of a template. -/
theorem compile_eq_ok_iff {c : Configuration} {table : RuleTable} :
    c.compile = .ok table ↔ (∀ t ∈ c.tags.values, c.tagViolation? t = none) ∧
      table = RuleTable.compile c.tags.values := by
  have hnone : (c.tags.values.findSome? fun t =>
      (c.tagViolation? t).map (ConfigurationError.rejected t.name)) = none ↔
        ∀ t ∈ c.tags.values, c.tagViolation? t = none := by
    simp only [List.findSome?_eq_none_iff, Option.map_eq_none_iff]
  rw [← hnone, compile]
  cases c.tags.values.findSome? fun t =>
      (c.tagViolation? t).map (ConfigurationError.rejected t.name) with
  | some cause => simp
  | none => simp [eq_comm]

theorem exists_compile_iff {c : Configuration} (hc : c.Stored) :
    (∃ table, c.compile = .ok table) ↔
      ∀ name t template, c.tags.find? name = some t → name ∉ c.trusted →
        t.template = some template → Safety.accepts (c.grant t) template = true := by
  simp only [compile_eq_ok_iff, exists_and_left, exists_eq, and_true, tagViolation?_eq_none_iff]
  constructor
  · intro h name t template ht htrusted
    obtain ⟨rfl, -⟩ := hc.named name t ht
    exact h t (hc.mem_values_iff.mpr ht) htrusted template
  · intro h t ht htrusted template
    exact h t.name t template (hc.mem_values_iff.mp ht) htrusted

/-- A rule table never stands for a template that is not vouched for and not accepted.  After
any calls the trusted tags are those that the calls vouch for, and the table is built exactly
if the template of every other tag is accepted as the configuration now is. -/
theorem compile_run_vouches (tokenizer : Markup.Tokenizer) (calls : List Call)
    (hkeeps : ∀ call ∈ calls, call.KeepsNames) :
    (∀ name, name ∈ (run tokenizer calls).trusted ↔
      (run tokenizer calls).tags.contains name = true ∧
        Vouched (performed tokenizer {} calls) name) ∧
    ((∃ table, (run tokenizer calls).compile = .ok table) ↔
      ∀ name t template, (run tokenizer calls).tags.find? name = some t →
        ¬Vouched (performed tokenizer {} calls) name → t.template = some template →
          Safety.accepts ((run tokenizer calls).grant t) template = true) := by
  have htrust := trustsVouched_run tokenizer calls
  refine ⟨htrust, (exists_compile_iff (stored_run hkeeps)).trans ?_⟩
  refine forall₃_congr fun name t template => forall_congr' fun ht => ?_
  have hcontains : (run tokenizer calls).tags.contains name = true :=
    Option.isSome_iff_exists.mpr ⟨t, ht⟩
  rw [htrust name, and_iff_right hcontains]

/-- A tag with a trusted template is removed and declared again, and then only a template
that is accepted can be set without trust.  Another tag keeps its trust. -/
def redeclaredCalls : List Call :=
  [.addTag "b", .setTemplate "b" "<script><xsl:apply-templates/></script>" true false,
   .removeTag "b", .addTag "b",
   .setTemplate "b" "<script><xsl:apply-templates/></script>" false false,
   .setTemplate "b" "<b><xsl:apply-templates/></b>" false false,
   .addTag "i", .setTemplate "i" "<script><xsl:apply-templates/></script>" true false]

theorem compile_run_vouches_redeclaredCalls :
    (Vouched (performed Markup.tokenize {} redeclaredCalls) ⟨"I"⟩ ∧
      ¬Vouched (performed Markup.tokenize {} redeclaredCalls) ⟨"B"⟩) ∧
    ∀ name t template, (run Markup.tokenize redeclaredCalls).tags.find? name = some t →
      ¬Vouched (performed Markup.tokenize {} redeclaredCalls) name → t.template = some template →
        Safety.accepts ((run Markup.tokenize redeclaredCalls).grant t) template = true := by
  have hkeeps : ∀ call ∈ redeclaredCalls, call.KeepsNames := by
    simp [redeclaredCalls, Call.KeepsNames]
  obtain ⟨htrusted, hcompile⟩ := compile_run_vouches Markup.tokenize redeclaredCalls hkeeps
  refine ⟨⟨((htrusted ⟨"I"⟩).mp (by decide +kernel)).2, fun hvouched => ?_⟩, hcompile.mp ?_⟩
  · have hmem := (htrusted ⟨"B"⟩).mpr ⟨by decide +kernel, hvouched⟩
    exact absurd hmem (by decide +kernel)
  · obtain ⟨table, htable, -⟩ := exists_ok_of_any (p := fun _ => true)
      (x := (run Markup.tokenize redeclaredCalls).compile) (by decide +kernel)
    exact ⟨table, htable⟩

end Configuration
end TagGrammar
