/-
Calls on a configuration.

Configurations are made from the empty one by calls, one after the other.  `Change` says
what a call can do that is not refused, and what holds of every run of calls follows from it
by `run_induction`.  A call that is refused changes nothing (`config_of_refused`).  Of the
removal of a tag this is not said by its definition: the trust in the name is taken back
before the tag is looked for, but in a configuration that calls have made only the names of
tags are trusted.
-/
import TagGrammar.Configuration
import TagGrammar.Proofs.Case
import TagGrammar.Proofs.Dictionary
import TagGrammar.Proofs.Except

namespace TagGrammar

namespace Outcome

variable {α : Type}

/-- The call is not refused. -/
def succeeds (o : Outcome α) : Bool :=
  match o.result with
  | .ok _ => true
  | .error _ => false

/-- The outcome without what the call gives. -/
def void (o : Outcome α) : Outcome Unit := ⟨o.result.map fun _ => (), o.config⟩

theorem eq_of_succeeds {o : Outcome Unit} (h : o.succeeds = true) : o = ⟨.ok (), o.config⟩ := by
  obtain ⟨result, c⟩ := o
  cases result with
  | error cause => cases h
  | ok u => rfl

/-- A call on a configuration is refused and changes nothing, or it makes one of the changes
that are named. -/
inductive Does (c : Configuration) (change : Configuration → Prop) : Outcome α → Prop where
  | refused (cause : ConfigurationError) : Does c change ⟨.error cause, c⟩
  | done (a : α) {c' : Configuration} (h : change c') : Does c change ⟨.ok a, c'⟩

variable {c : Configuration} {change change' : Configuration → Prop} {o : Outcome α}

theorem Does.mono (h : o.Does c change) (hchange : ∀ c', change c' → change' c') :
    o.Does c change' := by
  cases h with
  | refused cause => exact .refused cause
  | done a h => exact .done a (hchange _ h)

theorem Does.void (h : o.Does c change) : o.void.Does c change := by
  cases h with
  | refused cause => exact .refused cause
  | done a h => exact .done () h

theorem Does.of_succeeds (h : o.Does c change) (ho : o.succeeds = true) : change o.config := by
  cases h with
  | refused cause => cases ho
  | done a h => exact h

theorem Does.of_not_succeeds (h : o.Does c change) (ho : o.succeeds = false) : o.config = c := by
  cases h with
  | refused cause => rfl
  | done a h => cases ho

end Outcome

/-! ## Calls -/

/-- A call on a configuration, or a change of what it goes by. -/
inductive Call where
  | addTag (tag : String)
  | removeTag (tag : String)
  /-- Change a tag in any way, if there is one of the name. -/
  | editTag (tag : String) (edit : Tag → Tag)
  | addAttribute (tag name : String) (type : AttributeType)
  | removeAttribute (tag name : String)
  | setFilterChain (tag name : String) (filters : List String)
  | declareRule (tag : String) (action : RuleAction) (target : String)
  | withdrawRule (tag : String) (action : RuleAction) (target : String)
  /-- Declare a rule by the name of its action. -/
  | addRule (tag action target : String)
  | setTemplate (tag source : String) (trust keepBlanks : Bool)
  | addHtmlRules (root : Option String)
  | registerFilter (name : String) (contexts : SafeContexts)
  | setFilters (filters : FilterRegistry)
  | setNormalizer (passes : List Pass)
  | setCheckOptions (options : CheckOptions)

namespace Call

/-- The outcome of a call on a configuration, where sources are cut into tokens in some way. -/
def perform (tokenizer : Markup.Tokenizer) (c : Configuration) : Call → Outcome Unit
  | addTag tag => (c.addTag tag).void
  | removeTag tag => (c.removeTag tag).void
  | editTag tag edit =>
    ⟨.ok (), ((c.editTag? tag fun t => ((), edit t)).map Prod.snd).getD c⟩
  | addAttribute tag name type => (c.addAttribute tag name type).void
  | removeAttribute tag name => (c.removeAttribute tag name).void
  | setFilterChain tag name filters => c.setFilterChain tag name filters
  | declareRule tag action target => c.declareRule tag action target
  | withdrawRule tag action target => (c.withdrawRule tag action target).void
  | addRule tag action target => c.addRule tag action target
  | setTemplate tag source trust keepBlanks =>
    c.setTemplateWith tokenizer tag source trust keepBlanks
  | addHtmlRules root => c.addHtmlRules root
  | registerFilter name contexts => c.registerFilter name contexts
  | setFilters filters => ⟨.ok (), { c with filters }⟩
  | setNormalizer passes => ⟨.ok (), { c with normalizer := passes }⟩
  | setCheckOptions options => ⟨.ok (), { c with checkOptions := options }⟩

/-- The call declares the tag of a name. -/
def Declares (name : TagName) : Call → Prop
  | addTag tag => TagName.ofString? tag = some name
  | _ => False

/-- The call takes back the declaration of the tag of a name. -/
def Removes (name : TagName) : Call → Prop
  | removeTag tag => TagName.ofString? tag = some name
  | _ => False

/-- The call sets the template of a name, to be trusted or not. -/
def SetsTemplate (name : TagName) (trust : Bool) : Call → Prop
  | setTemplate tag _ trust' _ => TagName.ofString? tag = some name ∧ trust' = trust
  | _ => False

/-- The call neither declares nor removes a tag nor sets a template. -/
def isOther : Call → Bool
  | addTag _ | removeTag _ | setTemplate _ _ _ _ => false
  | _ => true

/-- The call leaves the names of the tags, as every call does but a change of a tag that puts
another tag in its place. -/
def KeepsNames : Call → Prop
  | editTag _ edit => ∀ t, (edit t).name = t.name
  | _ => True

variable {call : Call} {name : TagName}

theorem ofString?_eq_some_iff {tag : String} {name' : TagName}
    (h : TagName.ofString? tag = some name') :
    TagName.ofString? tag = some name ↔ name = name' := by
  rw [h, Option.some.injEq]
  exact eq_comm

theorem not_declares_of_isOther (h : call.isOther = true) : ¬call.Declares name := by
  cases call <;> first | exact id | cases h

theorem not_removes_of_isOther (h : call.isOther = true) : ¬call.Removes name := by
  cases call <;> first | exact id | cases h

theorem not_setsTemplate_of_isOther (h : call.isOther = true) {trust : Bool} :
    ¬call.SetsTemplate name trust := by
  cases call <;> first | exact id | cases h

end Call

namespace Configuration

/-! ## What a call can do -/

/-- Only names of tags are trusted. -/
def TrustsTags (c : Configuration) : Prop :=
  ∀ name ∈ c.trusted, c.tags.contains name = true

/-- What a call can do that is not refused. -/
inductive Change (c : Configuration) : Call → Configuration → Prop where
  | addTag {tag : String} {name : TagName} (hname : TagName.ofString? tag = some name)
      (hnew : c.tags.contains name = false) :
      Change c (.addTag tag) { c with tags := c.tags.insert name { name } }
  | removeTag {tag : String} {name : TagName} (hname : TagName.ofString? tag = some name)
      (hold : c.tags.contains name = true) :
      Change c (.removeTag tag) { c.distrust name with tags := c.tags.erase name }
  | setTemplate {tag source : String} {trust keepBlanks : Bool} {name : TagName} {t : Tag}
      {template : Node} (hname : TagName.ofString? tag = some name)
      (hold : c.tags.find? name = some t) :
      Change c (.setTemplate tag source trust keepBlanks)
        { (if trust then c.entrust name else c.distrust name) with
          tags := c.tags.modify name fun _ => { t with template := some template } }
  | other {call : Call} {c' : Configuration} {edit : TagName → Tag → Tag}
      (hcall : call.isOther = true) (htrusted : c'.trusted = c.trusted)
      (htags : c'.tags = c.tags.mapValues edit)
      (hnames : call.KeepsNames →
        ∀ name t, c.tags.find? name = some t → (edit name t).name = t.name) :
      Change c call c'

section Performed

variable {tokenizer : Markup.Tokenizer} {c : Configuration} {α β : Type}
  {change : Configuration → Prop}

theorem declare_eq_ok_iff {s : String} {name : TagName} :
    TagName.declare s = .ok name ↔ TagName.ofString? s = some name := by
  unfold TagName.declare
  cases TagName.ofString? s <;> simp

theorem does_declaring {declared : Except DeclarationError α} {next : α → Outcome β}
    (h : ∀ a, declared = .ok a → (next a).Does c change) :
    (c.declaring declared next).Does c change := by
  cases declared with
  | error cause => exact .refused _
  | ok a => exact h a rfl

/-- A declaration on a tag is refused or puts the changed tag in the place of the tag. -/
theorem does_onTag {tag : String} {edit : Tag → Except DeclarationError (α × Tag)} :
    (c.onTag tag edit).Does c fun c' => ∃ name t a t', TagName.ofString? tag = some name ∧
      c.tags.find? name = some t ∧ edit t = .ok (a, t') ∧
        c' = { c with tags := c.tags.modify name fun _ => t' } := by
  refine does_declaring fun name hname => ?_
  split
  · exact .refused _
  · rename_i t ht
    refine does_declaring ?_
    rintro ⟨a, t'⟩ ht'
    exact .done a ⟨name, t, a, t', declare_eq_ok_iff.mp hname, ht, ht', rfl⟩

/-- To put a tag in the place of one of its name leaves all names. -/
theorem name_replaced {name k : TagName} {t t' a : Tag} (ht : c.tags.find? name = some t)
    (hname : t'.name = t.name) (ha : c.tags.find? k = some a) :
    (if k = name then t' else a).name = a.name := by
  by_cases hk : k = name
  · subst hk
    rw [if_pos rfl, hname, Option.some.inj (ha.symm.trans ht)]
  · rw [if_neg hk]

/-- A change of one tag that leaves its name. -/
theorem Change.of_modify {call : Call} (hcall : call.isOther = true) {name : TagName} {t t' : Tag}
    (ht : c.tags.find? name = some t) (hname : call.KeepsNames → t'.name = t.name) :
    Change c call { c with tags := c.tags.modify name fun _ => t' } := by
  have htags : c.tags.modify name (fun _ => t') =
      c.tags.mapValues fun k a => if k = name then t' else a := rfl
  exact .other hcall rfl htags fun hkeeps k a => name_replaced ht (hname hkeeps)

theorem does_onTag_other {call : Call} (hcall : call.isOther = true) {tag : String}
    {edit : Tag → Except DeclarationError (α × Tag)}
    (hedit : ∀ t a t', edit t = .ok (a, t') → t'.name = t.name) :
    (c.onTag tag edit).Does c (Change c call) := by
  refine does_onTag.mono ?_
  rintro c' ⟨name, t, a, t', -, ht, ht', rfl⟩
  exact .of_modify hcall ht fun _ => hedit t a t' ht'

/-- A change that leaves the tags and the trust in them. -/
theorem Change.of_same {call : Call} (hcall : call.isOther = true) {c' : Configuration}
    (htags : c'.tags = c.tags) (htrusted : c'.trusted = c.trusted) : Change c call c' :=
  .other hcall htrusted (htags.trans (Dictionary.mapValues_self c.tags).symm) fun _ _ _ _ => rfl

theorem name_of_addAttribute {t t' : Tag} {s : String} {type : AttributeType} {a : TagAttribute}
    (h : t.addAttribute s type = .ok (a, t')) : t'.name = t.name := by
  obtain ⟨name, -, h⟩ := bind_eq_ok_iff.mp h
  split at h
  · cases h
  · cases h
    rfl

theorem name_of_removeAttribute {t t' : Tag} {s : String} {a : TagAttribute}
    (h : t.removeAttribute s = .ok (a, t')) : t'.name = t.name := by
  obtain ⟨name, -, h⟩ := bind_eq_ok_iff.mp h
  split at h
  · cases h
    rfl
  · cases h

theorem name_of_updateAttribute? {t t' : Tag} {s : String} {f : TagAttribute → TagAttribute}
    {a : TagAttribute} (h : t.updateAttribute? s f = some (a, t')) : t'.name = t.name := by
  obtain ⟨attr, -, h⟩ := Option.map_eq_some_iff.mp h
  cases h
  rfl

theorem does_addTag {tag : String} : (c.addTag tag).Does c (Change c (.addTag tag)) := by
  refine does_declaring fun name hname => ?_
  split
  · exact .refused _
  · rename_i hnew
    exact .done name (.addTag (declare_eq_ok_iff.mp hname) (Bool.eq_false_iff.mpr hnew))

theorem distrust_of_not_mem {name : TagName} (h : name ∉ c.trusted) : c.distrust name = c := by
  have htrusted : c.trusted.filter (· ≠ name) = c.trusted :=
    List.filter_eq_self.mpr fun name' hname' => decide_eq_true fun e => h (e ▸ hname')
  rw [distrust, htrusted]

/-- A name that no tag has is not trusted, so there is no trust to take back. -/
theorem does_removeTag (hc : c.TrustsTags) {tag : String} :
    (c.removeTag tag).Does c (Change c (.removeTag tag)) := by
  refine does_declaring fun name hname => ?_
  dsimp only
  split
  · rename_i hnone
    replace hnone : c.tags.find? name = none := hnone
    have hnot : name ∉ c.trusted := by
      intro hmem
      have hcontains := hc name hmem
      rw [Dictionary.contains, hnone] at hcontains
      cases hcontains
    rw [distrust_of_not_mem hnot]
    exact .refused _
  · rename_i t ht
    exact .done t (.removeTag (declare_eq_ok_iff.mp hname) (Option.isSome_iff_exists.mpr ⟨t, ht⟩))

/-- A tag that has been found is found again, so its template is stored. -/
theorem store_eq {name : TagName} (hname : name.IsDeclared) {t : Tag}
    (ht : c.tags.find? name = some t) (template : Node) :
    c.store name.text template = ⟨.ok (), { c with
      tags := c.tags.modify name fun _ => { t with template := some template } }⟩ := by
  have hdeclare : TagName.declare name.text = .ok name :=
    declare_eq_ok_iff.mpr hname.ofString?_text
  rw [store, onTag, hdeclare, declaring, ht]
  rfl

theorem does_setTemplate {tag source : String} {trust keepBlanks : Bool} :
    (c.setTemplateWith tokenizer tag source trust keepBlanks).Does c
      (Change c (.setTemplate tag source trust keepBlanks)) := by
  unfold setTemplateWith
  split
  · exact .refused _
  split
  · exact .refused _
  rename_i template _
  refine does_declaring fun name hname => ?_
  split
  · exact .refused _
  rename_i t ht
  split
  · exact .refused _
  have hname := declare_eq_ok_iff.mp hname
  have hfound : (if trust then c.entrust name else c.distrust name).tags.find? name = some t := by
    cases trust <;> exact ht
  rw [store_eq ⟨tag, hname⟩ hfound template]
  refine .done () ?_
  have hchange : Change c (.setTemplate tag source trust keepBlanks)
      { (if trust then c.entrust name else c.distrust name) with
        tags := c.tags.modify name fun _ => { t with template := some template } } :=
    .setTemplate hname ht
  cases trust <;> exact hchange

/-- What is derived for the tags leaves their names. -/
theorem name_foldl_withDerived (name : TagName) (l : List (TagName × Html.DerivedOptions))
    (t : Tag) :
    (l.foldl (fun t d => if name = d.1 then withDerived d.2 t else t) t).name = t.name := by
  induction l generalizing t with
  | nil => rfl
  | cons d rest ih =>
    rw [List.foldl_cons, ih]
    split <;> rfl

theorem does_addHtmlRules {root : Option String} :
    (c.addHtmlRules root).Does c (Change c (.addHtmlRules root)) := by
  refine does_declaring fun derived _ => .done () ?_
  exact .other rfl rfl (Dictionary.foldl_modify withDerived _ _)
    fun _ name t _ => name_foldl_withDerived name derived.entries t

/-- Every call is refused and changes nothing or does what `Change` says of it. -/
theorem does_perform (tokenizer : Markup.Tokenizer) (hc : c.TrustsTags) (call : Call) :
    (call.perform tokenizer c).Does c (Change c call) := by
  cases call with
  | addTag tag => exact does_addTag.void
  | removeTag tag => exact (does_removeTag hc).void
  | editTag tag edit =>
    refine .done () ?_
    unfold editTag?
    cases hname : TagName.ofString? tag with
    | none => exact .of_same rfl rfl rfl
    | some name =>
      cases ht : c.tags.find? name with
      | none =>
        rw [Option.bind_some, ht]
        exact .of_same rfl rfl rfl
      | some t =>
        rw [Option.bind_some, ht]
        exact .of_modify rfl ht fun hkeeps => hkeeps t
  | addAttribute tag name type =>
    exact (does_onTag_other rfl fun t a t' => name_of_addAttribute).void
  | removeAttribute tag name =>
    exact (does_onTag_other rfl fun t a t' => name_of_removeAttribute).void
  | setFilterChain tag name filters =>
    refine does_declaring fun chain _ => does_onTag_other rfl fun t a t' h => ?_
    split at h
    · rename_i hupdate
      cases h
      exact name_of_updateAttribute? hupdate
    · cases hattr : AttributeName.declare name <;> rw [hattr] at h <;> cases h
  | declareRule tag action target =>
    refine does_declaring fun target _ => does_onTag_other rfl fun t a t' h => ?_
    cases h
    rfl
  | withdrawRule tag action target =>
    refine (does_declaring fun target _ => does_onTag_other rfl fun t a t' h => ?_).void
    cases h
    rfl
  | addRule tag action target =>
    refine does_declaring fun action _ => does_declaring fun target _ =>
      does_onTag_other rfl fun t a t' h => ?_
    cases h
    rfl
  | setTemplate tag source trust keepBlanks => exact does_setTemplate
  | addHtmlRules root => exact does_addHtmlRules
  | registerFilter name contexts =>
    exact does_declaring fun filters _ => .done () (.of_same rfl rfl rfl)
  | setFilters filters => exact .done () (.of_same rfl rfl rfl)
  | setNormalizer passes => exact .done () (.of_same rfl rfl rfl)
  | setCheckOptions options => exact .done () (.of_same rfl rfl rfl)

end Performed

/-! ## What a change leaves -/

section Changed

variable {c c' : Configuration} {call : Call} (h : Change c call c') {name : TagName}

include h

theorem Change.contains_iff : c'.tags.contains name = true ↔
    call.Declares name ∨ c.tags.contains name = true ∧ ¬call.Removes name := by
  cases h with
  | addTag hname hnew =>
    rw [Dictionary.contains_insert, Call.Declares, Call.ofString?_eq_some_iff hname]
    simp [Call.Removes]
  | removeTag hname hold =>
    rw [Dictionary.contains_erase, Call.Removes, Call.ofString?_eq_some_iff hname, and_comm]
    simp [Call.Declares]
  | setTemplate hname hold =>
    rw [Dictionary.modify, Dictionary.contains_mapValues]
    simp [Call.Declares, Call.Removes]
  | other hcall htrusted htags hnames =>
    rw [htags, Dictionary.contains_mapValues]
    simp [Call.not_declares_of_isOther hcall, Call.not_removes_of_isOther hcall]

theorem Change.mem_trusted_iff : name ∈ c'.trusted ↔ call.SetsTemplate name true ∨
    name ∈ c.trusted ∧ (∀ trust, ¬call.SetsTemplate name trust) ∧ ¬call.Removes name := by
  cases h with
  | addTag hname hnew => simp [Call.SetsTemplate, Call.Removes]
  | removeTag hname hold =>
    rw [Call.Removes, Call.ofString?_eq_some_iff hname]
    simp [distrust, Call.SetsTemplate]
  | @setTemplate tag source trust keepBlanks name' t template hname hold =>
    simp only [Call.SetsTemplate, Call.Removes, Call.ofString?_eq_some_iff hname]
    by_cases hsame : name = name'
    · subst hsame
      cases trust <;> simp [entrust, distrust]
    · cases trust <;> simp [entrust, distrust, hsame]
  | other hcall htrusted htags hnames =>
    rw [htrusted]
    simp [Call.not_removes_of_isOther hcall, Call.not_setsTemplate_of_isOther hcall]

theorem Change.not_contains_of_declares (hcall : call.Declares name) :
    c.tags.contains name = false := by
  cases h with
  | addTag hname hnew => exact Option.some.inj (hname.symm.trans hcall) ▸ hnew
  | removeTag => cases hcall
  | setTemplate => cases hcall
  | other hother => exact absurd hcall (Call.not_declares_of_isOther hother)

theorem Change.contains_of_setsTemplate {trust : Bool} (hcall : call.SetsTemplate name trust) :
    c.tags.contains name = true := by
  cases h with
  | addTag => cases hcall
  | removeTag => cases hcall
  | setTemplate hname hold =>
    obtain rfl := Option.some.inj (hname.symm.trans hcall.1)
    exact Option.isSome_iff_exists.mpr ⟨_, hold⟩
  | other hother => exact absurd hcall (Call.not_setsTemplate_of_isOther hother)

theorem Change.not_removes_of_setsTemplate {trust : Bool} (hcall : call.SetsTemplate name trust) :
    ¬call.Removes name := by
  cases call <;> first | exact id | cases hcall

theorem Change.trustsTags (hc : c.TrustsTags) : c'.TrustsTags := by
  intro name hname
  rw [h.contains_iff]
  rcases h.mem_trusted_iff.mp hname with hsets | ⟨hmem, -, hremoves⟩
  · exact Or.inr ⟨h.contains_of_setsTemplate hsets, h.not_removes_of_setsTemplate hsets⟩
  · exact Or.inr ⟨hc name hmem, hremoves⟩

end Changed

/-! ## Tags under their names -/

/-- The tags are in the order of their names, each under its own, and the names are declared
ones. -/
structure Stored (c : Configuration) : Prop where
  increasing : Increasing c.tags.keys
  named : ∀ name t, c.tags.find? name = some t → t.name = name ∧ name.IsDeclared

section Stored

variable {c c' : Configuration} {call : Call}

theorem Stored.find?_eq_some_iff (hc : c.Stored) {name : TagName} {t : Tag} :
    c.tags.find? name = some t ↔ (name, t) ∈ c.tags.entries :=
  Dictionary.findIn_eq_some_iff hc.increasing

theorem Stored.mem_values_iff (hc : c.Stored) {t : Tag} :
    t ∈ c.tags.values ↔ c.tags.find? t.name = some t := by
  rw [Dictionary.values, List.mem_map]
  constructor
  · rintro ⟨⟨name, t'⟩, hmem, rfl⟩
    have hfound := hc.find?_eq_some_iff.mpr hmem
    rwa [(hc.named name t' hfound).1]
  · intro hfound
    exact ⟨(t.name, t), hc.find?_eq_some_iff.mp hfound, rfl⟩

theorem Stored.names (hc : c.Stored) : c.tags.values.map Tag.name = c.tags.keys := by
  rw [Dictionary.values, Dictionary.keys, List.map_map]
  refine List.map_congr_left fun e he => ?_
  exact (hc.named e.1 e.2 (hc.find?_eq_some_iff.mpr he)).1

theorem stored_empty : Stored {} where
  increasing := Increasing.nil
  named _ _ h := by cases h

/-- Changes of the tags that leave their names. -/
theorem Stored.of_mapValues (hc : c.Stored) {edit : TagName → Tag → Tag}
    (htags : c'.tags = c.tags.mapValues edit)
    (hnames : ∀ name t, c.tags.find? name = some t → (edit name t).name = t.name) : c'.Stored where
  increasing := by
    rw [htags, Dictionary.keys_mapValues]
    exact hc.increasing
  named name t' ht' := by
    rw [htags, Dictionary.find?_mapValues, Option.map_eq_some_iff] at ht'
    obtain ⟨t, ht, rfl⟩ := ht'
    obtain ⟨hname, hdeclared⟩ := hc.named name t ht
    exact ⟨(hnames name t ht).trans hname, hdeclared⟩

theorem Change.stored (h : Change c call c') (hkeeps : call.KeepsNames) (hc : c.Stored) :
    c'.Stored := by
  cases h with
  | @addTag tag name hname hnew =>
    refine ⟨Dictionary.increasing_keys_insert hc.increasing _ _, fun name' t ht => ?_⟩
    by_cases hsame : name = name'
    · subst hsame
      rw [Dictionary.find?_insert_self, Option.some.injEq] at ht
      exact ⟨ht ▸ rfl, tag, hname⟩
    · rw [Dictionary.find?_insert_of_ne hsame] at ht
      exact hc.named name' t ht
  | @removeTag tag name hname hold =>
    refine ⟨Dictionary.increasing_keys_erase hc.increasing _, fun name' t ht => ?_⟩
    rw [Dictionary.find?_erase] at ht
    split at ht
    · cases ht
    · exact hc.named name' t ht
  | @setTemplate tag source trust keepBlanks name t template hname hold =>
    have hname : ({ t with template := some template } : Tag).name = t.name := rfl
    exact hc.of_mapValues rfl fun k a => name_replaced hold hname
  | other hcall htrusted htags hnames => exact hc.of_mapValues htags (hnames hkeeps)

end Stored

/-! ## Runs -/

section Runs

variable (tokenizer : Markup.Tokenizer)

/-- The configuration after some calls. -/
def after (c : Configuration) (calls : List Call) : Configuration :=
  calls.foldl (fun c call => (call.perform tokenizer c).config) c

/-- Those of some calls that are not refused. -/
def performed (c : Configuration) : List Call → List Call
  | [] => []
  | call :: rest =>
    let o := call.perform tokenizer c
    if o.succeeds then call :: performed o.config rest else performed o.config rest

/-- The configuration that some calls make of the empty one. -/
def run (calls : List Call) : Configuration := after tokenizer {} calls

/-- What a change keeps with the calls so far holds after a run with those of its calls that
are not refused. -/
theorem after_induction {motive : List Call → Configuration → Prop}
    (step : ∀ log c call c', motive log c → Change c call c' → motive (log ++ [call]) c')
    {log : List Call} {c : Configuration} (hc : c.TrustsTags) (h : motive log c)
    (calls : List Call) :
    (c.after tokenizer calls).TrustsTags ∧
      motive (log ++ c.performed tokenizer calls) (c.after tokenizer calls) := by
  induction calls generalizing log c with
  | nil => exact ⟨hc, (List.append_nil log).symm ▸ h⟩
  | cons call rest ih =>
    have hdoes := does_perform tokenizer hc call
    rw [after, List.foldl_cons, ← after, performed]
    cases hsucceeds : (call.perform tokenizer c).succeeds with
    | true =>
      have hchange := hdoes.of_succeeds hsucceeds
      have hrest := ih (hchange.trustsTags hc) (step log c call _ h hchange)
      rwa [List.append_assoc, List.singleton_append] at hrest
    | false =>
      have hsame := hdoes.of_not_succeeds hsucceeds
      rw [hsame]
      exact ih hc h

theorem run_induction {motive : List Call → Configuration → Prop} (empty : motive [] {})
    (step : ∀ log c call c', motive log c → Change c call c' → motive (log ++ [call]) c')
    (calls : List Call) :
    (run tokenizer calls).TrustsTags ∧
      motive (performed tokenizer {} calls) (run tokenizer calls) :=
  after_induction tokenizer step (fun _ h => absurd h List.not_mem_nil) empty calls

variable {tokenizer}

theorem mem_of_mem_performed {calls : List Call} {c : Configuration} {call : Call}
    (h : call ∈ c.performed tokenizer calls) : call ∈ calls := by
  induction calls generalizing c with
  | nil => exact h
  | cons first rest ih =>
    rw [performed] at h
    split at h
    · rcases List.mem_cons.mp h with rfl | h
      · exact List.mem_cons_self
      · exact List.mem_cons_of_mem _ (ih h)
    · exact List.mem_cons_of_mem _ (ih h)

theorem stored_run {calls : List Call} (hkeeps : ∀ call ∈ calls, call.KeepsNames) :
    (run tokenizer calls).Stored := by
  have hrun := run_induction tokenizer
    (motive := fun log c => (∀ call ∈ log, call.KeepsNames) → c.Stored) (fun _ => stored_empty)
    (fun log c call c' hc hchange hlog =>
      hchange.stored (hlog call (List.mem_append_right _ List.mem_cons_self))
        (hc fun call hcall => hlog call (List.mem_append_left _ hcall))) calls
  exact hrun.2 fun call hcall => hkeeps call (mem_of_mem_performed hcall)

variable (tokenizer)

theorem trustsTags_run (calls : List Call) : (run tokenizer calls).TrustsTags :=
  (run_induction tokenizer (motive := fun _ _ => True) trivial (fun _ _ _ _ _ _ => trivial)
    calls).1

/-- A call that is refused leaves everything as it was. -/
theorem config_of_refused (calls : List Call) (call : Call)
    (h : (call.perform tokenizer (run tokenizer calls)).succeeds = false) :
    (call.perform tokenizer (run tokenizer calls)).config = run tokenizer calls :=
  (does_perform tokenizer (trustsTags_run tokenizer calls) call).of_not_succeeds h

end Runs

/-- A tag whose template is trusted and would not be accepted. -/
def scriptedCalls : List Call :=
  [.addTag "b", .setTemplate "b" "<script><xsl:apply-templates/></script>" true false]

/-- Neither the removal of a tag that is not there nor another template that is not accepted
takes the trust back. -/
theorem config_of_refused_scriptedCalls :
    (run Markup.tokenize scriptedCalls).trusted = [⟨"B"⟩] ∧
      ((Call.removeTag "u").perform Markup.tokenize (run Markup.tokenize scriptedCalls)).config =
        run Markup.tokenize scriptedCalls ∧
      ((Call.setTemplate "b" "<style><xsl:apply-templates/></style>" false false).perform
        Markup.tokenize (run Markup.tokenize scriptedCalls)).config =
          run Markup.tokenize scriptedCalls :=
  ⟨by decide +kernel, config_of_refused Markup.tokenize scriptedCalls _ (by decide +kernel),
    config_of_refused Markup.tokenize scriptedCalls _ (by decide +kernel)⟩

end Configuration
end TagGrammar
