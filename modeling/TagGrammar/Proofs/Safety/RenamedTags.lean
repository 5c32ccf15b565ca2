/-
Start tags with another prefix.

A declaration is chosen, and its prefix replaced in it and in the names that stand for it.
Then the prefix of every name means what it meant before (`namespaceOf_renamedName`), so the
element that a start tag opens is the same for the checks (`frameOf_renamed`).
-/
import TagGrammar.Proofs.Markup.Prefixes
import TagGrammar.Proofs.Safety.BareNames
import TagGrammar.Proofs.Template.Nesting

namespace TagGrammar

open Markup (QName Token)

namespace Safety

/-- Two names of attributes that are looked for alike. -/
structure SameRole (a b : String) : Prop where
  handler : isHandler (Text.lower a).toList = isHandler (Text.lower b).toList
  url : isUrlAttribute a = isUrlAttribute b
  sets : Text.sameIgnoringCase a "xsl:use-attribute-sets" =
    Text.sameIgnoringCase b "xsl:use-attribute-sets"

theorem bareName_congr {a b : String} (ha : a.toList.contains ':' = true)
    (hb : b.toList.contains ':' = true) (h : SameRole a b) : bareName a = bareName b := by
  have hlower : Text.lower "xsl:use-attribute-sets" = "xsl:use-attribute-sets" := by decide
  have hurl := h.url
  have hsets := h.sets
  rw [isUrlAttribute_of_colon ha, isUrlAttribute_of_colon hb] at hurl
  rw [Text.sameIgnoringCase, Text.sameIgnoringCase, hlower] at hsets
  rw [bareName, bareName, if_pos ha, if_pos hb, h.handler, hurl, hsets]

end Safety

/-- Attributes that are looked for alike. -/
def Markup.Token.SameRole : Token → Token → Prop
  | attr a _, attr b _ => Safety.SameRole a.text b.text
  | _, _ => True

namespace Builder

/-! ## Declarations -/

/-- Declarations, each with whether it is chosen for another prefix. -/
abbrev Chosen := List ((String × String) × Bool)

def original (e : Chosen) : Declarations := e.map Prod.fst

def replaced (q : String) (e : Chosen) : Declarations :=
  e.map fun d => if d.2 then (q, d.1.2) else d.1

/-- Whether a prefix stands for a chosen declaration. -/
def reaches (p : String) (e : Chosen) : Bool := (e.find? fun d => d.1.1 == p).any Prod.snd

/-- The chosen declarations are of one prefix and one namespace, and the other prefix is
new. -/
structure Fits (p q uri : String) (e : Chosen) : Prop where
  fresh : ∀ d ∈ e, d.1.1 ≠ q
  chosen : ∀ d ∈ e, d.2 = true → d.1 = (p, uri)

variable {p q uri lead : String}

theorem Fits.append {e outer : Chosen} (he : Fits p q uri e) (houter : Fits p q uri outer) :
    Fits p q uri (e ++ outer) where
  fresh := List.forall_mem_append.mpr ⟨he.fresh, houter.fresh⟩
  chosen := List.forall_mem_append.mpr ⟨he.chosen, houter.chosen⟩

theorem original_append (e outer : Chosen) :
    original (e ++ outer) = original e ++ original outer :=
  List.map_append

theorem replaced_append (e outer : Chosen) :
    replaced q (e ++ outer) = replaced q e ++ replaced q outer := List.map_append

theorem reaches_cons (d : (String × String) × Bool) (e : Chosen) :
    reaches p (d :: e) = if d.1.1 == p then d.2 else reaches p e := by
  rw [reaches, List.find?_cons]
  cases d.1.1 == p <;> rfl

theorem find?_replaced {e : Chosen} (he : Fits p q uri e) (hlead : lead ≠ q)
    (hout : lead = p → reaches p e = false) :
    (replaced q e).find? (fun d => d.1 == lead) = (original e).find? fun d => d.1 == lead := by
  induction e with
  | nil => rfl
  | cons d e ih =>
    obtain ⟨⟨hfresh, hfresh'⟩, hchosen, hchosen'⟩ :=
      And.intro (List.forall_mem_cons.mp he.fresh) (List.forall_mem_cons.mp he.chosen)
    obtain ⟨⟨key, value⟩, chosen⟩ := d
    rw [original, replaced, List.map_cons, List.map_cons, List.find?_cons, List.find?_cons]
    have hrest : ¬key = lead →
        (replaced q e).find? (fun d => d.1 == lead) = (original e).find? fun d => d.1 == lead := by
      intro hkey
      refine ih ⟨hfresh', hchosen'⟩ fun heq => ?_
      have hreach := hout heq
      have hkey' : (key == p) = false := by
        rw [← heq]
        exact beq_eq_false_iff_ne.mpr hkey
      rwa [reaches_cons, hkey', if_neg Bool.false_ne_true] at hreach
    cases chosen with
    | true =>
      obtain ⟨rfl, rfl⟩ : key = p ∧ value = uri := Prod.mk.inj (hchosen rfl)
      have hkey : ¬key = lead := by
        intro heq
        have hreach := hout heq.symm
        rw [reaches_cons, beq_self_eq_true, if_pos rfl] at hreach
        cases hreach
      have hnew : (q == lead) = false := beq_eq_false_iff_ne.mpr (Ne.symm hlead)
      have hold : (key == lead) = false := beq_eq_false_iff_ne.mpr hkey
      simp only [if_true, hnew, hold]
      exact hrest hkey
    | false =>
      by_cases hkey : key = lead
      · simp [hkey]
      · have hold : (key == lead) = false := beq_eq_false_iff_ne.mpr hkey
        simp only [Bool.false_eq_true, if_false, hold]
        exact hrest hkey

theorem find?_of_reaches {e : Chosen} (he : Fits p q uri e) (hreach : reaches p e = true) :
    (replaced q e).find? (fun d => d.1 == q) = some (q, uri) ∧
      (original e).find? (fun d => d.1 == p) = some (p, uri) := by
  induction e with
  | nil => cases hreach
  | cons d e ih =>
    obtain ⟨⟨hfresh, hfresh'⟩, hchosen, hchosen'⟩ :=
      And.intro (List.forall_mem_cons.mp he.fresh) (List.forall_mem_cons.mp he.chosen)
    obtain ⟨⟨key, value⟩, chosen⟩ := d
    rw [reaches_cons] at hreach
    rw [original, replaced, List.map_cons, List.map_cons, List.find?_cons, List.find?_cons]
    cases chosen with
    | true =>
      obtain ⟨rfl, rfl⟩ : key = p ∧ value = uri := Prod.mk.inj (hchosen rfl)
      simp
    | false =>
      by_cases hkey : key = p
      · simp [hkey] at hreach
      · have hold : (key == p) = false := beq_eq_false_iff_ne.mpr hkey
        have hnew : (key == q) = false := beq_eq_false_iff_ne.mpr hfresh
        simp only [Bool.false_eq_true, if_false, hold, hnew] at hreach ⊢
        exact ih ⟨hfresh', hchosen'⟩ hreach

/-- A name with another prefix if its own stands for a chosen declaration. -/
def renamedName (p q : String) (here : Bool) (name : QName) : QName :=
  if here && name.lead == p then ⟨q, name.name⟩ else name

section Names

variable {p q uri : String} {here : Bool} {name : QName}

theorem name_renamedName : (renamedName p q here name).name = name.name := by
  unfold renamedName
  split <;> rfl

theorem renamedName_of_isEmpty (hp : p ≠ "") (h : name.lead.isEmpty = true) :
    renamedName p q here name = name := by
  have hlead : (name.lead == p) = false := by
    rw [beq_eq_false_iff_ne, String.isEmpty_iff.mp h]
    exact Ne.symm hp
  rw [renamedName, hlead, Bool.and_false, if_neg Bool.false_ne_true]

theorem isEmpty_lead_renamedName (hp : p ≠ "") (hq : q ≠ "") :
    (renamedName p q here name).lead.isEmpty = name.lead.isEmpty := by
  by_cases hempty : name.lead.isEmpty = true
  · rw [renamedName_of_isEmpty hp hempty]
  · unfold renamedName
    split
    · rw [Bool.eq_false_iff.mpr hempty, Bool.eq_false_iff]
      exact fun h => hq (String.isEmpty_iff.mp h)
    · rfl

theorem namespaceOf_of_reaches {e : Chosen} (he : Fits p q uri e) (hreach : reaches p e = true) :
    namespaceOf (original e) p = .ok (if uri.isEmpty then none else some uri) := by
  rw [namespaceOf, (find?_of_reaches he hreach).2]

/-- The prefix of a name means what it meant before. -/
theorem namespaceOf_renamedName {e : Chosen} (he : Fits p q uri e) (hlead : name.lead ≠ q) :
    namespaceOf (replaced q e) (renamedName p q (reaches p e) name).lead =
      namespaceOf (original e) name.lead := by
  by_cases hp : name.lead = p
  · cases hreach : reaches p e with
    | true =>
      obtain ⟨hafter, hbefore⟩ := find?_of_reaches he hreach
      rw [renamedName, hp, beq_self_eq_true, Bool.and_true, if_pos rfl, namespaceOf, namespaceOf,
        hafter, hbefore]
    | false =>
      rw [renamedName, Bool.false_and, if_neg Bool.false_ne_true, namespaceOf, namespaceOf,
        find?_replaced he hlead fun _ => hreach]
  · have hne : (name.lead == p) = false := beq_eq_false_iff_ne.mpr hp
    rw [renamedName, hne, Bool.and_false, if_neg Bool.false_ne_true, namespaceOf, namespaceOf,
      find?_replaced he hlead fun heq => absurd heq hp]

end Names

/-! ## Start tags -/

def renamedAttr (p q : String) (here : Bool) (a : TagAttr) : TagAttr :=
  { a with name := renamedName p q here a.name }

/-- What is assumed of the prefixes and the namespace. -/
structure Prefixes (p q : String) : Prop where
  old_ne : p ≠ ""
  new_ne : q ≠ ""
  old_ne_xmlns : p ≠ "xmlns"
  new_ne_xmlns : q ≠ "xmlns"

/-- An attribute that no check looks for under one of its names alone. -/
def Keeps (p q uri : String) (here : Bool) (name : QName) : Prop :=
  uri = xslNamespace ∨ Safety.SameRole name.text (renamedName p q here name).text

variable {p q uri : String} {here : Bool}

theorem contains_colon_text {name : QName} (h : name.lead.isEmpty = false) :
    name.text.toList.contains ':' = true := by
  rw [QName.text, h, if_neg Bool.false_ne_true]
  simp

theorem plainAttr?_renamed (hpq : Prefixes p q) (attributes : List TagAttr) :
    plainAttr? (attributes.map (renamedAttr p q here)) = plainAttr? attributes := by
  funext name
  have hplain : (fun a : TagAttr => a.name.lead.isEmpty && a.name.name == name) ∘
      renamedAttr p q here = fun a => a.name.lead.isEmpty && a.name.name == name := by
    funext a
    show ((renamedName p q here a.name).lead.isEmpty && (renamedName p q here a.name).name == name) = _
    rw [isEmpty_lead_renamedName hpq.old_ne hpq.new_ne, name_renamedName]
  rw [plainAttr?, plainAttr?, List.find?_map, Option.map_map, hplain]
  rfl

/-- An attribute of a literal element is kept under a name of the same role. -/
theorem keptName_renamed (hpq : Prefixes p q) {e : Chosen} (he : Fits p q uri e) {name : QName}
    (hfresh : name.lead ≠ q) (hkeeps : Keeps p q uri (reaches p e) name) {kept : String}
    (h : keptName (original e) name = .ok kept) :
    ∃ kept', keptName (replaced q e) (renamedName p q (reaches p e) name) = .ok kept' ∧
      Safety.bareName kept' = Safety.bareName kept := by
  unfold keptName at h ⊢
  rw [isEmpty_lead_renamedName hpq.old_ne hpq.new_ne, namespaceOf_renamedName he hfresh,
    name_renamedName]
  by_cases hempty : name.lead.isEmpty = true
  · rw [if_pos hempty] at h ⊢
    exact ⟨kept, h, rfl⟩
  · rw [if_neg hempty] at h ⊢
    cases hns : namespaceOf (original e) name.lead with
    | error cause =>
      rw [hns] at h
      cases h
    | ok ns =>
      rw [hns] at h
      obtain rfl := Except.ok.inj h
      refine ⟨_, rfl, ?_⟩
      dsimp only
      by_cases hxsl : (ns == some xslNamespace) = true
      · rw [if_pos hxsl, if_pos hxsl]
      · rw [if_neg hxsl, if_neg hxsl]
        by_cases hrenamed : (reaches p e && name.lead == p) = true
        · rcases hkeeps with huri | hrole
          · obtain ⟨hreach, hlead⟩ := (Bool.and_eq_true _ _).mp hrenamed
            rw [beq_iff_eq.mp hlead, namespaceOf_of_reaches he hreach, huri] at hns
            obtain rfl := Except.ok.inj hns
            exact absurd (by decide) hxsl
          · have hlead' : (renamedName p q (reaches p e) name).lead.isEmpty = false := by
              rw [isEmpty_lead_renamedName hpq.old_ne hpq.new_ne]
              exact Bool.eq_false_iff.mpr hempty
            exact (Safety.bareName_congr (contains_colon_text (Bool.eq_false_iff.mpr hempty))
              (contains_colon_text hlead') hrole).symm
        · rw [renamedName, if_neg hrenamed]

theorem literalAttributes_renamed (hpq : Prefixes p q) {e : Chosen} (he : Fits p q uri e)
    {attributes : List TagAttr} {kept : List (String × String)}
    (hfresh : ∀ a ∈ attributes, a.name.lead ≠ q)
    (hkeeps : ∀ a ∈ attributes, Keeps p q uri (reaches p e) a.name)
    (h : literalAttributes (original e) attributes = .ok kept) :
    ∃ kept', literalAttributes (replaced q e) (attributes.map (renamedAttr p q (reaches p e))) =
        .ok kept' ∧
      Safety.bareAttributes kept' = Safety.bareAttributes kept := by
  induction attributes generalizing kept with
  | nil =>
    obtain rfl : [] = kept := by simpa [literalAttributes] using h
    exact ⟨[], rfl, rfl⟩
  | cons a rest ih =>
    obtain ⟨hfirst, hfresh⟩ := List.forall_mem_cons.mp hfresh
    obtain ⟨hkept, hkeeps⟩ := List.forall_mem_cons.mp hkeeps
    rw [literalAttributes_cons] at h
    obtain ⟨name, hname, h⟩ := bind_eq_ok_iff.mp h
    obtain ⟨restKept, hrest, h⟩ := bind_eq_ok_iff.mp h
    obtain rfl : (name, a.value) :: restKept = kept := by simpa using h
    obtain ⟨name', hname', hbareName⟩ := keptName_renamed hpq he hfirst hkept hname
    obtain ⟨restKept', hrest', hbare⟩ := ih hfresh hkeeps hrest
    refine ⟨(name', a.value) :: restKept', ?_, ?_⟩
    · rw [List.map_cons, literalAttributes_cons]
      exact bind_eq_ok_iff.mpr ⟨name', hname', bind_eq_ok_iff.mpr ⟨restKept', hrest', rfl⟩⟩
    · rw [Safety.bareAttributes, Safety.bareAttributes, List.map_cons, List.map_cons, hbareName]
      exact congrArg _ hbare

/-- A start tag that is read with another prefix, its declarations those of the first tag
with some chosen. -/
structure TagMatch (p q uri : String) (here : Bool) (e : Chosen) (tag tag' : StartTag) : Prop where
  name : tag'.name = renamedName p q here tag.name
  fresh : tag.name.lead ≠ q
  attributes : tag'.attributes = tag.attributes.map (renamedAttr p q here)
  attributesFresh : ∀ a ∈ tag.attributes, a.name.lead ≠ q
  keeps : ∀ a ∈ tag.attributes, Keeps p q uri here a.name
  original : tag.declarations = original e
  replaced : tag'.declarations = replaced q e
  fits : Fits p q uri e

/-- An element that is read with another prefix, its content the same for the checks. -/
structure FrameMatch (p q uri : String) (here : Bool) (e : Chosen) (f f' : Frame) : Prop where
  name : f'.name = renamedName p q here f.name
  value : f'.value.bare = f.value.bare
  unescaped : f'.unescaped = f.unescaped
  children : f'.children.map Node.bare = f.children.map Node.bare
  original : f.declarations = original e
  replaced : f'.declarations = replaced q e
  fits : Fits p q uri e

theorem bareInstructionName_renamed (hpq : Prefixes p q) (name : QName) :
    Safety.bareInstructionName (renamedName p q here name).text =
      Safety.bareInstructionName name.text := by
  by_cases hempty : name.lead.isEmpty = true
  · rw [renamedName_of_isEmpty hpq.old_ne hempty]
  · have hlead : (renamedName p q here name).lead.isEmpty = false := by
      rw [isEmpty_lead_renamedName hpq.old_ne hpq.new_ne]
      exact Bool.eq_false_iff.mpr hempty
    rw [Safety.bareInstructionName, Safety.bareInstructionName,
      contains_colon_text (Bool.eq_false_iff.mpr hempty), contains_colon_text hlead]
    rfl

theorem instructionValue_renamed (hpq : Prefixes p q) {e : Chosen} {tag tag' : StartTag}
    (htag : TagMatch p q uri here e tag tag') {v : Value} (h : instructionValue tag = .ok v) :
    ∃ v', instructionValue tag' = .ok v' ∧ v'.bare = v.bare := by
  have hname : tag'.name.name = tag.name.name := by rw [htag.name, name_renamedName]
  have hplain : plainAttr? tag'.attributes = plainAttr? tag.attributes := by
    rw [htag.attributes, plainAttr?_renamed hpq]
  have hrequired : requiredAttr tag' = requiredAttr tag := by
    funext name
    rw [requiredAttr, requiredAttr, hplain, hname]
  unfold instructionValue at h ⊢
  rw [hname, hplain, hrequired]
  dsimp only at h ⊢
  split at h
  case h_15 =>
    obtain rfl := Except.ok.inj h
    refine ⟨_, rfl, ?_⟩
    rw [Value.bare, Value.bare, htag.attributes, Safety.bareInstructionAttributes,
      Safety.bareInstructionAttributes, List.map_map, List.map_map, List.map_map]
    refine congrArg _ (List.map_congr_left fun a _ => ?_)
    exact Prod.ext (bareInstructionName_renamed hpq a.name) rfl
  all_goals exact ⟨v, h, rfl⟩

theorem frameOf_renamed (hpq : Prefixes p q) {e outer : Chosen} {tag tag' : StartTag}
    (htag : TagMatch p q uri (reaches p (e ++ outer)) e tag tag') (houter : Fits p q uri outer)
    {f : Frame} (h : frameOf (original outer) tag = .ok f) :
    ∃ f', frameOf (replaced q outer) tag' = .ok f' ∧
      FrameMatch p q uri (reaches p (e ++ outer)) e f f' := by
  have hfits := htag.fits.append houter
  have hplain : plainAttr? tag'.attributes = plainAttr? tag.attributes := by
    rw [htag.attributes, plainAttr?_renamed hpq]
  unfold frameOf at h ⊢
  dsimp only at h ⊢
  rw [htag.original, ← original_append] at h
  rw [htag.replaced, ← replaced_append, htag.name, namespaceOf_renamedName hfits htag.fresh,
    hplain]
  obtain ⟨ns, hns, h⟩ := bind_eq_ok_iff.mp h
  rw [hns]
  dsimp only [bind, Except.bind]
  by_cases hxsl : (ns == some xslNamespace) = true
  · rw [if_pos hxsl] at h ⊢
    obtain ⟨v, hv, h⟩ := bind_eq_ok_iff.mp h
    obtain ⟨v', hv', hbare⟩ := instructionValue_renamed hpq htag hv
    obtain rfl := Except.ok.inj h
    refine ⟨_, bind_eq_ok_iff.mpr ⟨v', hv', rfl⟩, ?_⟩
    exact ⟨rfl, hbare, rfl, rfl, rfl, rfl, htag.fits⟩
  · rw [if_neg hxsl] at h ⊢
    obtain ⟨kept, hkept, h⟩ := bind_eq_ok_iff.mp h
    obtain ⟨kept', hkept', hbare⟩ :=
      literalAttributes_renamed hpq hfits htag.attributesFresh htag.keeps hkept
    obtain rfl := Except.ok.inj h
    rw [htag.attributes, name_renamedName]
    refine ⟨_, bind_eq_ok_iff.mpr ⟨kept', hkept', rfl⟩, ?_⟩
    refine ⟨rfl, ?_, rfl, rfl, rfl, rfl, htag.fits⟩
    show Value.element ⟨_, _, _⟩ = Value.element ⟨_, _, _⟩
    rw [hbare]

/-- One more declaration, which may be chosen. -/
theorem TagMatch.withDeclaration {e : Chosen} {tag tag' : StartTag}
    (htag : TagMatch p q uri here e tag tag') {key value : String} {chosen : Bool}
    (hfresh : key ≠ q) (hchosen : chosen = true → (key, value) = (p, uri)) :
    TagMatch p q uri here (((key, value), chosen) :: e)
      { tag with declarations := (key, value) :: tag.declarations }
      { tag' with
        declarations := (if chosen then (q, value) else (key, value)) :: tag'.declarations } where
  name := htag.name
  fresh := htag.fresh
  attributes := htag.attributes
  attributesFresh := htag.attributesFresh
  keeps := htag.keeps
  original := congrArg _ htag.original
  replaced := congrArg _ htag.replaced
  fits := ⟨List.forall_mem_cons.mpr ⟨hfresh, htag.fits.fresh⟩,
    List.forall_mem_cons.mpr ⟨hchosen, htag.fits.chosen⟩⟩

/-- One more attribute that is not chosen. -/
theorem TagMatch.withAttr (hpq : Prefixes p q) {e : Chosen} {tag tag' : StartTag}
    (htag : TagMatch p q uri here e tag tag') {name : QName} (value : String)
    (hdeclares : name.lead = "xmlns" → name.name ≠ q) (hfresh : name.lead ≠ q)
    (hkeeps : Keeps p q uri here name) :
    ∃ e', TagMatch p q uri here e' (tag.withAttr name value)
        (tag'.withAttr (renamedName p q here name) value) ∧
      ∀ outer : Chosen, reaches p (e' ++ outer) =
        if (Token.attr name value).declares p then false else reaches p (e ++ outer) := by
  have hempty := @isEmpty_lead_renamedName p q here name hpq.old_ne hpq.new_ne
  by_cases hdefault : (name.lead.isEmpty && name.name == "xmlns") = true
  · have hlead : name.lead = "" := String.isEmpty_iff.mp ((Bool.and_eq_true _ _).mp hdefault).1
    have hsame : renamedName p q here name = name :=
      renamedName_of_isEmpty hpq.old_ne (String.isEmpty_iff.mpr hlead)
    refine ⟨(("", value), false) :: e, ?_, fun outer => ?_⟩
    · rw [hsame, StartTag.withAttr, StartTag.withAttr, if_pos hdefault, if_pos hdefault]
      exact htag.withDeclaration (Ne.symm hpq.new_ne) fun h => absurd h Bool.false_ne_true
    · have hp : (("" : String) == p) = false := beq_eq_false_iff_ne.mpr (Ne.symm hpq.old_ne)
      rw [List.cons_append, reaches_cons, hp, Token.declares, hlead]
      rfl
  · by_cases hxmlns : (name.lead == "xmlns") = true
    · have hlead : name.lead = "xmlns" := beq_iff_eq.mp hxmlns
      have hsame : renamedName p q here name = name := by
        have hne : (name.lead == p) = false := by
          rw [beq_eq_false_iff_ne, hlead]
          exact Ne.symm hpq.old_ne_xmlns
        rw [renamedName, hne, Bool.and_false, if_neg Bool.false_ne_true]
      refine ⟨((name.name, value), false) :: e, ?_, fun outer => ?_⟩
      · rw [hsame, StartTag.withAttr, StartTag.withAttr, if_neg hdefault, if_pos hxmlns,
          if_neg hdefault, if_pos hxmlns]
        exact htag.withDeclaration (hdeclares hlead) fun h => absurd h Bool.false_ne_true
      · rw [List.cons_append, reaches_cons, Token.declares, hxmlns, Bool.true_and]
    · have hxmlns' : ¬((renamedName p q here name).lead == "xmlns") = true := by
        unfold renamedName
        split
        · exact fun h => hpq.new_ne_xmlns (beq_iff_eq.mp h)
        · exact hxmlns
      have hdefault' : ¬((renamedName p q here name).lead.isEmpty &&
          (renamedName p q here name).name == "xmlns") = true := by
        rw [hempty, name_renamedName]
        exact hdefault
      refine ⟨e, ?_, fun outer => ?_⟩
      · rw [StartTag.withAttr, StartTag.withAttr, if_neg hdefault, if_neg hxmlns, if_neg hdefault',
          if_neg hxmlns']
        refine { htag with attributes := ?_, attributesFresh := ?_, keeps := ?_ }
        · rw [htag.attributes, List.map_append]
          rfl
        · exact List.forall_mem_append.mpr ⟨htag.attributesFresh, by simpa using hfresh⟩
        · exact List.forall_mem_append.mpr ⟨htag.keeps, by simpa using hkeeps⟩
      · rw [Token.declares, Bool.eq_false_iff.mpr hxmlns, Bool.false_and,
          if_neg Bool.false_ne_true]

/-- The chosen declaration. -/
theorem TagMatch.withChosen {e : Chosen} {tag tag' : StartTag}
    (htag : TagMatch p q uri here e tag tag') (hpq : p ≠ q) :
    TagMatch p q uri here (((p, uri), true) :: e) (tag.withAttr ⟨"xmlns", p⟩ uri)
      (tag'.withAttr ⟨"xmlns", q⟩ uri) :=
  htag.withDeclaration hpq fun _ => rfl

end Builder
end TagGrammar
