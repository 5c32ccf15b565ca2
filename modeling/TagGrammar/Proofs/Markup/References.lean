/-
The references of a text.

A well-formed reference is one of five names, or a number sign and the digits of a code point,
`IsReference`.  The digits are read by a reader of integers, which takes a plus sign before them
as well, `IsSigned`.  So a text is resolved by the references that are well formed or signed, and
by the well-formed ones alone exactly if no ampersand that is met has a signed one after it
(`resolveReferences_resolves_iff`).
-/
import Mathlib.Data.Nat.Digits.Defs
import TagGrammar.Markup.Entity
import TagGrammar.Proofs.Runs

namespace TagGrammar
namespace Markup
namespace Reference

variable {base n m : Nat} {c d : Char} {cs ds name rest after before out sign : List Char}

/-! ## Digits -/

/-- The digits of hexadecimal numbers, of which the first ten are decimal. -/
def digits : List Char :=
  ['0', '1', '2', '3', '4', '5', '6', '7', '8', '9', 'a', 'b', 'c', 'd', 'e', 'f']

/-- A digit of a base, small or capital. -/
def IsDigit (base : Nat) (c : Char) : Prop := c.toLower ∈ digits.take base

instance (base : Nat) : DecidablePred (IsDigit base) := fun c =>
  inferInstanceAs (Decidable (c.toLower ∈ digits.take base))

/-- The place of a digit among the digits. -/
def digitValue (c : Char) : Nat := digits.idxOf c.toLower

/-- A number is written by at least one digit, the last one for the units. -/
structure Writes (base : Nat) (ds : List Char) (n : Nat) : Prop where
  ne_nil : ds ≠ []
  digits : ∀ c ∈ ds, IsDigit base c
  value : Nat.ofDigits base (ds.reverse.map digitValue) = n

/-- The bases of numbers in references. -/
def IsBase (base : Nat) : Prop := base = 10 ∨ base = 16

theorem toNat_le_of_le (h : c ≤ d) : c.toNat ≤ d.toNat := UInt32.le_iff_toNat_le.mp h

theorem toNat_of_isDigit (h : IsDigit base c) : c.toNat < 128 := by
  have hall : digits.all (fun d => d.toNat < 128) = true := by decide
  have hlower : c.toLower.toNat < 128 :=
    of_decide_eq_true (List.all_eq_true.mp hall _ (List.take_subset base digits h))
  by_cases hcapital : 'A' ≤ c ∧ c ≤ 'Z'
  · have hz : c.toNat ≤ 'Z'.toNat := toNat_le_of_le hcapital.2
    exact Nat.lt_of_le_of_lt hz (by decide)
  · have hself : c.toLower = c := dif_neg hcapital
    rwa [hself] at hlower

theorem digitValue?_eq_none (hc : ¬c.toNat < 128) : digitValue? base c = none := by
  have hbeyond : ∀ d ∈ ['9', 'f', 'F'], ¬c ≤ d := by
    intro d hd hle
    have hall : ['9', 'f', 'F'].all (fun d => d.toNat < 128) = true := by decide
    have hd : d.toNat < 128 := of_decide_eq_true (List.all_eq_true.mp hall d hd)
    exact hc (Nat.lt_of_le_of_lt (toNat_le_of_le hle) hd)
  have hdigit : ¬c.isDigit = true := by
    intro h
    rw [Char.isDigit, Bool.and_eq_true, decide_eq_true_eq, decide_eq_true_eq] at h
    exact hbeyond '9' (by decide) h.2
  have hsmall : ¬('a' ≤ c ∧ c ≤ 'f') := fun h => hbeyond 'f' (by decide) h.2
  have hcapital : ¬('A' ≤ c ∧ c ≤ 'F') := fun h => hbeyond 'F' (by decide) h.2
  rw [digitValue?, if_neg hdigit, if_neg hsmall, if_neg hcapital]
  exact if_neg (Nat.lt_irrefl base)

theorem digitValue?_eq (hbase : IsBase base) (c : Char) :
    digitValue? base c = if IsDigit base c then some (digitValue c) else none := by
  by_cases hc : c.toNat < 128
  · have hall : ∀ base ∈ [10, 16], ∀ k < 128, digitValue? base (Char.ofNat k) =
        if IsDigit base (Char.ofNat k) then some (digitValue (Char.ofNat k)) else none := by
      decide +kernel
    rw [← Char.ofNat_toNat c]
    exact hall base (by simpa [IsBase] using hbase) c.toNat hc
  · rw [if_neg fun h => hc (toNat_of_isDigit h), digitValue?_eq_none hc]

theorem numberFrom?_eq_some_iff (hbase : IsBase base) :
    numberFrom? base n cs = some m ↔
      (∀ c ∈ cs, IsDigit base c) ∧
        n * base ^ cs.length + Nat.ofDigits base (cs.reverse.map digitValue) = m := by
  induction cs generalizing n with
  | nil => simp [numberFrom?]
  | cons c cs ih =>
    rw [numberFrom?, digitValue?_eq hbase, List.forall_mem_cons]
    by_cases hc : IsDigit base c
    · rw [if_pos hc, Option.bind_some, ih, and_iff_right hc, List.reverse_cons, List.map_append,
        Nat.ofDigits_append, List.length_map, List.length_reverse, List.length_cons]
      have hvalue : (n * base + digitValue c) * base ^ cs.length +
          Nat.ofDigits base (cs.reverse.map digitValue) =
          n * base ^ (cs.length + 1) + (Nat.ofDigits base (cs.reverse.map digitValue) +
            base ^ cs.length * Nat.ofDigits base ([c].map digitValue)) := by
        rw [List.map_singleton, Nat.ofDigits_singleton]
        ring
      rw [hvalue]
    · simp [hc]

theorem number?_eq_some_iff (hbase : IsBase base) : number? base cs = some n ↔ Writes base cs n := by
  unfold number?
  split
  · rename_i h
    constructor
    · intro h
      cases h
    · intro hw
      exact absurd (List.isEmpty_iff.mp h) hw.ne_nil
  · rename_i h
    rw [numberFrom?_eq_some_iff hbase, Nat.zero_mul, Nat.zero_add]
    exact ⟨fun hw => ⟨fun hnil => h (List.isEmpty_iff.mpr hnil), hw.1, hw.2⟩,
      fun hw => ⟨hw.digits, hw.value⟩⟩

theorem not_isDigit (hbase : IsBase base) (hc : c ∈ ['+', ';']) : ¬IsDigit base c := by
  obtain rfl | rfl : c = '+' ∨ c = ';' := by simpa using hc
  · rcases hbase with rfl | rfl <;> decide
  · rcases hbase with rfl | rfl <;> decide

theorem signedNumber?_eq_some_iff (hbase : IsBase base) :
    signedNumber? base cs = some n ↔
      Writes base cs n ∨ ∃ ds, cs = '+' :: ds ∧ Writes base ds n := by
  unfold signedNumber?
  split
  · rename_i ds
    rw [number?_eq_some_iff hbase]
    constructor
    · intro h
      exact .inr ⟨ds, rfl, h⟩
    · rintro (h | ⟨ds', heq, h⟩)
      · exact absurd (h.digits '+' List.mem_cons_self) (not_isDigit hbase (by decide))
      · rwa [(List.cons.inj heq).2]
  · rename_i hplus
    rw [number?_eq_some_iff hbase]
    constructor
    · exact .inl
    · rintro (h | ⟨ds, rfl, -⟩)
      · exact h
      · exact absurd rfl (hplus ds)

theorem charOf?_eq_some_iff : charOf? n = some d ↔ d.toNat = n := by
  unfold charOf?
  constructor
  · intro h
    obtain ⟨hvalid, heq⟩ := Option.ite_none_right_eq_some.mp h
    rw [← Option.some.inj heq, Char.ofNat, dif_pos hvalid]
    rfl
  · rintro rfl
    have hvalid : d.toNat.isValidChar := d.valid
    rw [if_pos hvalid, Char.ofNat_toNat]

theorem bind_charOf?_eq_some_iff (hbase : IsBase base) :
    (signedNumber? base cs).bind charOf? = some d ↔
      Writes base cs d.toNat ∨ ∃ ds, cs = '+' :: ds ∧ Writes base ds d.toNat := by
  rw [← signedNumber?_eq_some_iff hbase, Option.bind_eq_some_iff]
  constructor
  · rintro ⟨n, hn, hd⟩
    rwa [charOf?_eq_some_iff.mp hd]
  · exact fun h => ⟨d.toNat, h, charOf?_eq_some_iff.mpr rfl⟩

/-! ## References -/

/-- The names of the characters that markup uses. -/
inductive IsName : List Char → Char → Prop where
  | amp : IsName ['a', 'm', 'p'] '&'
  | apos : IsName ['a', 'p', 'o', 's'] '\''
  | gt : IsName ['g', 't'] '>'
  | lt : IsName ['l', 't'] '<'
  | quot : IsName ['q', 'u', 'o', 't'] '"'

/-- The code point of a character in decimal digits, or in hexadecimal ones after an x, with a
sign before the digits. -/
inductive IsNumber (sign : List Char) : List Char → Char → Prop where
  | decimal {ds : List Char} {d : Char} (h : Writes 10 ds d.toNat) :
    IsNumber sign ('#' :: (sign ++ ds)) d
  | hexadecimal {ds : List Char} {d : Char} (h : Writes 16 ds d.toNat) :
    IsNumber sign ('#' :: 'x' :: (sign ++ ds)) d

/-- What stands between an ampersand and a semicolon in a well-formed reference, and the
character that it is a reference to. -/
def IsReference (name : List Char) (d : Char) : Prop := IsName name d ∨ IsNumber [] name d

/-- A number with a plus sign, which no well-formed reference has. -/
def IsSigned (name : List Char) (d : Char) : Prop := IsNumber ['+'] name d

/-- What is read as a reference. -/
def IsRead (name : List Char) (d : Char) : Prop := IsReference name d ∨ IsSigned name d

theorem char?_decimal (h : ∀ ds, cs ≠ 'x' :: ds) :
    char? ('#' :: cs) = (signedNumber? 10 cs).bind charOf? := by
  rw [char?]
  exact h

theorem char?_eq_some_iff : char? name = some d ↔ IsRead name d := by
  constructor
  · intro h
    unfold char? at h
    split at h
    · cases h
      exact .inl (.inl .amp)
    · cases h
      exact .inl (.inl .apos)
    · cases h
      exact .inl (.inl .gt)
    · cases h
      exact .inl (.inl .lt)
    · cases h
      exact .inl (.inl .quot)
    · rcases (bind_charOf?_eq_some_iff (.inr rfl)).mp h with hw | ⟨ds, rfl, hw⟩
      · exact .inl (.inr (.hexadecimal hw))
      · exact .inr (.hexadecimal hw)
    · rcases (bind_charOf?_eq_some_iff (.inl rfl)).mp h with hw | ⟨ds, rfl, hw⟩
      · exact .inl (.inr (.decimal hw))
      · exact .inr (.decimal hw)
    · cases h
  · rintro ((hname | hnumber) | hsigned)
    · cases hname <;> rfl
    · cases hnumber with
      | decimal h =>
        rw [List.nil_append, char?_decimal]
        · exact (bind_charOf?_eq_some_iff (.inl rfl)).mpr (.inl h)
        · rintro ds rfl
          exact absurd (h.digits 'x' List.mem_cons_self) (by decide)
      | hexadecimal h => exact (bind_charOf?_eq_some_iff (.inr rfl)).mpr (.inl h)
    · cases hsigned with
      | decimal h => exact (bind_charOf?_eq_some_iff (.inl rfl)).mpr (.inr ⟨_, rfl, h⟩)
      | hexadecimal h => exact (bind_charOf?_eq_some_iff (.inr rfl)).mpr (.inr ⟨_, rfl, h⟩)

theorem semicolon_not_mem_of_isNumber (hsign : ';' ∉ sign) (h : IsNumber sign name d) :
    ';' ∉ name := by
  cases h with
  | decimal h =>
    have hds : ';' ∉ _ := fun hmem => not_isDigit (.inl rfl) (by decide) (h.digits ';' hmem)
    simp [hsign, hds]
  | hexadecimal h =>
    have hds : ';' ∉ _ := fun hmem => not_isDigit (.inr rfl) (by decide) (h.digits ';' hmem)
    simp [hsign, hds]

theorem IsRead.semicolon_not_mem (h : IsRead name d) : ';' ∉ name := by
  rcases h with (hname | hnumber) | hsigned
  · cases hname <;> decide
  · exact semicolon_not_mem_of_isNumber (by decide) hnumber
  · exact semicolon_not_mem_of_isNumber (by decide) hsigned

/-- A plus sign stands where a well-formed reference has a digit or an x. -/
theorem IsSigned.not_isReference (h : IsSigned name d) (d' : Char) : ¬IsReference name d' := by
  rintro (hname | hnumber)
  · cases h <;> cases hname
  · cases h with
    | decimal _ =>
      generalize hcs : '#' :: (['+'] ++ _) = cs at hnumber
      cases hnumber with
      | decimal h =>
        obtain ⟨-, rfl⟩ := List.cons.inj hcs
        exact not_isDigit (.inl rfl) (by decide) (h.digits '+' List.mem_cons_self)
      | hexadecimal h => cases hcs
    | hexadecimal _ =>
      generalize hcs : '#' :: 'x' :: (['+'] ++ _) = cs at hnumber
      cases hnumber with
      | decimal h =>
        obtain ⟨-, rfl⟩ := List.cons.inj hcs
        exact absurd (h.digits 'x' List.mem_cons_self) (by decide)
      | hexadecimal h =>
        obtain ⟨-, rfl⟩ := List.cons.inj (List.cons.inj hcs).2
        exact not_isDigit (.inr rfl) (by decide) (h.digits '+' List.mem_cons_self)

theorem forall_bne_semicolon (h : ';' ∉ cs) : ∀ c ∈ cs, (c != ';') = true :=
  fun _ hc => bne_iff_ne.mpr fun heq => h (heq ▸ hc)

theorem takeWhile_name (h : ';' ∉ name) (after : List Char) :
    (name ++ ';' :: after).takeWhile (· != ';') = name :=
  takeWhile_run (forall_bne_semicolon h) rfl

theorem dropWhile_name (h : ';' ∉ name) (after : List Char) :
    (name ++ ';' :: after).dropWhile (· != ';') = ';' :: after :=
  dropWhile_run (forall_bne_semicolon h) rfl

/-! ## Texts -/

variable (R : List Char → Char → Prop)

/-- A text with each of its references replaced by its character, from left to right.  What has
been replaced is not looked at again. -/
inductive Replaced : List Char → List Char → Prop where
  | nil : Replaced [] []
  | plain {c : Char} {cs out : List Char} (hc : c ≠ '&') (h : Replaced cs out) :
    Replaced (c :: cs) (c :: out)
  | reference {name cs out : List Char} {d : Char} (hname : R name d) (h : Replaced cs out) :
    Replaced ('&' :: (name ++ ';' :: cs)) (d :: out)

/-- An ampersand is met outside a reference, with this after it. -/
def Meets (cs rest : List Char) : Prop :=
  ∃ before out, Replaced R before out ∧ cs = before ++ '&' :: rest

/-- What follows an ampersand makes a reference of it. -/
def StartsReference (rest : List Char) : Prop :=
  ∃ name d after, R name d ∧ rest = name ++ ';' :: after

/-- What becomes of a text by the references that it has.  It is accepted if every ampersand that
is met starts one, and replaced then; otherwise the first one that does not is at fault. -/
structure Resolves (text : String) (result : Except ReferenceError String) : Prop where
  accepted_iff : (∃ out, result = .ok out) ↔
    ∀ rest, Meets R text.toList rest → StartsReference R rest
  replaced : ∀ out, result = .ok out → Replaced R text.toList out.toList
  unclosed : ∀ rest, Meets R text.toList rest → ¬StartsReference R rest → ';' ∉ rest →
    result = .error (.unclosed (String.ofList rest))
  unknown : ∀ name after, Meets R text.toList (name ++ ';' :: after) →
    ¬StartsReference R (name ++ ';' :: after) → ';' ∉ name →
    result = .error (.unknown (String.ofList name))

variable {R}

/-- A reference goes up to the first semicolon. -/
theorem startsReference_iff (hR : ∀ name d, R name d → IsRead name d) (hname : ';' ∉ name) :
    StartsReference R (name ++ ';' :: after) ↔ ∃ d, R name d := by
  constructor
  · rintro ⟨name', d, after', hd, heq⟩
    have hname' : ';' ∉ name' := (hR name' d hd).semicolon_not_mem
    have hcut := congrArg (List.takeWhile (· != ';')) heq
    rw [takeWhile_name hname, takeWhile_name hname'] at hcut
    exact ⟨d, hcut ▸ hd⟩
  · exact fun ⟨d, hd⟩ => ⟨name, d, after, hd, rfl⟩

theorem Replaced.of_plain (h : ∀ c ∈ cs, c ≠ '&') : Replaced R cs cs := by
  induction cs with
  | nil => exact .nil
  | cons c cs ih =>
    obtain ⟨hc, hcs⟩ := List.forall_mem_cons.mp h
    exact .plain hc (ih hcs)

theorem Replaced.append (h : Replaced R before out) {cs out' : List Char}
    (h' : Replaced R cs out') : Replaced R (before ++ cs) (out ++ out') := by
  induction h with
  | nil => exact h'
  | plain hc _ ih => exact .plain hc ih
  | reference hname _ ih =>
    rw [List.cons_append, List.append_assoc, List.cons_append]
    exact .reference hname ih

theorem Replaced.meets (h : Replaced R before out) (h' : Meets R cs rest) :
    Meets R (before ++ cs) rest := by
  obtain ⟨between, out', hreplaced, rfl⟩ := h'
  exact ⟨before ++ between, out ++ out', h.append hreplaced, by rw [List.append_assoc]⟩

/-- A text is replaced to its end, or there is a first ampersand that starts no reference. -/
theorem exists_replaced_or_meets (cs : List Char) :
    (∃ out, Replaced R cs out) ∨ ∃ rest, Meets R cs rest ∧ ¬StartsReference R rest := by
  induction hn : cs.length using Nat.strong_induction_on generalizing cs with
  | _ n ih =>
    -- whatever is replaced first, the rest of the text is shorter
    have hgoes : ∀ before out rest, Replaced R before out → before ≠ [] → cs = before ++ rest →
        (∃ out, Replaced R cs out) ∨ ∃ rest, Meets R cs rest ∧ ¬StartsReference R rest := by
      rintro before out rest hbefore hne rfl
      have hshorter : rest.length < n := by
        have hpos := List.length_pos_iff.mpr hne
        rw [List.length_append] at hn
        omega
      rcases ih _ hshorter rest rfl with ⟨out', h⟩ | ⟨rest', hmeets, hfault⟩
      · exact .inl ⟨out ++ out', hbefore.append h⟩
      · exact .inr ⟨rest', hbefore.meets hmeets, hfault⟩
    cases cs with
    | nil => exact .inl ⟨[], .nil⟩
    | cons c cs =>
      by_cases hc : c = '&'
      · subst hc
        by_cases hstarts : StartsReference R cs
        · obtain ⟨name, d, after, hname, rfl⟩ := hstarts
          exact hgoes ('&' :: (name ++ [';'])) [d] after (.reference hname .nil)
            (List.cons_ne_nil _ _) (by simp)
        · exact .inr ⟨cs, ⟨[], [], .nil, rfl⟩, hstarts⟩
      · exact hgoes [c] [c] cs (.plain hc .nil) (List.cons_ne_nil _ _) rfl

/-! ## Resolving -/

theorem resolveChars_unclosed (h : ';' ∉ rest) :
    resolveChars ('&' :: rest) = .error (.unclosed (String.ofList rest)) := by
  have hend : rest.dropWhile (· != ';') = [] :=
    List.dropWhile_eq_nil_iff.mpr (forall_bne_semicolon h)
  rw [resolveChars, if_pos rfl]
  split
  · rfl
  · rename_i heq
    rw [hend] at heq
    cases heq

theorem resolveChars_reference (h : ';' ∉ name) (after : List Char) :
    resolveChars ('&' :: (name ++ ';' :: after)) =
      (char? name).elim (.error (.unknown (String.ofList name)))
        fun d => (resolveChars after).map (d :: ·) := by
  rw [resolveChars, if_pos rfl]
  split
  · rename_i heq
    rw [dropWhile_name h] at heq
    cases heq
  · rename_i heq
    rw [dropWhile_name h] at heq
    obtain ⟨-, rfl⟩ := List.cons.inj heq
    simp only [takeWhile_name h]
    cases char? name <;> rfl

/-- What has been replaced stands before what becomes of the rest. -/
theorem Replaced.resolveChars_append (h : Replaced R before out)
    (hR : ∀ name d, R name d → IsRead name d) (cs : List Char) :
    resolveChars (before ++ cs) = (resolveChars cs).map (out ++ ·) := by
  induction h with
  | nil =>
    rw [List.nil_append]
    cases resolveChars cs <;> rfl
  | plain hc _ ih =>
    rw [List.cons_append, resolveChars, if_neg hc, ih]
    cases resolveChars cs <;> rfl
  | reference hname _ ih =>
    have hread := hR _ _ hname
    rw [List.cons_append, List.append_assoc, List.cons_append,
      resolveChars_reference hread.semicolon_not_mem, char?_eq_some_iff.mpr hread, ih]
    cases resolveChars cs <;> rfl

/-- A class of references is what a text is resolved by if only what is in it is read where an
ampersand is met. -/
theorem resolves_of_agrees {text : String} (hR : ∀ name d, R name d → IsRead name d)
    (h : ∀ name d after, Meets R text.toList (name ++ ';' :: after) → IsRead name d → R name d) :
    Resolves R text (resolveReferences text) := by
  have hunclosed : ∀ rest, Meets R text.toList rest → ';' ∉ rest →
      resolveReferences text = .error (.unclosed (String.ofList rest)) := by
    rintro rest ⟨before, out, hreplaced, htext⟩ hrest
    rw [resolveReferences, htext, hreplaced.resolveChars_append hR, resolveChars_unclosed hrest]
    rfl
  have hunknown : ∀ name after, Meets R text.toList (name ++ ';' :: after) →
      ¬StartsReference R (name ++ ';' :: after) → ';' ∉ name →
      resolveReferences text = .error (.unknown (String.ofList name)) := by
    intro name after hmeets hfault hname
    have hnone : char? name = none := by
      refine Option.eq_none_iff_forall_ne_some.mpr fun d hd => hfault ?_
      exact ⟨name, d, after, h name d after hmeets (char?_eq_some_iff.mp hd), rfl⟩
    obtain ⟨before, out, hreplaced, htext⟩ := hmeets
    rw [resolveReferences, htext, hreplaced.resolveChars_append hR, resolveChars_reference hname,
      hnone]
    rfl
  have hfaulty : ∀ rest, Meets R text.toList rest → ¬StartsReference R rest →
      ∀ out, resolveReferences text ≠ .ok out := by
    intro rest hmeets hfault out hout
    by_cases hrest : ';' ∈ rest
    · obtain ⟨name, after, rfl, hname⟩ := List.eq_append_cons_of_mem hrest
      rw [hunknown name after hmeets hfault hname] at hout
      cases hout
    · rw [hunclosed rest hmeets hrest] at hout
      cases hout
  have hreplaced : ∀ out, Replaced R text.toList out →
      resolveReferences text = .ok (String.ofList out) := by
    intro out hout
    have hresolved := hout.resolveChars_append hR []
    rw [List.append_nil] at hresolved
    rw [resolveReferences, hresolved, resolveChars]
    simp [Except.map]
  refine ⟨⟨?_, fun hall => ?_⟩, fun out hout => ?_, fun rest hmeets _ => hunclosed rest hmeets,
    hunknown⟩
  · rintro ⟨out, hout⟩ rest hmeets
    by_contra hfault
    exact hfaulty rest hmeets hfault out hout
  · rcases exists_replaced_or_meets text.toList with ⟨out, hout⟩ | ⟨rest, hmeets, hfault⟩
    · exact ⟨_, hreplaced out hout⟩
    · exact absurd (hall rest hmeets) hfault
  · rcases exists_replaced_or_meets text.toList with ⟨out', hout'⟩ | ⟨rest, hmeets, hfault⟩
    · rw [hreplaced out' hout'] at hout
      cases hout
      rwa [String.toList_ofList]
    · exact absurd hout (hfaulty rest hmeets hfault out)

/-- A text is not resolved by the well-formed references if one that is met is signed. -/
theorem not_resolves_of_signed {text : String} (hsigned : IsSigned name d)
    (hmeets : Meets IsReference text.toList (name ++ ';' :: after))
    (hread : Resolves IsRead text (resolveReferences text)) :
    ¬Resolves IsReference text (resolveReferences text) := by
  intro hwell
  have hname : ';' ∉ name := IsRead.semicolon_not_mem (.inr hsigned)
  have hfault : ¬StartsReference IsReference (name ++ ';' :: after) := by
    rw [startsReference_iff (fun _ _ h => .inl h) hname]
    rintro ⟨d', hd'⟩
    exact hsigned.not_isReference d' hd'
  have herror : resolveReferences text = .error (.unknown (String.ofList name)) :=
    hwell.unknown name after hmeets hfault hname
  -- so some ampersand is at fault for what is read, with the same name after it, which is read
  have hrejected : ¬∃ out, resolveReferences text = .ok out := by
    rintro ⟨out, hout⟩
    rw [herror] at hout
    cases hout
  rw [hread.accepted_iff] at hrejected
  push Not at hrejected
  obtain ⟨rest', hmeets', hfault'⟩ := hrejected
  by_cases hrest : ';' ∈ rest'
  · obtain ⟨name', after', rfl, hname'⟩ := List.eq_append_cons_of_mem hrest
    have herror' := hread.unknown name' after' hmeets' hfault' hname'
    rw [herror] at herror'
    have heq : name = name' :=
      String.ofList_injective (ReferenceError.unknown.inj (Except.error.inj herror'))
    exact hfault' ⟨name, d, after', .inr hsigned, by rw [heq]⟩
  · have herror' := hread.unclosed rest' hmeets' hfault' hrest
    rw [herror] at herror'
    cases herror'

/-- Every text is resolved by the references that are read, and by the well-formed ones alone
exactly if no ampersand that is met by them starts a signed one. -/
theorem resolveReferences_resolves_iff (text : String) :
    Resolves IsRead text (resolveReferences text) ∧
      (Resolves IsReference text (resolveReferences text) ↔
        ∀ rest, Meets IsReference text.toList rest → ¬StartsReference IsSigned rest) := by
  have hread : Resolves IsRead text (resolveReferences text) :=
    resolves_of_agrees (fun _ _ h => h) fun _ _ _ _ h => h
  refine ⟨hread, fun hwell => ?_, fun hunsigned => ?_⟩
  · rintro rest hmeets ⟨name, d, after, hsigned, rfl⟩
    exact not_resolves_of_signed hsigned hmeets hread hwell
  · refine resolves_of_agrees (fun _ _ h => .inl h) fun name d after hmeets hname => ?_
    rcases hname with hname | hsigned
    · exact hname
    · exact absurd ⟨name, d, after, hsigned, rfl⟩ (hunsigned _ hmeets)

/-- The plus sign of a number goes unnoticed. -/
theorem signed_number_read :
    resolveReferences "&#+65;" = .ok "A" ∧
      ¬Resolves IsReference "&#+65;" (resolveReferences "&#+65;") := by
  have hsigned : IsSigned ['#', '+', '6', '5'] 'A' :=
    .decimal ((number?_eq_some_iff (.inl rfl)).mp (by decide))
  have hresolved : resolveReferences "&#+65;" = .ok "A" := by
    have hchars : resolveChars ('&' :: (['#', '+', '6', '5'] ++ ';' :: [])) = .ok ['A'] := by
      rw [resolveChars_reference (by decide), char?_eq_some_iff.mpr (.inr hsigned), resolveChars]
      rfl
    exact congrArg (Except.map String.ofList) hchars
  refine ⟨hresolved, fun hwell => ?_⟩
  have hfault : ¬StartsReference IsReference (['#', '+', '6', '5'] ++ ';' :: []) := by
    rw [startsReference_iff (fun _ _ h => .inl h) (by decide)]
    rintro ⟨d, hd⟩
    exact hsigned.not_isReference d hd
  exact hfault (hwell.accepted_iff.mp ⟨"A", hresolved⟩ _ ⟨[], [], .nil, rfl⟩)

end Reference
end Markup
end TagGrammar
