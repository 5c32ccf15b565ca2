/-
The origin of a fixed address.

The check looks at the text of an address before its first expression.  Here the address is
what it expands to: its expressions may yield any texts at all, filtered or not, and
`schemeAndAuthority` reads the whole of it from the left.  The slash that ends the host is what
makes the check right, for without it an expression could go on with the host.
-/
import TagGrammar.Proofs.Case
import TagGrammar.Proofs.Safety.FixedUrl
import TagGrammar.Proofs.XPath.Lexer

namespace TagGrammar

/-! ## Expansions -/

namespace ValueTemplate

/-- The text of a part, if an expression yields a given text. -/
def partText (value : String) : ValuePart → String
  | .literal text => text
  | .expression _ => value

/-- The text of some parts, if the expression at each place yields a given text. -/
def expand (values : Nat → String) (parts : List ValuePart) : String :=
  String.join (parts.mapIdx fun i part => partText (values i) part)

variable {parts : List ValuePart}

theorem expand_cons (values : Nat → String) (part : ValuePart) (parts : List ValuePart) :
    expand values (part :: parts) =
      partText (values 0) part ++ expand (fun i => values (i + 1)) parts := by
  rw [expand, List.mapIdx_cons, String.join_cons]
  rfl

/-- Where there are no expressions, what they yield does not matter. -/
theorem expand_eq_of_isLiteral (h : isLiteral parts = true) (values values' : Nat → String) :
    expand values parts = expand values' parts := by
  induction parts generalizing values values' with
  | nil => rfl
  | cons part parts ih =>
    obtain ⟨hpart, hparts⟩ := (Bool.and_eq_true _ _).mp h
    rw [expand_cons, expand_cons, ih hparts _ fun i => values' (i + 1)]
    cases part with
    | literal text => rfl
    | expression source => cases hpart

theorem exists_expand_eq (values : Nat → String) (parts : List ValuePart) :
    ∃ rest, expand values parts = leadingLiteral parts ++ rest := by
  cases parts with
  | nil => exact ⟨"", rfl⟩
  | cons part parts =>
    cases part with
    | literal text => exact ⟨_, expand_cons values (.literal text) parts⟩
    | expression source => exact ⟨_, String.empty_append.symm⟩

end ValueTemplate

namespace Safety

open ValueTemplate

/-! ## Origins -/

/-- A scheme of the web or none, and a host. -/
structure Origin where
  /-- In any case, with its colon. -/
  scheme : String
  host : String
  web : Text.lower scheme ∈ ["", "http:", "https:"]
  host_ne_empty : host ≠ ""
  slash_not_mem : '/' ∉ host.toList

namespace Origin

variable {o : Origin} {address : String}

def text (o : Origin) : String := o.scheme ++ "//" ++ o.host ++ "/"

/-- An address begins with the origin, up to the slash after the host. -/
def Begins (o : Origin) (address : String) : Prop := ∃ rest, address = o.text ++ rest

theorem Begins.append (h : o.Begins address) (rest : String) : o.Begins (address ++ rest) := by
  obtain ⟨rest', rfl⟩ := h
  exact ⟨rest' ++ rest, String.append_assoc⟩

theorem Begins.toList_eq (h : o.Begins address) : ∃ rest, address.toList =
    o.scheme.toList ++ '/' :: '/' :: (o.host.toList ++ '/' :: rest) := by
  obtain ⟨rest, rfl⟩ := h
  exact ⟨rest.toList, by simp [text]⟩

end Origin

/-- What is fixed up to case is fixed as it is written, since no slash has a case. -/
theorem FixedOrigin.exists_begins {leading : String} (h : FixedOrigin leading) :
    ∃ o : Origin, o.Begins leading := by
  have hslash : ∀ {c : Char}, c.toLower = '/' → c = '/' := fun h => (Text.toLower_eq_iff rfl).mp h
  obtain ⟨scheme, hscheme, host, rest, hne, hhost, hlower⟩ := h
  rw [Text.toList_lower] at hlower
  obtain ⟨scheme', tail, hleading, hscheme', htail⟩ := List.map_eq_append_iff.mp hlower
  obtain ⟨c₁, tail₁, rfl, hc₁, htail₁⟩ := List.map_eq_cons_iff.mp htail
  obtain ⟨c₂, tail₂, rfl, hc₂, htail₂⟩ := List.map_eq_cons_iff.mp htail₁
  obtain ⟨host', tail₃, rfl, rfl, htail₃⟩ := List.map_eq_append_iff.mp htail₂
  obtain ⟨c₃, rest', rfl, hc₃, -⟩ := List.map_eq_cons_iff.mp htail₃
  cases hslash hc₁
  cases hslash hc₂
  cases hslash hc₃
  refine ⟨⟨String.ofList scheme', String.ofList host', ?_, ?_, ?_⟩, String.ofList rest', ?_⟩
  · rwa [Text.lower, String.toList_ofList, hscheme', String.ofList_toList]
  · intro hempty
    rw [String.ofList_eq_empty_iff] at hempty
    exact hne (congrArg (List.map Char.toLower) hempty)
  · rw [String.toList_ofList]
    exact fun hmem => hhost (List.mem_map.mpr ⟨'/', hmem, rfl⟩)
  · refine String.toList_inj.mp ?_
    simp [Origin.text, hleading]

/-! ## Reading an address -/

def inAuthority (c : Char) : Bool := c != '/' && c != '?' && c != '#'

def inScheme (c : Char) : Bool := c != ':' && inAuthority c

/-- The scheme of an address, if it has one, and what follows its colon. -/
def splitScheme (cs : List Char) : Option (List Char) × List Char :=
  match cs.takeWhile inScheme, cs.dropWhile inScheme with
  | c :: scheme, ':' :: rest => (some (c :: scheme), rest)
  | _, _ => (none, cs)

/-- The authority at the start of an address without its scheme. -/
def authority? : List Char → Option (List Char)
  | '/' :: '/' :: rest => some (rest.takeWhile inAuthority)
  | _ => none

def schemeAndAuthority (address : String) : Option (List Char) × Option (List Char) :=
  let (scheme, rest) := splitScheme address.toList
  (scheme, authority? rest)

theorem inScheme_toLower (c : Char) : inScheme c.toLower = inScheme c := by
  have hsame : ∀ {d : Char}, d.isAlpha = false → (c.toLower != d) = (c != d) := by
    intro d hd
    rw [Bool.eq_iff_iff, bne_iff_ne, bne_iff_ne, Ne, Text.toLower_eq_iff hd]
  rw [inScheme, inScheme, inAuthority, inAuthority, hsame rfl, hsame rfl, hsame rfl, hsame rfl]

theorem splitScheme_colon {scheme : List Char} (hne : scheme ≠ [])
    (h : ∀ c ∈ scheme, inScheme c = true) (rest : List Char) :
    splitScheme (scheme ++ ':' :: rest) = (some scheme, rest) := by
  obtain ⟨c, scheme, rfl⟩ := List.exists_cons_of_ne_nil hne
  have htake : (c :: scheme ++ ':' :: rest).takeWhile inScheme = c :: scheme := by
    rw [List.takeWhile_append_of_pos h, List.takeWhile_cons_of_neg (by decide), List.append_nil]
  have hdrop : (c :: scheme ++ ':' :: rest).dropWhile inScheme = ':' :: rest := by
    rw [List.dropWhile_append_of_pos h, List.dropWhile_cons_of_neg (by decide)]
  rw [splitScheme, htake, hdrop]
  rfl

theorem exists_splitScheme_of_toLower {cs name : List Char} (hne : name ≠ [])
    (hname : name.all inScheme = true) (h : cs.map Char.toLower = name ++ [':']) :
    ∃ scheme, ∀ rest, splitScheme (cs ++ rest) = (some scheme, rest) := by
  obtain ⟨scheme, colon, rfl, rfl, hcolon⟩ := List.map_eq_append_iff.mp h
  obtain ⟨c, rfl, hc⟩ := List.map_eq_singleton_iff.mp hcolon
  cases (Text.toLower_eq_iff rfl).mp hc
  refine ⟨scheme, fun rest => ?_⟩
  rw [List.append_assoc, List.singleton_append]
  refine splitScheme_colon (mt List.map_eq_nil_iff.mpr hne) (fun c hc => ?_) rest
  rw [← inScheme_toLower]
  exact List.all_eq_true.mp hname _ (List.mem_map_of_mem hc)

/-- The scheme of an origin is read in the same way whatever follows its slashes. -/
theorem Origin.exists_splitScheme (o : Origin) : ∃ scheme?, ∀ rest,
    splitScheme (o.scheme.toList ++ '/' :: rest) = (scheme?, '/' :: rest) := by
  have hlower : ∀ {scheme : String}, Text.lower o.scheme = scheme →
      o.scheme.toList.map Char.toLower = scheme.toList :=
    fun h => (Text.toList_lower _).symm.trans (congrArg String.toList h)
  have hcolon : ∀ name : List Char, name ≠ [] → name.all inScheme = true →
      o.scheme.toList.map Char.toLower = name ++ [':'] → ∃ scheme?, ∀ rest,
        splitScheme (o.scheme.toList ++ '/' :: rest) = (scheme?, '/' :: rest) := by
    intro name hne hname h
    obtain ⟨scheme, hscheme⟩ := exists_splitScheme_of_toLower hne hname h
    exact ⟨some scheme, fun rest => hscheme _⟩
  have hweb := o.web
  simp only [List.mem_cons, List.not_mem_nil, or_false] at hweb
  rcases hweb with hnone | hhttp | hhttps
  · refine ⟨none, fun rest => ?_⟩
    rw [List.map_eq_nil_iff.mp (hlower hnone)]
    rfl
  · exact hcolon "http".toList (by decide) (by decide) (hlower hhttp)
  · exact hcolon "https".toList (by decide) (by decide) (hlower hhttps)

theorem schemeAndAuthority_of_begins {o : Origin} {a b : String} (ha : o.Begins a)
    (hb : o.Begins b) : schemeAndAuthority a = schemeAndAuthority b := by
  obtain ⟨scheme?, hscheme⟩ := o.exists_splitScheme
  have hread : ∀ {address}, o.Begins address →
      schemeAndAuthority address = (scheme?, some (o.host.toList.takeWhile inAuthority)) := by
    intro address h
    obtain ⟨rest, hrest⟩ := h.toList_eq
    have hhost : (o.host.toList ++ '/' :: rest).takeWhile inAuthority =
        o.host.toList.takeWhile inAuthority :=
      takeWhile_append_stop (Or.inr rfl)
    rw [schemeAndAuthority, hrest, hscheme]
    simp only [authority?, hhost]
  rw [hread ha, hread hb]

/-! ## Fixed addresses -/

/-- All expansions of a fixed address are one text or begin with one origin, so that all have the
same scheme and the same authority. -/
theorem isFixedUrl_fixes_origin {g : Grant} {value : String} (h : isFixedUrl g value = true) :
    ∃ parts, parse value = .ok parts ∧
      ((∀ values values', expand values parts = expand values' parts) ∨
        ∃ o : Origin, ∀ values, o.Begins (expand values parts)) ∧
      ∀ values values',
        schemeAndAuthority (expand values parts) = schemeAndAuthority (expand values' parts) := by
  unfold isFixedUrl at h
  split at h
  · cases h
  · rename_i parts hparts
    refine ⟨parts, hparts, ?_⟩
    rcases (Bool.or_eq_true _ _).mp h with hliteral | hfixed
    · have hsame := expand_eq_of_isLiteral hliteral
      exact ⟨Or.inl hsame, fun values values' => congrArg schemeAndAuthority (hsame values values')⟩
    · obtain ⟨horigin, -⟩ := (Bool.and_eq_true _ _).mp hfixed
      obtain ⟨o, hleading⟩ := (fixedOrigin_of_hasFixedOrigin horigin).exists_begins
      have hbegins : ∀ values, o.Begins (expand values parts) := by
        intro values
        obtain ⟨rest, hrest⟩ := exists_expand_eq values parts
        rw [hrest]
        exact hleading.append rest
      exact ⟨Or.inr ⟨o, hbegins⟩,
        fun values values' => schemeAndAuthority_of_begins (hbegins values) (hbegins values')⟩

theorem isFixedUrl_fixes_origin_player :
    isFixedUrl playerGrant "HTTPS://a/{@url}" = true ∧
      ∃ parts, parse "HTTPS://a/{@url}" = .ok parts ∧
        ((∀ values values', expand values parts = expand values' parts) ∨
          ∃ o : Origin, ∀ values, o.Begins (expand values parts)) ∧
        ∀ values values',
          schemeAndAuthority (expand values parts) = schemeAndAuthority (expand values' parts) := by
  have h : isFixedUrl playerGrant "HTTPS://a/{@url}" = true := by decide +kernel
  exact ⟨h, isFixedUrl_fixes_origin h⟩

end Safety
end TagGrammar
