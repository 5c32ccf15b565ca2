/-
Folding ASCII case twice.

The form in which a name is held is a valid text again, which stands for the name.
-/
import Mathlib
import TagGrammar.Name

namespace TagGrammar
namespace Text

/-- Only letters have a case. -/
theorem toLower_eq_self {c : Char} (h : c.isAlpha = false) : c.toLower = c := by
  refine Char.toLower_eq_of_not_isUpper fun hupper => ?_
  rw [Char.isAlpha, hupper, Bool.true_or] at h
  cases h

/-- Only a letter is the small form of another character. -/
theorem toLower_eq_iff {c d : Char} (hd : d.isAlpha = false) : c.toLower = d ↔ c = d := by
  constructor
  · rintro rfl
    rw [Char.isAlpha_toLower_eq_isAlpha] at hd
    exact (toLower_eq_self hd).symm
  · rintro rfl
    exact toLower_eq_self hd

theorem lower_lower (s : String) : lower (lower s) = lower s := by
  rw [lower, toList_lower, List.map_map]
  exact congrArg String.ofList (List.map_congr_left fun c _ => Char.toLower_toLower_eq_toLower c)

theorem upper_upper (s : String) : upper (upper s) = upper s := by
  rw [upper, toList_upper, List.map_map]
  exact congrArg String.ofList (List.map_congr_left fun c _ => Char.toUpper_toUpper_eq_toUpper c)

theorem upper_lower (s : String) : upper (lower s) = upper s := by
  rw [upper, toList_lower, List.map_map]
  exact congrArg String.ofList (List.map_congr_left fun c _ => Char.toUpper_toLower_eq_toUpper c)

theorem lower_upper (s : String) : lower (upper s) = lower s := by
  rw [lower, toList_upper, List.map_map]
  exact congrArg String.ofList (List.map_congr_left fun c _ => Char.toLower_toUpper_eq_toLower c)

theorem upper_eq_of_sameIgnoringCase {a b : String} (h : sameIgnoringCase a b = true) :
    upper a = upper b := by
  have hlower : lower a = lower b := by simpa [sameIgnoringCase] using h
  rw [← upper_lower a, hlower, upper_lower]

theorem sameIgnoringCase_congr {a a' : String} (h : lower a' = lower a) (b : String) :
    sameIgnoringCase a' b = sameIgnoringCase a b := by
  rw [sameIgnoringCase, h, sameIgnoringCase]

end Text

namespace TagName

/-- A name that some text was declared as. -/
def IsDeclared (name : TagName) : Prop := ∃ s, ofString? s = some name

/-- Declared names are in capitals. -/
theorem IsDeclared.upper_text {name : TagName} (h : name.IsDeclared) :
    Text.upper name.text = name.text := by
  obtain ⟨s, hs⟩ := h
  unfold ofString? at hs
  split at hs
  · cases hs
    exact Text.upper_upper s
  · cases hs

theorem isStart_toUpper (c : Char) : Name.isStart c.toUpper = Name.isStart c := by
  by_cases h : c.isLower = true
  · have halpha : c.isAlpha = true := by rw [Char.isAlpha, h, Bool.or_true]
    simp [Name.isStart, halpha]
  · rw [Char.toUpper_eq_of_not_isLower h]

theorem isWordChar_toUpper (c : Char) : Name.isWordChar c.toUpper = Name.isWordChar c := by
  by_cases h : c.isLower = true
  · have halpha : c.isAlpha = true := by rw [Char.isAlpha, h, Bool.or_true]
    simp [Name.isWordChar, Char.isAlphanum, halpha]
  · rw [Char.toUpper_eq_of_not_isLower h]

/-- Case does not matter for validity. -/
theorem isValid_upper (s : String) : isValid (Text.upper s) = isValid s := by
  rw [isValid, isValid, Text.toList_upper]
  cases s.toList with
  | nil => rfl
  | cons c rest =>
    rw [List.map_cons, Name.isWord, Name.isWord, isStart_toUpper, List.all_map]
    simp only [Function.comp_def, isWordChar_toUpper]

/-- A declared name is the one that its own text stands for. -/
theorem IsDeclared.ofString?_text {name : TagName} (h : name.IsDeclared) :
    ofString? name.text = some name := by
  obtain ⟨s, hs⟩ := h
  unfold ofString? at hs ⊢
  split at hs
  · rename_i hvalid
    cases hs
    rw [isValid_upper, if_pos hvalid, Text.upper_upper]
  · cases hs

end TagName
end TagGrammar
