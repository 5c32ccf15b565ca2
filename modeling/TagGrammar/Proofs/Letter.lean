/-
Letters, numerals, blanks and digits.

No letter or numeral is a blank, and no letter is a digit.  The tables are lists of ranges, so
that two of them have no member in common is checked range by range.
-/
import TagGrammar.Text.Numeral

namespace TagGrammar
namespace Text

/-- Two lists of ranges that do not overlap have no number in common. -/
theorem inRanges_eq_false {as bs : List (Nat × Nat)}
    (h : as.all (fun a => bs.all fun b => a.2 < b.1 || b.2 < a.1) = true) {n : Nat}
    (hn : inRanges as n = true) : inRanges bs n = false := by
  simp only [inRanges, List.any_eq_true, Bool.and_eq_true, decide_eq_true_eq] at hn
  obtain ⟨a, ha, hlow, hhigh⟩ := hn
  rw [inRanges, List.any_eq_false]
  intro b hb hin
  have hapart := List.all_eq_true.mp (List.all_eq_true.mp h a ha) b hb
  simp only [Bool.or_eq_true, Bool.and_eq_true, decide_eq_true_eq] at hapart hin
  omega

/-- The ASCII letters as ranges. -/
theorem inRanges_of_isAlpha {c : Char} (h : c.isAlpha = true) :
    inRanges [(0x41, 0x5A), (0x61, 0x7A)] c.toNat = true := by
  unfold Char.isAlpha Char.isUpper Char.isLower at h
  simp only [UInt32.le_iff_toNat_le, Bool.or_eq_true, Bool.and_eq_true, decide_eq_true_eq] at h
  simpa [inRanges] using h

theorem isBlank_of_isLetter {c : Char} (h : isLetter c = true) : isBlank c = false := by
  rw [isLetter, Bool.or_eq_true, Bool.and_eq_true] at h
  rcases h with h | ⟨-, h⟩
  · exact inRanges_eq_false (by decide) (inRanges_of_isAlpha h)
  · exact inRanges_eq_false (by decide +kernel) h

theorem isBlank_of_isDigit {c : Char} (h : c.isDigit = true) : isBlank c = false := by
  have hranges : inRanges [(0x30, 0x39)] c.toNat = true := by
    unfold Char.isDigit at h
    simp only [UInt32.le_iff_toNat_le, Bool.and_eq_true, decide_eq_true_eq] at h
    simpa [inRanges] using h
  exact inRanges_eq_false (by decide) hranges

theorem isBlank_of_isNumeral {c : Char} (h : isNumeral c = true) : isBlank c = false := by
  rw [isNumeral, Bool.or_eq_true, Bool.and_eq_true] at h
  rcases h with h | ⟨-, h⟩
  · exact isBlank_of_isDigit h
  · exact inRanges_eq_false (by decide +kernel) h

theorem isBlank_of_isLetterOrNumeral {c : Char} (h : isLetterOrNumeral c = true) :
    isBlank c = false := by
  rw [isLetterOrNumeral, Bool.or_eq_true] at h
  exact h.elim isBlank_of_isLetter isBlank_of_isNumeral

theorem isDigit_of_isLetter {c : Char} (h : isLetter c = true) : c.isDigit = false := by
  rw [isLetter, Bool.or_eq_true, Bool.and_eq_true, decide_eq_true_eq] at h
  have hn : c.toNat < 0x30 ∨ 0x39 < c.toNat := by
    rcases h with h | ⟨h, -⟩
    · have hranges := inRanges_of_isAlpha h
      simp only [inRanges, List.any_cons, List.any_nil, Bool.or_false, Bool.or_eq_true,
        Bool.and_eq_true, decide_eq_true_eq] at hranges
      omega
    · omega
  rw [Bool.eq_false_iff]
  intro hdigit
  unfold Char.isDigit at hdigit
  simp only [UInt32.le_iff_toNat_le, Bool.and_eq_true, decide_eq_true_eq] at hdigit
  have h0 : 0x30 ≤ c.toNat := hdigit.1
  have h9 : c.toNat ≤ 0x39 := hdigit.2
  omega

end Text
end TagGrammar
