/-
ASCII case.

Names of tags, elements, attributes and filters ignore the case of the ASCII
letters and of no other letter, so folding works on single characters and keeps
the length of a name.  The fact used everywhere is `lower_lower`: a folded name
is its own folded form.
-/

namespace TagGrammar
namespace Text

/-- The text with its ASCII capitals made small. -/
def lower (s : String) : String := String.ofList (s.toList.map Char.toLower)

/-- The text with its small ASCII letters made capitals. -/
def upper (s : String) : String := String.ofList (s.toList.map Char.toUpper)

/-- Two texts that differ at most in the case of ASCII letters. -/
def sameIgnoringCase (a b : String) : Bool := lower a == lower b

theorem toList_lower (s : String) : (lower s).toList = s.toList.map Char.toLower :=
  String.toList_ofList

theorem toList_upper (s : String) : (upper s).toList = s.toList.map Char.toUpper :=
  String.toList_ofList

/-- Folding looks at the text alone, so folded texts compare equal to themselves. -/
theorem sameIgnoringCase_refl (s : String) : sameIgnoringCase s s = true := by
  simp [sameIgnoringCase]

theorem sameIgnoringCase_comm (a b : String) :
    sameIgnoringCase a b = sameIgnoringCase b a := by
  simp only [sameIgnoringCase]
  exact Bool.beq_comm

end Text
end TagGrammar
