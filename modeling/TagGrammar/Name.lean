/-
Names of tags and of their attributes.

Both kinds of name ignore ASCII case and are held in one case: tag names in
capitals, attribute names in small letters.  A name starts with an ASCII letter
or an underscore and goes on with letters, digits and underscores; the name of an
attribute may also hold dashes.
-/
import TagGrammar.Increasing
import TagGrammar.Text.Ascii

namespace TagGrammar

/-- The name of a tag.  Declared names are valid and in capitals; a name read
back from serialized rules is whatever text was written there. -/
structure TagName where
  text : String
deriving DecidableEq

/-- The name of an attribute of a tag. -/
structure AttributeName where
  text : String
deriving DecidableEq

namespace Name

/-- The characters a name may start with. -/
def isStart (c : Char) : Bool := c.isAlpha || c == '_'

/-- The characters a tag name may go on with. -/
def isWordChar (c : Char) : Bool := c.isAlphanum || c == '_'

/-- A non-empty text that begins like a name and whose other characters are all
of a kind. -/
def isWord (continues : Char → Bool) : List Char → Bool
  | [] => false
  | c :: rest => isStart c && rest.all continues

end Name

namespace TagName

/-- A text that may be declared as the name of a tag. -/
def isValid (s : String) : Bool := Name.isWord Name.isWordChar s.toList

/-- The name that a valid text stands for. -/
def ofString? (s : String) : Option TagName :=
  if isValid s then some ⟨Text.upper s⟩ else none

instance : LT TagName := ⟨fun a b => a.text < b.text⟩

instance : DecidableLT TagName := fun a b => inferInstanceAs (Decidable (a.text < b.text))

instance : StrictTotal TagName where
  irrefl a := StrictTotal.irrefl a.text
  trans := StrictTotal.trans (α := String)
  total {a b} h hne := StrictTotal.total (α := String) h fun e => hne (by cases a; cases b; simp_all)

theorem ofString?_eq_none_iff (s : String) : ofString? s = none ↔ isValid s = false := by
  simp [ofString?]

end TagName

namespace AttributeName

/-- A text that may be declared as the name of an attribute. -/
def isValid (s : String) : Bool :=
  Name.isWord (fun c => Name.isWordChar c || c == '-') s.toList

/-- The name that a valid text stands for. -/
def ofString? (s : String) : Option AttributeName :=
  if isValid s then some ⟨Text.lower s⟩ else none

instance : LT AttributeName := ⟨fun a b => a.text < b.text⟩

instance : DecidableLT AttributeName :=
  fun a b => inferInstanceAs (Decidable (a.text < b.text))

theorem ofString?_eq_none_iff (s : String) : ofString? s = none ↔ isValid s = false := by
  simp [ofString?]

end AttributeName
end TagGrammar
