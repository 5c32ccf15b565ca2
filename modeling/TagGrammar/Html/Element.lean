/-
The content model of HTML5 in tables.

Every element has a set of the content categories it belongs to, one of those it
accepts as children and one of those it forbids as descendants, each as bits of one
word.  Some bits count only while a condition on the attributes of the element holds:
an image, for one, is interactive content only with a map.
-/
import TagGrammar.Template.Element

namespace TagGrammar
namespace Html

/-- A set of content categories. -/
abbrev Categories := BitVec 32

/-- The sets of categories of an element. -/
inductive Field where
  | categories
  | allowedChildren
  | deniedDescendants
deriving DecidableEq

/-- A condition on the literal attributes of an element. -/
inductive Condition where
  | has (name : String)
  | lacks (name : String)
  /-- The attribute is there with another value. -/
  | differs (name value : String)
  /-- The attribute is there with one of some values. -/
  | isOneOf (name : String) (values : List String)
deriving DecidableEq

def Condition.holds (e : TagGrammar.Element) : Condition → Bool
  | has name => (e.get? name).isSome
  | lacks name => (e.get? name).isNone
  | differs name value => (e.get? name).any fun actual => actual != value
  | isOneOf name values => (e.get? name).any values.contains

/-- A bit that counts only while a condition holds. -/
structure ConditionalBit where
  field : Field
  bit : Nat
  condition : Condition
deriving DecidableEq

/-- What the content model says about an element. -/
structure ElementModel where
  name : String
  categories : Categories
  allowedChildren : Categories
  deniedDescendants : Categories := 0
  /-- The element accepts what its parent accepts. -/
  transparent : Bool := false
  /-- The elements whose end is implied by the start of this one. -/
  closes : List String := []
  conditions : List ConditionalBit := []
deriving DecidableEq

namespace ElementModel

def field (m : ElementModel) : Field → Categories
  | .categories => m.categories
  | .allowedChildren => m.allowedChildren
  | .deniedDescendants => m.deniedDescendants

/-- The set with one bit cleared. -/
def clearBit (bits : Categories) (i : Nat) : Categories := bits &&& ~~~ (1#32 <<< i)

/-- A set of categories of an element with given attributes, without the bits whose
condition fails. -/
def bits (m : ElementModel) (f : Field) (e : TagGrammar.Element) : Categories :=
  m.conditions.foldl
    (fun bits c =>
      if c.field = f ∧ c.condition.holds e = false then clearBit bits c.bit else bits)
    (m.field f)

end ElementModel

/-- The elements of the content model in the order of their names. -/
def elements : List ElementModel :=
  [{ name := "a", categories := 15, allowedChildren := 0, deniedDescendants := 8,
     transparent := true },
   { name := "abbr", categories := 7, allowedChildren := 4 },
   { name := "address", categories := 1027, allowedChildren := 1, deniedDescendants := 1552,
     closes := ["p"] },
   { name := "area", categories := 5, allowedChildren := 0 },
   { name := "article", categories := 515, allowedChildren := 1, closes := ["p"] },
   { name := "aside", categories := 515, allowedChildren := 1, closes := ["p"] },
   { name := "audio", categories := 47, allowedChildren := 8192, transparent := true,
     conditions :=
       [⟨.categories, 3, .has "controls"⟩,
        ⟨.categories, 1, .has "controls"⟩,
        ⟨.allowedChildren, 13, .has "src"⟩] },
   { name := "b", categories := 7, allowedChildren := 4 },
   { name := "bdi", categories := 7, allowedChildren := 4 },
   { name := "bdo", categories := 7, allowedChildren := 4 },
   { name := "blockquote", categories := 259, allowedChildren := 1, closes := ["p"] },
   { name := "br", categories := 5, allowedChildren := 0 },
   { name := "button", categories := 15, allowedChildren := 4, deniedDescendants := 8 },
   { name := "canvas", categories := 39, allowedChildren := 0, transparent := true },
   { name := "caption", categories := 64, allowedChildren := 1, deniedDescendants := 4194304 },
   { name := "cite", categories := 7, allowedChildren := 4 },
   { name := "code", categories := 7, allowedChildren := 4 },
   { name := "col", categories := 268435456, allowedChildren := 0,
     conditions := [⟨.categories, 28, .lacks "span"⟩] },
   { name := "colgroup", categories := 64, allowedChildren := 268435456,
     conditions := [⟨.allowedChildren, 28, .lacks "span"⟩] },
   { name := "datalist", categories := 5, allowedChildren := 1048580 },
   { name := "dd", categories := 131072, allowedChildren := 1, closes := ["dd", "dt"] },
   { name := "del", categories := 5, allowedChildren := 0, transparent := true },
   { name := "details", categories := 267, allowedChildren := 524289 },
   { name := "dfn", categories := 134217735, allowedChildren := 4,
     deniedDescendants := 134217728 },
   { name := "div", categories := 3, allowedChildren := 1, closes := ["p"] },
   { name := "dl", categories := 3, allowedChildren := 131072, closes := ["p"] },
   { name := "dt", categories := 131072, allowedChildren := 1, deniedDescendants := 16912,
     closes := ["dd", "dt"] },
   { name := "em", categories := 7, allowedChildren := 4 },
   { name := "embed", categories := 47, allowedChildren := 0 },
   { name := "fieldset", categories := 259, allowedChildren := 2097153, closes := ["p"] },
   { name := "figcaption", categories := 2147483648, allowedChildren := 1 },
   { name := "figure", categories := 259, allowedChildren := 2147483649 },
   { name := "footer", categories := 17411, allowedChildren := 1, deniedDescendants := 16384,
     closes := ["p"] },
   { name := "form", categories := 67108867, allowedChildren := 1,
     deniedDescendants := 67108864, closes := ["p"] },
   { name := "h1", categories := 147, allowedChildren := 4, closes := ["p"] },
   { name := "h2", categories := 147, allowedChildren := 4, closes := ["p"] },
   { name := "h3", categories := 147, allowedChildren := 4, closes := ["p"] },
   { name := "h4", categories := 147, allowedChildren := 4, closes := ["p"] },
   { name := "h5", categories := 147, allowedChildren := 4, closes := ["p"] },
   { name := "h6", categories := 147, allowedChildren := 4, closes := ["p"] },
   { name := "header", categories := 17411, allowedChildren := 1, deniedDescendants := 16384,
     closes := ["p"] },
   { name := "hgroup", categories := 19, allowedChildren := 128, closes := ["p"] },
   { name := "hr", categories := 1, allowedChildren := 0, closes := ["p"] },
   { name := "i", categories := 7, allowedChildren := 4 },
   { name := "img", categories := 47, allowedChildren := 0,
     conditions := [⟨.categories, 3, .has "usemap"⟩] },
   { name := "input", categories := 15, allowedChildren := 0,
     conditions :=
       [⟨.categories, 3, .differs "type" "hidden"⟩,
        ⟨.categories, 1, .differs "type" "hidden"⟩] },
   { name := "ins", categories := 7, allowedChildren := 0, transparent := true },
   { name := "kbd", categories := 7, allowedChildren := 4 },
   { name := "keygen", categories := 15, allowedChildren := 0 },
   { name := "label", categories := 33554447, allowedChildren := 4,
     deniedDescendants := 33554432 },
   { name := "legend", categories := 2097152, allowedChildren := 4 },
   { name := "li", categories := 1073741824, allowedChildren := 1, closes := ["li"] },
   { name := "map", categories := 7, allowedChildren := 0, transparent := true },
   { name := "mark", categories := 7, allowedChildren := 4 },
   { name := "menu", categories := 11, allowedChildren := 1073741825, closes := ["p"],
     conditions :=
       [⟨.categories, 3, .isOneOf "type" ["toolbar"]⟩,
        ⟨.categories, 1, .isOneOf "type" ["toolbar", "list"]⟩] },
   { name := "meter", categories := 16779271, allowedChildren := 4,
     deniedDescendants := 16777216 },
   { name := "nav", categories := 515, allowedChildren := 1, closes := ["p"] },
   { name := "object", categories := 47, allowedChildren := 8388608, transparent := true,
     conditions := [⟨.categories, 3, .has "usemap"⟩] },
   { name := "ol", categories := 3, allowedChildren := 1073741824, closes := ["p"] },
   { name := "optgroup", categories := 4096, allowedChildren := 1048576,
     closes := ["optgroup", "option"] },
   { name := "option", categories := 1052672, allowedChildren := 0, closes := ["option"] },
   { name := "output", categories := 7, allowedChildren := 4 },
   { name := "p", categories := 3, allowedChildren := 4, closes := ["p"] },
   { name := "param", categories := 8388608, allowedChildren := 0 },
   { name := "pre", categories := 3, allowedChildren := 4, closes := ["p"] },
   { name := "progress", categories := 264199, allowedChildren := 4,
     deniedDescendants := 262144 },
   { name := "q", categories := 7, allowedChildren := 4 },
   { name := "rp", categories := 65536, allowedChildren := 4, closes := ["rp", "rt"] },
   { name := "rt", categories := 65536, allowedChildren := 4, closes := ["rp", "rt"] },
   { name := "ruby", categories := 7, allowedChildren := 65540 },
   { name := "s", categories := 7, allowedChildren := 4 },
   { name := "samp", categories := 7, allowedChildren := 4 },
   { name := "section", categories := 515, allowedChildren := 1, closes := ["p"] },
   { name := "select", categories := 15, allowedChildren := 4096 },
   { name := "small", categories := 7, allowedChildren := 4 },
   { name := "source", categories := 8192, allowedChildren := 0,
     conditions := [⟨.categories, 13, .lacks "src"⟩] },
   { name := "span", categories := 7, allowedChildren := 4 },
   { name := "strong", categories := 7, allowedChildren := 4 },
   { name := "sub", categories := 7, allowedChildren := 4 },
   { name := "summary", categories := 524288, allowedChildren := 4 },
   { name := "sup", categories := 7, allowedChildren := 4 },
   { name := "table", categories := 4194307, allowedChildren := 64, closes := ["p"] },
   { name := "tbody", categories := 64, allowedChildren := 536870912,
     closes := ["tbody", "tfoot", "thead"] },
   { name := "td", categories := 33024, allowedChildren := 1, closes := ["td", "th"] },
   { name := "textarea", categories := 15, allowedChildren := 0 },
   { name := "tfoot", categories := 64, allowedChildren := 536870912,
     closes := ["tbody", "thead"] },
   { name := "th", categories := 32768, allowedChildren := 1, deniedDescendants := 16912,
     closes := ["td", "th"] },
   { name := "thead", categories := 64, allowedChildren := 536870912 },
   { name := "time", categories := 7, allowedChildren := 4 },
   { name := "tr", categories := 536870976, allowedChildren := 32768, closes := ["tr"] },
   { name := "track", categories := 8192, allowedChildren := 0,
     conditions := [⟨.categories, 13, .has "src"⟩] },
   { name := "u", categories := 7, allowedChildren := 4 },
   { name := "ul", categories := 3, allowedChildren := 1073741824, closes := ["p"] },
   { name := "var", categories := 7, allowedChildren := 4 },
   { name := "video", categories := 47, allowedChildren := 8192, transparent := true,
     conditions := [⟨.categories, 3, .has "controls"⟩, ⟨.allowedChildren, 13, .has "src"⟩] },
   { name := "wbr", categories := 5, allowedChildren := 0 }]

/-- The model of the element with a given name in small letters. -/
def element? (name : String) : Option ElementModel := elements.find? fun m => m.name == name

end Html
end TagGrammar
