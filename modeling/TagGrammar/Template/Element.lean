/-
Literal elements of a template.

An element keeps its local name as written, the address of its namespace and its
attributes in the order of the source.  An attribute is found by its name in any
ASCII case, and the first one of a name is the one that counts: `set` changes it
in place and `erase` takes out it alone.
-/
import TagGrammar.Text.Ascii

namespace TagGrammar

/-- The namespace of the elements that are instructions. -/
def xslNamespace : String := "http://www.w3.org/1999/XSL/Transform"

/-- The namespace whose elements count as HTML, besides those without one. -/
def xhtmlNamespace : String := "http://www.w3.org/1999/xhtml"

/-- A literal element.  The values of its attributes are value templates, and an
attribute of the instruction namespace is held under the lead `xsl:`. -/
structure Element where
  name : String
  namespaceName : Option String := none
  attributes : List (String × String) := []
deriving DecidableEq

namespace Element

/-- An element without a namespace or with that of XHTML. -/
def isHtml (e : Element) : Bool :=
  match e.namespaceName with
  | none => true
  | some uri => uri == xhtmlNamespace

/-- The name of an HTML element in small letters. -/
def htmlName? (e : Element) : Option String :=
  if e.isHtml then some (Text.lower e.name) else none

/-- The first value written under a name, in any case. -/
def get? (e : Element) (name : String) : Option String :=
  (e.attributes.find? fun a => Text.sameIgnoringCase a.1 name).map Prod.snd

/-- Change the first attribute of a name, or put a new one last. -/
def setIn (name value : String) : List (String × String) → List (String × String)
  | [] => [(name, value)]
  | a :: rest =>
    if Text.sameIgnoringCase a.1 name then (a.1, value) :: rest
    else a :: setIn name value rest

/-- Give an attribute a value.  The spelling of a name already there stays. -/
def set (e : Element) (name value : String) : Element :=
  { e with attributes := setIn name value e.attributes }

/-- Set the attributes of a list one after the other. -/
def setAll (e : Element) (attributes : List (String × String)) : Element :=
  attributes.foldl (fun e a => e.set a.1 a.2) e

/-- Take out the first attribute of a name. -/
def eraseIn (name : String) : List (String × String) → List (String × String)
  | [] => []
  | a :: rest =>
    if Text.sameIgnoringCase a.1 name then rest else a :: eraseIn name rest

def erase (e : Element) (name : String) : Element :=
  { e with attributes := eraseIn name e.attributes }

theorem get?_set_self (e : Element) (name value : String) :
    (e.set name value).get? name = some value := by
  simp only [get?, set]
  induction e.attributes with
  | nil => simp [setIn, Text.sameIgnoringCase_refl]
  | cons a rest ih =>
    by_cases h : Text.sameIgnoringCase a.1 name = true <;> simp_all [setIn]

end Element
end TagGrammar
