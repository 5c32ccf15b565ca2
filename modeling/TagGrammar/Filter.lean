/-
Filters and the places their output is safe in.

The value of an attribute passes through a chain of filters before it reaches the
output.  What a filter promises is a set of sinks, the kinds of places where its
output does no harm.  A `FilterLookup` says what each filter promises, and a
registry is the lookup that declarations build: a name is looked up as written
and then in small letters.
-/
import TagGrammar.Declaration
import TagGrammar.Dictionary

namespace TagGrammar

/-- A kind of place in the output where text can do harm. -/
inductive Sink where
  /-- A style sheet or a style attribute. -/
  | css
  /-- A script or an event handler. -/
  | js
  /-- An attribute that holds an address. -/
  | url
  /-- The value of any other attribute. -/
  | attributeValue
deriving DecidableEq

namespace Sink

def all : List Sink := [css, js, url, attributeValue]

/-- The name of a sink in messages. -/
def text : Sink → String
  | css => "CSS"
  | js => "JS"
  | url => "URL"
  | attributeValue => "attribute"

theorem mem_all (s : Sink) : s ∈ all := by cases s <;> decide

end Sink

/-- The set of sinks a filter is safe for. -/
structure SafeContexts where
  css : Bool := false
  js : Bool := false
  url : Bool := false
  attributeValue : Bool := false
deriving DecidableEq

namespace SafeContexts

def none : SafeContexts := {}

def contains (c : SafeContexts) : Sink → Bool
  | .css => c.css
  | .js => c.js
  | .url => c.url
  | .attributeValue => c.attributeValue

/-- The set with one more sink. -/
def insert (c : SafeContexts) : Sink → SafeContexts
  | .css => { c with css := true }
  | .js => { c with js := true }
  | .url => { c with url := true }
  | .attributeValue => { c with attributeValue := true }

def ofList (sinks : List Sink) : SafeContexts := sinks.foldl insert none

/-- The sinks of the set, each once. -/
def toList (c : SafeContexts) : List Sink := Sink.all.filter c.contains

theorem contains_insert (c : SafeContexts) (s t : Sink) :
    (c.insert s).contains t = (s == t || c.contains t) := by
  cases s <;> cases t <;> simp [insert, contains]

theorem contains_foldl_insert (sinks : List Sink) (c : SafeContexts) (t : Sink) :
    (sinks.foldl insert c).contains t = (sinks.contains t || c.contains t) := by
  induction sinks generalizing c with
  | nil => simp
  | cons s rest ih =>
    rw [List.foldl_cons, ih, contains_insert, List.contains_cons, Bool.beq_comm (a := s)]
    cases t == s <;> cases rest.contains t <;> simp

/-- A set made of a list holds the members of the list. -/
theorem contains_ofList (sinks : List Sink) (t : Sink) :
    (ofList sinks).contains t = sinks.contains t := by
  rw [ofList, contains_foldl_insert]
  cases t <;> simp [none, contains]

end SafeContexts

/-- What each known filter is safe for. -/
abbrev FilterLookup := String → Option SafeContexts

namespace FilterLookup

/-- A known filter that is safe for a sink. -/
def isSafe (lookup : FilterLookup) (filter : String) (sink : Sink) : Bool :=
  (lookup filter).any fun contexts => contexts.contains sink

def knows (lookup : FilterLookup) (filter : String) : Bool := (lookup filter).isSome

end FilterLookup

namespace FilterName

/-- A filter name is a word, after a number sign if the filter is a built-in one. -/
def isValid (name : String) : Bool :=
  match name.toList with
  | '#' :: bare => Name.isWord Name.isWordChar bare
  | bare => Name.isWord Name.isWordChar bare

/-- The form under which a filter is declared: its name in small letters. -/
def declare (name : String) : Except DeclarationError String :=
  if isValid name then .ok (Text.lower name) else .error (.invalidFilterName name)

end FilterName

/-- The declared filters. -/
structure FilterRegistry where
  filters : Dictionary String SafeContexts := .empty

namespace FilterRegistry

/-- A registry without filters. -/
def empty : FilterRegistry := {}

/-- What a filter is safe for, under its name as written or else in small letters. -/
def lookup (r : FilterRegistry) : FilterLookup := fun name =>
  match r.filters.find? name with
  | some contexts => some contexts
  | none => r.filters.find? (Text.lower name)

/-- Declare a filter, replacing what was declared under its name. -/
def register (r : FilterRegistry) (name : String) (contexts : SafeContexts) :
    Except DeclarationError FilterRegistry :=
  (FilterName.declare name).map fun name => ⟨r.filters.insert name contexts⟩

def size (r : FilterRegistry) : Nat := r.filters.size

def isEmpty (r : FilterRegistry) : Bool := r.filters.isEmpty

open Sink in
/-- The built-in filters and a few functions of the host. -/
def builtins : List (String × List Sink) :=
  [("#alnum", [css, js, url, attributeValue]),
   ("#color", [css, attributeValue]),
   ("#email", [attributeValue]),
   ("#float", [css, js, url, attributeValue]),
   ("#identifier", [css, url, attributeValue]),
   ("#int", [css, js, url, attributeValue]),
   ("#ip", [attributeValue]),
   ("#map", []),
   ("#number", [css, js, url, attributeValue]),
   ("#range", [css, js, url, attributeValue]),
   ("#regexp", []),
   ("#simpletext", [css, attributeValue]),
   ("#uint", [css, js, url, attributeValue]),
   ("#url", [css, js, url, attributeValue]),
   ("rawurlencode", [js, url, attributeValue]),
   ("strtotime", [js, attributeValue]),
   ("urlencode", [js, url, attributeValue])]

/-- The registry every configuration starts with. -/
def default : FilterRegistry :=
  ⟨Dictionary.ofList (builtins.map fun e => (e.1, SafeContexts.ofList e.2))⟩

end FilterRegistry
end TagGrammar
