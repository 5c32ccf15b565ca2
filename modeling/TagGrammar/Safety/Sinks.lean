/-
Where text does harm.

The content of scripts and style sheets, event handlers, style attributes and addresses
are sinks; which one an attribute is depends on its name in any case and, for a
parameter of an embedded object, on the name of the parameter.  A value is judged by
the literal text it begins with: an address that fixes a host cannot be made to lead
elsewhere by what follows.
-/
import TagGrammar.Filter

namespace TagGrammar
namespace Safety

/-- The attributes that hold an address. -/
def urlAttributes : List String :=
  ["action", "background", "cite", "classid", "codebase", "data", "formaction", "href",
   "icon", "longdesc", "lowsrc", "manifest", "pluginspage", "poster", "profile", "src",
   "usemap", "xlink:href"]

/-- The parameters whose value is an address. -/
def urlParams : List String := ["code", "movie", "src", "url"]

def isUrlAttribute (name : String) : Bool := urlAttributes.contains (Text.lower name)

/-- Whether an attribute holds the address of a parameter.  The name of the element is
in small letters. -/
def isUrlParamValue (element name : String) (param : Option String) : Bool :=
  element == "param" && Text.sameIgnoringCase name "value" &&
    param.any fun p => urlParams.contains (Text.lower p)

/-- The sink that the content of an element is.  The name is in small letters. -/
def elementSink? (element : String) : Option Sink :=
  if element == "script" then some .js
  else if element == "style" then some .css
  else none

/-- The name of an event handler. -/
def isHandler (name : List Char) : Bool := ['o', 'n'].isPrefixOf name

/-- The sink that the value of an attribute is.  The name of the element is in small
letters. -/
def attributeSink? (element name : String) (param : Option String) : Option Sink :=
  let name := Text.lower name
  if isHandler name.toList then some .js
  else if name == "style" then some .css
  else if isUrlAttribute name || isUrlParamValue element name param then some .url
  else none

/-- Whether an address begins with the scheme for mail. -/
def isMailto (leading : String) : Bool :=
  Text.lower (String.ofList (leading.toList.take 7)) == "mailto:"

/-- What follows given characters at the start of a text. -/
def afterLead? (lead cs : List Char) : Option (List Char) :=
  if lead.isPrefixOf cs then some (cs.drop lead.length) else none

/-- An address without its scheme, if that is one of the web. -/
def withoutScheme (cs : List Char) : List Char :=
  match afterLead? "https:".toList cs with
  | some rest => rest
  | none => (afterLead? "http:".toList cs).getD cs

/-- Whether a slash ends a host that is not empty. -/
def hasHost : List Char → Bool
  | [] => false
  | c :: rest => c != '/' && rest.contains '/'

/-- Whether the beginning of an address fixes its scheme and its host: two slashes and
a host that a slash ends, after a scheme of the web or none. -/
def hasFixedOrigin (leading : String) : Bool :=
  match withoutScheme (Text.lower leading).toList with
  | '/' :: '/' :: authority => hasHost authority
  | _ => false

/-- Whether a run of opening braces is of odd length.  The parity of the run that is
being read is given.  No length is too long for it, while a signed counter of 32 bits goes
up to 2^31 - 1 braces in a row, and up to there says the same. -/
def hasOddRun (odd : Bool) : List Char → Bool
  | [] => odd
  | c :: rest => if c = '{' then hasOddRun (!odd) rest else odd || hasOddRun false rest

/-- Whether a value template holds an expression, as far as its braces tell. -/
def hasExpression (value : String) : Bool := hasOddRun false value.toList

end Safety
end TagGrammar
