/-
How much an embedded movie may script the page around it.

The settings form a chain from least to most, and a player takes the middle one
for an element that has no setting.  A setting is read in any ASCII case.
-/
import TagGrammar.Text.Ascii

namespace TagGrammar

/-- A setting for script access, from least to most. -/
inductive ScriptAccess where
  | never
  | sameDomain
  | always
deriving DecidableEq

namespace ScriptAccess

def rank : ScriptAccess → Nat
  | never => 0
  | sameDomain => 1
  | always => 2

/-- A setting that grants at most what another one grants. -/
def atMost (a b : ScriptAccess) : Bool := a.rank ≤ b.rank

/-- What a player assumes when an element has no setting. -/
def default : ScriptAccess := sameDomain

def text : ScriptAccess → String
  | never => "never"
  | sameDomain => "sameDomain"
  | always => "always"

/-- The setting written in a text, in any case. -/
def ofString? (s : String) : Option ScriptAccess :=
  [never, sameDomain, always].find? fun setting => Text.sameIgnoringCase setting.text s

/-- Why a text that is no setting is refused. -/
def unknownMessage (s : String) : String := s!"Unknown AllowScriptAccess value '{s}'"

theorem atMost_refl (a : ScriptAccess) : a.atMost a = true := by simp [atMost]

theorem atMost_trans {a b c : ScriptAccess} (hab : a.atMost b = true) (hbc : b.atMost c = true) :
    a.atMost c = true := by
  simp only [atMost, decide_eq_true_eq] at *
  exact Nat.le_trans hab hbc

end ScriptAccess

/-- The options of the check of templates. -/
structure CheckOptions where
  /-- If set, embedded movies must not grant more than this. -/
  maxScriptAccess : Option ScriptAccess := none
  /-- An embedded movie that grants at most this may have a filtered address. -/
  fixedUrlExemption : ScriptAccess := .never
deriving DecidableEq

end TagGrammar
