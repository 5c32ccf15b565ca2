/-
Serialized data.

Options and rule tables are stored as data with the shape of JSON.  Integers are
exact.  A number that is not an integer means nothing to any field and is kept
without its value.  Members of a record come in the order of their names.
-/

namespace TagGrammar

/-- A piece of serialized data. -/
inductive Datum where
  | null
  | bool (value : Bool)
  | integer (value : Int)
  /-- A number that is not an integer. -/
  | fraction
  | text (value : String)
  | list (items : List Datum)
  | record (members : List (String × Datum))
deriving Inhabited

namespace Datum

/-- The member of a record with a given name. -/
def member? (name : String) (members : List (String × Datum)) : Option Datum :=
  (members.find? fun m => m.1 == name).map Prod.snd

def ofNat (n : Nat) : Datum := .integer n

theorem member?_cons_self (name : String) (d : Datum) (rest : List (String × Datum)) :
    member? name ((name, d) :: rest) = some d := by
  simp [member?]

end Datum
end TagGrammar
