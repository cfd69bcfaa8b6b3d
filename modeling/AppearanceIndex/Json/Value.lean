import AppearanceIndex.Text.Decimal

/-!
# JSON values

A JSON value keeps numbers as they are written, because only the fields that are wanted decide
which numbers they take, and members in the order in which they stand, repeated names included. A
string that names half a surrogate pair is no text; it may stand where it is not looked at, be it a
value or the name of a member.
-/

namespace AppearanceIndex

inductive Json where
  | null
  | bool (b : Bool)
  /-- A number as it is written. -/
  | number (literal : List Char)
  /-- A string, if its characters are text. -/
  | string (text : Option (List Char))
  | array (items : List Json)
  /-- The members with their names, as far as these are text. -/
  | object (members : List (Option (List Char) × Json))

namespace Json

/-- The number, if the value is a whole one below a limit, written with digits only. -/
def unsigned? (limit : Nat) : Json → Option Nat
  | number literal => (Decimal.value? literal).filter (· < limit)
  | _ => none

def text? : Json → Option (List Char)
  | string text => text
  | _ => none

/-- The value of the only member of a name. -/
def member? (name : String) (members : List (Option (List Char) × Json)) : Option Json :=
  match members.filter (·.1 = some name.toList) with
  | [(_, value)] => some value
  | _ => none

/-- The values of a record's fields, in the order of their names. A record is an object that has
each name once, whatever else it has under names that are text, or an array of just the fields. -/
def fields? (names : List String) : Json → Option (List Json)
  | array items => if items.length = names.length then some items else none
  | object members =>
    if members.all (·.1.isSome) then names.mapM (member? · members) else none
  | _ => none

end Json

end AppearanceIndex
