import AppearanceIndex.Toml.Value

/-!
# Adding to tables

Headers and dotted keys lead through tables to the one that they add to, and make those that are
not there yet. No table is defined twice: a key has one value, a header declares a table once, and
dotted keys only add to tables that dotted keys have made. What stands between braces is complete,
except that a pair may still add to what the pairs before it, between the same braces, have made.
-/

namespace AppearanceIndex

inductive Route where
  | header
  /-- Dotted keys of a line. -/
  | dotted
  /-- Dotted keys between braces. -/
  | braced
deriving DecidableEq

/-- How a table came about that was made on the way. -/
def Route.made : Route → TableOrigin
  | header => .implied
  | dotted => .dotted
  | braced => .dotted

/-- The route may lead into a table; `passing` says that it goes on from there. -/
def Route.admits (passing : Bool) : Route → TableOrigin → Bool
  | header, .braces => false
  | header, _ => true
  | dotted, .dotted => true
  | dotted, .implied => passing
  | dotted, .element => passing
  | dotted, .header => false
  | dotted, .braces => false
  | braced, _ => true

namespace Toml

/-- Changes or adds the value of a key, if `f` allows it. -/
def change (key : List Char) (f : Option Toml → Option Toml) : Entries → Option Entries
  | [] => (f none).map fun value => [(key, value)]
  | (k, v) :: rest =>
    if k = key then (f (some v)).map fun value => (k, value) :: rest
    else (change key f rest).map ((k, v) :: ·)

/-- Changes what the table at the end of a path holds. Within an array of tables the path leads to
the last one. -/
def changeAt (route : Route) (f : Entries → Option Entries) :
    (path : List (List Char)) → Entries → Option Entries
  | [], entries => f entries
  | key :: path, entries =>
    let enter : Toml → Option Toml
      | table origin inner =>
        if route.admits (path ≠ []) origin then
          (changeAt route f path inner).map (table origin)
        else none
      | _ => none
    let follow : Option Toml → Option Toml
      | none => (changeAt route f path []).map (table route.made)
      | some (tables elements) =>
        (elements.getLast?.bind enter).map fun last => tables (elements.dropLast ++ [last])
      | some value => enter value
    change key follow entries

/-- Gives a key a value that has none. -/
def assign (route : Route) (keys : List (List Char)) (value : Toml) (entries : Entries) :
    Option Entries := do
  let absent : Option Toml → Option Toml
    | none => some value
    | some _ => none
  changeAt route (change (← keys.getLast?) absent) keys.dropLast entries

def declare (keys : List (List Char)) (entries : Entries) : Option Entries := do
  let declared : Option Toml → Option Toml
    | none => some (table .header [])
    | some (table .implied inner) => some (table .header inner)
    | some _ => none
  changeAt .header (change (← keys.getLast?) declared) keys.dropLast entries

def extend (keys : List (List Char)) (entries : Entries) : Option Entries := do
  let extended : Option Toml → Option Toml
    | none => some (tables [table .element []])
    | some (tables elements) => some (tables (elements ++ [table .element []]))
    | some _ => none
  changeAt .header (change (← keys.getLast?) extended) keys.dropLast entries

end Toml

end AppearanceIndex
