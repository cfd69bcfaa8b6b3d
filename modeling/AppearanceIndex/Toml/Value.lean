/-!
# TOML values

A value keeps floats and dates as they are written: nothing here computes with them. A table
remembers how it came about (`TableOrigin`), because that decides who may still add to it.
-/

namespace AppearanceIndex

inductive TableOrigin where
  /-- Its header was read. -/
  | header
  /-- It is an element of an array of tables. -/
  | element
  /-- A header names it on the way to another table. -/
  | implied
  /-- A dotted key names it on the way to its value. -/
  | dotted
  /-- It is written between braces. -/
  | braces
deriving DecidableEq

inductive Toml where
  | string (text : List Char)
  | integer (n : Int)
  /-- A float as it is written. -/
  | float (literal : List Char)
  | boolean (b : Bool)
  /-- A date, a time or both as they are written. -/
  | dateTime (literal : List Char)
  | array (items : List Toml)
  /-- An array of tables that headers extend. -/
  | tables (elements : List Toml)
  | table (origin : TableOrigin) (entries : List (List Char × Toml))

namespace Toml

/-- What a table holds, in the order in which it was written. -/
abbrev Entries := List (List Char × Toml)

def lookup (key : List Char) (entries : Entries) : Option Toml :=
  (entries.find? (·.1 = key)).map Prod.snd

def text? : Toml → Option String
  | string text => some (String.ofList text)
  | _ => none

/-- An integer that is not negative. -/
def natural? : Toml → Option Nat
  | integer (.ofNat n) => some n
  | _ => none

end Toml

end AppearanceIndex
