import AppearanceIndex.Toml.Value

/-!
# Records in TOML

A record is written as a table, in which other keys are ignored, or as an array of its fields in
their order of declaration, in which surplus elements are ignored. A date in the place of a record
counts as a table without any of its keys. What a field does when it is absent is its own matter:
`Fields.required` refuses, `Fields.orDefault` has a default, and `Fields.optional` may be absent
from a table only.
-/

namespace AppearanceIndex.Toml

/-- The fields of a record that are still to be read. -/
inductive Fields where
  | named (entries : Entries)
  | positional (items : List Toml)

/-- Reads the fields of a record one after the other. -/
abbrev FieldReader := StateT Fields Option

namespace Fields

def of? : Toml → Option Fields
  | table _ entries => some (named entries)
  | array items => some (positional items)
  | tables elements => some (positional elements)
  | dateTime _ => some (named [])
  | _ => none

def next (name : String) : Fields → Option Toml × Fields
  | named entries => (lookup name.toList entries, named entries)
  | positional (value :: rest) => (some value, positional rest)
  | positional [] => (none, positional [])

def required {α : Type} (name : String) (decode : Toml → Option α) : FieldReader α :=
  fun fields =>
    match fields.next name with
    | (some value, fields) => (decode value).map (·, fields)
    | (none, _) => none

def orDefault {α : Type} (name : String) (decode : Toml → Option α) (default : α) :
    FieldReader α :=
  fun fields =>
    match fields.next name with
    | (some value, fields) => (decode value).map (·, fields)
    | (none, fields) => some (default, fields)

/-- A field that a table may be without; an array must have it. -/
def optional {α : Type} (name : String) (decode : Toml → Option α) : FieldReader (Option α) :=
  fun fields =>
    match fields.next name, fields with
    | (some value, fields), _ => (decode value).map fun a => (some a, fields)
    | (none, fields), named _ => some (none, fields)
    | (none, _), positional _ => none

end Fields

def record? {α : Type} (fields : FieldReader α) (value : Toml) : Option α :=
  (Fields.of? value).bind fun found => (fields.run found).map Prod.fst

end AppearanceIndex.Toml
