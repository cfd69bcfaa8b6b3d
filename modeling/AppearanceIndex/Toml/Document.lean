import AppearanceIndex.Toml.Literal
import AppearanceIndex.Toml.Table
import AppearanceIndex.Toml.Text

/-!
# TOML documents

A document is read line by line: a header opens a section, and each key of a section gets a value.
Arrays may span lines; tables between braces may not.
-/

namespace AppearanceIndex.Toml

/-! ## Values -/

/-- Reads the rest of an array, in so many steps. -/
def readItems (read : List Char → Option (Toml × List Char)) :
    (steps : Nat) → List Char → Option (List Toml × List Char)
  | 0, _ => none
  | steps + 1, cs =>
    match skipFiller cs with
    | ']' :: rest => some ([], rest)
    | cs => do
      let (item, cs) ← read cs
      match skipFiller cs with
      | ']' :: rest => some ([item], rest)
      | ',' :: cs => (readItems read steps cs).map fun (items, rest) => (item :: items, rest)
      | _ => none

/-- Reads a key, or dotted keys, and a value. -/
def readPair (read : List Char → Option (Toml × List Char)) (cs : List Char) :
    Option ((List (List Char) × Toml) × List Char) := do
  match ← readKeys cs with
  | (keys, '=' :: cs) =>
    let (value, rest) ← read (skipBlanks cs)
    return ((keys, value), rest)
  | _ => none

/-- Reads the rest of a table between braces that is not empty, in so many steps. -/
def readPairs (read : List Char → Option (Toml × List Char)) :
    (steps : Nat) → Entries → List Char → Option (Entries × List Char)
  | 0, _, _ => none
  | steps + 1, entries, cs => do
    let ((keys, value), cs) ← readPair read cs
    let entries ← assign .braced keys value entries
    match skipBlanks cs with
    | '\x7d' :: rest => some (entries, rest)
    | ',' :: cs => readPairs read steps entries cs
    | _ => none

/-- Reads a value that nests at most so deep. -/
def readValue : (depth : Nat) → List Char → Option (Toml × List Char)
  | depth + 1, '[' :: cs =>
    (readItems (readValue depth) (cs.length + 1) cs).map fun (items, rest) => (array items, rest)
  | depth + 1, '\x7b' :: cs =>
    match skipBlanks cs with
    | '\x7d' :: rest => some (table .braces [], rest)
    | cs => (readPairs (readValue depth) cs.length [] cs).map
        fun (entries, rest) => (table .braces entries, rest)
  | _, '"' :: cs => (readString ('"' :: cs)).map fun (text, rest) => (string text, rest)
  | _, '\'' :: cs => (readString ('\'' :: cs)).map fun (text, rest) => (string text, rest)
  | _, cs => readLiteral cs

/-! ## Lines -/

structure Document where
  root : Entries
  /-- The path of the section in which keys get their values. -/
  current : List (List Char)

/-- The text behind a line of which nothing but blanks and a comment is left. -/
def restOfLine? (cs : List Char) : Option (List Char) :=
  match skipComment (skipBlanks cs) with
  | [] => some []
  | cs => lineEnd? cs

def Document.openTable (keys : List (List Char)) (d : Document) : Option Document :=
  (declare keys d.root).map (⟨·, keys⟩)

def Document.openElement (keys : List (List Char)) (d : Document) : Option Document :=
  (extend keys d.root).map (⟨·, keys⟩)

def Document.assign (keys : List (List Char)) (value : Toml) (d : Document) : Option Document :=
  (changeAt .header (Toml.assign .dotted keys value) d.current d.root).map (⟨·, d.current⟩)

/-- Reads a header or a key with its value. -/
def readStatement (d : Document) : List Char → Option (Document × List Char)
  | '[' :: '[' :: cs => do
    match ← readKeys cs with
    | (keys, ']' :: ']' :: cs) => return (← d.openElement keys, cs)
    | _ => none
  | '[' :: cs => do
    match ← readKeys cs with
    | (keys, ']' :: cs) => return (← d.openTable keys, cs)
    | _ => none
  | cs => do
    let ((keys, value), rest) ← readPair (readValue (depthLimit - 1)) cs
    return (← d.assign keys value, rest)

/-- Reads one line, or the lines over which its value goes. -/
def readNext (d : Document) (cs : List Char) : Option (Document × List Char) :=
  match restOfLine? cs with
  | some rest => some (d, rest)
  | none => do
    let (d, cs) ← readStatement d (skipBlanks cs)
    return (d, ← restOfLine? cs)

def readAll : (steps : Nat) → Document → List Char → Option Document
  | _, d, [] => some d
  | 0, _, _ => none
  | steps + 1, d, cs => do
    let (d, cs) ← readNext d cs
    readAll steps d cs

/-- The table that a text spells. A byte order mark in front is no part of it. -/
def parse? (cs : List Char) : Option Toml :=
  let cs := match cs with
    | '\ufeff' :: cs => cs
    | cs => cs
  (readAll cs.length ⟨[], []⟩ cs).map fun d => table .header d.root

end AppearanceIndex.Toml
