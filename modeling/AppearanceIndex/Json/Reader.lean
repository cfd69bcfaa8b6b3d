import AppearanceIndex.Hex
import AppearanceIndex.Json.Value

/-!
# Reading JSON

Each reader takes characters and gives what it read together with the rest. Values nest, so
`Json.read` counts down a supply of steps that the length of the text always covers. Nothing but
blanks may follow the value (`Json.parse?`).
-/

namespace AppearanceIndex.Json

def isBlank (c : Char) : Bool := c = ' ' || c = '\n' || c = '\t' || c = '\r'

def skipBlanks (cs : List Char) : List Char := cs.dropWhile isBlank

/-! ## Strings -/

/-- The character of a one-letter escape. -/
def escaped? (c : Char) : Option Char :=
  match c with
  | '"' => some '"'
  | '\\' => some '\\'
  | '/' => some '/'
  | 'b' => some '\x08'
  | 'f' => some '\x0c'
  | 'n' => some '\n'
  | 'r' => some '\r'
  | 't' => some '\t'
  | _ => none

/-- The value of four hexadecimal digits. -/
def codeUnit? (a b c d : Char) : Option Nat := do
  let a ← Hex.value? a
  let b ← Hex.value? b
  let c ← Hex.value? c
  let d ← Hex.value? d
  return 4096 * a + 256 * b + 16 * c + d

/-- What a string is made of: characters, and code units that are escaped as numbers. -/
inductive StringPart where
  | character (c : Char)
  | codeUnit (n : Nat)

/-- The parts of a string up to the closing quote. -/
def readParts : List Char → Option (List StringPart × List Char)
  | [] => none
  | '"' :: cs => some ([], cs)
  | '\\' :: 'u' :: a :: b :: c :: d :: cs => do
    let unit ← codeUnit? a b c d
    let (parts, rest) ← readParts cs
    return (.codeUnit unit :: parts, rest)
  | '\\' :: c :: cs => do
    let e ← escaped? c
    let (parts, rest) ← readParts cs
    return (.character e :: parts, rest)
  | c :: cs =>
    if c < ' ' then none
    else (readParts cs).map fun (parts, rest) => (.character c :: parts, rest)

/-- The first half of a surrogate pair. -/
def isLeading (unit : Nat) : Bool := 0xd800 ≤ unit && unit < 0xdc00

/-- The second half of a surrogate pair. -/
def isTrailing (unit : Nat) : Bool := 0xdc00 ≤ unit && unit < 0xe000

/-- The text of the parts, the halves of a surrogate pair joined; none if one half is alone. -/
def joinParts : List StringPart → Option (List Char)
  | [] => some []
  | .character c :: parts => (joinParts parts).map (c :: ·)
  | .codeUnit unit :: .codeUnit second :: parts =>
    if isLeading unit then
      if isTrailing second then
        (joinParts parts).map
          (Char.ofNat (0x10000 + (unit - 0xd800) * 0x400 + (second - 0xdc00)) :: ·)
      else none
    else if isTrailing unit then none
    else (joinParts (.codeUnit second :: parts)).map (Char.ofNat unit :: ·)
  | .codeUnit unit :: parts =>
    if isLeading unit || isTrailing unit then none
    else (joinParts parts).map (Char.ofNat unit :: ·)

def readString (cs : List Char) : Option (Option (List Char) × List Char) :=
  (readParts cs).map fun (parts, rest) => (joinParts parts, rest)

/-! ## Numbers -/

/-- The digits in front and the rest; at least one digit. -/
def readDigits (cs : List Char) : Option (List Char × List Char) :=
  match cs.takeWhile Char.isDigit with
  | [] => none
  | digits => some (digits, cs.dropWhile Char.isDigit)

/-- A whole number without sign; a zero in front stands alone. -/
def readWhole (cs : List Char) : Option (List Char × List Char) :=
  match readDigits cs with
  | some ('0' :: _ :: _, _) => none
  | other => other

def readFraction : List Char → Option (List Char × List Char)
  | '.' :: cs => (readDigits cs).map fun (digits, rest) => ('.' :: digits, rest)
  | cs => some ([], cs)

def readExponent : List Char → Option (List Char × List Char)
  | e :: cs =>
    if e = 'e' ∨ e = 'E' then
      match cs with
      | s :: more =>
        if s = '+' ∨ s = '-' then
          (readDigits more).map fun (digits, rest) => (e :: s :: digits, rest)
        else (readDigits cs).map fun (digits, rest) => (e :: digits, rest)
      | [] => none
    else some ([], e :: cs)
  | [] => some ([], [])

def readUnsigned (cs : List Char) : Option (List Char × List Char) := do
  let (whole, cs) ← readWhole cs
  let (fraction, cs) ← readFraction cs
  let (exponent, cs) ← readExponent cs
  return (whole ++ fraction ++ exponent, cs)

def readNumber : List Char → Option (List Char × List Char)
  | '-' :: cs => (readUnsigned cs).map fun (literal, rest) => ('-' :: literal, rest)
  | cs => readUnsigned cs

/-! ## Values -/

mutual

/-- A value, in so many steps. -/
def read : (steps : Nat) → List Char → Option (Json × List Char)
  | 0, _ => none
  | steps + 1, cs =>
    match skipBlanks cs with
    | '"' :: cs => (readString cs).map fun (text, rest) => (string text, rest)
    | '[' :: cs =>
      match skipBlanks cs with
      | ']' :: rest => some (array [], rest)
      | cs => (readItems steps cs).map fun (items, rest) => (array items, rest)
    | '\x7b' :: cs =>
      match skipBlanks cs with
      | '\x7d' :: rest => some (object [], rest)
      | cs => (readMembers steps cs).map fun (members, rest) => (object members, rest)
    | 't' :: 'r' :: 'u' :: 'e' :: rest => some (bool true, rest)
    | 'f' :: 'a' :: 'l' :: 's' :: 'e' :: rest => some (bool false, rest)
    | 'n' :: 'u' :: 'l' :: 'l' :: rest => some (null, rest)
    | cs => (readNumber cs).map fun (literal, rest) => (number literal, rest)

/-- One or more values up to the closing bracket. -/
def readItems : (steps : Nat) → List Char → Option (List Json × List Char)
  | 0, _ => none
  | steps + 1, cs => do
    let (item, cs) ← read steps cs
    match skipBlanks cs with
    | ']' :: rest => some ([item], rest)
    | ',' :: cs => (readItems steps cs).map fun (items, rest) => (item :: items, rest)
    | _ => none

/-- One or more members up to the closing brace. -/
def readMembers : (steps : Nat) → List Char →
    Option (List (Option (List Char) × Json) × List Char)
  | 0, _ => none
  | steps + 1, cs => do
    match skipBlanks cs with
    | '"' :: cs =>
      let (name, cs) ← readString cs
      match skipBlanks cs with
      | ':' :: cs =>
        let (value, cs) ← read steps cs
        match skipBlanks cs with
        | '\x7d' :: rest => some ([(name, value)], rest)
        | ',' :: cs =>
          (readMembers steps cs).map fun (members, rest) => ((name, value) :: members, rest)
        | _ => none
      | _ => none
    | _ => none

end

def parse? (cs : List Char) : Option Json := do
  let (value, rest) ← read (2 * cs.length + 2) cs
  if skipBlanks rest = [] then some value else none

end AppearanceIndex.Json
