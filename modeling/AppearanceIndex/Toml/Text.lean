import AppearanceIndex.Hex
import AppearanceIndex.Toml.Value

/-!
# Strings, blanks and comments

A basic string stands in double quotes and knows escapes, a literal string stands in single quotes
and means what it shows. Either may span lines between three quotes; its line ends then count as
line feeds, a line end right behind the opening quotes does not count, and up to two quotes may
stand in front of the closing ones.
-/

namespace AppearanceIndex.Toml

/-! ## Characters -/

def isBlank (c : Char) : Bool := c = ' ' || c = '\t'

/-- The character may stand in a line: it is a tab or not a control character. -/
def isLineChar (c : Char) : Bool := c = '\t' || (' ' ≤ c && c ≠ '\x7f')

def skipBlanks (cs : List Char) : List Char := cs.dropWhile isBlank

def lineEnd? : List Char → Option (List Char)
  | '\n' :: rest => some rest
  | '\r' :: '\n' :: rest => some rest
  | _ => none

def skipComment : List Char → List Char
  | '#' :: cs => cs.dropWhile isLineChar
  | cs => cs

/-- The text behind blanks, comments and line ends; within a comment or not. -/
def skipFillerFrom (inComment : Bool) : List Char → List Char
  | [] => []
  | '\n' :: cs => skipFillerFrom false cs
  | '\r' :: '\n' :: cs => skipFillerFrom false cs
  | c :: cs =>
    if inComment then if isLineChar c then skipFillerFrom true cs else c :: cs
    else if c = '#' then skipFillerFrom true cs
    else if isBlank c then skipFillerFrom false cs
    else c :: cs

def skipFiller (cs : List Char) : List Char := skipFillerFrom false cs

/-! ## Between quotes -/

/-- The characters up to a closing quote on the same line, and the text behind it. Where there are
escapes, an escaped quote does not close. -/
def readLine (quote : Char) (escapes : Bool) : List Char → Option (List Char × List Char)
  | [] => none
  | '\\' :: c :: cs =>
    if escapes then
      if isLineChar c then
        (readLine quote escapes cs).map fun (text, rest) => ('\\' :: c :: text, rest)
      else none
    else (readLine quote escapes (c :: cs)).map fun (text, rest) => ('\\' :: text, rest)
  | c :: cs =>
    if c = quote then some ([], cs)
    else if isLineChar c then (readLine quote escapes cs).map fun (text, rest) => (c :: text, rest)
    else none

/-- Three to five quotes: those that belong to the text, and what is behind them all. -/
def closing? (quote : Char) (cs : List Char) : Option (List Char × List Char) :=
  let quotes := min 5 (cs.takeWhile (· = quote)).length
  if quotes < 3 then none else some (List.replicate (quotes - 3) quote, cs.drop quotes)

/-- The characters up to three closing quotes, and the text behind them. -/
def readLines (quote : Char) (escapes : Bool) : List Char → Option (List Char × List Char)
  | [] => none
  | '\r' :: '\n' :: cs =>
    (readLines quote escapes cs).map fun (text, rest) => ('\n' :: text, rest)
  | '\\' :: c :: cs =>
    if escapes ∧ (c = quote ∨ c = '\\') then
      (readLines quote escapes cs).map fun (text, rest) => ('\\' :: c :: text, rest)
    else (readLines quote escapes (c :: cs)).map fun (text, rest) => ('\\' :: text, rest)
  | c :: cs =>
    match closing? quote (c :: cs) with
    | some found => some found
    | none =>
      if c = '\n' ∨ isLineChar c then
        (readLines quote escapes cs).map fun (text, rest) => (c :: text, rest)
      else none

/-! ## Escapes -/

/-- The character of a one-letter escape. -/
def escaped? (c : Char) : Option Char :=
  match c with
  | 'b' => some '\x08'
  | 't' => some '\t'
  | 'n' => some '\n'
  | 'f' => some '\x0c'
  | 'r' => some '\r'
  | '"' => some '"'
  | '\\' => some '\\'
  | _ => none

/-- The character whose number is written in hexadecimal digits. -/
def scalar? (digits : List Char) : Option Char := do
  let values ← digits.mapM Hex.value?
  let n := values.foldl (fun n d => 16 * n + d) 0
  if n.isValidChar then some (Char.ofNat n) else none

/-- Nothing but blanks is left of the line. -/
def endsLine (cs : List Char) : Bool := (skipBlanks cs).head? = some '\n'

/-- The text with its escapes resolved. A backslash at the end of a line takes the line end away,
and the blanks and line ends behind it; `skipping` says that this is under way. -/
def unescapeFrom (skipping : Bool) : List Char → Option (List Char)
  | [] => some []
  | '\\' :: 'u' :: a :: b :: c :: d :: cs => do
    let e ← scalar? [a, b, c, d]
    (unescapeFrom false cs).map (e :: ·)
  | '\\' :: 'U' :: a :: b :: c :: d :: e :: f :: g :: h :: cs => do
    let e ← scalar? [a, b, c, d, e, f, g, h]
    (unescapeFrom false cs).map (e :: ·)
  | '\\' :: c :: cs =>
    if endsLine (c :: cs) then unescapeFrom true (c :: cs)
    else (escaped? c).bind fun e => (unescapeFrom false cs).map (e :: ·)
  | ['\\'] => none
  | c :: cs =>
    if skipping && (isBlank c || c = '\n') then unescapeFrom true cs
    else (unescapeFrom false cs).map (c :: ·)

def unescape? (cs : List Char) : Option (List Char) := unescapeFrom false cs

/-! ## Strings -/

def unescaped? (found : List Char × List Char) : Option (List Char × List Char) :=
  (unescape? found.1).map (·, found.2)

def dropLineEnd (cs : List Char) : List Char := (lineEnd? cs).getD cs

def readQuoted : List Char → Option (List Char × List Char)
  | '"' :: cs => (readLine '"' true cs).bind unescaped?
  | '\'' :: cs => readLine '\'' false cs
  | _ => none

def readString : List Char → Option (List Char × List Char)
  | '"' :: '"' :: '"' :: cs => (readLines '"' true (dropLineEnd cs)).bind unescaped?
  | '\'' :: '\'' :: '\'' :: cs => readLines '\'' false (dropLineEnd cs)
  | cs => readQuoted cs

/-! ## Keys -/

def isBareKeyChar (c : Char) : Bool := c.isAlphanum || c = '-' || c = '_'

def readKey (cs : List Char) : Option (List Char × List Char) :=
  match cs with
  | '"' :: _ => readQuoted cs
  | '\'' :: _ => readQuoted cs
  | _ =>
    match cs.takeWhile isBareKeyChar with
    | [] => none
    | key => some (key, cs.dropWhile isBareKeyChar)

/-- Reads keys with dots between them, in so many steps. Blanks may stand around each. -/
def readKeysFrom : (steps : Nat) → List Char → Option (List (List Char) × List Char)
  | 0, _ => none
  | steps + 1, cs => do
    let (key, cs) ← readKey (skipBlanks cs)
    match skipBlanks cs with
    | '.' :: cs => (readKeysFrom steps cs).map fun (keys, rest) => (key :: keys, rest)
    | cs => some ([key], cs)

/-- How deep keys and values may nest, all in all one less than this. -/
def depthLimit : Nat := 128

def readKeys (cs : List Char) : Option (List (List Char) × List Char) :=
  readKeysFrom (depthLimit - 1) cs

end AppearanceIndex.Toml
