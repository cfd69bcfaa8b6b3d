import AppearanceIndex.Hex
import AppearanceIndex.Text.Decimal
import AppearanceIndex.Toml.Value

/-!
# Numbers, dates and words

What stands without quotes is a number, a date, a time, or one of a few words. A number may hold
underscores between its digits. An integer lies in the signed 64-bit range; a float may be written
as large as one likes below zero, but not above it.
-/

namespace AppearanceIndex.Toml

/-! ## Digits -/

/-- Digits with single underscores between them, without the underscores. -/
def ungroup? (isDigit : Char → Bool) : List Char → Option (List Char)
  | [] => none
  | [c] => if isDigit c then some [c] else none
  | c :: '_' :: cs => if isDigit c then (ungroup? isDigit cs).map (c :: ·) else none
  | c :: cs => if isDigit c then (ungroup? isDigit cs).map (c :: ·) else none

def ofDigits (base : Nat) (digits : List Char) : Nat :=
  digits.foldl (fun n c => base * n + (Hex.value? c).getD 0) 0

/-- The value of grouped digits below a base. -/
def based? (base : Nat) (cs : List Char) : Option Nat :=
  (ungroup? (fun c => (Hex.value? c).any (· < base)) cs).map (ofDigits base)

/-- Grouped decimal digits; a zero in front stands alone. -/
def whole? (cs : List Char) : Option (List Char) :=
  match cs with
  | '0' :: _ :: _ => none
  | _ => ungroup? Char.isDigit cs

/-! ## Integers -/

/-- The number of values of one sign. -/
def integerLimit : Nat := UInt64.size / 2

def positive? : List Char → Option Nat
  | '0' :: 'x' :: cs => based? 16 cs
  | '0' :: 'o' :: cs => based? 8 cs
  | '0' :: 'b' :: cs => based? 2 cs
  | cs => (whole? cs).map (ofDigits 10)

/-- An integer; only decimal digits take a sign. -/
def integer? : List Char → Option Int
  | '-' :: cs => ((whole? cs).map (ofDigits 10)).bind fun n =>
    if n ≤ integerLimit then some (-(n : Int)) else none
  | '+' :: cs => ((whole? cs).map (ofDigits 10)).bind fun n =>
    if n < integerLimit then some (n : Int) else none
  | cs => (positive? cs).bind fun n => if n < integerLimit then some (n : Int) else none

/-! ## Floats -/

structure FloatParts where
  whole : List Char
  fraction : List Char
  exponent : Int

def exponent? : List Char → Option Int
  | '-' :: cs => (ungroup? Char.isDigit cs).map fun ds => -(ofDigits 10 ds : Int)
  | '+' :: cs => (ungroup? Char.isDigit cs).map fun ds => (ofDigits 10 ds : Int)
  | cs => (ungroup? Char.isDigit cs).map fun ds => (ofDigits 10 ds : Int)

def isExponentLetter (c : Char) : Bool := c = 'e' || c = 'E'

/-- What stands behind the whole part: a fraction, an exponent, or both. -/
def floatTail? (whole : List Char) : List Char → Option FloatParts
  | '.' :: cs => do
    let fraction ← ungroup? Char.isDigit (cs.takeWhile fun c => !isExponentLetter c)
    match cs.dropWhile fun c => !isExponentLetter c with
    | [] => some ⟨whole, fraction, 0⟩
    | _ :: digits => (exponent? digits).map (⟨whole, fraction, ·⟩)
  | c :: digits => if isExponentLetter c then (exponent? digits).map (⟨whole, [], ·⟩) else none
  | [] => none

def floatParts? (cs : List Char) : Option FloatParts := do
  let ends (c : Char) : Bool := c = '.' || isExponentLetter c
  let whole ← whole? (cs.takeWhile (!ends ·))
  floatTail? whole (cs.dropWhile (!ends ·))

namespace FloatParts

/-- Half a step above the largest double; from here on a number counts as infinite. -/
def overflow : Nat := Nat.pow 2 1024 - Nat.pow 2 970

/-- The number is not too large for a double. With all its digits behind the point it is below one,
so that its power of ten alone decides unless it is the largest that a double reaches. -/
def isFinite (parts : FloatParts) : Bool :=
  let digits := (parts.whole ++ parts.fraction).dropWhile (· = '0')
  let power : Int := parts.exponent - parts.fraction.length
  let magnitude : Int := digits.length + power
  if digits = [] || magnitude < 309 then true
  else if 309 < magnitude then false
  else ofDigits 10 digits * Nat.pow 10 power.toNat < overflow * Nat.pow 10 (-power).toNat

end FloatParts

def isFloat (cs : List Char) : Bool :=
  match cs with
  | '-' :: ds => (floatParts? ds).isSome || ds = "inf".toList || ds = "nan".toList
  | '+' :: ds => (floatParts? ds).any FloatParts.isFinite || ds = "inf".toList || ds = "nan".toList
  | ds => (floatParts? ds).any FloatParts.isFinite || ds = "inf".toList || ds = "nan".toList

/-! ## Dates and times -/

/-- Reads a date. A day counts up to 31 in every month. -/
def readDate : List Char → Option (List Char)
  | y₁ :: y₂ :: y₃ :: y₄ :: '-' :: m₁ :: m₂ :: '-' :: d₁ :: d₂ :: rest => do
    let _ ← Decimal.value? [y₁, y₂, y₃, y₄]
    let month ← Decimal.value? [m₁, m₂]
    let day ← Decimal.value? [d₁, d₂]
    if 1 ≤ month ∧ month ≤ 12 ∧ 1 ≤ day ∧ day ≤ 31 then some rest else none
  | _ => none

/-- Reads the fraction of a second, if there is one. -/
def readFraction : List Char → Option (List Char)
  | '.' :: c :: cs => if c.isDigit then some (cs.dropWhile Char.isDigit) else none
  | '.' :: [] => none
  | cs => some cs

/-- Reads a time of day; a minute may have a leap second. -/
def readTime : List Char → Option (List Char)
  | h₁ :: h₂ :: ':' :: m₁ :: m₂ :: ':' :: s₁ :: s₂ :: rest => do
    let hour ← Decimal.value? [h₁, h₂]
    let minute ← Decimal.value? [m₁, m₂]
    let second ← Decimal.value? [s₁, s₂]
    if hour < 24 ∧ minute < 60 ∧ second ≤ 60 then readFraction rest else none
  | _ => none

/-- The text is nothing, or an offset from universal time. -/
def isOffset : List Char → Bool
  | [] => true
  | [c] => c = 'Z' || c = 'z'
  | [sign, h₁, h₂, ':', m₁, m₂] =>
    (sign = '+' || sign = '-') && (Decimal.value? [h₁, h₂]).any (· < 24) &&
      (Decimal.value? [m₁, m₂]).any (· < 60)
  | _ => false

/-- The text is a date, a time, or a date and a time. -/
def isDateTime (cs : List Char) : Bool :=
  match readDate cs with
  | some [] => true
  | some (c :: time) => (c = 'T' || c = 't' || c = ' ') && (readTime time).any isOffset
  | none => readTime cs = some []

/-! ## All of them -/

/-- The character may stand in a number, a date or a word. -/
def isLiteralChar (c : Char) : Bool :=
  c.isAlphanum || c = '+' || c = '-' || c = '_' || c = '.' || c = ':'

/-- The value that an unquoted text stands for. -/
def ofLiteral? (cs : List Char) : Option Toml :=
  if cs = "true".toList then some (boolean true)
  else if cs = "false".toList then some (boolean false)
  else if isDateTime cs then some (dateTime cs)
  else if isFloat cs then some (float cs)
  else (integer? cs).map integer

/-- Reads a value without quotes. A blank may stand between a date and its time. -/
def readLiteral (cs : List Char) : Option (Toml × List Char) :=
  let first := cs.takeWhile isLiteralChar
  match readDate first, cs.dropWhile isLiteralChar with
  | some [], ' ' :: c :: rest =>
    if c.isDigit then
      (ofLiteral? (first ++ ' ' :: (c :: rest).takeWhile isLiteralChar)).map
        (·, (c :: rest).dropWhile isLiteralChar)
    else (ofLiteral? first).map (·, ' ' :: c :: rest)
  | _, rest => (ofLiteral? first).map (·, rest)

end AppearanceIndex.Toml
