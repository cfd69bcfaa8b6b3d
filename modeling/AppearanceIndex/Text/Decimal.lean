/-!
# Decimal text

`Decimal.digits` writes a number without leading zeros, `Decimal.padded` with at least a given
number of digits. `Decimal.value?` reads one or more ASCII digits; `Decimal.unsigned?` also accepts
one plus sign in front and refuses values at or above a limit.
-/

namespace AppearanceIndex.Decimal

def digit (n : Nat) : Char := Char.ofNat (48 + n)

/-- The value of an ASCII decimal digit. -/
def digitValue? (c : Char) : Option Nat :=
  if '0' ≤ c ∧ c ≤ '9' then some (c.toNat - 48) else none

/-- The digits of a number, most significant first, without leading zeros. -/
def digits (n : Nat) : List Char :=
  if n < 10 then [digit n] else digits (n / 10) ++ [digit (n % 10)]
termination_by n

def render (n : Nat) : String := String.ofList (digits n)

/-- At least `width` digits, zeros in front. -/
def paddedDigits (width n : Nat) : List Char :=
  List.replicate (width - (digits n).length) '0' ++ digits n

/-- The value of digits read after the digits of `acc`. -/
def accumulate : Nat → List Char → Option Nat
  | acc, [] => some acc
  | acc, c :: cs => (digitValue? c).bind fun d => accumulate (10 * acc + d) cs

/-- The value of one or more digits. -/
def value? : List Char → Option Nat
  | [] => none
  | cs => accumulate 0 cs

/-- Digits after an optional plus sign, with a value below `limit`. -/
def unsigned? (limit : Nat) (cs : List Char) : Option Nat :=
  (value? (match cs with | '+' :: ds => ds | ds => ds)).filter (· < limit)

end AppearanceIndex.Decimal
