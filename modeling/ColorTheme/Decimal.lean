import ColorTheme.Digits
/-! # Decimal numbers

Numbers in texts, and their values as bytes, 32-bit integers, binary32 and binary64.
A decimal is an optional sign, digits with an optional point among or before them, and an optional
exponent; its binary value is the nearest one, the even one of two. -/
namespace ColorTheme

/-- The number `digits * 10 ^ exponent`, negated when `negative`. -/
structure Decimal where
  negative : Bool
  digits : Nat
  exponent : Int
  deriving DecidableEq, Repr

namespace Decimal

def digitValue (c : Char) : Nat := c.toNat - '0'.toNat

def ofDigits (s : List Char) : Nat := Digits.value 10 (s.map digitValue)

/-- A run of one or more digits and nothing else. -/
def natural? (s : List Char) : Option Nat :=
  if s ≠ [] ∧ s.all Char.isDigit then some (ofDigits s) else none

/-- Takes a sign off the front; the first part says whether it was a minus. -/
def sign : List Char → Bool × List Char
  | '-' :: s => (true, s)
  | '+' :: s => (false, s)
  | s => (false, s)

def signed (negative : Bool) (n : Nat) : Int := if negative then -(n : Int) else n

/-- The exponent that ends a number: nothing, or `e` and a signed run of digits. -/
def exponent? : List Char → Option Int
  | [] => some 0
  | c :: s =>
    if c = 'e' ∨ c = 'E' then
      let (negative, s) := sign s
      (natural? s).map (signed negative)
    else none

/-- The digits after a decimal point, if one comes first, and what follows them. -/
def fraction : List Char → List Char × List Char
  | '.' :: s => (s.takeWhile Char.isDigit, s.dropWhile Char.isDigit)
  | s => ([], s)

def read? (s : List Char) : Option Decimal :=
  let (negative, s) := sign s
  let whole := s.takeWhile Char.isDigit
  let (part, rest) := fraction (s.dropWhile Char.isDigit)
  if whole = [] ∧ part = [] then none
  else (exponent? rest).map fun e => ⟨negative, ofDigits (whole ++ part), e - part.length⟩

/-- Whether a decimal is at least `2 ^ 1100`, which every format below rounds to infinity. Powers of
ten are estimated by `2 ^ 3 < 10` and `10 ^ 3 < 2 ^ 10`; close to the bound the answer may be no. -/
def isHuge (d : Decimal) : Bool :=
  d.digits != 0 &&
    if d.exponent < 0 then 1100 + 10 * (d.exponent.natAbs / 3 + 1) ≤ d.digits.log2
    else 1100 ≤ d.digits.log2 + 3 * d.exponent.natAbs

/-- The nearest binary32 number, infinite beyond the largest one. -/
def toFloat32 (d : Decimal) : Float32 :=
  let magnitude := if d.isHuge then Float32.ofBits 0x7F800000
    else Float32.ofScientific d.digits (decide (d.exponent < 0)) d.exponent.natAbs
  if d.negative then -magnitude else magnitude

def toFloat (d : Decimal) : Float :=
  let magnitude := if d.isHuge then Float.ofBits 0x7FF0000000000000
    else Float.ofScientific d.digits (decide (d.exponent < 0)) d.exponent.natAbs
  if d.negative then -magnitude else magnitude

def finite? (s : List Char) : Option Float32 :=
  ((read? s).map toFloat32).filter Float32.isFinite

/-- A number from 0 to 255, optionally with a plus sign. -/
def byte? (s : List Char) : Option UInt8 :=
  let digits := match s with
    | '+' :: s => s
    | s => s
  (natural? digits).bind fun n => if n ≤ 255 then some n.toUInt8 else none

/-- A number from `-2 ^ 31` to `2 ^ 31 - 1`, optionally with a sign. -/
def int32? (s : List Char) : Option Int32 :=
  let (negative, digits) := sign s
  (natural? digits).bind fun n =>
    let value := signed negative n
    if -2147483648 ≤ value ∧ value ≤ 2147483647 then some (Int32.ofInt value) else none

end Decimal

end ColorTheme
