import ColorTheme.Decimal
import ColorTheme.Toml.Quoted
import ColorTheme.Toml.Table
/-! # Values of one word

Booleans, integers of 64 bits in four bases, floating-point numbers, dates and times. -/
namespace ColorTheme.Toml

open Text (hexValue?)
open Decimal (ofDigits)

/-- Digits of a class with single underscores between them. -/
def isDigits (p : Char → Bool) : List Char → Bool
  | [] => false
  | [c] => p c
  | c :: '_' :: s => p c && isDigits p s
  | c :: s => p c && isDigits p s

/-- A run of decimal digits without needless zeros in front. -/
def isWhole (s : List Char) : Bool :=
  isDigits Char.isDigit s && (s.head? != some '0' || s.length == 1)

def maxInteger : Nat := 9223372036854775807

def isNatural (base : Nat) (s : List Char) : Bool :=
  isDigits (fun c => (hexValue? c).any (· < base)) s && decide (ofBase base s ≤ maxInteger)

/-- Whether a text is an integer of 64 bits. Only decimal ones have a sign. -/
def isInteger (s : List Char) : Bool :=
  match s with
  | '0' :: 'x' :: s => isNatural 16 s
  | '0' :: 'o' :: s => isNatural 8 s
  | '0' :: 'b' :: s => isNatural 2 s
  | _ =>
    let (negative, digits) := Decimal.sign s
    isWhole digits &&
      decide (ofBase 10 digits ≤ if negative then maxInteger + 1 else maxInteger)

def unsigned (s : List Char) : List Char := (Decimal.sign s).2

/-- Whether a text has the form of a number with a point or an exponent. -/
def isPointed (s : List Char) : Bool :=
  let isPart (c : Char) := c.isDigit || c == '_'
  let isExponent (s : List Char) :=
    match s with
    | c :: s => (c == 'e' || c == 'E') && isDigits Char.isDigit (unsigned s)
    | [] => false
  let s := unsigned s
  let rest := s.dropWhile isPart
  isWhole (s.takeWhile isPart) &&
    match rest with
    | '.' :: s =>
      let rest := s.dropWhile isPart
      isDigits Char.isDigit (s.takeWhile isPart) && (rest.isEmpty || isExponent rest)
    | rest => isExponent rest

/-- Whether a text is a floating-point number or one of the words for infinity and not-a-number.
A number above the largest finite one is none. -/
def isFloat (s : List Char) : Bool :=
  unsigned s == ['i', 'n', 'f'] || unsigned s == ['n', 'a', 'n'] ||
    isPointed s && (Decimal.read? (s.filter (· != '_'))).any fun d =>
      d.negative || d.toFloat.isFinite

def isBetween (low high : Nat) (s : List Char) : Bool :=
  s.all Char.isDigit && decide (low ≤ ofDigits s ∧ ofDigits s ≤ high)

def daysIn (year month : Nat) : Nat :=
  if month = 2 then if year % 4 = 0 ∧ (year % 100 ≠ 0 ∨ year % 400 = 0) then 29 else 28
  else if month = 4 ∨ month = 6 ∨ month = 9 ∨ month = 11 then 30
  else 31

/-- Takes a date such as `1979-05-27` off the front. -/
def date? : List Char → Option (List Char)
  | a :: b :: c :: d :: '-' :: m :: n :: '-' :: x :: y :: s =>
    let days := daysIn (ofDigits [a, b, c, d]) (ofDigits [m, n])
    if isBetween 0 9999 [a, b, c, d] && isBetween 1 12 [m, n] && isBetween 1 days [x, y] then some s
    else none
  | _ => none

/-- Takes a time such as `07:32:00.5` off the front. -/
def time? : List Char → Option (List Char)
  | a :: b :: ':' :: m :: n :: ':' :: x :: y :: s =>
    if isBetween 0 23 [a, b] && isBetween 0 59 [m, n] && isBetween 0 60 [x, y] then
      match s with
      | '.' :: s => if s.takeWhile Char.isDigit = [] then none else some (s.dropWhile Char.isDigit)
      | s => some s
    else none
  | _ => none

/-- Whether a text is the distance of a time zone, or nothing. -/
def isOffset : List Char → Bool
  | [] | ['Z'] | ['z'] => true
  | [sign, a, b, ':', m, n] =>
    (sign == '+' || sign == '-') && isBetween 0 23 [a, b] && isBetween 0 59 [m, n]
  | _ => false

def isZonedTime (s : List Char) : Bool := (time? s).any isOffset

/-- Whether a text is a date, a time, or a date and a time with a `T` between them. -/
def isMoment (s : List Char) : Bool :=
  match date? s with
  | some [] => true
  | some (c :: s) => (c == 'T' || c == 't') && isZonedTime s
  | none => time? s == some []

def isBare (c : Char) : Bool := c.isAlphanum || c == '_' || c == '-'

def isWord (c : Char) : Bool := isBare c || c == '+' || c == '.' || c == ':'

/-- Reads a boolean, a number or a moment. Between date and time there may also be a blank. -/
def word : Reader Node := fun s =>
  let text := s.takeWhile isWord
  let rest := s.dropWhile isWord
  if text = ['t', 'r', 'u', 'e'] then some (.boolean true, rest)
  else if text = ['f', 'a', 'l', 's', 'e'] then some (.boolean false, rest)
  else if isInteger text || isFloat text then some (.number, rest)
  else if isMoment text then
    match date? text, rest with
    | some [], ' ' :: tail =>
      let time := tail.takeWhile isWord
      if time = [] then some (.moment, rest)
      else if isZonedTime time then some (.moment, tail.dropWhile isWord)
      else none
    | _, _ => some (.moment, rest)
  else none

end ColorTheme.Toml
