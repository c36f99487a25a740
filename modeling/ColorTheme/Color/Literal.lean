import ColorTheme.Color
import ColorTheme.Decimal
import ColorTheme.Text
/-! # Color literals

A literal is `#` with 3, 4, 6 or 8 hexadecimal digits, `rgb(r, g, b)`, `rgba(r, g, b, a)` or a color
name. Letter case does not matter. -/
namespace ColorTheme.Color

open Text

def hexDigit? (c : Char) : Option UInt8 := (hexValue? c).map Nat.toUInt8

def pairByte (high low : UInt8) : UInt8 := 16 * high + low

/-- Short forms write each digit once instead of twice; without alpha the color is opaque. -/
def ofDigits? : List UInt8 → Option Color
  | [r, g, b] => some (ofBytes (pairByte r r) (pairByte g g) (pairByte b b) 255)
  | [r, g, b, a] => some (ofBytes (pairByte r r) (pairByte g g) (pairByte b b) (pairByte a a))
  | [r, r', g, g', b, b'] => some (ofBytes (pairByte r r') (pairByte g g') (pairByte b b') 255)
  | [r, r', g, g', b, b', a, a'] =>
    some (ofBytes (pairByte r r') (pairByte g g') (pairByte b b') (pairByte a a'))
  | _ => none

def readHex? : List Char → Option Color
  | '#' :: s => (s.mapM hexDigit?).bind ofDigits?
  | _ => none

/-- Inside a call only space, tab, newline and carriage return are blanks. -/
def isGap (c : Char) : Bool := c == ' ' || c == '\t' || c == '\n' || c == '\r'

def trimGaps (s : List Char) : List Char :=
  ((s.dropWhile isGap).reverse.dropWhile isGap).reverse

def pieces : List Char → List (List Char)
  | [] => [[]]
  | c :: s => if c = ',' then [] :: pieces s else consFirst c (pieces s)

/-- The finite numbers of a call of `name`: gaps may stand before the opening parenthesis and
around every number. -/
def readCall? (name s : List Char) : Option (List Float32) :=
  if (s.take name.length).map Char.toLower = name then
    match (s.drop name.length).dropWhile isGap with
    | '(' :: inner =>
      if inner.getLast? = some ')' then
        (pieces inner.dropLast).mapM fun piece => Decimal.finite? (trimGaps piece)
      else none
    | _ => none
  else none

/-- Channels are read on the scale to 255 as soon as one of them exceeds 1. -/
def ofChannels (red green blue alpha : Float32) : Color :=
  if red > 1 || green > 1 || blue > 1 then ⟨red / 255, green / 255, blue / 255, alpha⟩
  else ⟨red, green, blue, alpha⟩

def readRgb? (s : List Char) : Option Color :=
  match readCall? ['r', 'g', 'b'] s with
  | some [r, g, b] => some (ofChannels r g b 1)
  | _ => none

def readRgba? (s : List Char) : Option Color :=
  match readCall? ['r', 'g', 'b', 'a'] s with
  | some [r, g, b, a] => some (ofChannels r g b (clamp a))
  | _ => none

def named : List (String × Color) :=
  [("black", black), ("white", white), ("red", pureRed), ("green", rgb 0 0.5 0),
   ("blue", pureBlue), ("yellow", yellow), ("cyan", cyan), ("aqua", cyan), ("magenta", magenta),
   ("fuchsia", magenta), ("gray", gray), ("grey", gray), ("orange", orange), ("purple", purple),
   ("transparent", transparent)]

/-- Lower case as far as color names can tell: besides the capital letters of ASCII only the
Kelvin sign has an ASCII letter as its lower case. -/
def lower (c : Char) : Char := if c = '\u212A' then 'k' else c.toLower

def readName? (s : List Char) : Option Color := named.lookup (String.ofList (s.map lower))

/-- The color that a whole text writes, white space around it apart. -/
def read? (s : List Char) : Option Color :=
  let s := trim s
  readHex? s <|> readRgba? s <|> readRgb? s <|> readName? s

def parse? (text : String) : Option Color := read? text.toList

end ColorTheme.Color
