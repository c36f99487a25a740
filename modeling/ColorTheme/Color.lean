/-! # Colors

A color has four binary32 channels, nominally between 0 and 1. Arithmetic rounds after every
operation. A color is shown with 8 bits a channel, as one packed word or as `#RRGGBBAA`. -/
namespace ColorTheme

structure Color where
  red : Float32
  green : Float32
  blue : Float32
  alpha : Float32
  deriving DecidableEq, Repr

namespace Color

def rgb (red green blue : Float32) : Color := ⟨red, green, blue, 1⟩

def white : Color := rgb 1 1 1
def black : Color := rgb 0 0 0
def pureRed : Color := rgb 1 0 0
def pureGreen : Color := rgb 0 1 0
def pureBlue : Color := rgb 0 0 1
def yellow : Color := rgb 1 1 0
def cyan : Color := rgb 0 1 1
def magenta : Color := rgb 1 0 1
def gray : Color := rgb 0.5 0.5 0.5
def orange : Color := rgb 1 0.647 0
def purple : Color := rgb 0.5 0 0.5
def transparent : Color := ⟨0, 0, 0, 0⟩

/-- Brings a channel between 0 and 1. A NaN stays a NaN. -/
def clamp (v : Float32) : Float32 := if v < 0 then 0 else if v > 1 then 1 else v

def ofByte (n : UInt8) : Float32 := n.toFloat32 / 255

/-- The byte nearest to a channel, the upper one of two; a NaN becomes 0. -/
def toByte (v : Float32) : UInt8 :=
  let scaled := clamp v * 255
  let n := scaled.toUInt8
  if scaled - n.toFloat32 ≥ 0.5 then n + 1 else n

def withAlpha (c : Color) (alpha : Float32) : Color := { c with alpha := clamp alpha }

def lighten (c : Color) (amount : Float32) : Color :=
  { c with
    red := clamp (c.red + amount)
    green := clamp (c.green + amount)
    blue := clamp (c.blue + amount) }

def darken (c : Color) (amount : Float32) : Color := c.lighten (-amount)

/-- Channel by channel `a * (1 - t) + b * t`. At and beyond the ends, and for a NaN, an operand is
returned untouched. -/
def mix (a b : Color) (t : Float32) : Color :=
  if t.isNaN || t ≤ 0 then a
  else if t ≥ 1 then b
  else
    let s := 1 - t
    ⟨a.red * s + b.red * t, a.green * s + b.green * t, a.blue * s + b.blue * t,
      a.alpha * s + b.alpha * t⟩

/-- Relative luminance by the Rec. 709 weights, without gamma correction. -/
def luminance (c : Color) : Float32 := 0.2126 * c.red + 0.7152 * c.green + 0.0722 * c.blue

def ofBytes (red green blue alpha : UInt8) : Color :=
  ⟨ofByte red, ofByte green, ofByte blue, ofByte alpha⟩

def bytes (c : Color) : List UInt8 := [toByte c.red, toByte c.green, toByte c.blue, toByte c.alpha]

/-- The color of a word `0xRRGGBBAA`. -/
def ofPacked (word : UInt32) : Color :=
  ofBytes (word >>> 24).toUInt8 (word >>> 16).toUInt8 (word >>> 8).toUInt8 word.toUInt8

def packed (c : Color) : UInt32 :=
  (toByte c.red).toUInt32 <<< 24 ||| (toByte c.green).toUInt32 <<< 16 |||
    (toByte c.blue).toUInt32 <<< 8 ||| (toByte c.alpha).toUInt32

def hexDigit (n : UInt8) : Char := Char.ofNat (if n < 10 then 48 + n.toNat else 55 + n.toNat)

def hexPair (n : UInt8) : List Char := [hexDigit (n / 16), hexDigit (n % 16)]

def hexChars (c : Color) : List Char := '#' :: c.bytes.flatMap hexPair

def hexText (c : Color) : String := String.ofList c.hexChars

theorem hexText_toList (c : Color) : c.hexText.toList = c.hexChars := String.toList_ofList

theorem hexChars_length (c : Color) : c.hexChars.length = 9 := rfl

end Color

end ColorTheme
