import ColorTheme.Color
import ColorTheme.Reference
/-! # Built-in color functions

The catalog of functions that a theme may call, each with the kinds of its parameters. -/
namespace ColorTheme

inductive Parameter where
  | byte
  | integer
  | number
  | color
  | entry
  deriving DecidableEq, Repr

namespace Parameter

def every : List Parameter := [byte, integer, number, color, entry]

def description : Parameter → String
  | byte => "an integer in 0..=255"
  | integer => "an integer"
  | number => "a number"
  | color => "a color or entry name"
  | entry => "an entry name"

end Parameter

/-- An argument of a call. The color of an `entry` is known only while a theme is baked. -/
inductive Argument where
  | byte (value : UInt8)
  | integer (value : Int32)
  | number (value : Float32)
  | color (value : Color)
  | entry (target : Reference)
  deriving DecidableEq, Repr

namespace Argument

/-- Whether the argument may stand for a parameter. Numbers are finite, and the name of an entry
may stand wherever a color may. -/
def fits : Argument → Parameter → Bool
  | byte _, .byte => true
  | integer _, .integer => true
  | number value, .number => value.isFinite
  | color _, .color => true
  | entry _, .color => true
  | entry _, .entry => true
  | _, _ => false

def asColor : Argument → Color
  | color value => value
  | _ => .transparent

def asNumber : Argument → Float32
  | number value => value
  | _ => 0

def asByte : Argument → UInt8
  | byte value => value
  | _ => 0

def asInteger : Argument → Int32
  | integer value => value
  | _ => 0

def target? : Argument → Option Reference
  | entry target => some target
  | _ => none

end Argument

inductive Builtin where
  | mix
  | opacity
  | alpha
  | darken
  | lighten
  | shade
  | contrast
  deriving DecidableEq, Repr

namespace Builtin

def every : List Builtin := [mix, opacity, alpha, darken, lighten, shade, contrast]

def name : Builtin → String
  | mix => "Mix"
  | opacity => "Opacity"
  | alpha => "Alpha"
  | darken => "Darken"
  | lighten => "Lighten"
  | shade => "Shade"
  | contrast => "Contrast"

def ofName? (s : String) : Option Builtin := every.find? fun f => f.name = s

def parameters : Builtin → List Parameter
  | mix => [.color, .color, .number]
  | opacity => [.color, .number]
  | alpha => [.color, .byte]
  | darken => [.color, .number]
  | lighten => [.color, .number]
  | shade => [.color, .integer]
  | contrast => [.entry, .color, .color]

def arity (f : Builtin) : Nat := f.parameters.length

/-- The position, from 1, of the first argument that does not fit its parameter. -/
def mismatch? (f : Builtin) (args : List Argument) : Option Nat :=
  ((args.zip f.parameters).findIdx? fun pair => !pair.1.fits pair.2).map (· + 1)

def accepts (f : Builtin) (args : List Argument) : Bool :=
  args.length == f.arity && (f.mismatch? args).isNone

/-- The color of a call. `alpha` and `shade` count in steps of 1/255; `contrast` takes its second
color on a dark first one and its third color otherwise. Anything but the right number of arguments
gives a transparent color. -/
def evaluate : Builtin → List Argument → Color
  | mix, [a, b, t] => Color.mix a.asColor b.asColor t.asNumber
  | opacity, [c, v] => c.asColor.withAlpha v.asNumber
  | alpha, [c, n] => c.asColor.withAlpha (Color.ofByte n.asByte)
  | darken, [c, v] => c.asColor.darken v.asNumber
  | lighten, [c, v] => c.asColor.lighten v.asNumber
  | shade, [c, n] => c.asColor.lighten (Float32.ofInt n.asInteger.toInt / 255)
  | contrast, [c, light, dark] => if c.asColor.luminance < 0.5 then light.asColor else dark.asColor
  | _, _ => .transparent

end Builtin

end ColorTheme
