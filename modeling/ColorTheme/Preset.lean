import ColorTheme.Definition.Reader
/-! # Built-in themes

The themes that are there without any file, as theme texts. -/
namespace ColorTheme

inductive Preset where
  | catppuccin
  | highContrast
  deriving DecidableEq, Repr

namespace Preset

def every : List Preset := [catppuccin, highContrast]

/-- The theme that is used where none is chosen, and the base of every override. -/
def standard : Preset := catppuccin

/-- The name by which settings choose the theme. -/
def id : Preset → String
  | catppuccin => "catppuccin"
  | highContrast => "high-contrast"

def title : Preset → String
  | catppuccin => "Catppuccin"
  | highContrast => "High Contrast"

/-- The theme that a text chooses; white space around it and letter case do not matter. -/
def ofId? (s : List Char) : Option Preset :=
  every.find? fun preset => Text.sameLetters preset.id.toList (Text.trim s)

def catppuccinText : String :=
  "// flipdef base theme
// Palette derived from Catppuccin (Mocha for Dark, Latte for Light).
// Slot assignments below the palettes apply to every mode.

[Dark]
Base: #1E1E2EFF
Mantle: #181825FF
Crust: #11111BFF
Surface0: #313244FF
Surface1: #45475AFF
Surface2: #585B70FF
Overlay0: #6C7086FF
Subtext0: #A6ADC8FF
Foreground: #CDD6F4FF
AccentBlue: #89B4FAFF
Lavender: #B4BEFEFF
AccentGreen: #A6E3A1FF
AccentYellow: #F9E2AFFF
AccentRed: #F38BA8FF

[Light]
Base: #EFF1F5FF
Mantle: #E6E9EFFF
Crust: #DCE0E8FF
Surface0: #CCD0DAFF
Surface1: #BCC0CCFF
Surface2: #ACB0BEFF
Overlay0: #9CA0B0FF
Subtext0: #6C6F85FF
Foreground: #4C4F69FF
AccentBlue: #1E66F5FF
Lavender: #7287FDFF
AccentGreen: #40A02BFF
AccentYellow: #DF8E1DFF
AccentRed: #D20F39FF

[All]
// Surfaces and text
Background: Base
Text: Foreground
TextDim: Subtext0
Border: Surface1
Accent: AccentBlue
Selected: Opacity(AccentBlue, 0.25)
Selected_Hovered: Opacity(AccentBlue, 0.35)

// Buttons
ButtonBackground: Surface0
ButtonBackground_Hovered: Mix(Surface0, Foreground, 0.08)
ButtonBackground_Pressed: Mix(Surface0, Foreground, 0.16)
ButtonBackground_Disabled: Alpha(Surface0, 128)
ButtonText: Contrast(ButtonBackground, #FFFFFFFF, #11111BFF)
ButtonText_Disabled: Overlay0

// Toggles
ToggleOn: AccentBlue
ToggleOn_Hovered_Pressed: Lavender
ToggleOn_Disabled: Opacity(AccentBlue, 0.4)
ToggleOff: Surface2
ToggleOff_Hovered_Pressed: Overlay0
ToggleOff_Disabled: Opacity(Surface2, 0.4)

// Inputs and popups
InputBackground: Mantle
InputBackground_Hovered: Crust
InputBackground_Disabled: Opacity(Mantle, 0.6)
DropdownBackground: Mantle
DropdownBackground_Hovered: Surface0
DropdownBackground_Open: Crust
Scrollbar: Alpha(Overlay0, 160)
Scrollbar_Hovered: Shade(Overlay0, 24)
Scrollbar_Pressed: Lighten(Overlay0, 0.2)
Tooltip: Crust

// Semantic colors
Success: AccentGreen
Warning: AccentYellow
Error: AccentRed
"

def highContrastText : String :=
  "// flipdef high contrast theme
// Maximum luminance separation between text and surfaces.

[Dark]
Paper: #000000FF
Ink: #FFFFFFFF
Highlight: #FFFF00FF
Caution: #FFB000FF
Danger: #FF4040FF
Good: #40FF40FF

[Light]
Paper: #FFFFFFFF
Ink: #000000FF
Highlight: #0033CCFF
Caution: #8A5A00FF
Danger: #B00000FF
Good: #006B00FF

[All]
Background: Paper
Text: Ink
TextDim: Mix(Ink, Paper, 0.25)
Border: Ink
Accent: Highlight
Selected: Highlight
Selected_Hovered: Mix(Highlight, Ink, 0.2)

ButtonBackground: Paper
ButtonBackground_Hovered_Pressed: Highlight
ButtonBackground_Disabled: Mix(Paper, Ink, 0.3)
ButtonText: Ink
ButtonText_Disabled: Mix(Ink, Paper, 0.5)

ToggleOn: Highlight
ToggleOn_Disabled: Mix(Highlight, Paper, 0.5)
ToggleOff: Mix(Paper, Ink, 0.5)

InputBackground: Paper
InputBackground_Hovered: Mix(Paper, Ink, 0.1)
DropdownBackground: Paper
DropdownBackground_Open: Mix(Paper, Highlight, 0.15)
Scrollbar: Ink
Scrollbar_Hovered_Pressed: Highlight
Tooltip: Ink

Success: Good
Warning: Caution
Error: Danger
"

def text : Preset → String
  | catppuccin => catppuccinText
  | highContrast => highContrastText

def definition (preset : Preset) : Except ParseError (Definition × Outcome) :=
  Definition.parse preset.text

end Preset

end ColorTheme
