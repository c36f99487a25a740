import ColorTheme.Text
/-! # Presentation modes

A theme is baked for one mode. An entry belongs to one mode, or to all of them. -/
namespace ColorTheme

inductive Mode where
  | all
  | dark
  | light
  | debug
  deriving DecidableEq, Hashable, Repr

namespace Mode

def every : List Mode := [all, dark, light, debug]

def name : Mode → String
  | all => "All"
  | dark => "Dark"
  | light => "Light"
  | debug => "Debug"

/-- The name in lower case, as data formats spell it. -/
def lowerName : Mode → String
  | all => "all"
  | dark => "dark"
  | light => "light"
  | debug => "debug"

/-- The mode that a text names; white space around it and letter case do not matter. -/
def ofName? (s : List Char) : Option Mode :=
  every.find? fun mode => Text.sameLetters mode.name.toList (Text.trim s)

def ofLowerName? (s : String) : Option Mode := every.find? fun mode => mode.lowerName = s

/-- Whether an entry that belongs to `mode` takes part when a theme is baked for `target`. -/
def appliesTo (mode target : Mode) : Bool := mode == target || mode == all

/-- The modes that a theme is asked for by name; `all` is not one of them. -/
def target? (s : List Char) : Option Mode := (ofName? s).filter (· != all)

def targetMessage (text : String) : String := s!"expected dark, light or debug, got `{text}`"

theorem name_injective {a b : Mode} (h : a.name = b.name) : a = b := by
  revert h; cases a <;> cases b <;> decide

end Mode

end ColorTheme
