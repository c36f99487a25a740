import ColorTheme.State
/-! # Color slots

The places of a user interface that a theme colors, and the states each of them is colored for.
`unassigned` is no place: it is never filled and no name stands for it. -/
namespace ColorTheme

inductive Slot where
  | unassigned
  | background
  | text
  | textDim
  | border
  | accent
  | selected
  | buttonBackground
  | buttonText
  | toggleOn
  | toggleOff
  | inputBackground
  | dropdownBackground
  | scrollbar
  | tooltip
  | success
  | warning
  | error
  deriving DecidableEq, Repr

namespace Slot

def every : List Slot :=
  [unassigned, background, text, textDim, border, accent, selected, buttonBackground, buttonText,
   toggleOn, toggleOff, inputBackground, dropdownBackground, scrollbar, tooltip, success, warning,
   error]

/-- The slots that a theme fills, in table order. -/
def filled : List Slot := every.drop 1

def count : Nat := 18

def index (slot : Slot) : Fin count := ⟨slot.ctorIdx, by cases slot <;> decide⟩

/-- The name, which is also the key of the slot in theme files. -/
def name : Slot → String
  | unassigned => "None"
  | background => "Background"
  | text => "Text"
  | textDim => "TextDim"
  | border => "Border"
  | accent => "Accent"
  | selected => "Selected"
  | buttonBackground => "ButtonBackground"
  | buttonText => "ButtonText"
  | toggleOn => "ToggleOn"
  | toggleOff => "ToggleOff"
  | inputBackground => "InputBackground"
  | dropdownBackground => "DropdownBackground"
  | scrollbar => "Scrollbar"
  | tooltip => "Tooltip"
  | success => "Success"
  | warning => "Warning"
  | error => "Error"

def ofKey? (key : String) : Option Slot := filled.find? fun slot => slot.name = key

def ofName? (s : String) : Option Slot := every.find? fun slot => slot.name = s

/-- The states that a theme must color the slot for. -/
def states : Slot → List State
  | unassigned => []
  | background | text | textDim | border | accent | tooltip | success | warning | error => [.any]
  | selected => [.default, .hovered]
  | buttonBackground | toggleOn | toggleOff => [.default, .hovered, .pressed, .disabled]
  | buttonText => [.default, .disabled]
  | inputBackground => [.default, .hovered, .disabled]
  | dropdownBackground => [.default, .hovered, .opened]
  | scrollbar => [.default, .hovered, .pressed]

def supports (slot : Slot) (state : State) : Bool := slot.states.contains state

/-- Every slot and state that a theme must color, in table order. -/
def cells : List (Slot × State) :=
  filled.flatMap fun slot => slot.states.map fun state => (slot, state)

theorem mem_every (slot : Slot) : slot ∈ every := by cases slot <;> decide

theorem index_injective {a b : Slot} (h : a.index = b.index) : a = b := by
  revert h; cases a <;> cases b <;> decide

theorem mem_filled {slot : Slot} : slot ∈ filled ↔ slot ≠ unassigned := by cases slot <;> decide

theorem ofKey?_name {slot : Slot} (h : slot ≠ unassigned) : ofKey? slot.name = some slot := by
  revert h; cases slot <;> decide

theorem mem_cells {slot : Slot} {state : State} :
    (slot, state) ∈ cells ↔ slot.supports state = true := by
  cases slot <;> cases state <;> decide

end Slot

end ColorTheme
