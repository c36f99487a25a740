import ColorTheme.Bake
import ColorTheme.Preset
/-! # The active theme

A base theme, an override that may be laid over it, a mode, and the table that was baked last. An
operation that fails leaves all of it as it was. -/
namespace ColorTheme

inductive ThemeError where
  | parse (error : ParseError)
  | bake (error : BakeError)
  deriving DecidableEq, Repr

namespace ThemeError

def message : ThemeError → String
  | parse e => e.message
  | bake e => e.message

end ThemeError

structure Active where
  base : Definition
  /-- The base, with the override over it if there is one. -/
  combined : Definition
  overrideText : Option String
  mode : Mode
  table : Table

namespace Active

def start (base : Definition) (mode : Mode) : Except BakeError Active :=
  (base.bake mode).map fun table => ⟨base, base, none, mode, table⟩

def startRead (mode : Mode) : Except ParseError (Definition × Outcome) → Except ThemeError Active
  | .error e => .error (.parse e)
  | .ok (base, _) => (start base mode).mapError .bake

/-- Starts from the standard built-in theme. -/
def builtin (mode : Mode) : Except ThemeError Active :=
  startRead mode Preset.standard.definition

def setMode (a : Active) (mode : Mode) : Active × Except BakeError Unit :=
  if a.mode = mode then (a, .ok ())
  else
    match a.combined.bake mode with
    | .error e => (a, .error e)
    | .ok table => ({ a with mode, table }, .ok ())

/-- Lays a theme text over the base in place of the current override. -/
def applyOverride (a : Active) (text : String) : Active × Except ThemeError Outcome :=
  match Definition.parse text with
  | .error e => (a, .error (.parse e))
  | .ok (overlay, outcome) =>
    let combined := a.base.combine overlay
    match combined.bake a.mode with
    | .error e => (a, .error (.bake e))
    | .ok table => ({ a with combined, overrideText := some text, table }, .ok outcome)

def clearOverride (a : Active) : Active × Except BakeError Unit :=
  if a.overrideText.isNone then (a, .ok ())
  else
    match a.base.bake a.mode with
    | .error e => (a, .error e)
    | .ok table => ({ a with combined := a.base, overrideText := none, table }, .ok ())

def color (a : Active) (slot : Slot) (state : State) : Color := a.table.get slot state

end Active

/-- A place for the one theme that a whole program shares; the first theme put in stays. -/
structure Shared where
  theme : Option Active

namespace Shared

def vacant : Shared := ⟨none⟩

/-- Puts a theme in and tells whether the place was vacant. -/
def install (s : Shared) (a : Active) : Shared × Bool :=
  match s.theme with
  | none => (⟨some a⟩, true)
  | some _ => (s, false)

end Shared

end ColorTheme
