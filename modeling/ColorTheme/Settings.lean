import ColorTheme.Mode
import ColorTheme.Preset
import ColorTheme.Toml
/-! # Settings

The settings file names a base theme, an override and a mode in its table `theme`. Whatever it
leaves out has a default; keys that mean nothing are passed over. -/
namespace ColorTheme

structure Settings where
  /-- The theme file to start from; the preset is used when there is none. -/
  base : Option String
  /-- The built-in theme to start from. -/
  preset : String
  overlay : Option String
  mode : Mode
  deriving DecidableEq, Repr

inductive SettingsError where
  | malformed
  | wrongType (key : String)
  | unknownMode (text : String)
  deriving DecidableEq, Repr

namespace SettingsError

/-- What the error says besides its place in the document. -/
def message? : SettingsError → Option String
  | unknownMode text => some (Mode.targetMessage text)
  | _ => none

end SettingsError

namespace Settings

def standard : Settings := ⟨none, Preset.standard.id, none, .dark⟩

/-- The fields that mean something, in the order in which an array gives their values. -/
def order : List String := ["base", "preset", "override", "mode"]

def putText (s : Settings) (text : String) : String → Except SettingsError Settings
  | "base" => .ok { s with base := some text }
  | "preset" => .ok { s with preset := text }
  | "override" => .ok { s with overlay := some text }
  | _ =>
    match Mode.target? text.toList with
    | some mode => .ok { s with mode }
    | none => .error (.unknownMode text)

def put (s : Settings) (key : String) (node : Toml.Node) : Except SettingsError Settings :=
  if order.contains key then
    match node with
    | .text text => s.putText text key
    | _ => .error (.wrongType key)
  else .ok s

/-- Takes the table `theme` over, field by field. An array stands for a table too, and a moment
for one without any field that means something. -/
def ofFields (fields : Toml.Fields) : Except SettingsError Settings :=
  let putAll (inner : Toml.Fields) := inner.foldlM (fun s (key, node) => s.put key node) standard
  match fields.lookup "theme" with
  | none => .ok standard
  | some (.table _ inner) => putAll inner.reverse
  | some (.array items) => putAll (order.zip items)
  | some .moment => .ok standard
  | some _ => .error (.wrongType "theme")

def parse (text : String) : Except SettingsError Settings :=
  match Toml.read text with
  | none => .error .malformed
  | some fields => ofFields fields

end Settings

end ColorTheme
