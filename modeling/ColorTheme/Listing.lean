import ColorTheme.Json
import ColorTheme.Reference
import ColorTheme.Table
/-! # Listings

A color table as lines of a theme file or as JSON, and the list of the slots with their states. -/
namespace ColorTheme

/-- The name of a cell, as a theme file writes it. -/
def cellName (slot : Slot) (state : State) : String := (Reference.mk slot.name state).text

namespace Table

def lines (t : Table) : List String :=
  t.cells.map fun (slot, state, c) => cellName slot state ++ ": " ++ c.hexText

def listing (t : Table) : String := String.join (t.lines.map (· ++ "\n"))

def toJson (t : Table) : Json :=
  .object [
    ("mode", .text t.mode.lowerName),
    ("cells", .array (t.cells.map fun (slot, state, c) =>
      .object [
        ("slot", .text slot.name),
        ("state", .text state.name),
        ("color", .text c.hexText)]))]

def jsonListing (t : Table) : String := t.toJson.pretty ++ "\n"

end Table

namespace Slot

/-- Fills a name up to twenty characters. -/
def padded (name : String) : String := name ++ "".pushn ' ' (20 - name.length)

def line (slot : Slot) : String :=
  padded slot.name ++ " " ++ ", ".intercalate (slot.states.map State.name)

def listing : String := String.join (filled.map fun slot => slot.line ++ "\n")

end Slot

end ColorTheme
