import Mathlib
import ColorTheme.Proofs.Decoding
import ColorTheme.Proofs.Relisting
/-! # The two forms of a table agree

A table is written as lines or as JSON. What the JSON text says, read by the names of its fields and
of slots, states and modes, is what the lines say, cell by cell. -/
namespace ColorTheme

namespace Json

/-- The value of the one field with a name. -/
def field? (name : String) : Json → Option Json
  | object fields =>
    match fields.filter fun field => field.1 = name with
    | [(_, j)] => some j
    | _ => none
  | _ => none

def items? : Json → Option (List Json)
  | array items => some items
  | _ => none

def text? : Json → Option String
  | text s => some s
  | _ => none

def textField? (name : String) (j : Json) : Option String := (j.field? name).bind text?

end Json

structure ExportedCell where
  slot : Slot
  state : State
  color : String

structure ExportedTable where
  mode : Mode
  cells : List ExportedCell

def ExportedCell.ofJson? (j : Json) : Option ExportedCell := do
  let slot ← (j.textField? "slot").bind Slot.ofName?
  let state ← (j.textField? "state").bind State.ofName?
  let color ← j.textField? "color"
  return ⟨slot, state, color⟩

def ExportedTable.ofJson? (j : Json) : Option ExportedTable := do
  let mode ← (j.textField? "mode").bind Mode.ofLowerName?
  let items ← (j.field? "cells").bind Json.items?
  let cells ← items.mapM ExportedCell.ofJson?
  return ⟨mode, cells⟩

theorem Slot.ofName?_name (slot : Slot) : ofName? slot.name = some slot := by
  cases slot <;> decide

theorem State.ofName?_name (state : State) : ofName? state.name = some state := by
  cases state <;> decide

theorem Mode.ofLowerName?_lowerName (mode : Mode) : ofLowerName? mode.lowerName = some mode := by
  cases mode <;> decide

/-- A cell and its color, as the JSON text has them. -/
def cellJson : Slot × State × Color → Json
  | (slot, state, c) => .object
    [("slot", .text slot.name), ("state", .text state.name), ("color", .text c.hexText)]

def exportedCell : Slot × State × Color → ExportedCell
  | (slot, state, c) => ⟨slot, state, c.hexText⟩

theorem ofJson?_cellJson (cell : Slot × State × Color) :
    ExportedCell.ofJson? (cellJson cell) = some (exportedCell cell) := by
  simp [cellJson, exportedCell, ExportedCell.ofJson?, Json.textField?, Json.field?, Json.text?,
    Slot.ofName?_name, State.ofName?_name]

theorem mapM_ofJson?_cellJson (cells : List (Slot × State × Color)) :
    (cells.map cellJson).mapM ExportedCell.ofJson? = some (cells.map exportedCell) := by
  induction cells with
  | nil => rfl
  | cons cell cells ih => simp [ofJson?_cellJson, ih]

namespace Table

/-- What a table has to say in either form. -/
def exported (t : Table) : ExportedTable := ⟨t.mode, t.cells.map exportedCell⟩

theorem toJson_eq (t : Table) : t.toJson =
    .object [("mode", .text t.mode.lowerName), ("cells", .array (t.cells.map cellJson))] := rfl

theorem ofJson?_toJson (t : Table) : ExportedTable.ofJson? t.toJson = some t.exported := by
  simp [toJson_eq, exported, ExportedTable.ofJson?, Json.textField?, Json.field?, Json.text?,
    Json.items?, Mode.ofLowerName?_lowerName, mapM_ofJson?_cellJson, -List.mapM_map]

theorem decode?_jsonListing (t : Table) : Json.decode? t.jsonListing.toList = some t.toJson := by
  rw [jsonListing, String.toList_append]
  exact Json.decode?_pretty t.toJson (by simp [Json.isSpace])

theorem cells_exported (t : Table) : t.exported.cells =
    Slot.cells.map fun (slot, state) => ⟨slot, state, (t.grid.cell slot state).hexText⟩ := by
  simp [exported, cells, exportedCell, Function.comp_def]

theorem count_cells (slot : Slot) (state : State) :
    Slot.cells.count (slot, state) = if slot.supports state then 1 else 0 := by
  have nodup : Slot.cells.Nodup := by decide +kernel
  by_cases h : slot.supports state = true
  · rw [if_pos h, List.count_eq_one_of_mem nodup (Slot.mem_cells.2 h)]
  · rw [if_neg h, List.count_eq_zero_of_not_mem fun hm => h (Slot.mem_cells.1 hm)]

theorem countP_exported (t : Table) (slot : Slot) (state : State) :
    t.exported.cells.countP (fun cell => cell.slot = slot ∧ cell.state = state) =
      if slot.supports state then 1 else 0 := by
  rw [← count_cells, cells_exported, List.countP_map, List.count]
  apply List.countP_congr
  rintro ⟨slot', state'⟩ -
  simp

theorem lines_eq_exported (t : Table) :
    Text.lines t.listing.toList = t.exported.cells.map fun cell =>
      (cellName cell.slot cell.state ++ ": " ++ cell.color).toList := by
  rw [lines_listing, cellLines, exported, List.map_map]
  apply List.map_congr_left
  rintro ⟨slot, state, c⟩ -
  simp [cellLine, exportedCell, Color.hexText_toList]

theorem get?_of_mem_exported {t : Table} {cell : ExportedCell} (h : cell ∈ t.exported.cells) :
    (t.get? cell.slot cell.state).map Color.hexText = some cell.color := by
  rw [cells_exported] at h
  obtain ⟨⟨slot, state⟩, hm, rfl⟩ := List.mem_map.1 h
  simp [get?, Slot.mem_cells.1 hm]

/-- The JSON text of a table is an object that names the mode and has a cell for every line of the
listing, in the same order and with what the line shows, which is the color of the cell. Every slot
occurs once in every state that it is colored for, and in no other. -/
theorem jsonListing_agrees (t : Table) : ∃ fields, ∃ table : ExportedTable,
    Json.decode? t.jsonListing.toList = some (.object fields) ∧
    ExportedTable.ofJson? (.object fields) = some table ∧ table.mode = t.mode ∧
    table.cells.length = (Text.lines t.listing.toList).length ∧
    (∀ (i : ℕ) (cell : ExportedCell), table.cells[i]? = some cell →
      (Text.lines t.listing.toList)[i]? =
        some (cellName cell.slot cell.state ++ ": " ++ cell.color).toList ∧
      (t.get? cell.slot cell.state).map Color.hexText = some cell.color) ∧
    ∀ slot state, table.cells.countP (fun cell => cell.slot = slot ∧ cell.state = state) =
      if slot.supports state then 1 else 0 := by
  refine ⟨_, t.exported, t.decode?_jsonListing, t.ofJson?_toJson, rfl, ?_, fun i cell hi => ?_,
    t.countP_exported⟩
  · rw [lines_eq_exported, List.length_map]
  · refine ⟨?_, get?_of_mem_exported (List.mem_of_getElem? hi)⟩
    rw [lines_eq_exported, List.getElem?_map, hi, Option.map_some]

end Table

end ColorTheme
