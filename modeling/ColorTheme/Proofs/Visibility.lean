import Mathlib
import ColorTheme.Proofs.Grounding
/-! # What is seen of a table

The grid of a table has a cell for every slot and state, but only the cells of the states that a
slot is colored for are ever written. No way of reading the table reaches any other cell, so what is
seen always comes from an entry, or from the palette in the mode `debug`. -/
namespace ColorTheme

namespace Slot

/-- The state in whose color a slot is seen: the given one, `any` or `default`, whichever the slot
is colored for first. -/
def shownAs? (slot : Slot) (state : State) : Option State :=
  [state, .any, .default].find? slot.supports

theorem supports_any_or_default {slot : Slot} (h : slot ≠ unassigned) :
    slot.supports .any = true ∨ slot.supports .default = true := by
  revert h
  cases slot <;> decide

theorem exists_shownAs {slot : Slot} (h : slot ≠ unassigned) (state : State) :
    ∃ shown, slot.shownAs? state = some shown := by
  rw [← Option.isSome_iff_exists, shownAs?, List.find?_isSome]
  rcases supports_any_or_default h with hs | hs
  · exact ⟨.any, by simp, hs⟩
  · exact ⟨.default, by simp, hs⟩

theorem supports_of_shownAs {slot : Slot} {state shown : State}
    (h : slot.shownAs? state = some shown) : slot.supports shown = true := List.find?_some h

/-- In table order a cell stands before another by its slot, and by its state in the same slot. -/
def Before (x y : Slot × State) : Prop :=
  x.1.index < y.1.index ∨ x.1 = y.1 ∧ x.2.index < y.2.index

instance (x y : Slot × State) : Decidable (Before x y) := inferInstanceAs (Decidable (_ ∨ _))

theorem cells_ordered : cells.Pairwise Before := by decide

end Slot

namespace Grid

/-- Putting a color into each of some cells leaves the others as they were. -/
theorem cell_foldl_put (f : Slot → State → Color) (cells : List (Slot × State)) (g : Grid)
    (slot : Slot) (state : State) :
    (cells.foldl (fun g x => g.put x.1 x.2 (f x.1 x.2)) g).cell slot state =
      if (slot, state) ∈ cells then f slot state else g.cell slot state := by
  induction cells generalizing g with
  | nil => simp
  | cons x cells ih =>
    rw [List.foldl_cons, ih]
    by_cases hx : x = (slot, state)
    · subst hx
      simp [cell_put_self]
    · have hput := g.cell_put_of_ne (f x.1 x.2) hx
      simp [hput, Ne.symm hx]

end Grid

namespace Table

variable {t : Table} {slot : Slot} {state : State} {c : Color}

theorem get?_eq_some_iff_cell :
    t.get? slot state = some c ↔ slot.supports state = true ∧ t.grid.cell slot state = c := by
  simp [get?]

theorem findSome?_get? (t : Table) (slot : Slot) (states : List State) :
    states.findSome? (t.get? slot) = (states.find? slot.supports).map (t.grid.cell slot) := by
  induction states with
  | nil => rfl
  | cons state states ih =>
    by_cases hs : slot.supports state = true
    · simp [get?, hs]
    · simp [get?, hs, ih]

theorem get_eq_cell {shown : State} (h : slot.shownAs? state = some shown) :
    t.get slot state = t.grid.cell slot shown := by
  rw [get, findSome?_get?, ← Slot.shownAs?, h]
  rfl

theorem mem_cells_iff : (slot, state, c) ∈ t.cells ↔ t.get? slot state = some c := by
  rw [get?_eq_some_iff_cell, ← Slot.mem_cells]
  simp [cells]

theorem cells_map (t : Table) : t.cells.map (fun x => (x.1, x.2.1)) = Slot.cells := by
  simp [cells, Function.comp_def]

section Filler

variable {grid : Grid} (same : ∀ slot state, slot.supports state = true →
  grid.cell slot state = t.grid.cell slot state)
include same

theorem get?_eq_of_same : (⟨t.mode, grid⟩ : Table).get? = t.get? := by
  funext slot state
  by_cases hs : slot.supports state = true
  · simp [get?, hs, same slot state hs]
  · simp [get?, hs]

theorem get_eq_of_same : (⟨t.mode, grid⟩ : Table).get = t.get := by
  funext slot state
  rw [get, get, get?_eq_of_same same]

theorem cells_eq_of_same : (⟨t.mode, grid⟩ : Table).cells = t.cells := by
  apply List.map_congr_left
  rintro ⟨slot, state⟩ hx
  simp only [same slot state (Slot.mem_cells.1 hx)]

end Filler

theorem debugColor_mem_palette (slot : Slot) (state : State) :
    debugColor slot state ∈ palette := Vector.getElem_mem _

theorem ne_transparent_of_mem_palette (h : c ∈ palette) : c ≠ .transparent := by
  have hall : ∀ c ∈ palette.toList, c ≠ .transparent := by decide
  exact hall c (Vector.mem_toList_iff.2 h)

theorem debug_cell (h : slot ≠ .unassigned) (state : State) :
    debug.grid.cell slot state = debugColor slot state := by
  have hgrid : debug.grid = (Slot.filled.flatMap fun slot => State.every.map (Prod.mk slot)).foldl
      (fun g x => g.put x.1 x.2 (debugColor x.1 x.2)) .blank := by
    simp [debug, List.foldl_flatMap, List.foldl_map]
  have hmem : (slot, state) ∈ Slot.filled.flatMap fun slot => State.every.map (Prod.mk slot) := by
    simp [Slot.mem_filled.2 h, State.mem_every]
  rw [hgrid, Grid.cell_foldl_put, if_pos hmem]

end Table

namespace Definition

variable {d : Definition} {mode : Mode}

/-- The color that a bake for the mode gives to a cell: the one of the entry that the cell finds, or
in the mode `debug` one of the palette. -/
structure Paints (d : Definition) (mode : Mode) (slot : Slot) (state : State) (c : Color) :
    Prop where
  entry : mode ≠ .debug → ∃ i, d.find? mode state slot.name = some i ∧ d.Denotes mode i c
  palette : mode = .debug → c ∈ Table.palette ∧ c ≠ .transparent

theorem paints_debugColor (slot : Slot) (state : State) :
    d.Paints .debug slot state (Table.debugColor slot state) where
  entry h := absurd rfl h
  palette _ :=
    have hmem := Table.debugColor_mem_palette slot state
    ⟨hmem, Table.ne_transparent_of_mem_palette hmem⟩

theorem paints_cell (hd : d.Indexed) {t : Table} (h : d.bake mode = .ok t) {slot : Slot}
    {state : State} (hs : slot.supports state = true) :
    d.Paints mode slot state (t.grid.cell slot state) := by
  by_cases hm : mode = .debug
  · subst hm
    rw [bake_debug] at h
    cases h
    rw [Table.debug_cell (Slot.ne_unassigned_of_mem_cells (Slot.mem_cells.2 hs))]
    exact paints_debugColor slot state
  · obtain ⟨-, -, grid, rfl, pictures⟩ := of_bake_eq_ok hd hm h
    exact ⟨fun _ => pictures.cell slot state hs, fun he => absurd he hm⟩

/-- Whatever way a baked table is read, it shows the color that the bake gave to a cell that has to
be filled: `get?` that of the asked cell, `get` that of the state in which the slot is seen, and the
list of the cells that of each cell, in table order. Other cells could hold anything. -/
theorem paints_of_bake (hd : d.Built) {t : Table} (h : d.bake mode = .ok t) :
    (∀ slot : Slot, slot ≠ .unassigned → ∀ state, ∃ shown, slot.shownAs? state = some shown ∧
      slot.supports shown = true ∧ d.Paints mode slot shown (t.get slot state)) ∧
    (∀ slot state c, t.get? slot state = some c →
      slot.supports state = true ∧ d.Paints mode slot state c) ∧
    (∀ slot state c, (slot, state, c) ∈ t.cells ↔ t.get? slot state = some c) ∧
    (t.cells.map fun x => (x.1, x.2.1)).Pairwise Slot.Before ∧
    ∀ grid : Grid, (∀ slot state, slot.supports state = true →
        grid.cell slot state = t.grid.cell slot state) →
      (⟨t.mode, grid⟩ : Table).get = t.get ∧ (⟨t.mode, grid⟩ : Table).get? = t.get? ∧
        (⟨t.mode, grid⟩ : Table).cells = t.cells := by
  refine ⟨fun slot hslot state => ?_, fun slot state c hc => ?_, fun _ _ _ => Table.mem_cells_iff,
    ?_, fun grid same => ?_⟩
  · obtain ⟨shown, hshown⟩ := Slot.exists_shownAs hslot state
    have hs := Slot.supports_of_shownAs hshown
    rw [Table.get_eq_cell hshown]
    exact ⟨shown, hshown, hs, paints_cell hd.indexed h hs⟩
  · obtain ⟨hs, rfl⟩ := Table.get?_eq_some_iff_cell.1 hc
    exact ⟨hs, paints_cell hd.indexed h hs⟩
  · rw [Table.cells_map]
    exact Slot.cells_ordered
  · exact ⟨Table.get_eq_of_same same, Table.get?_eq_of_same same, Table.cells_eq_of_same same⟩

/-- Every cell has a literal of its own, a transparent one for all slots but one. -/
def lacquered : Definition := ofEntries <| Slot.cells.map fun (slot, state) =>
  ⟨slot.name, .all, state, .color (if slot = .selected then .orange else .transparent)⟩

/-- A slot that is not colored for being pressed is seen in its default color, whatever the grid
holds for being pressed. In the mode `debug` no definition is needed for it to have a color. -/
theorem paints_lacquered : lacquered.Built ∧ ∃ t, lacquered.bake .dark = .ok t ∧
    Slot.selected ≠ .unassigned ∧ Slot.selected.supports .pressed = false ∧
    t.get .selected .pressed = .orange ∧
    (⟨t.mode, t.grid.put .selected .pressed .white⟩ : Table).get = t.get ∧
    Definition.empty.bake .debug = .ok .debug ∧
    Table.debug.get .selected .pressed ≠ .transparent := by
  have hb : lacquered.Built := built_ofEntries (by decide)
  have hgrounded : Grounded .dark lacquered.entries.toList := by decide +kernel
  have hfurnished : Furnished .dark lacquered.entries.toList := by decide +kernel
  obtain ⟨t, ht⟩ := hgrounded.exists_bake hb.indexed hfurnished
  obtain ⟨hget, -, -, -, hunseen⟩ := paints_of_bake hb ht
  obtain ⟨hdebug, -⟩ := paints_of_bake .empty (bake_debug .empty)
  refine ⟨hb, t, ht, by decide, by decide, ?_, ?_, bake_debug _, ?_⟩
  · obtain ⟨shown, hshown, -, hpaints⟩ := hget .selected (by decide) .pressed
    obtain rfl : shown = .default := by
      have hdefault : Slot.selected.shownAs? .pressed = some .default := by decide
      exact Option.some.inj (hshown.symm.trans hdefault)
    obtain ⟨i, hi, hc⟩ := hpaints.entry (by decide)
    have hfind : lacquered.find? .dark .default Slot.selected.name = some 5 := by
      rw [hb.indexed.find?_eq]
      decide +kernel
    cases hi.symm.trans hfind
    exact hc.eq_of_literal (e := ⟨"Selected", .all, .default, .color .orange⟩) rfl rfl
  · refine (hunseen _ fun slot state hs => Grid.cell_put_of_ne _ _ ?_).1
    rintro ⟨⟩
    exact absurd hs (by decide)
  · obtain ⟨shown, -, -, hpaints⟩ := hdebug .selected (by decide) .pressed
    exact (hpaints.palette rfl).2

end Definition

end ColorTheme
