import ColorTheme.Color
import ColorTheme.Mode
import ColorTheme.Slot
/-! # Color tables

A table is the result of baking a theme for one mode: a color for every slot and state that a theme
must fill. The grid below it is dense; cells that need no color stay transparent and are not
shown. -/
namespace ColorTheme

/-- A row for every slot and a column for every state. -/
structure Grid where
  rows : Vector (Vector Color State.count) Slot.count
  deriving DecidableEq, Repr

namespace Grid

def blank : Grid := ⟨Vector.replicate _ (Vector.replicate _ .transparent)⟩

def cell (g : Grid) (slot : Slot) (state : State) : Color := g.rows[slot.index][state.index]

def put (g : Grid) (slot : Slot) (state : State) (c : Color) : Grid :=
  ⟨g.rows.set slot.index (g.rows[slot.index].set state.index c)⟩

theorem cell_put_self (g : Grid) (slot : Slot) (state : State) (c : Color) :
    (g.put slot state c).cell slot state = c := by simp [cell, put]

theorem cell_put_of_ne (g : Grid) {slot slot' : Slot} {state state' : State} (c : Color)
    (h : (slot, state) ≠ (slot', state')) :
    (g.put slot state c).cell slot' state' = g.cell slot' state' := by
  by_cases hs : slot = slot'
  · subst hs
    have ht : state.index ≠ state'.index := fun he => h (by rw [State.index_injective he])
    have ht : state.index.val ≠ state'.index.val := fun he => ht (Fin.ext he)
    simp [cell, put, ht]
  · have hs : slot.index ≠ slot'.index := fun he => hs (Slot.index_injective he)
    have hs : slot.index.val ≠ slot'.index.val := fun he => hs (Fin.ext he)
    simp [cell, put, hs]

end Grid

structure Table where
  mode : Mode
  grid : Grid
  deriving DecidableEq, Repr

namespace Table

/-- The color of a slot and a state that a theme must fill. -/
def get? (t : Table) (slot : Slot) (state : State) : Option Color :=
  if slot.supports state then some (t.grid.cell slot state) else none

/-- The color of a slot as it is seen in a state: that of the state itself, of `any` or of
`default`, whichever is filled first. -/
def get (t : Table) (slot : Slot) (state : State) : Color :=
  ([state, .any, .default].findSome? (t.get? slot)).getD .transparent

/-- Every filled slot and state with its color, in table order. -/
def cells (t : Table) : List (Slot × State × Color) :=
  Slot.cells.map fun (slot, state) => (slot, state, t.grid.cell slot state)

def palette : Vector Color 10 :=
  #v[.rgb 0.90 0.10 0.10, .rgb 0.10 0.75 0.20, .rgb 0.15 0.35 0.95, .rgb 0.95 0.85 0.10,
     .rgb 0.10 0.85 0.85, .rgb 0.85 0.15 0.85, .rgb 1.00 0.55 0.00, .rgb 0.55 0.25 0.90,
     .rgb 0.95 0.95 0.95, .rgb 0.20 0.20 0.20]

/-- Neighbouring cells get different colors of the palette. -/
def debugColor (slot : Slot) (state : State) : Color :=
  palette[Fin.ofNat 10 (slot.index + state.index)]

/-- The table of the mode `debug`, which no theme has a say in. -/
def debug : Table where
  mode := .debug
  grid := Slot.filled.foldl (fun grid slot =>
    State.every.foldl (fun grid state => grid.put slot state (debugColor slot state)) grid) .blank

end Table

end ColorTheme
