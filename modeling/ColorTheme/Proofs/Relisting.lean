import Mathlib
import ColorTheme.Listing
import ColorTheme.Proofs.Baking
import ColorTheme.Proofs.EightBit
import ColorTheme.Proofs.Layout
import ColorTheme.Proofs.Reading
/-! # Listings read back

The listing of a table is a theme text of its own: it reads without a fault or a repetition, it
bakes for every mode but `debug` with nothing left unused, and its table has the colors that the
listing shows and the same listing. -/
namespace ColorTheme

open Text

namespace Slot

theorem eq_of_name_eq {a b : Slot} (ha : a ≠ unassigned) (hb : b ≠ unassigned)
    (h : a.name = b.name) : a = b := by
  have hs := ofKey?_name ha
  rw [h, ofKey?_name hb] at hs
  exact (Option.some.inj hs).symm

/-- A slot that is colored for any state is not colored for a state of its own. -/
theorem eq_any_of_supports {slot : Slot} {state : State} (h : slot.supports state = true)
    (ha : slot.supports .any = true) : state = .any := by
  have hall : ∀ slot ∈ every, slot.supports .any = true → ∀ state ∈ State.every,
      slot.supports state = true → state = .any := by decide
  exact hall slot (mem_every slot) ha state (State.mem_every state) h

end Slot

/-- The name of a cell is a key, short enough, that stands for the slot in just that state. -/
theorem cellName_facts {slot : Slot} {state : State} (h : (slot, state) ∈ Slot.cells) :
    isName (cellName slot state).toList = true ∧
      byteLength (cellName slot state).toList ≤ maxKeyBytes ∧
      Reference.expandKey (cellName slot state).toList = (slot.name.toList, [state]) := by
  have hall : ∀ cell ∈ Slot.cells, isName (cellName cell.1 cell.2).toList = true ∧
      byteLength (cellName cell.1 cell.2).toList ≤ maxKeyBytes ∧
      Reference.expandKey (cellName cell.1 cell.2).toList = (cell.1.name.toList, [cell.2]) := by
    decide +kernel
  exact hall _ h

def cellLine (slot : Slot) (state : State) (c : Color) : List Char :=
  (cellName slot state).toList ++ ':' :: ' ' :: c.hexChars

/-- The entry that a line of a listing writes. -/
def cellEntry (mode : Mode) (slot : Slot) (state : State) (c : Color) : Entry :=
  ⟨slot.name, mode, state, .color (.ofPacked c.packed)⟩

theorem Value.read_hexChars (key : List Char) (c : Color) :
    read key c.hexChars = .ok (.color (.ofPacked c.packed)) := by
  rw [read, Color.trim_hexChars]
  simp only [Color.read?_hexChars]

section Line

variable {slot : Slot} {state : State} (h : (slot, state) ∈ Slot.cells) (c : Color)
include h

theorem plain_cellLine : (Line.assignment (cellName slot state).toList c.hexChars).Plain := by
  obtain ⟨hname, hlength, -⟩ := cellName_facts h
  have hslash : '/' ∉ c.hexChars := fun hm => (Color.of_mem_hexChars hm).2.1 rfl
  have hnewline : '\n' ∉ c.hexChars := fun hm => (Color.of_mem_hexChars hm).2.2 rfl
  have hlast : ∀ x ∈ c.hexChars.getLast?, isBlank x = false :=
    fun x hx => (Color.of_mem_hexChars (List.mem_of_mem_getLast? hx)).1
  have hbytes : byteLength c.hexChars ≤ maxValueBytes :=
    (byteLength_le _).trans (by rw [Color.hexChars_length]; decide)
  exact Line.plain_assignment hname hlength (List.cons_ne_nil _ _) (Color.trim_hexChars c)
    (Line.dropComment_eq_self hslash hlast) hbytes hnewline

theorem read_cellLine : Line.read (trim (cellLine slot state c)) =
    .ok (.assignment (cellName slot state).toList c.hexChars) := by
  have plain := plain_cellLine h c
  exact (congrArg Line.read plain.trimmed).trans plain.readBack

theorem directive?_cellLine : Line.directive? (cellLine slot state c) = none := by
  rw [Line.directive?, read_cellLine h]

theorem fault?_cellLine : Line.fault? (cellLine slot state c) = none := by
  rw [Line.fault?, read_cellLine h]
  simp [Value.read_hexChars]

theorem entries_cellLine (mode : Mode) :
    Line.entries mode (cellLine slot state c) = [cellEntry mode slot state c] := by
  rw [Line.entries, read_cellLine h]
  simp [Value.read_hexChars, (cellName_facts h).2.2, cellEntry]

end Line

namespace Table

def cellLines (t : Table) : List (List Char) := t.cells.map fun (slot, state, c) =>
  cellLine slot state c

/-- The entries that a listing writes, one for every cell. -/
def cellEntries (t : Table) : List Entry := t.cells.map fun (slot, state, c) =>
  cellEntry .all slot state c

theorem mem_cellLines {t : Table} {line : List Char} :
    line ∈ t.cellLines ↔ ∃ slot state, (slot, state) ∈ Slot.cells ∧
      line = cellLine slot state (t.grid.cell slot state) := by
  simp [cellLines, cells, eq_comm]

theorem mem_cellEntries {t : Table} {e : Entry} :
    e ∈ t.cellEntries ↔ ∃ slot state, (slot, state) ∈ Slot.cells ∧
      e = cellEntry .all slot state (t.grid.cell slot state) := by
  simp [cellEntries, cells, eq_comm]

theorem listing_toList (t : Table) : t.listing.toList = t.cellLines.flatMap (· ++ ['\n']) := by
  simp [listing, lines, cellLines, cellLine, List.flatMap_map, Color.hexText_toList]

theorem lines_listing (t : Table) : Text.lines t.listing.toList = t.cellLines := by
  rw [listing_toList]
  apply lines_flatMap_of_notMem
  intro l hl
  obtain ⟨slot, state, hm, rfl⟩ := mem_cellLines.1 hl
  exact (plain_cellLine hm _).oneLine

theorem fault?_cellLines (t : Table) : ∀ line ∈ t.cellLines, Line.fault? line = none := by
  intro l hl
  obtain ⟨slot, state, hm, rfl⟩ := mem_cellLines.1 hl
  exact fault?_cellLine hm _

theorem entry_written_listing (t : Table) :
    (Definition.written t.listing).map Written.entry = t.cellEntries := by
  have plain : ∀ line ∈ t.cellLines, Line.directive? line = none := by
    intro l hl
    obtain ⟨slot, state, hm, rfl⟩ := mem_cellLines.1 hl
    exact directive?_cellLine hm _
  rw [Definition.written, lines_listing, Line.entry_writtenBelow [] plain, cellLines,
    cellEntries, cells, List.map_map, List.map_map, List.flatMap_map, List.map_eq_flatMap]
  apply List.flatMap_congr
  rintro ⟨slot, state⟩ hm
  exact entries_cellLine hm _ .all

/-- Every cell has a name of its own. -/
theorem nodup_cellEntries (t : Table) : (t.cellEntries.map Entry.triple).Nodup := by
  have hall : (Slot.cells.map fun cell => (Mode.all, cell.2, cell.1.name)).Nodup := by
    decide +kernel
  simpa [cellEntries, cells, cellEntry, Entry.triple, Function.comp_def] using hall

theorem parse_listing (t : Table) :
    ∃ d, Definition.parse t.listing = .ok (d, ⟨t.cells.length, []⟩) ∧
      d.entries.toList = t.cellEntries := by
  have hwritten := t.entry_written_listing
  have hlength : (Definition.written t.listing).length = t.cells.length := by
    rw [← List.length_map, hwritten, cellEntries, List.length_map]
  have distinct : ((Definition.written t.listing).map fun w => w.entry.triple).Nodup := by
    simpa [← hwritten, Function.comp_def] using t.nodup_cellEntries
  have accepted : ∀ line ∈ Text.lines t.listing.toList, Line.fault? line = none := by
    rw [lines_listing]
    exact t.fault?_cellLines
  obtain ⟨d, hparse, hentries⟩ := Definition.parse_of_distinct accepted distinct
  rw [hlength] at hparse
  exact ⟨d, hparse, hentries.trans hwritten⟩

end Table

namespace Definition

variable {d : Definition} {t : Table} {mode : Mode}

theorem eq_cellEntry (he : d.entries.toList = t.cellEntries) {i : Nat} {e : Entry}
    (h : d.entries[i]? = some e) : ∃ slot state, (slot, state) ∈ Slot.cells ∧
      e = cellEntry .all slot state (t.grid.cell slot state) := by
  apply Table.mem_cellEntries.1
  rw [← he, Array.mem_toList_iff]
  exact Array.mem_of_getElem? h

theorem exists_cellEntry (he : d.entries.toList = t.cellEntries) {slot : Slot} {state : State}
    (h : slot.supports state = true) :
    ∃ i : Nat, d.entries[i]? = some (cellEntry .all slot state (t.grid.cell slot state)) := by
  apply Array.getElem?_of_mem
  rw [← Array.mem_toList_iff, he, Table.mem_cellEntries]
  exact ⟨slot, state, Slot.mem_cells.2 h, rfl⟩

theorem plain_of_cellEntries (he : d.entries.toList = t.cellEntries) : d.Plain mode := by
  intro i e h
  obtain ⟨slot, state, -, rfl⟩ := eq_cellEntry he h.entry
  exact ⟨_, rfl⟩

theorem covered_of_cellEntries (hd : d.Indexed) (he : d.entries.toList = t.cellEntries) :
    d.Covered mode := by
  intro slot _ state hs
  obtain ⟨i, hi⟩ := exists_cellEntry he hs
  exact find?_isSome hd hi (Entry.answers_iff.2 ⟨Or.inr rfl, Or.inl rfl⟩)

theorem idle_of_cellEntries (he : d.entries.toList = t.cellEntries) : d.idle mode = [] := by
  rw [idle, List.filterMap_eq_nil_iff]
  rintro ⟨e, i⟩ hx
  obtain ⟨slot, state, hm, rfl⟩ := eq_cellEntry he (mem_applicable.1 hx).entry
  exact if_pos (Or.inr (Or.inl (Slot.ofKey?_isSome hm)))

/-- A cell finds its own entry: its name leads to no other slot, and a slot that is colored for any
state has just one entry. -/
theorem find?_cellEntry (hd : d.Indexed) (he : d.entries.toList = t.cellEntries) {slot : Slot}
    {state : State} (hs : slot.supports state = true) {i : Nat}
    (hi : d.find? mode state slot.name = some i) :
    d.entries[i]? = some (cellEntry .all slot state (t.grid.cell slot state)) := by
  obtain ⟨e, hc⟩ := closest_of_find? hd hi
  obtain ⟨slot', state', hm, rfl⟩ := eq_cellEntry he hc.entry
  obtain rfl : slot' = slot := Slot.eq_of_name_eq (Slot.ne_unassigned_of_mem_cells hm)
    (Slot.ne_unassigned_of_mem_cells (Slot.mem_cells.2 hs)) hc.key_eq
  -- an entry for any state would answer as well, but then the slot has no other one
  obtain rfl : state' = state := by
    rcases (Entry.answers_iff.1 hc.answers).2 with hst | hst
    · exact hst
    · obtain rfl : state' = .any := hst
      exact (Slot.eq_any_of_supports hs (Slot.mem_cells.1 hm)).symm
  exact hc.entry

theorem cell_of_pictures (hd : d.Indexed) (he : d.entries.toList = t.cellEntries) {grid : Grid}
    (h : d.Pictures mode grid) {slot : Slot} {state : State} (hs : slot.supports state = true) :
    grid.cell slot state = .ofPacked (t.grid.cell slot state).packed := by
  obtain ⟨i, hi, -⟩ := h.cell slot state hs
  exact h.cell_of_literal hs hi (find?_cellEntry hd he hs hi) rfl

end Definition

namespace Table

theorem get?_of_cells {t t' : Table} {f : Color → Color}
    (h : ∀ slot state, slot.supports state = true →
      t'.grid.cell slot state = f (t.grid.cell slot state)) (slot : Slot) (state : State) :
    t'.get? slot state = (t.get? slot state).map f := by
  rw [get?, get?]
  by_cases hs : slot.supports state = true
  · rw [if_pos hs, if_pos hs, h slot state hs, Option.map_some]
  · rw [if_neg hs, if_neg hs, Option.map_none]

/-- Tables whose cells are shown alike have one listing. -/
theorem listing_congr {t t' : Table} (h : ∀ slot state, slot.supports state = true →
    (t'.grid.cell slot state).hexText = (t.grid.cell slot state).hexText) :
    t'.listing = t.listing := by
  have hlines : t'.lines = t.lines := by
    rw [lines, lines, cells, cells, List.map_map, List.map_map]
    apply List.map_congr_left
    rintro ⟨slot, state⟩ hm
    simp only [Function.comp_apply, h slot state (Slot.mem_cells.1 hm)]
  rw [listing, listing, hlines]

/-- The listing of any table is read without a fault or a repetition, an entry for every cell. It
bakes for every mode but `debug`, leaves nothing unused, and shows the same listing again. -/
theorem listing_roundTrip (t : Table) : ∃ d,
    Definition.parse t.listing = .ok (d, ⟨t.cells.length, []⟩) ∧
    d.entries.toList = t.cells.map (fun (slot, state, c) =>
      ⟨slot.name, .all, state, .color (.ofPacked c.packed)⟩) ∧
    ∀ mode, mode ≠ .debug → ∃ t', d.bakeWithReport mode = .ok ⟨t', []⟩ ∧
      (∀ slot state, t'.get? slot state = (t.get? slot state).map fun c => .ofPacked c.packed) ∧
      t'.listing = t.listing := by
  obtain ⟨d, hparse, he⟩ := t.parse_listing
  have hd : d.Indexed := (Definition.Built.of_parse hparse).indexed
  refine ⟨d, hparse, he, fun mode hm => ?_⟩
  have resolved : d.Stuck mode = ∅ := (Definition.plain_of_cellEntries he).stuck_eq_empty hd
  have covered : d.Covered mode := Definition.covered_of_cellEntries hd he
  obtain ⟨grid, pictures, hbake⟩ := Definition.bakeWithReport_eq_ok hd hm resolved covered
  have hcell : ∀ slot state, slot.supports state = true →
      grid.cell slot state = .ofPacked (t.grid.cell slot state).packed :=
    fun _ _ hs => Definition.cell_of_pictures hd he pictures hs
  rw [Definition.idle_of_cellEntries he] at hbake
  refine ⟨⟨mode, grid⟩, hbake, get?_of_cells hcell, listing_congr fun slot state hs => ?_⟩
  rw [hcell slot state hs, Color.hexText_ofPacked_packed]

/-- A table with channels beyond 0 and 1, and one that is no number. -/
def glaring : Table := ⟨.dark, Grid.blank.put .accent .any ⟨2, -1, 0 / 0, 0.5⟩⟩

theorem listing_roundTrip_glaring : Mode.light ≠ .debug ∧ ∃ d t',
    Definition.parse glaring.listing = .ok (d, ⟨34, []⟩) ∧
    d.bakeWithReport .light = .ok ⟨t', []⟩ ∧
    t'.get? .accent .any = some (.ofPacked 0xFF000080) ∧ t'.listing = glaring.listing := by
  obtain ⟨d, hparse, -, hbake⟩ := listing_roundTrip glaring
  obtain ⟨t', hok, hget, hlisting⟩ := hbake .light (by decide)
  have hcolor : (glaring.get? .accent .any).map (fun c => Color.ofPacked c.packed) =
      some (.ofPacked 0xFF000080) := by decide +kernel
  exact ⟨by decide, d, t', hparse, hok, (hget _ _).trans hcolor, hlisting⟩

end Table

end ColorTheme
