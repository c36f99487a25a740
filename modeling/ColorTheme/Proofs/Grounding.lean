import Mathlib
import ColorTheme.Preset
import ColorTheme.Proofs.Overriding
import ColorTheme.Proofs.Reading
/-! # Themes that refer back

A list of entries in which every reference goes back to an entry further up, and in which every cell
finds its entry, makes a definition that bakes. Both can be read off the list. The standard theme is
written in that way for both of the modes that it has a palette for. -/
namespace ColorTheme.Definition

open Relation Text

variable {d : Definition} {mode : Mode} {es : List Entry}

/-- Every reference of an applicable entry is answered, and only by entries before that one. -/
def Grounded (mode : Mode) (es : List Entry) : Prop :=
  ∀ x ∈ es.zipIdx, x.1.mode.appliesTo mode = true → ∀ r ∈ x.1.value.references,
    (∃ e ∈ es, e.key = r.key ∧ e.answers mode r.state = true) ∧
      ∀ y ∈ es.zipIdx, y.1.key = r.key → y.1.answers mode r.state = true → y.2 < x.2

/-- Every cell to be filled is answered. -/
def Furnished (mode : Mode) (es : List Entry) : Prop :=
  ∀ cell ∈ Slot.cells, ∃ e ∈ es, e.key = cell.1.name ∧ e.answers mode cell.2 = true

instance (mode : Mode) (es : List Entry) : Decidable (Grounded mode es) :=
  inferInstanceAs (Decidable (∀ _ ∈ _, _))

instance (mode : Mode) (es : List Entry) : Decidable (Furnished mode es) :=
  inferInstanceAs (Decidable (∀ _ ∈ _, _))

theorem find?_isSome_of_mem (hd : d.Indexed) {e : Entry} (he : e ∈ d.entries.toList) {key : String}
    (hk : e.key = key) {state : State} (ha : e.answers mode state = true) :
    (d.find? mode state key).isSome := by
  obtain ⟨i, hi⟩ := Array.getElem?_of_mem (Array.mem_toList_iff.1 he)
  exact hk ▸ find?_isSome hd hi ha

theorem mem_zipIdx_of_entry {i : ℕ} {e : Entry} (he : d.entries[i]? = some e) :
    (e, i) ∈ d.entries.toList.zipIdx := by
  rw [List.mem_zipIdx_iff_getElem?, Array.getElem?_toList]
  exact he

theorem Grounded.answered (hd : d.Indexed) (h : Grounded mode d.entries.toList) :
    d.Answered mode := by
  intro i e he r hr
  obtain ⟨⟨e', he', hk, ha⟩, -⟩ := h (e, i) (mem_zipIdx_of_entry he.entry) he.mode r hr
  exact find?_isSome_of_mem hd he' hk ha

theorem Grounded.lt_of_leads (hd : d.Indexed) (h : Grounded mode d.entries.toList) {i j : ℕ}
    (hl : d.Leads mode i j) : j < i := by
  obtain ⟨e, he, hm, r, hr, hf⟩ := hl
  obtain ⟨e', he', hk, ha, -⟩ := of_find?_eq_some hd hf
  obtain ⟨-, before⟩ := h (e, i) (mem_zipIdx_of_entry he) hm r hr
  exact before (e', j) (mem_zipIdx_of_entry he') hk ha

theorem Grounded.acyclic (hd : d.Indexed) (h : Grounded mode d.entries.toList) :
    d.Acyclic mode := by
  have descends {i j : ℕ} (hij : TransGen (d.Leads mode) i j) : j < i := by
    induction hij with
    | single hl => exact h.lt_of_leads hd hl
    | tail _ hl ih => exact (h.lt_of_leads hd hl).trans ih
  exact fun i hi => lt_irrefl i (descends hi)

theorem Grounded.stuck_eq_empty (hd : d.Indexed) (h : Grounded mode d.entries.toList) :
    d.Stuck mode = ∅ := (stuck_eq_empty_iff hd).2 ⟨h.answered hd, h.acyclic hd⟩

theorem Furnished.covered (hd : d.Indexed) (h : Furnished mode d.entries.toList) :
    d.Covered mode := by
  intro slot _ state hs
  obtain ⟨e, he, hk, ha⟩ := h (slot, state) (Slot.mem_cells.2 hs)
  exact find?_isSome_of_mem hd he hk ha

theorem Grounded.exists_bake (hd : d.Indexed) (h : Grounded mode d.entries.toList)
    (furnished : Furnished mode d.entries.toList) : ∃ t, d.bake mode = .ok t := by
  by_cases hm : mode = .debug
  · subst hm
    exact ⟨_, bake_debug d⟩
  · obtain ⟨grid, -, hr⟩ :=
      bakeWithReport_eq_ok hd hm (h.stuck_eq_empty hd) (furnished.covered hd)
    exact ⟨_, bake_of_bakeWithReport_eq_ok hr⟩

set_option maxRecDepth 20000 in
theorem standard_sheet :
    (∀ line ∈ lines Preset.standard.text.toList, Line.fault? line = none) ∧
    ((written Preset.standard.text).map fun w => w.entry.triple).Nodup ∧
    ∀ mode ∈ [Mode.dark, .light],
      Grounded mode ((written Preset.standard.text).map Written.entry) ∧
      Furnished mode ((written Preset.standard.text).map Written.entry) := by
  -- the text as the list of its characters, which the kernel need not decode first
  have htext : Preset.standard.text.toList = _ := String.toList_ofList
  rw [written, htext]
  decide +kernel

/-- The standard theme is read without an error and bakes for every mode but `all`. -/
theorem exists_bake_standard : ∃ d outcome, Preset.standard.definition = .ok (d, outcome) ∧
    d.Built ∧ ∀ mode : Mode, mode ≠ .all → ∃ t, d.bake mode = .ok t := by
  obtain ⟨accepted, distinct, palettes⟩ := standard_sheet
  obtain ⟨d, hparse, hentries⟩ := parse_of_distinct accepted distinct
  have hb : d.Built := .of_parse hparse
  refine ⟨d, _, hparse, hb, fun mode hm => ?_⟩
  rw [← hentries] at palettes
  have painted {mode : Mode} (hmem : mode ∈ [Mode.dark, .light]) : ∃ t, d.bake mode = .ok t :=
    (palettes mode hmem).1.exists_bake hb.indexed (palettes mode hmem).2
  cases mode with
  | all => exact absurd rfl hm
  | dark => exact painted (by decide)
  | light => exact painted (by decide)
  | debug => exact ⟨_, bake_debug d⟩

end ColorTheme.Definition
