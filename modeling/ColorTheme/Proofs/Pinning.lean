import Mathlib
import ColorTheme.Proofs.Grounding
import ColorTheme.Proofs.Relisting
/-! # Listings as overlays

A listing has an entry for every cell, in just the state of the cell and for all modes. No entry
of a base fits a cell more closely than that, unless it is meant for the one mode that is baked.
Without such entries for slots, the table over the base has the colors that the listing shows. -/
namespace ColorTheme.Definition

variable {base overlay : Definition} {mode : Mode} {t : Table}

/-- Only an entry of the mode itself fits a cell more closely than the one in a listing. -/
theorem specificity_le_cellEntry {e : Entry} {slot : Slot} {state : State} {c : Color}
    (ha : e.answers mode state = true) (shared : mode = .all ∨ e.mode ≠ mode) :
    e.specificity mode state ≤ (cellEntry .all slot state c).specificity mode state := by
  have hstate : (e.state == state).toNat ≤ 1 := Bool.toNat_le _
  have hmode : e.mode = .all := by
    rcases (Entry.answers_iff.1 ha).1 with hm | hm
    · exact hm.trans (shared.resolve_right fun hne => hne hm)
    · exact hm
  simp only [Entry.specificity, cellEntry, hmode, beq_self_eq_true, Bool.toNat_true]
  omega

/-- The base has no slot entries for the baked mode alone, if that is not `all`. -/
def SharesSlots (base : Definition) (mode : Mode) : Prop :=
  mode = .all ∨ ∀ e ∈ base.entries, (Slot.ofKey? e.key).isSome → e.mode ≠ mode

theorem SharesSlots.fitWithin (h : base.SharesSlots mode) {slot : Slot} {state : State}
    (hs : slot.supports state = true) (c : Color) :
    base.FitWithin mode state slot.name
      ((cellEntry .all slot state c).specificity mode state) := by
  intro i e he hk ha
  have hslot : (Slot.ofKey? e.key).isSome := hk ▸ Slot.ofKey?_isSome (Slot.mem_cells.2 hs)
  exact specificity_le_cellEntry ha (h.imp_right fun hall =>
    hall e (Array.mem_of_getElem? he) hslot)

/-- Over such a base, a cell still finds its own entry. -/
theorem find?_combine_cellEntry (ho : overlay.Indexed)
    (he : overlay.entries.toList = t.cellEntries) (shares : base.SharesSlots mode) {slot : Slot}
    {state : State} (hs : slot.supports state = true) :
    ∃ k, (base.combine overlay).find? mode state slot.name = some k ∧
      (base.combine overlay).entries[k]? =
        some (cellEntry .all slot state (t.grid.cell slot state)) := by
  have covered : overlay.Covered mode := covered_of_cellEntries ho he
  have filled : slot ≠ .unassigned := Slot.ne_unassigned_of_mem_cells (Slot.mem_cells.2 hs)
  obtain ⟨j, hj⟩ := Option.isSome_iff_exists.1 (covered slot filled state hs)
  have hcell := find?_cellEntry ho he hs hj
  obtain ⟨e, closest⟩ := closest_of_find? ho hj
  cases Option.some.inj (closest.entry.symm.trans hcell)
  have hclosest := closest.combine_overlay (shares.fitWithin hs _)
  exact ⟨_, hclosest.find?_eq (indexed_combine base overlay), hclosest.entry⟩

/-- Any table's listing, read and put over a base that bakes and shares its slot entries, bakes as
well, to the colors that the listing shows. -/
theorem bake_combine_listing (t : Table) (hb : base.Built) (hm : mode ≠ .debug) {u : Table}
    (baked : base.bake mode = .ok u) (shares : base.SharesSlots mode) :
    ∃ d outcome t', parse t.listing = .ok (d, outcome) ∧
      (base.combine d).bake mode = .ok t' ∧
      ∀ slot state, t'.get? slot state = (t.get? slot state).map fun c => .ofPacked c.packed := by
  obtain ⟨d, hparse, he⟩ := t.parse_listing
  have hd : d.Indexed := (Built.of_parse hparse).indexed
  have hc := indexed_combine base d
  obtain ⟨resolved, covered⟩ := resolved_of_bake hb.indexed hm baked
  obtain ⟨answered, acyclic⟩ := (stuck_eq_empty_iff hb.indexed).1 resolved
  have unstuck : (base.combine d).Stuck mode = ∅ :=
    (plain_of_cellEntries he).stuck_combine_eq_empty hb.indexed answered acyclic
  obtain ⟨grid, pictures, hbake⟩ :=
    bakeWithReport_eq_ok hc hm unstuck (covered.combine hb.indexed)
  refine ⟨d, _, ⟨mode, grid⟩, hparse, bake_of_bakeWithReport_eq_ok hbake,
    Table.get?_of_cells fun slot state hs => ?_⟩
  obtain ⟨k, hk, entry⟩ := find?_combine_cellEntry hd he shares hs
  exact pictures.cell_of_literal hs hk entry rfl

/-- A palette for two modes, from which every slot takes its color, and one cell with an entry of
its own. -/
def shaded : Definition := ofEntries <|
  [⟨"Ink", .dark, .any, .color .black⟩, ⟨"Ink", .light, .any, .color .white⟩] ++
  (Slot.filled.map fun slot => ⟨slot.name, .all, .any, .reference ⟨"Ink", .any⟩⟩) ++
  [⟨"Selected", .all, .hovered, .call .contrast
    [.entry ⟨"Selected", .any⟩, .entry ⟨"Ink", .hovered⟩, .color .gray]⟩]

theorem bake_combine_shaded : shaded.Built ∧ Mode.dark ≠ .debug ∧
    (∃ u, shaded.bake .dark = .ok u) ∧ shaded.SharesSlots .dark ∧
    ∃ d outcome t', parse Table.glaring.listing = .ok (d, outcome) ∧
      (shaded.combine d).bake .dark = .ok t' ∧
      t'.get? .selected .hovered = some (.ofPacked 0) ∧
      t'.get? .accent .any = some (.ofPacked 0xFF000080) := by
  have hb : shaded.Built := built_ofEntries (by decide)
  have hentries : shaded.entries.toList = _ := congrArg Array.toList (entries_ofEntries _)
  have grounded : Grounded .dark shaded.entries.toList := by
    rw [hentries]
    decide +kernel
  have furnished : Furnished .dark shaded.entries.toList := by
    rw [hentries]
    decide +kernel
  have shares : shaded.SharesSlots .dark := Or.inr (by decide)
  obtain ⟨u, hu⟩ := grounded.exists_bake hb.indexed furnished
  obtain ⟨d, outcome, t', hparse, hbake, hget⟩ :=
    bake_combine_listing Table.glaring hb (by decide) hu shares
  refine ⟨hb, by decide, ⟨u, hu⟩, shares, d, outcome, t', hparse, hbake, ?_, ?_⟩
  · rw [hget]
    decide +kernel
  · rw [hget]
    decide +kernel

end ColorTheme.Definition
