import Mathlib
import ColorTheme.Proofs.Overriding
/-! # Overrides act locally

An overlay changes the color of a cell only where it answers for the cell itself or for a reference
on the way to the color. Where all of these lead to entries of the base, the cell looks as it does
without the overlay. -/
namespace ColorTheme.Definition

open Relation

variable {base overlay : Definition} {mode : Mode}

/-- In the combination, the entry at `k` and all that its references come to stand in the base. -/
def StaysInBase (base overlay : Definition) (mode : Mode) (k : Nat) : Prop :=
  ∀ j, ReflTransGen ((base.combine overlay).Leads mode) k j → j < base.size

theorem StaysInBase.lt_size {k : Nat} (h : StaysInBase base overlay mode k) : k < base.size :=
  h k .refl

theorem StaysInBase.of_leads {k j : Nat} (h : StaysInBase base overlay mode k)
    (hl : (base.combine overlay).Leads mode k j) : StaysInBase base overlay mode j :=
  fun i hi => h i (hi.head hl)

theorem entry_of_combine_base {k : Nat} {e : Entry}
    (he : (base.combine overlay).entries[k]? = some e) (hk : k < base.size) :
    base.entries[k]? = some e := by
  rcases entry_of_combine he with he | ⟨j, rfl, -⟩
  · exact he
  · omega

/-- A color that the combination gives by entries of the base alone is the one of the base. -/
theorem Denotes.of_combine (hb : base.Indexed) {k : Nat} {c : Color}
    (h : (base.combine overlay).Denotes mode k c) {e : Entry}
    (he : (base.combine overlay).Applies mode k e) (stays : StaysInBase base overlay mode k) :
    base.Denotes mode k c := by
  induction h generalizing e with
  | @intro k e' next colors entry found onward ih =>
    cases Option.some.inj (entry.symm.trans he.entry)
    have onto : ∀ r ∈ e'.value.references, StaysInBase base overlay mode (next r) :=
      fun r hr => stays.of_leads ⟨e', entry, he.mode, r, hr, found r hr⟩
    refine .intro next colors (entry_of_combine_base entry stays.lt_size) (fun r hr => ?_)
      fun r hr => ?_
    · exact find?_of_combine hb (found r hr) (onto r hr).lt_size
    · obtain ⟨other, ho⟩ := applies_of_find? (indexed_combine base overlay) (found r hr)
      exact ih r hr ho (onto r hr)

/-- A cell that the combination colors by entries of the base alone has the color that the base
gives it. -/
theorem get?_combine (hb : base.Built) {t t' : Table} (baked : base.bake mode = .ok t)
    (combined : (base.combine overlay).bake mode = .ok t') {slot : Slot} {state : State}
    (supported : slot.supports state = true) {k : Nat}
    (answered : (base.combine overlay).find? mode state slot.name = some k)
    (stays : StaysInBase base overlay mode k) :
    ∃ c, t.get? slot state = some c ∧ t'.get? slot state = some c := by
  by_cases hm : mode = .debug
  · subst hm
    cases baked
    cases combined
    exact ⟨_, if_pos supported, if_pos supported⟩
  have hc := indexed_combine base overlay
  obtain ⟨-, -, grid, rfl, pictures⟩ := of_bake_eq_ok hb.indexed hm baked
  obtain ⟨-, -, grid', rfl, pictures'⟩ := of_bake_eq_ok hc hm combined
  obtain ⟨e, he⟩ := applies_of_find? hc answered
  obtain ⟨j, hj, hcolor⟩ := pictures'.cell slot state supported
  cases Option.some.inj (answered.symm.trans hj)
  refine ⟨grid'.cell slot state, ?_, if_pos supported⟩
  exact pictures.get?_eq_some_iff.2 ⟨supported, k,
    find?_of_combine hb.indexed answered stays.lt_size, hcolor.of_combine hb.indexed he stays⟩

/-- A color of its own for a slot that took it from another entry, and a color that nothing asks
for. -/
def accented : Definition := ofEntries
  [⟨"Accent", .all, .any, .color .white⟩, ⟨"Ink", .light, .any, .color .black⟩]

theorem plain_accented : accented.Plain .dark := by
  intro i e he
  have hall : ∀ e ∈ accented.entries, e.value = .color .white ∨ e.value = .color .black := by decide
  rcases hall e (Array.mem_of_getElem? he.entry) with hv | hv
  · exact ⟨_, hv⟩
  · exact ⟨_, hv⟩

theorem exists_bake_accented : (∃ t, inked.bake .dark = .ok t) ∧
    ∃ t, (inked.combine accented).bake .dark = .ok t := by
  have resolved := plain_accented.stuck_combine_eq_empty built_inked.indexed answered_inked
    acyclic_inked
  have hbase : inked.Stuck .dark = ∅ :=
    (stuck_eq_empty_iff built_inked.indexed).2 ⟨answered_inked, acyclic_inked⟩
  obtain ⟨grid, -, hr⟩ :=
    bakeWithReport_eq_ok built_inked.indexed (by decide) hbase covered_inked
  obtain ⟨grid', -, hr'⟩ := bakeWithReport_eq_ok (indexed_combine inked accented) (by decide)
    resolved (covered_inked.combine built_inked.indexed)
  exact ⟨⟨_, bake_of_bakeWithReport_eq_ok hr⟩, ⟨_, bake_of_bakeWithReport_eq_ok hr'⟩⟩

theorem find?_accented :
    (inked.combine accented).find? .dark .hovered "Selected" = some 5 ∧
      (inked.combine accented).find? .dark .any "Ink" = some 17 := by
  rw [(indexed_combine _ _).find?_eq, (indexed_combine _ _).find?_eq]
  decide

/-- The slot goes on to the one entry that it refers to. -/
theorem staysInBase_accented : StaysInBase inked accented .dark 5 := by
  have reached : ∀ j, ReflTransGen ((inked.combine accented).Leads .dark) 5 j → j = 5 ∨ j = 17 := by
    intro j hj
    induction hj with
    | refl => exact Or.inl rfl
    | tail _ hl ih =>
      obtain ⟨e, he, -, r, hr, hf⟩ := hl
      rcases ih with rfl | rfl
      · cases he
        obtain rfl := List.mem_singleton.1 hr
        exact Or.inr (Option.some.inj (hf.symm.trans find?_accented.2))
      · cases he
        cases hr
  intro j hj
  rcases reached j hj with rfl | rfl
  · decide
  · decide

theorem get?_accented : inked.Built ∧ Slot.selected.supports .hovered = true ∧
    (inked.combine accented).find? .dark .hovered "Selected" = some 5 ∧
    StaysInBase inked accented .dark 5 ∧
    ∃ t t', inked.bake .dark = .ok t ∧ (inked.combine accented).bake .dark = .ok t' ∧
      ∃ c, t.get? .selected .hovered = some c ∧ t'.get? .selected .hovered = some c := by
  obtain ⟨⟨t, ht⟩, t', ht'⟩ := exists_bake_accented
  have supported : Slot.selected.supports .hovered = true := by decide
  exact ⟨built_inked, supported, find?_accented.1, staysInBase_accented, t, t', ht, ht',
    get?_combine built_inked ht ht' supported find?_accented.1 staysInBase_accented⟩

end ColorTheme.Definition
