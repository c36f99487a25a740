import Mathlib
import ColorTheme.Proofs.Filling
import ColorTheme.Proofs.Stuck
/-! # What a bake comes to

The result of a bake, said by the look-up graph and the look-ups for the cells, without the passes.
Exposed references come first, then entries that cannot be resolved, then cells without an entry. -/
namespace ColorTheme.Definition

variable {d : Definition} {mode : Mode}

open Classical in
/-- The applicable entries that no reference leads to, unless they name a slot or are shadowed. -/
noncomputable def idle (d : Definition) (mode : Mode) : List Unused :=
  (d.applicable mode).filterMap fun x =>
    if (∃ j, d.Leads mode j x.2) ∨ (Slot.ofKey? x.1.key).isSome ∨ d.isShadowed x.2 then none
    else some ⟨x.1.key, x.1.mode, x.1.state⟩

theorem unused_eq_idle {p : Progress}
    (h : ∀ i e, d.Applies mode i e → Slot.ofKey? e.key = none →
      (p.isFound i = true ↔ ∃ j, d.Leads mode j i)) : d.unused mode p = d.idle mode := by
  classical
  rw [unused, idle]
  apply List.filterMap_congr
  rintro ⟨e, i⟩ hx
  have hi := h i e (mem_applicable.1 hx)
  cases hk : Slot.ofKey? e.key with
  | none => simp [hk, hi hk]
  | some slot => simp [hk]

/-- The grid holds the color of the found entry in every cell to be filled and nothing elsewhere. -/
structure Pictures (d : Definition) (mode : Mode) (grid : Grid) : Prop where
  cell : ∀ slot state, slot.supports state = true →
    ∃ i, d.find? mode state slot.name = some i ∧ d.Denotes mode i (grid.cell slot state)
  rest : ∀ slot state, slot.supports state = false → grid.cell slot state = .transparent

inductive Verdict (d : Definition) (mode : Mode) : Except BakeError Report → Prop
  | unknown {e : Entry} {r : Reference} (exposed : d.Exposed mode e r) :
      Verdict d mode (.error (.unknownReference e.qualifiedKey r.text))
  | unresolved {i n : Nat} {e : Entry} (sheltered : ∀ e r, ¬ d.Exposed mode e r)
      (least : IsLeast (d.Stuck mode) i) (entry : d.entries[i]? = some e)
      (count : (d.Stuck mode).ncard = n + 1)
      (cyclic : ∀ j ∈ d.Stuck mode, d.ReachesCycle mode j) :
      Verdict d mode (.error (.unresolved e.qualifiedKey n))
  | missing {slot : Slot} {state : State} (resolved : d.Stuck mode = ∅)
      (first : d.firstMissing? mode Slot.cells = some (slot, state)) :
      Verdict d mode (.error (.missingCell slot state))
  | baked {grid : Grid} (resolved : d.Stuck mode = ∅)
      (covered : d.firstMissing? mode Slot.cells = none) (pictures : d.Pictures mode grid) :
      Verdict d mode (.ok ⟨⟨mode, grid⟩, d.idle mode⟩)

theorem stuck_eq_empty (hd : d.Indexed) {p : Progress} (h : d.Sound mode p)
    (hu : d.uncolored mode p = []) : d.Stuck mode = ∅ := by
  ext i
  simp [mem_stuck_iff hd h (by simp [hu]), hu]

theorem stuck_of_pending (hd : d.Indexed) {p : Progress} (h : d.Sound mode p)
    {first : Entry × Nat} {others : List (Entry × Nat)} (hu : d.uncolored mode p = first :: others)
    (blocked : ∀ x ∈ d.uncolored mode p, d.Blocked mode p p x.1) :
    IsLeast (d.Stuck mode) first.2 ∧ (d.Stuck mode).ncard = others.length + 1 := by
  have hs : d.Stuck mode = ((d.uncolored mode p).map Prod.snd).toFinset := by
    ext i
    rw [mem_stuck_iff hd h blocked, List.coe_toFinset, Set.mem_ofPred_eq]
  have hsorted : ((d.uncolored mode p).map Prod.snd).Pairwise (· < ·) :=
    List.pairwise_map.2 (uncolored_sorted d mode p)
  have hnodup : ((d.uncolored mode p).map Prod.snd).Nodup := hsorted.imp Nat.ne_of_lt
  refine ⟨⟨?_, fun i hi => ?_⟩, ?_⟩
  · simp [hs, hu]
  · rw [hs, List.coe_toFinset, hu] at hi
    rw [hu, List.map_cons, List.pairwise_cons] at hsorted
    rcases List.mem_cons.1 hi with rfl | hi
    · exact le_rfl
    · exact (hsorted.1 i hi).le
  · rw [hs, Set.ncard_coe_finset, List.toFinset_card_of_nodup hnodup, hu]
    simp

theorem colored_of_uncolored_eq_nil {p : Progress} (hu : d.uncolored mode p = []) {i : Nat}
    {e : Entry} (he : d.Applies mode i e) : p.color? i ≠ none := by
  intro hn
  have hm : (e, i) ∈ d.uncolored mode p := mem_uncolored.2 ⟨he, hn⟩
  rw [hu] at hm
  cases hm

theorem isFound_iff_of_uncolored_eq_nil {p : Progress} (h : d.Sound mode p)
    (hu : d.uncolored mode p = []) (j : Nat) :
    p.isFound j = true ↔ ∃ i, d.Leads mode i j := by
  constructor
  · exact h.led j
  · rintro ⟨i, hl⟩
    obtain ⟨e, he, hm, -⟩ := id hl
    have hc := colored_of_uncolored_eq_nil hu ⟨he, hm⟩
    exact h.marked i j (Option.isSome_iff_ne_none.2 hc) hl

theorem pictures_of_filled {p p' : Progress} {grid : Grid} (h : d.Sound mode p)
    (hf : d.Filled mode Slot.cells .blank grid p p') : d.Pictures mode grid where
  cell slot state hs := by
    obtain ⟨i, hi, hc⟩ := hf.cell slot state (Slot.mem_cells.2 hs)
    exact ⟨i, hi, h.denotes i _ hc⟩
  rest slot state hs := by
    have hn : (slot, state) ∉ Slot.cells := by simp [Slot.mem_cells, hs]
    rw [hf.rest slot state hn]
    simp [Grid.blank, Grid.cell]

theorem unused_of_filled (hd : d.Indexed) {p p' : Progress} {grid : Grid} (h : d.Sound mode p)
    (hu : d.uncolored mode p = []) (hf : d.Filled mode Slot.cells .blank grid p p') :
    d.unused mode p' = d.idle mode := by
  apply unused_eq_idle
  intro i e he hk
  rw [hf.found, isFound_iff_of_uncolored_eq_nil h hu, or_iff_left_iff_imp]
  rintro ⟨slot, state, hm, hfind⟩
  obtain ⟨e', he', hkey, -⟩ := of_find?_eq_some hd hfind
  cases Option.some.inj (he'.symm.trans he.entry)
  rw [hkey] at hk
  have hs := Slot.ofKey?_isSome hm
  rw [hk] at hs
  cases hs

theorem verdict_bakeWithReport (hd : d.Indexed) (hm : mode ≠ .debug) :
    d.Verdict mode (d.bakeWithReport mode) := by
  have hstart : d.uncolored mode (.start d.size) = d.applicable mode := by simp [uncolored]
  have hr := resolved_of_resolve hd (sound_start d mode) hstart
  rw [bakeWithReport, if_neg hm]
  cases h : d.resolve mode (d.applicable mode) (.start d.size) with
  | error err =>
    rw [h] at hr
    cases hr with
    | unknown exposed => exact .unknown exposed
    | @stuck p first others sound pending blocked =>
      obtain ⟨least, count⟩ := stuck_of_pending hd sound pending blocked
      obtain ⟨he, -⟩ : d.Applies mode first.2 first.1 ∧ p.color? first.2 = none :=
        mem_uncolored.1 (pending ▸ List.mem_cons_self)
      exact .unresolved (not_exposed_of_blocked hd sound blocked) least he.entry count
        fun j hj => reachesCycle_of_blocked hd sound blocked hj
  | ok p =>
    rw [h] at hr
    obtain ⟨sound, hu⟩ := hr
    have hs := stuck_eq_empty hd sound hu
    have colored : ∀ i e, d.Applies mode i e → p.color? i ≠ none :=
      fun i e he => colored_of_uncolored_eq_nil hu he
    cases hf : d.firstMissing? mode Slot.cells with
    | some cell =>
      obtain ⟨slot, state⟩ := cell
      simp only [fill_of_missing hd colored hf]
      exact .missing hs hf
    | none =>
      obtain ⟨grid, p', hfill, filled⟩ :=
        filled_of_covered hd sound.found_size colored hf .blank
      simp only [hfill, Except.map, unused_of_filled hd sound hu filled]
      exact .baked hs hf (pictures_of_filled sound filled)

theorem Exposed.stuck {e : Entry} {r : Reference} (h : d.Exposed mode e r) :
    (d.Stuck mode).Nonempty := by
  obtain ⟨i, he⟩ := h.applies
  exact ⟨i, ⟨e, he⟩, h.not_resolvable he⟩

variable {result : Except BakeError Report}

theorem Verdict.eq_unknown (h : d.Verdict mode result) (hx : ∃ e r, d.Exposed mode e r) :
    ∃ e r, d.Exposed mode e r ∧ result = .error (.unknownReference e.qualifiedKey r.text) := by
  obtain ⟨e, r, hx⟩ := hx
  cases h with
  | unknown exposed => exact ⟨_, _, exposed, rfl⟩
  | unresolved sheltered => exact absurd hx (sheltered e r)
  | missing resolved => exact absurd hx.stuck (by simp [resolved])
  | baked resolved => exact absurd hx.stuck (by simp [resolved])

theorem Verdict.eq_unresolved (h : d.Verdict mode result) (hx : ∀ e r, ¬ d.Exposed mode e r)
    (hs : (d.Stuck mode).Nonempty) :
    ∃ i e n, IsLeast (d.Stuck mode) i ∧ d.entries[i]? = some e ∧ (d.Stuck mode).ncard = n + 1 ∧
      (∀ j ∈ d.Stuck mode, d.ReachesCycle mode j) ∧
      result = .error (.unresolved e.qualifiedKey n) := by
  cases h with
  | unknown exposed => exact absurd exposed (hx _ _)
  | unresolved _ least entry count cyclic => exact ⟨_, _, _, least, entry, count, cyclic, rfl⟩
  | missing resolved => exact absurd hs (by simp [resolved])
  | baked resolved => exact absurd hs (by simp [resolved])

theorem Verdict.eq_missing (h : d.Verdict mode result) (hs : d.Stuck mode = ∅) {slot : Slot}
    {state : State} (hf : d.firstMissing? mode Slot.cells = some (slot, state)) :
    result = .error (.missingCell slot state) := by
  cases h with
  | unknown exposed => exact absurd exposed.stuck (by simp [hs])
  | unresolved _ least => exact absurd least.1 (by simp [hs])
  | missing _ first =>
    cases hf.symm.trans first
    rfl
  | baked _ covered => cases hf.symm.trans covered

theorem Verdict.eq_ok (h : d.Verdict mode result) (hs : d.Stuck mode = ∅)
    (hf : d.firstMissing? mode Slot.cells = none) :
    ∃ grid, d.Pictures mode grid ∧ result = .ok ⟨⟨mode, grid⟩, d.idle mode⟩ := by
  cases h with
  | unknown exposed => exact absurd exposed.stuck (by simp [hs])
  | unresolved _ least => exact absurd least.1 (by simp [hs])
  | missing _ first => cases hf.symm.trans first
  | baked _ _ pictures => exact ⟨_, pictures, rfl⟩

end ColorTheme.Definition
