import Mathlib
import ColorTheme.Proofs.Resolution
/-! # Filling the table

Once every applicable entry has its color, a table is filled exactly when a look-up answers for
every cell; otherwise the first cell without an answer is reported. -/
namespace ColorTheme

namespace Slot

theorem ne_unassigned_of_mem_cells {slot : Slot} {state : State} (h : (slot, state) ∈ cells) :
    slot ≠ unassigned := by
  rintro rfl
  exact absurd (mem_cells.1 h) (by cases state <;> decide)

theorem ofKey?_isSome {slot : Slot} {state : State} (h : (slot, state) ∈ cells) :
    (ofKey? slot.name).isSome := by simp [ofKey?_name (ne_unassigned_of_mem_cells h)]

end Slot

namespace Definition

variable {d : Definition} {mode : Mode}

/-- The first of the cells that no look-up answers for. -/
def firstMissing? (d : Definition) (mode : Mode) (cells : List (Slot × State)) :
    Option (Slot × State) :=
  cells.find? fun cell => (d.find? mode cell.2 cell.1.name).isNone

theorem firstMissing?_eq_none_iff {cells : List (Slot × State)} :
    d.firstMissing? mode cells = none ↔
      ∀ slot state, (slot, state) ∈ cells → (d.find? mode state slot.name).isSome := by
  simp [firstMissing?, Option.isSome_iff_ne_none]

structure Filled (d : Definition) (mode : Mode) (cells : List (Slot × State)) (grid grid' : Grid)
    (p p' : Progress) : Prop where
  cell : ∀ slot state, (slot, state) ∈ cells → ∃ i, d.find? mode state slot.name = some i ∧
    p.color? i = some (grid'.cell slot state)
  rest : ∀ slot state, (slot, state) ∉ cells → grid'.cell slot state = grid.cell slot state
  found : ∀ j, p'.isFound j = true ↔ p.isFound j = true ∨
    ∃ slot state, (slot, state) ∈ cells ∧ d.find? mode state slot.name = some j

theorem Filled.cons {slot : Slot} {state : State} {cells : List (Slot × State)}
    {grid grid' : Grid} {p p' : Progress} {i : Nat} {c : Color} (hi : i < p.found.size)
    (hf : d.find? mode state slot.name = some i) (hc : p.color? i = some c)
    (h : d.Filled mode cells (grid.put slot state c) grid' (p.markFound i) p') :
    d.Filled mode ((slot, state) :: cells) grid grid' p p' where
  cell slot' state' hm := by
    by_cases hin : (slot', state') ∈ cells
    · simpa using h.cell slot' state' hin
    · obtain ⟨rfl, rfl⟩ : slot' = slot ∧ state' = state := by simpa [hin] using hm
      refine ⟨i, hf, ?_⟩
      rw [h.rest slot' state' hin, Grid.cell_put_self, hc]
  rest slot' state' hm := by
    obtain ⟨hne, hin⟩ := not_or.1 (List.mem_cons.not.1 hm)
    rw [h.rest slot' state' hin, Grid.cell_put_of_ne _ _ (Ne.symm hne)]
  found j := by
    rw [h.found, Progress.isFound_markFound hi]
    simp only [Bool.or_eq_true, beq_iff_eq, List.mem_cons, Prod.mk.injEq]
    constructor
    · rintro ((rfl | hj) | ⟨slot', state', hm, hj⟩)
      · exact Or.inr ⟨slot, state, Or.inl ⟨rfl, rfl⟩, hf⟩
      · exact Or.inl hj
      · exact Or.inr ⟨slot', state', Or.inr hm, hj⟩
    · rintro (hj | ⟨slot', state', ⟨rfl, rfl⟩ | hm, hj⟩)
      · exact Or.inl (Or.inr hj)
      · exact Or.inl (Or.inl (Option.some.inj (hf.symm.trans hj)))
      · exact Or.inr ⟨slot', state', hm, hj⟩

section Colored

variable (hd : d.Indexed)
include hd

theorem filled_of_covered {cells : List (Slot × State)} {p : Progress}
    (hp : p.found.size = d.size)
    (colored : ∀ i e, d.Applies mode i e → p.color? i ≠ none)
    (covered : d.firstMissing? mode cells = none) (grid : Grid) :
    ∃ grid' p', d.fill mode cells grid p = .ok (grid', p') ∧
      d.Filled mode cells grid grid' p p' := by
  induction cells generalizing grid p with
  | nil => exact ⟨grid, p, rfl, by simp, by simp, by simp⟩
  | cons cell cells ih =>
    obtain ⟨slot, state⟩ := cell
    rw [firstMissing?_eq_none_iff] at covered
    obtain ⟨i, hf⟩ := Option.isSome_iff_exists.1 (covered slot state (by simp))
    obtain ⟨e, he⟩ := applies_of_find? hd hf
    obtain ⟨c, hc⟩ := Option.ne_none_iff_exists'.1 (colored i e he)
    have hrest : d.firstMissing? mode cells = none := firstMissing?_eq_none_iff.2
      fun slot' state' hm => covered slot' state' (List.mem_cons_of_mem _ hm)
    obtain ⟨grid', p', hfill, hfilled⟩ := ih (p := p.markFound i) (by simpa [Progress.markFound])
      (by simpa using colored) hrest (grid.put slot state c)
    refine ⟨grid', p', ?_, hfilled.cons (hp ▸ he.lt_size) hf hc⟩
    rw [fill, hf]
    simp only [hc]
    exact hfill

theorem fill_of_missing {cells : List (Slot × State)} {p : Progress}
    (colored : ∀ i e, d.Applies mode i e → p.color? i ≠ none) {slot : Slot} {state : State}
    (missing : d.firstMissing? mode cells = some (slot, state)) (grid : Grid) :
    d.fill mode cells grid p = .error (.missingCell slot state) := by
  induction cells generalizing grid p with
  | nil => cases missing
  | cons cell cells ih =>
    obtain ⟨slot', state'⟩ := cell
    rw [firstMissing?, List.find?_cons] at missing
    rw [fill]
    cases hf : d.find? mode state' slot'.name with
    | none =>
      rw [hf] at missing
      cases missing
      rfl
    | some i =>
      rw [hf] at missing
      obtain ⟨e, he⟩ := applies_of_find? hd hf
      obtain ⟨c, hc⟩ := Option.ne_none_iff_exists'.1 (colored i e he)
      simp only [hc]
      exact ih (p := p.markFound i) (by simpa using colored) missing _

end Colored

end Definition

end ColorTheme
