import Mathlib
import ColorTheme.Proofs.Verdict
/-! # From one definition to another

Definitions may hold the same entries at different positions, or one of them more entries than the
other. Where a renaming of positions takes all that look-ups find in the one to what they find in
the other, both give the same colors and the same table. -/
namespace ColorTheme

theorem Grid.ext_cell {g g' : Grid} (h : ∀ slot state, g.cell slot state = g'.cell slot state) :
    g = g' := by
  have rows : ∀ i : Fin Slot.count, ∃ slot : Slot, slot.index = i := by
    have hall : ∀ i : Fin Slot.count, ∃ slot ∈ Slot.every, slot.index = i := by decide
    exact fun i => (hall i).imp fun _ hs => hs.2
  have columns : ∀ i : Fin State.count, ∃ state : State, state.index = i := by
    have hall : ∀ i : Fin State.count, ∃ state ∈ State.every, state.index = i := by decide
    exact fun i => (hall i).imp fun _ hs => hs.2
  obtain ⟨rows'⟩ := g
  obtain ⟨rows''⟩ := g'
  congr 1
  apply Vector.ext
  intro i hi
  apply Vector.ext
  intro j hj
  obtain ⟨slot, hs⟩ := rows ⟨i, hi⟩
  obtain ⟨state, ht⟩ := columns ⟨j, hj⟩
  simpa [Grid.cell, hs, ht] using h slot state

namespace Definition

variable {d d' : Definition} {mode : Mode} {ρ : ℕ → ℕ}

theorem Pictures.unique {grid grid' : Grid} (h : d.Pictures mode grid)
    (h' : d.Pictures mode grid') : grid = grid' := by
  apply Grid.ext_cell
  intro slot state
  cases hs : slot.supports state with
  | true =>
    obtain ⟨i, hi, hc⟩ := h.cell slot state hs
    obtain ⟨j, hj, hc'⟩ := h'.cell slot state hs
    cases Option.some.inj (hi.symm.trans hj)
    exact hc.unique hc'
  | false => rw [h.rest slot state hs, h'.rest slot state hs]

/-- What a look-up for the mode finds in `d'` is the renamed position of what it finds in `d`, and
the entries there are the same. -/
structure Corresponds (ρ : ℕ → ℕ) (mode : Mode) (d d' : Definition) : Prop where
  find?_eq : ∀ state key, d'.find? mode state key = (d.find? mode state key).map ρ
  entry_eq : ∀ state key i, d.find? mode state key = some i →
    d'.entries[ρ i]? = d.entries[i]?

namespace Corresponds

variable (h : Corresponds ρ mode d d')
include h

theorem find?_eq_some {state : State} {key : String} {i : ℕ}
    (hf : d.find? mode state key = some i) : d'.find? mode state key = some (ρ i) := by
  rw [h.find?_eq, hf, Option.map_some]

theorem resolvable {i : ℕ} (hi : d'.entries[ρ i]? = d.entries[i]?) (hr : d.Resolvable mode i) :
    d'.Resolvable mode (ρ i) := by
  induction hr with
  | @intro i e next entry found _ ih =>
    exact .intro (fun r => ρ (next r)) (hi.trans entry) (fun r hr => h.find?_eq_some (found r hr))
      fun r hr => ih r hr (h.entry_eq _ _ _ (found r hr))

theorem of_resolvable {i : ℕ} (hi : d'.entries[ρ i]? = d.entries[i]?)
    (hr : d'.Resolvable mode (ρ i)) : d.Resolvable mode i := by
  generalize hk : ρ i = k at hi hr
  induction hr generalizing i with
  | @intro k e next entry found _ ih =>
    have hfound : ∀ r ∈ e.value.references,
        ∃ j, d.find? mode r.state r.key = some j ∧ ρ j = next r := by
      intro r hr
      have hf := found r hr
      rwa [h.find?_eq, Option.map_eq_some_iff] at hf
    choose! next' hfound' hnext using hfound
    exact .intro next' (hi.symm.trans entry) hfound' fun r hr =>
      ih r hr (hnext r hr) (hnext r hr ▸ h.entry_eq _ _ _ (hfound' r hr))

theorem denotes {i : ℕ} {c : Color} (hi : d'.entries[ρ i]? = d.entries[i]?)
    (hc : d.Denotes mode i c) : d'.Denotes mode (ρ i) c := by
  induction hc with
  | @intro i e next colors entry found _ ih =>
    exact .intro (fun r => ρ (next r)) colors (hi.trans entry)
      (fun r hr => h.find?_eq_some (found r hr))
      fun r hr => ih r hr (h.entry_eq _ _ _ (found r hr))

theorem firstMissing?_eq (cells : List (Slot × State)) :
    d'.firstMissing? mode cells = d.firstMissing? mode cells := by
  simp [firstMissing?, h.find?_eq]

theorem pictures {grid : Grid} (hp : d.Pictures mode grid) : d'.Pictures mode grid where
  cell slot state hs := by
    obtain ⟨i, hi, hc⟩ := hp.cell slot state hs
    exact ⟨ρ i, h.find?_eq_some hi, h.denotes (h.entry_eq _ _ _ hi) hc⟩
  rest := hp.rest

end Corresponds

theorem exists_renaming {α : Type} {l l' : List (α × ℕ)} (nodup : (l.map Prod.snd).Nodup)
    (h : l.map Prod.fst = l'.map Prod.fst) : ∃ ρ : ℕ → ℕ, l.map (Prod.map id ρ) = l' := by
  induction l generalizing l' with
  | nil => exact ⟨id, (List.map_eq_nil_iff.1 h.symm).symm⟩
  | cons x l ih =>
    obtain ⟨y, l', rfl, hxy, hl⟩ := List.map_eq_cons_iff.1 h.symm
    obtain ⟨hx, nodup⟩ := List.nodup_cons.1 nodup
    obtain ⟨ρ, hρ⟩ := ih nodup hl.symm
    refine ⟨Function.update ρ x.2 y.2, ?_⟩
    rw [List.map_cons, ← hρ]
    congr 1
    · exact Prod.ext hxy.symm (by simp)
    · apply List.map_congr_left
      intro z hz
      have hne : z.2 ≠ x.2 := fun he => hx (he ▸ List.mem_map_of_mem hz)
      simp [Prod.map, hne]

/-- The entries that apply in `d'` are those that `l` lists of `d`, at the renamed positions. -/
structure Carried (ρ : ℕ → ℕ) (mode : Mode) (l : List (Entry × ℕ)) (d d' : Definition) :
    Prop where
  sublist : l.Sublist (d.applicable mode)
  map_eq : l.map (Prod.map id ρ) = d'.applicable mode

theorem exists_carried {l : List (Entry × ℕ)} (sublist : l.Sublist (d.applicable mode))
    (h : l.map Prod.fst = (d'.applicable mode).map Prod.fst) :
    ∃ ρ, Carried ρ mode l d d' := by
  have hsorted := List.pairwise_map.2 ((applicable_sorted d mode).sublist sublist)
  obtain ⟨ρ, hρ⟩ := exists_renaming (hsorted.imp Nat.ne_of_lt) h
  exact ⟨ρ, sublist, hρ⟩

namespace Carried

variable {l : List (Entry × ℕ)} (h : Carried ρ mode l d d')
include h

theorem applies_of_mem {i : ℕ} {e : Entry} (hm : (e, i) ∈ l) : d.Applies mode i e :=
  mem_applicable.1 (h.sublist.subset hm)

theorem applies {i : ℕ} {e : Entry} (hm : (e, i) ∈ l) : d'.Applies mode (ρ i) e := by
  rw [← mem_applicable, ← h.map_eq]
  exact List.mem_map.2 ⟨(e, i), hm, rfl⟩

theorem exists_mem {j : ℕ} {e : Entry} (he : d'.Applies mode j e) : ∃ i, (e, i) ∈ l ∧ ρ i = j := by
  rw [← mem_applicable, ← h.map_eq] at he
  obtain ⟨⟨e', i⟩, hi, heq⟩ := List.mem_map.1 he
  cases heq
  exact ⟨i, hi, rfl⟩

theorem lt {i j : ℕ} {e e' : Entry} (hi : (e, i) ∈ l) (hj : (e', j) ∈ l) (hij : i < j) :
    ρ i < ρ j := by
  have hsorted := (applicable_sorted d mode).sublist h.sublist
  have hsorted' := applicable_sorted d' mode
  obtain ⟨before, after, hl⟩ := List.append_of_mem hi
  rw [hl, List.pairwise_append] at hsorted
  rw [← h.map_eq, List.pairwise_map, hl, List.pairwise_append, List.pairwise_cons] at hsorted'
  rw [hl, List.mem_append, List.mem_cons] at hj
  rcases hj with hj | hj | hj
  · exact absurd (hsorted.2.2 _ hj _ List.mem_cons_self) hij.asymm
  · cases hj
    exact absurd hij (lt_irrefl i)
  · exact hsorted'.2.1.1 _ hj

theorem le {i j : ℕ} {e e' : Entry} (hi : (e, i) ∈ l) (hj : (e', j) ∈ l) (hij : i ≤ j) :
    ρ i ≤ ρ j := by
  rcases Nat.lt_or_eq_of_le hij with hij | rfl
  · exact (h.lt hi hj hij).le
  · exact le_rfl

theorem closest {state : State} {key : String} {i : ℕ} {e : Entry} (hm : (e, i) ∈ l)
    (hc : d.Closest mode state key i e) : d'.Closest mode state key (ρ i) e := by
  refine ⟨(h.applies hm).entry, hc.key_eq, hc.answers, fun j' e' he' hk ha => ?_⟩
  obtain ⟨j, hj, rfl⟩ := h.exists_mem ⟨he', Entry.appliesTo_of_answers ha⟩
  rcases hc.last j e' (h.applies_of_mem hj).entry hk ha with hlt | ⟨heq, hji⟩
  · exact Or.inl hlt
  · exact Or.inr ⟨heq, h.le hj hm hji⟩

/-- Where the list has all that look-ups find, they find the same in both definitions. -/
theorem corresponds (hd : d.Indexed) (hd' : d'.Indexed)
    (found : ∀ state key i e, d.find? mode state key = some i → d.Applies mode i e → (e, i) ∈ l) :
    Corresponds ρ mode d d' where
  find?_eq state key := by
    cases hf : d.find? mode state key with
    | some i =>
      obtain ⟨e, hc⟩ := closest_of_find? hd hf
      have hm := found state key i e hf ⟨hc.entry, Entry.appliesTo_of_answers hc.answers⟩
      exact (find?_eq_some_iff hd').2 ⟨e, h.closest hm hc⟩
    | none =>
      cases hf' : d'.find? mode state key with
      | none => rfl
      | some j =>
        obtain ⟨e, he, hk, ha, -⟩ := of_find?_eq_some hd' hf'
        obtain ⟨i, hi, -⟩ := h.exists_mem ⟨he, Entry.appliesTo_of_answers ha⟩
        have hs := find?_isSome hd (h.applies_of_mem hi).entry ha
        rw [hk, hf] at hs
        cases hs
  entry_eq state key i hf := by
    obtain ⟨e, he⟩ := applies_of_find? hd hf
    rw [(h.applies (found state key i e hf he)).entry, he.entry]

end Carried

end Definition

end ColorTheme
