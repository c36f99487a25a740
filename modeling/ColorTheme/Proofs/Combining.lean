import Mathlib
import ColorTheme.Proofs.Built
import ColorTheme.Proofs.Lookup
/-! # Look-ups in a combination

A combination holds the entries of a base and behind them those of an overlay. What it answers
follows from what the two answer: an entry of the overlay wins when it fits at least as closely as
the one of the base. -/
namespace ColorTheme.Definition

variable {base overlay : Definition} {mode : Mode} {state : State} {key : String}

theorem entry_combine_base {i : Nat} {e : Entry} (he : base.entries[i]? = some e) :
    (base.combine overlay).entries[i]? = some e := by
  have hi : i < base.entries.size := (Array.getElem?_eq_some_iff.1 he).1
  rw [entries_combine, Array.getElem?_append_left hi, he]

theorem entry_combine_overlay (base : Definition) {j : Nat} {e : Entry}
    (he : overlay.entries[j]? = some e) :
    (base.combine overlay).entries[base.size + j]? = some e := by
  rw [entries_combine, Array.getElem?_append_right (by simp [size])]
  simpa [size] using he

/-- Every entry of a combination comes from one of the two. -/
theorem entry_of_combine {k : Nat} {e : Entry} (he : (base.combine overlay).entries[k]? = some e) :
    base.entries[k]? = some e ∨ ∃ j, k = base.size + j ∧ overlay.entries[j]? = some e := by
  rw [entries_combine] at he
  rcases Nat.lt_or_ge k base.entries.size with hk | hk
  · rw [Array.getElem?_append_left hk] at he
    exact Or.inl he
  · rw [Array.getElem?_append_right hk] at he
    exact Or.inr ⟨k - base.size, by simp only [size]; omega, he⟩

theorem lt_size_of_entry {d : Definition} {i : Nat} {e : Entry} (he : d.entries[i]? = some e) :
    i < d.size := (Array.getElem?_eq_some_iff.1 he).1

theorem IsLatest.combine_overlay {triple : Mode × State × String} {j : Nat}
    (h : overlay.IsLatest triple j) (base : Definition) :
    (base.combine overlay).IsLatest triple (base.size + j) where
  entry := h.entry.imp fun _ he => ⟨entry_combine_overlay base he.1, he.2⟩
  last k e he ht := by
    rcases entry_of_combine he with hk | ⟨k, rfl, hk⟩
    · have := lt_size_of_entry hk
      omega
    · have := h.last k e hk ht
      omega

theorem IsLatest.combine_base {triple : Mode × State × String} {i : Nat}
    (h : base.IsLatest triple i)
    (absent : ∀ (j : Nat) (e : Entry), overlay.entries[j]? = some e → e.triple ≠ triple) :
    (base.combine overlay).IsLatest triple i where
  entry := h.entry.imp fun _ he => ⟨entry_combine_base he.1, he.2⟩
  last k e he ht := by
    rcases entry_of_combine he with hk | ⟨k, rfl, hk⟩
    · exact h.last k e hk ht
    · exact absurd ht (absent k e hk)

theorem triple_ne_of_findExact? {d : Definition} (hd : d.Indexed)
    (hn : d.findExact? mode state key = none) (i : Nat) (e : Entry)
    (he : d.entries[i]? = some e) : e.triple ≠ (mode, state, key) := by
  intro ht
  obtain ⟨rfl, rfl, rfl⟩ : e.mode = mode ∧ e.state = state ∧ e.key = key := by
    simpa [Entry.triple] using ht
  have hx := findExact?_isSome hd he
  rw [hn] at hx
  cases hx

/-- The entries of a definition that answer fit no more closely than `bound`. -/
def FitWithin (d : Definition) (mode : Mode) (state : State) (key : String) (bound : Nat) : Prop :=
  ∀ (i : Nat) (e : Entry), d.entries[i]? = some e → e.key = key → e.answers mode state = true →
    e.specificity mode state ≤ bound

theorem Closest.fitWithin {d : Definition} {i : Nat} {e : Entry}
    (h : d.Closest mode state key i e) : d.FitWithin mode state key (e.specificity mode state) := by
  intro j e' he' hk ha
  have := h.last j e' he' hk ha
  omega

theorem not_answers_of_find? {d : Definition} (hd : d.Indexed)
    (hn : d.find? mode state key = none) (i : Nat) (e : Entry) (he : d.entries[i]? = some e)
    (hk : e.key = key) : e.answers mode state ≠ true := by
  intro ha
  have hf := find?_isSome hd he ha
  rw [hk, hn] at hf
  cases hf

theorem Closest.combine_overlay {j : Nat} {e : Entry} (h : overlay.Closest mode state key j e)
    (hb : base.FitWithin mode state key (e.specificity mode state)) :
    (base.combine overlay).Closest mode state key (base.size + j) e where
  entry := entry_combine_overlay base h.entry
  key_eq := h.key_eq
  answers := h.answers
  last k e' he' hk ha := by
    rcases entry_of_combine he' with hi | ⟨i, rfl, hi⟩
    · have hfit := hb k e' hi hk ha
      have hlt := lt_size_of_entry hi
      omega
    · have hlast := h.last i e' hi hk ha
      omega

theorem Closest.combine_base {i : Nat} {e : Entry} (h : base.Closest mode state key i e)
    (hlt : ∀ (j : Nat) (e' : Entry), overlay.entries[j]? = some e' → e'.key = key →
      e'.answers mode state = true → e'.specificity mode state < e.specificity mode state) :
    (base.combine overlay).Closest mode state key i e where
  entry := entry_combine_base h.entry
  key_eq := h.key_eq
  answers := h.answers
  last k e' he' hk ha := by
    rcases entry_of_combine he' with hi | ⟨j, rfl, hj⟩
    · exact h.last k e' hi hk ha
    · exact Or.inl (hlt j e' hj hk ha)

/-- What answers in a combination and stands in the base answers in the base alone. -/
theorem Closest.of_combine {i : Nat} {e : Entry}
    (h : (base.combine overlay).Closest mode state key i e) (hi : i < base.size) :
    base.Closest mode state key i e where
  entry := by
    rcases entry_of_combine h.entry with he | ⟨j, rfl, -⟩
    · exact he
    · omega
  key_eq := h.key_eq
  answers := h.answers
  last j e' he' := h.last j e' (entry_combine_base he')

theorem findExact?_combine_eq (hb : base.Indexed) (ho : overlay.Indexed) (mode : Mode)
    (state : State) (key : String) :
    (base.combine overlay).findExact? mode state key =
      ((overlay.findExact? mode state key).map (base.size + ·)).or
        (base.findExact? mode state key) := by
  have hc := indexed_combine base overlay
  cases hj : overlay.findExact? mode state key with
  | some j =>
    have latest := ((findExact?_eq_some_iff ho).1 hj).combine_overlay base
    simpa using (findExact?_eq_some_iff hc).2 latest
  | none =>
    have absent := triple_ne_of_findExact? ho hj
    cases hi : base.findExact? mode state key with
    | some i =>
      have latest := ((findExact?_eq_some_iff hb).1 hi).combine_base absent
      simpa using (findExact?_eq_some_iff hc).2 latest
    | none =>
      cases hk : (base.combine overlay).findExact? mode state key with
      | none => rfl
      | some k =>
        obtain ⟨e, he, ht⟩ := ((findExact?_eq_some_iff hc).1 hk).entry
        rcases entry_of_combine he with he | ⟨j, -, he⟩
        · exact absurd ht (triple_ne_of_findExact? hb hi k e he)
        · exact absurd ht (absent j e he)

/-- Nothing answers in a combination that answers in neither of the two. -/
theorem find?_combine_eq_none (hb : base.Indexed) (ho : overlay.Indexed)
    (hi : base.find? mode state key = none) (hj : overlay.find? mode state key = none) :
    (base.combine overlay).find? mode state key = none := by
  cases hk : (base.combine overlay).find? mode state key with
  | none => rfl
  | some k =>
    obtain ⟨e, he⟩ := closest_of_find? (indexed_combine base overlay) hk
    rcases entry_of_combine he.entry with hi' | ⟨j, -, hj'⟩
    · exact absurd he.answers (not_answers_of_find? hb hi k e hi' he.key_eq)
    · exact absurd he.answers (not_answers_of_find? ho hj j e hj' he.key_eq)

theorem Closest.find?_eq {d : Definition} (hd : d.Indexed) {i : Nat} {e : Entry}
    (h : d.Closest mode state key i e) : d.find? mode state key = some i :=
  (find?_eq_some_iff hd).2 ⟨e, h⟩

/-- Exactly, the overlay answers before the base. Otherwise the overlay's answer wins over the
base's when its entry is at least as specific. -/
theorem find?_combine (hb : base.Built) (ho : overlay.Built) (mode : Mode) (state : State)
    (key : String) :
    (base.combine overlay).findExact? mode state key =
      ((overlay.findExact? mode state key).map (base.size + ·)).or
        (base.findExact? mode state key) ∧
    match base.find? mode state key, overlay.find? mode state key with
    | none, none => (base.combine overlay).find? mode state key = none
    | some i, none => (base.combine overlay).find? mode state key = some i
    | none, some j => (base.combine overlay).find? mode state key = some (base.size + j)
    | some i, some j => ∃ e e', base.entries[i]? = some e ∧ overlay.entries[j]? = some e' ∧
        (base.combine overlay).find? mode state key =
          some (if e.specificity mode state ≤ e'.specificity mode state then base.size + j
            else i) := by
  have hc := indexed_combine base overlay
  refine ⟨findExact?_combine_eq hb.indexed ho.indexed mode state key, ?_⟩
  cases hi : base.find? mode state key with
  | none =>
    cases hj : overlay.find? mode state key with
    | none => exact find?_combine_eq_none hb.indexed ho.indexed hi hj
    | some j =>
      obtain ⟨e', he'⟩ := closest_of_find? ho.indexed hj
      refine (he'.combine_overlay fun i e he hk ha => ?_).find?_eq hc
      exact absurd ha (not_answers_of_find? hb.indexed hi i e he hk)
  | some i =>
    obtain ⟨e, he⟩ := closest_of_find? hb.indexed hi
    cases hj : overlay.find? mode state key with
    | none =>
      refine (he.combine_base fun j e' he' hk ha => ?_).find?_eq hc
      exact absurd ha (not_answers_of_find? ho.indexed hj j e' he' hk)
    | some j =>
      obtain ⟨e', he'⟩ := closest_of_find? ho.indexed hj
      refine ⟨e, e', he.entry, he'.entry, ?_⟩
      by_cases hle : e.specificity mode state ≤ e'.specificity mode state
      -- a tie goes to the overlay, all of whose entries stand behind those of the base
      · rw [if_pos hle]
        exact (he'.combine_overlay fun k other hk hkey ha =>
          (he.fitWithin k other hk hkey ha).trans hle).find?_eq hc
      · rw [if_neg hle]
        exact (he.combine_base fun k other hk hkey ha =>
          (he'.fitWithin k other hk hkey ha).trans_lt (Nat.lt_of_not_le hle)).find?_eq hc

/-- A color for every mode and state, and one that is only meant for the mode `dark`. -/
def tinted : Definition := ofEntries
  [⟨"Ink", .all, .any, .color .gray⟩, ⟨"Ink", .dark, .any, .color .black⟩]

def retinted : Definition := ofEntries [⟨"Ink", .all, .any, .color .white⟩]

theorem find?_retinted : tinted.Built ∧ retinted.Built ∧
    (tinted.combine retinted).findExact? .all .any "Ink" = some 2 ∧
    (tinted.combine retinted).find? .light .hovered "Ink" = some 2 ∧
    (tinted.combine retinted).find? .dark .hovered "Ink" = some 1 := by
  have hb : tinted.Built := built_ofEntries (by decide)
  have ho : retinted.Built := built_ofEntries (by decide)
  refine ⟨hb, ho, ?_, ?_, ?_⟩
  · rw [(find?_combine hb ho .all .any "Ink").1, ho.indexed.findExact?_eq]
    rfl
  · have h := (find?_combine hb ho .light .hovered "Ink").2
    rw [hb.indexed.find?_eq, ho.indexed.find?_eq] at h
    obtain ⟨e, e', he, he', hf⟩ := h
    cases he
    cases he'
    exact hf
  · have h := (find?_combine hb ho .dark .hovered "Ink").2
    rw [hb.indexed.find?_eq, ho.indexed.find?_eq] at h
    obtain ⟨e, e', he, he', hf⟩ := h
    cases he
    cases he'
    exact hf

end ColorTheme.Definition
