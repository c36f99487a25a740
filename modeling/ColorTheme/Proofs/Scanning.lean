import Mathlib
import ColorTheme.Proofs.Combining
/-! # Look-ups as scans

The index lists, for every key that is there and for no other, the positions of its entries in
ascending order. So a look-up may go over the candidates of its key: from the back, to the last one
of just this mode and state, or from the front, keeping the closest one so far. Both scans come to
what the look-ups answer, in every definition that can be built. -/
namespace ColorTheme.Definition

variable {d : Definition} {mode : Mode} {state : State} {key : String}

/-- The index has a list of positions for the keys of the entries and for no others. -/
def Keyed (d : Definition) : Prop := ∀ key, key ∈ d.positions ↔ ∃ e ∈ d.entries, e.key = key

theorem keyed_empty : empty.Keyed := by
  intro key
  simp [empty]

theorem Keyed.push (h : d.Keyed) (e : Entry) : (d.push e).Keyed := by
  intro key
  have hold := h key
  simp only [Definition.push, Std.HashMap.mem_alter, beq_iff_eq, Array.mem_push]
  by_cases hk : e.key = key
  · simp [hk]
  · rw [if_neg hk, hold]
    constructor
    · rintro ⟨e', he', hk'⟩
      exact ⟨e', Or.inl he', hk'⟩
    · rintro ⟨e', he' | rfl, hk'⟩
      · exact ⟨e', he', hk'⟩
      · exact absurd hk' hk

theorem Keyed.foldl_push (h : d.Keyed) (es : List Entry) :
    (es.foldl Definition.push d).Keyed := by
  induction es generalizing d with
  | nil => exact h
  | cons e es ih => exact ih (h.push e)

theorem Built.keyed (h : d.Built) : d.Keyed := by
  induction h with
  | empty => exact keyed_empty
  | @insert d d' e _ inserted ih =>
    rw [insert?] at inserted
    split at inserted
    · cases inserted
      exact ih.push e
    · cases inserted
  | read text _ ih => exact readInto_induction (fun _ e _ hd => hd.push e) text ih
  | combine =>
    rw [combine_eq_ofEntries]
    exact keyed_empty.foldl_push _

theorem toList_of_positions (hd : d.Indexed) {positions : Array Nat}
    (h : d.positions[key]? = some positions) :
    positions.toList = d.positionsOf fun e => e.key == key := by
  rw [← hd.candidates_eq, candidates, Std.HashMap.getD_eq_getD_getElem?, h, Option.getD_some]

/-- A list of positions is that of its key: ascending, without a gap and without a stranger. -/
theorem positions_spec (hd : d.Indexed) {positions : Array Nat}
    (h : d.positions[key]? = some positions) :
    positions.toList.Pairwise (· < ·) ∧
      ∀ i, i ∈ positions ↔ ∃ e, d.entries[i]? = some e ∧ e.key = key := by
  have hl := toList_of_positions hd h
  refine ⟨hl ▸ positionsOf_sorted d _, fun i => ?_⟩
  rw [← Array.mem_toList_iff, hl, mem_positionsOf]
  simp only [beq_iff_eq]

/-- The last candidate of just this mode and state, sought from the back. -/
def scanExact? (d : Definition) (mode : Mode) (state : State) (key : String) : Option Nat :=
  (d.candidates key).findRev? fun i => d.entries[i]?.any fun e => e.isFor mode state

theorem scanExact?_eq (hd : d.Indexed) (mode : Mode) (state : State) (key : String) :
    d.scanExact? mode state key = d.findExact? mode state key :=
  findRev?_candidates hd mode state key

theorem findExact?_eq_none_iff (hd : d.Indexed) :
    d.findExact? mode state key = none ↔ ∀ e ∈ d.entries, e.triple ≠ (mode, state, key) := by
  constructor
  · intro hn e he
    obtain ⟨i, hi⟩ := Array.getElem?_of_mem he
    exact triple_ne_of_findExact? hd hn i e hi
  · intro hall
    by_contra hn
    obtain ⟨i, hi⟩ := Option.ne_none_iff_exists'.1 hn
    obtain ⟨e, he, ht⟩ := ((findExact?_eq_some_iff hd).1 hi).entry
    exact hall e (Array.mem_of_getElem? he) ht

/-- Puts a candidate in place of the best one so far, each with how closely it fits, unless it does
not answer or fits less closely. -/
def keepCloser (d : Definition) (mode : Mode) (state : State) (best : Option (Nat × Nat))
    (i : Nat) : Option (Nat × Nat) :=
  match d.entries[i]? with
  | none => best
  | some e =>
    if e.answers mode state then
      let fit := e.specificity mode state
      match best with
      | none => some (fit, i)
      | some (top, j) => if top ≤ fit then some (fit, i) else some (top, j)
    else best

/-- The candidate that is left after all of them, in ascending order, were held against the best one
before them. -/
def scan? (d : Definition) (mode : Mode) (state : State) (key : String) : Option Nat :=
  ((d.candidates key).foldl (d.keepCloser mode state) none).map Prod.snd

/-- What the scan has kept once it has seen some positions. -/
inductive Best (d : Definition) (mode : Mode) (state : State) (seen : List Nat) :
    Option (Nat × Nat) → Prop
  | silent (unanswered : ∀ j ∈ seen, ∀ e, d.entries[j]? = some e → e.answers mode state ≠ true) :
      Best d mode state seen none
  | kept {i : Nat} {e : Entry} (mem : i ∈ seen) (entry : d.entries[i]? = some e)
      (answers : e.answers mode state = true)
      (last : ∀ j ∈ seen, ∀ e', d.entries[j]? = some e' → e'.answers mode state = true →
        e'.specificity mode state < e.specificity mode state ∨
          e'.specificity mode state = e.specificity mode state ∧ j ≤ i) :
      Best d mode state seen (some (e.specificity mode state, i))

/-- A position without an answer changes nothing. -/
theorem Best.skip {seen : List Nat} {best : Option (Nat × Nat)} (h : d.Best mode state seen best)
    {i : Nat} (silent : ∀ e, d.entries[i]? = some e → e.answers mode state ≠ true) :
    d.Best mode state (seen ++ [i]) best := by
  cases h with
  | silent unanswered =>
    refine .silent fun j hj e he => ?_
    rcases List.mem_append.1 hj with hj | hj
    · exact unanswered j hj e he
    · exact silent e (List.mem_singleton.1 hj ▸ he)
  | kept mem entry answers last =>
    refine .kept (List.mem_append_left _ mem) entry answers fun j hj e' he' ha' => ?_
    rcases List.mem_append.1 hj with hj | hj
    · exact last j hj e' he' ha'
    · exact absurd ha' (silent e' (List.mem_singleton.1 hj ▸ he'))

/-- A later position that fits at least as closely as all before takes their place. -/
theorem Best.replace {seen : List Nat} {i : Nat} {e : Entry} (he : d.entries[i]? = some e)
    (ha : e.answers mode state = true) (ascending : ∀ j ∈ seen, j < i)
    (within : ∀ j ∈ seen, ∀ e', d.entries[j]? = some e' → e'.answers mode state = true →
      e'.specificity mode state ≤ e.specificity mode state) :
    d.Best mode state (seen ++ [i]) (some (e.specificity mode state, i)) := by
  refine .kept (by simp) he ha fun j hj e' he' ha' => ?_
  rcases List.mem_append.1 hj with hj | hj
  · have hle := within j hj e' he' ha'
    have hlt := ascending j hj
    omega
  · obtain rfl := List.mem_singleton.1 hj
    cases Option.some.inj (he.symm.trans he')
    exact Or.inr ⟨rfl, le_rfl⟩

theorem Best.keepCloser {seen : List Nat} {best : Option (Nat × Nat)}
    (h : d.Best mode state seen best) {i : Nat} (ascending : ∀ j ∈ seen, j < i) :
    d.Best mode state (seen ++ [i]) (d.keepCloser mode state best i) := by
  rw [Definition.keepCloser]
  cases he : d.entries[i]? with
  | none => exact h.skip fun e he' => by cases he.symm.trans he'
  | some e =>
    dsimp only
    by_cases ha : e.answers mode state = true
    · rw [if_pos ha]
      cases h with
      | silent unanswered =>
        exact .replace he ha ascending fun j hj e' he' ha' => absurd ha' (unanswered j hj e' he')
      | @kept k e₀ mem entry answers last =>
        dsimp only
        by_cases hle : e₀.specificity mode state ≤ e.specificity mode state
        · rw [if_pos hle]
          refine .replace he ha ascending fun j hj e' he' ha' => ?_
          have := last j hj e' he' ha'
          omega
        · rw [if_neg hle]
          refine .kept (List.mem_append_left _ mem) entry answers fun j hj e' he' ha' => ?_
          rcases List.mem_append.1 hj with hj | hj
          · exact last j hj e' he' ha'
          · obtain rfl := List.mem_singleton.1 hj
            cases Option.some.inj (he.symm.trans he')
            exact Or.inl (Nat.lt_of_not_le hle)
    · rw [if_neg ha]
      refine h.skip fun e' he' => ?_
      cases Option.some.inj (he.symm.trans he')
      exact ha

theorem Best.foldl {seen positions : List Nat} {best : Option (Nat × Nat)}
    (h : d.Best mode state seen best) (sorted : (seen ++ positions).Pairwise (· < ·)) :
    d.Best mode state (seen ++ positions) (positions.foldl (d.keepCloser mode state) best) := by
  induction positions generalizing seen best with
  | nil => simpa using h
  | cons i positions ih =>
    have ascending : ∀ j ∈ seen, j < i := fun j hj =>
      (List.pairwise_append.1 sorted).2.2 j hj i (by simp)
    have hstep := h.keepCloser ascending
    rw [List.append_cons] at sorted ⊢
    exact ih hstep sorted

theorem scan?_eq (hd : d.Indexed) (mode : Mode) (state : State) (key : String) :
    d.scan? mode state key = d.find? mode state key := by
  have mem {j : Nat} : j ∈ (d.candidates key).toList ↔
      ∃ e, d.entries[j]? = some e ∧ e.key = key := by
    rw [hd.candidates_eq, mem_positionsOf]
    simp only [beq_iff_eq]
  have sorted : (d.candidates key).toList.Pairwise (· < ·) :=
    hd.candidates_eq key ▸ positionsOf_sorted d _
  have start : d.Best mode state [] none := .silent (by simp)
  have hbest := start.foldl sorted
  rw [List.nil_append] at hbest
  rw [scan?, ← Array.foldl_toList]
  generalize (d.candidates key).toList.foldl (d.keepCloser mode state) none = best at hbest
  cases hbest with
  | silent unanswered =>
    cases hf : d.find? mode state key with
    | none => rfl
    | some i =>
      obtain ⟨e, he⟩ := closest_of_find? hd hf
      exact absurd he.answers (unanswered i (mem.2 ⟨e, he.entry, he.key_eq⟩) e he.entry)
  | @kept i e hi entry answers last =>
    obtain ⟨e', he', hk⟩ := mem.1 hi
    cases Option.some.inj (entry.symm.trans he')
    have hclosest : d.Closest mode state key i e :=
      ⟨entry, hk, answers, fun j e' he' hk' => last j (mem.2 ⟨e', he', hk'⟩) e' he'⟩
    exact (hclosest.find?_eq hd).symm

theorem find?_eq_none_iff (hd : d.Indexed) : d.find? mode state key = none ↔
    ∀ e ∈ d.entries, e.key = key → e.answers mode state = false := by
  constructor
  · intro hn e he hk
    obtain ⟨i, hi⟩ := Array.getElem?_of_mem he
    exact Bool.eq_false_of_not_eq_true (not_answers_of_find? hd hn i e hi hk)
  · intro hall
    by_contra hn
    obtain ⟨i, hi⟩ := Option.ne_none_iff_exists'.1 hn
    obtain ⟨e, he, hk, ha, -⟩ := of_find?_eq_some hd hi
    rw [hall e (Array.mem_of_getElem? he) hk] at ha
    cases ha

/-- The index of every definition that can be built is in step with its entries. The scans over it
find the closest entry and the last one of just this mode and state, as look-ups over all entries
do, and nothing only where there is no such entry. -/
theorem Built.scans (h : d.Built) :
    (∀ key, key ∈ d.positions ↔ ∃ e ∈ d.entries, e.key = key) ∧
    (∀ (key : String) (positions : Array Nat), d.positions[key]? = some positions →
      positions.toList.Pairwise (· < ·) ∧
      ∀ i, i ∈ positions ↔ ∃ e, d.entries[i]? = some e ∧ e.key = key) ∧
    ∀ mode state key,
      d.scan? mode state key = d.find? mode state key ∧
      (∀ i, d.find? mode state key = some i ↔ ∃ e, d.Closest mode state key i e) ∧
      (d.find? mode state key = none ↔
        ∀ e ∈ d.entries, e.key = key → e.answers mode state = false) ∧
      d.scanExact? mode state key = d.findExact? mode state key ∧
      (∀ i, d.findExact? mode state key = some i ↔ d.IsLatest (mode, state, key) i) ∧
      (d.findExact? mode state key = none ↔ ∀ e ∈ d.entries, e.triple ≠ (mode, state, key)) := by
  have hd := h.indexed
  refine ⟨h.keyed, fun _ _ hp => positions_spec hd hp, fun mode state key => ?_⟩
  exact ⟨scan?_eq hd mode state key, fun _ => find?_eq_some_iff hd, find?_eq_none_iff hd,
    scanExact?_eq hd mode state key, fun _ => findExact?_eq_some_iff hd,
    findExact?_eq_none_iff hd⟩

/-- Three entries of one key, of which two stand for one name, seen by both scans. -/
theorem scans_retinted : (tinted.combine retinted).Built ∧
    "Ink" ∈ (tinted.combine retinted).positions ∧
    "Paper" ∉ (tinted.combine retinted).positions ∧
    (tinted.combine retinted).scan? .dark .hovered "Ink" = some 1 ∧
    (tinted.combine retinted).scanExact? .all .any "Ink" = some 2 ∧
    (tinted.combine retinted).scan? .dark .hovered "Paper" = none := by
  have hb : (tinted.combine retinted).Built :=
    .combine (built_ofEntries (by decide)) (built_ofEntries (by decide))
  obtain ⟨keyed, -, looked⟩ := hb.scans
  obtain ⟨hscan, -⟩ := looked .dark .hovered "Ink"
  obtain ⟨-, -, -, hexact, -⟩ := looked .all .any "Ink"
  obtain ⟨hnone, -, hsilent, -⟩ := looked .dark .hovered "Paper"
  refine ⟨hb, (keyed _).2 (by decide), fun h => ?_, ?_, ?_, ?_⟩
  · exact absurd ((keyed _).1 h) (by decide)
  · rw [hscan, hb.indexed.find?_eq]
    decide
  · rw [hexact, hb.indexed.findExact?_eq]
    decide
  · exact hnone.trans (hsilent.2 (by decide))

end ColorTheme.Definition
