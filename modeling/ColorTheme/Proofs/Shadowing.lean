import Mathlib
import ColorTheme.Proofs.Baking
import ColorTheme.Proofs.Isolation
import ColorTheme.Proofs.Scanning
/-! # Shadowed entries

Combining keeps entries that a later one of the same mode, state and key stands behind. No look-up
finds them, so they decide no color; but a bake asks for their references as well. Without them it
comes to the same table, and with them it can fail only by one of their references. -/
namespace ColorTheme.Definition

open Relation

variable {d : Definition} {mode : Mode}

/-- The entries of a list that none of the same mode, state and key stands behind. -/
def lasting : List Entry → List Entry
  | [] => []
  | e :: es => if ∃ e' ∈ es, e'.triple = e.triple then lasting es else e :: lasting es

def deduplicate (d : Definition) : Definition := ofEntries (lasting d.entries.toList)

/-- The entries that apply to the mode and are not shadowed, with their positions. -/
def unshadowed (d : Definition) (mode : Mode) : List (Entry × ℕ) :=
  (d.applicable mode).filter fun x => !d.isShadowed x.2

theorem mem_unshadowed {i : ℕ} {e : Entry} :
    (e, i) ∈ d.unshadowed mode ↔ d.Applies mode i e ∧ d.isShadowed i = false := by
  rw [unshadowed, List.mem_filter, mem_applicable, Bool.not_eq_true']

theorem mem_of_mem_lasting {e : Entry} {es : List Entry} (h : e ∈ lasting es) : e ∈ es := by
  induction es with
  | nil => cases h
  | cons e' es ih =>
    rw [lasting] at h
    split at h
    · exact List.mem_cons_of_mem _ (ih h)
    · rcases List.mem_cons.1 h with rfl | h
      · exact List.mem_cons_self
      · exact List.mem_cons_of_mem _ (ih h)

theorem Built.deduplicate (h : d.Built) : d.deduplicate.Built :=
  built_ofEntries fun e he => h.wellTyped e (Array.mem_toList_iff.1 (mem_of_mem_lasting he))

/-- What a look-up finds is not shadowed. -/
theorem not_isShadowed_of_find? (hd : d.Indexed) {state : State} {key : String} {i : ℕ}
    (hf : d.find? mode state key = some i) : d.isShadowed i = false := by
  obtain ⟨e, he, -, -, latest⟩ := of_find?_eq_some hd hf
  exact (isShadowed_eq_false_iff hd he).2 latest

theorem not_isShadowed_of_findExact? (hd : d.Indexed) {state : State} {key : String} {i : ℕ}
    (hf : d.findExact? mode state key = some i) : d.isShadowed i = false := by
  have latest := (findExact?_eq_some_iff hd).1 hf
  obtain ⟨e, he, ht⟩ := latest.entry
  exact (isShadowed_eq_false_iff hd he).2 (ht ▸ latest)

/-- An entry of just the mode and state that are asked for wins over all wildcards. -/
theorem find?_of_isLatest (hd : d.Indexed) {state : State} {key : String} {i : ℕ}
    (h : d.IsLatest (mode, state, key) i) : d.find? mode state key = some i := by
  rw [find?, (findExact?_eq_some_iff hd).2 h]
  rfl

theorem isShadowed_eq_any (hd : d.Indexed) {i : ℕ} {e : Entry} (he : d.entries[i]? = some e) :
    d.isShadowed i = (d.candidates e.key).any fun j =>
      i < j && d.entries[j]?.any fun other => other.isFor e.mode e.state := by
  rw [Bool.eq_iff_iff, isShadowed_iff hd he, ← Array.any_toList, List.any_eq_true,
    hd.candidates_eq]
  simp only [mem_positionsOf, Entry.triple, Entry.isFor, Prod.mk.injEq, Bool.and_eq_true,
    decide_eq_true_eq, Option.any_eq_true, beq_iff_eq]
  constructor
  · rintro ⟨j, e', he', ⟨hm, hs, hk⟩, hij⟩
    exact ⟨j, ⟨e', he', hk⟩, hij, e', he', hm, hs⟩
  · rintro ⟨j, ⟨e', he', hk⟩, hij, e'', he'', hm, hs⟩
    cases Option.some.inj (he'.symm.trans he'')
    exact ⟨j, e', he', ⟨hm, hs, hk⟩, hij⟩

/-- The test for shadowing, a scan of the later candidates for the same mode and state, tells just
the entries that no look-up finds, whatever is asked for. Any other entry is found under its own
mode, state and key. -/
theorem Built.isShadowed_iff_unfound (h : d.Built) {i : ℕ} {e : Entry}
    (he : d.entries[i]? = some e) :
    (d.isShadowed i = (d.candidates e.key).any fun j =>
      i < j && d.entries[j]?.any fun other => other.isFor e.mode e.state) ∧
    (d.isShadowed i = false ↔ d.find? e.mode e.state e.key = some i) ∧
    (d.isShadowed i = true ↔ ∀ mode state key,
      d.find? mode state key ≠ some i ∧ d.findExact? mode state key ≠ some i) := by
  have hd := h.indexed
  have found : d.isShadowed i = false → d.find? e.mode e.state e.key = some i :=
    fun hs => find?_of_isLatest hd ((isShadowed_eq_false_iff hd he).1 hs)
  refine ⟨isShadowed_eq_any hd he, ⟨found, not_isShadowed_of_find? hd⟩, fun hs mode state key => ?_,
    fun unfound => ?_⟩
  · constructor <;> intro hf
    · rw [not_isShadowed_of_find? hd hf] at hs
      cases hs
    · rw [not_isShadowed_of_findExact? hd hf] at hs
      cases hs
  · by_contra hn
    exact (unfound e.mode e.state e.key).1 (found (Bool.eq_false_of_not_eq_true hn))

/-- Of three entries of one key the first and the last are for all modes and any state. -/
theorem isShadowed_retinted : (tinted.combine retinted).Built ∧
    (tinted.combine retinted).entries[0]? = some ⟨"Ink", .all, .any, .color .gray⟩ ∧
    (tinted.combine retinted).isShadowed 0 = true ∧
    (∀ mode state key, (tinted.combine retinted).find? mode state key ≠ some 0) ∧
    (tinted.combine retinted).entries[1]? = some ⟨"Ink", .dark, .any, .color .black⟩ ∧
    (tinted.combine retinted).isShadowed 1 = false := by
  have hb : (tinted.combine retinted).Built :=
    .combine (built_ofEntries (by decide)) (built_ofEntries (by decide))
  have first : (tinted.combine retinted).entries[0]? = some ⟨"Ink", .all, .any, .color .gray⟩ := by
    rw [entries_combine]
    rfl
  have second : (tinted.combine retinted).entries[1]? =
      some ⟨"Ink", .dark, .any, .color .black⟩ := by
    rw [entries_combine]
    rfl
  obtain ⟨-, -, hshadowed⟩ := hb.isShadowed_iff_unfound first
  obtain ⟨-, hfound, -⟩ := hb.isShadowed_iff_unfound second
  have shadowed : (tinted.combine retinted).isShadowed 0 = true :=
    (isShadowed_iff hb.indexed first).2
      ⟨2, ⟨"Ink", .all, .any, .color .white⟩, by rw [entries_combine]; rfl, rfl, by decide⟩
  refine ⟨hb, first, shadowed, fun mode state key => (hshadowed.1 shadowed mode state key).1,
    second, hfound.2 ?_⟩
  rw [hb.indexed.find?_eq]
  decide

/-- The entries behind a position are the rest of the list. -/
theorem isShadowed_iff_mem_drop (hd : d.Indexed) {n : ℕ} {e : Entry} {es : List Entry}
    (h : d.entries.toList.drop n = e :: es) :
    d.isShadowed n = true ↔ ∃ e' ∈ es, e'.triple = e.triple := by
  have hrest : es = d.entries.toList.drop (n + 1) := by rw [← List.tail_drop, h, List.tail_cons]
  have entry : d.entries[n]? = some e := by
    rw [← Array.getElem?_toList, ← List.head?_drop, h, List.head?_cons]
  rw [isShadowed_iff hd entry, hrest]
  constructor
  · rintro ⟨j, e', he', ht, hnj⟩
    refine ⟨e', List.mem_iff_getElem?.2 ⟨j - (n + 1), ?_⟩, ht⟩
    rw [List.getElem?_drop, Nat.add_sub_cancel' hnj, Array.getElem?_toList, he']
  · rintro ⟨e', hm, ht⟩
    obtain ⟨k, hk⟩ := List.mem_iff_getElem?.1 hm
    rw [List.getElem?_drop, Array.getElem?_toList] at hk
    exact ⟨_, e', hk, ht, by omega⟩

theorem lasting_eq (hd : d.Indexed) : lasting d.entries.toList =
    (d.entries.toList.zipIdx.filter fun x => !d.isShadowed x.2).map Prod.fst := by
  suffices behind : ∀ es n, d.entries.toList.drop n = es → lasting es =
      ((es.zipIdx n).filter fun x => !d.isShadowed x.2).map Prod.fst from
    behind _ 0 List.drop_zero
  intro es
  induction es with
  | nil => exact fun _ _ => rfl
  | cons e es ih =>
    intro n hn
    have hrest := ih (n + 1) (by rw [← List.tail_drop, hn, List.tail_cons])
    have hshadow := isShadowed_iff_mem_drop hd hn
    rw [lasting, List.zipIdx_cons, List.filter_cons]
    by_cases h : ∃ e' ∈ es, e'.triple = e.triple
    · simp [if_pos h, hshadow.2 h, hrest]
    · simp [if_neg h, Bool.eq_false_of_not_eq_true (mt hshadow.1 h), hrest]

theorem map_fst_unshadowed (hd : d.Indexed) :
    (d.unshadowed mode).map Prod.fst = (d.deduplicate.applicable mode).map Prod.fst := by
  rw [map_fst_applicable, own, deduplicate, entries_ofEntries, lasting_eq hd, List.filter_map,
    List.filter_filter, unshadowed, applicable, List.filter_filter]
  congr 2
  funext x
  exact Bool.and_comm _ _

/-- The entries left over keep their order, and look-ups find the same ones. -/
theorem exists_corresponds (hd : d.Indexed) (mode : Mode) :
    ∃ ρ, Carried ρ mode (d.unshadowed mode) d d.deduplicate ∧
      Corresponds ρ mode d d.deduplicate := by
  obtain ⟨ρ, carried⟩ : ∃ ρ, Carried ρ mode (d.unshadowed mode) d d.deduplicate :=
    exists_carried List.filter_sublist (map_fst_unshadowed hd)
  refine ⟨ρ, carried, carried.corresponds hd (indexed_ofEntries _) fun _ _ _ _ hf he => ?_⟩
  exact mem_unshadowed.2 ⟨he, not_isShadowed_of_find? hd hf⟩

theorem stuck_deduplicate (hd : d.Indexed) (resolved : d.Stuck mode = ∅) :
    d.deduplicate.Stuck mode = ∅ := by
  obtain ⟨ρ, carried, corresponds⟩ := exists_corresponds hd mode
  refine stuck_eq_empty_iff_resolvable.2 fun j e he => ?_
  obtain ⟨i, hi, rfl⟩ := carried.exists_mem he
  have applies := carried.applies_of_mem hi
  have hr := stuck_eq_empty_iff_resolvable.1 resolved i e applies
  exact corresponds.resolvable (he.entry.trans applies.entry.symm) hr

theorem resolvable_of_deduplicate (hd : d.Indexed) (resolved : d.deduplicate.Stuck mode = ∅)
    {i : ℕ} {e : Entry} (he : d.Applies mode i e) (hs : d.isShadowed i = false) :
    d.Resolvable mode i := by
  obtain ⟨ρ, carried, corresponds⟩ := exists_corresponds hd mode
  have applies := carried.applies (mem_unshadowed.2 ⟨he, hs⟩)
  have hr := stuck_eq_empty_iff_resolvable.1 resolved _ e applies
  exact corresponds.of_resolvable (applies.entry.trans he.entry.symm) hr

/-- Every entry on a cycle is found by a look-up, so that a cycle would be there without the
shadowed entries as well. -/
theorem acyclic_of_deduplicate (hd : d.Indexed) (resolved : d.deduplicate.Stuck mode = ∅) :
    d.Acyclic mode := by
  intro j hj
  obtain ⟨i, -, e, -, -, r, -, hf⟩ := TransGen.tail'_iff.1 hj
  obtain ⟨e', he'⟩ := applies_of_find? hd hf
  exact (resolvable_of_deduplicate hd resolved he' (not_isShadowed_of_find? hd hf)).not_cyclic hj

/-- Only a shadowed entry can have a reference that leads nowhere. -/
theorem isShadowed_of_exposed (hd : d.Indexed) (resolved : d.deduplicate.Stuck mode = ∅)
    {e : Entry} {r : Reference} (h : d.Exposed mode e r) :
    ∃ i, d.Applies mode i e ∧ d.isShadowed i = true ∧ r ∈ e.value.references := by
  obtain ⟨i, he⟩ := h.applies
  refine ⟨i, he, ?_, h.mem⟩
  by_contra hs
  exact h.not_resolvable he
    (resolvable_of_deduplicate hd resolved he (Bool.eq_false_of_not_eq_true hs))

/-- What a bake comes to if it succeeds without the shadowed entries. -/
theorem bake_of_deduplicate (hd : d.Indexed) (hm : mode ≠ .debug) {grid : Grid}
    (resolved : d.deduplicate.Stuck mode = ∅) (covered : d.deduplicate.Covered mode)
    (pictures : d.deduplicate.Pictures mode grid) :
    d.bake mode = .ok ⟨mode, grid⟩ ∨
      ∃ i e r, d.Applies mode i e ∧ d.isShadowed i = true ∧ r ∈ e.value.references ∧
        d.find? mode r.state r.key = none ∧
        d.bake mode = .error (.unknownReference e.qualifiedKey r.text) := by
  obtain ⟨ρ, -, corresponds⟩ := exists_corresponds hd mode
  have hv := verdict_bakeWithReport hd hm
  generalize hr : d.bakeWithReport mode = result at hv
  cases hv with
  | @unknown e r exposed =>
    obtain ⟨i, he, hs, hmem⟩ := isShadowed_of_exposed hd resolved exposed
    exact Or.inr ⟨i, e, r, he, hs, hmem, exposed.missing, bake_of_bakeWithReport_eq_error hr⟩
  | unresolved _ least _ _ cyclic =>
    obtain ⟨j, -, hj⟩ := cyclic _ least.1
    exact absurd hj (acyclic_of_deduplicate hd resolved j)
  | missing _ first =>
    rw [← corresponds.firstMissing?_eq, firstMissing?_cells_eq_none_iff.2 covered] at first
    cases first
  | @baked grid' _ _ pictures' =>
    rw [bake_of_bakeWithReport_eq_ok hr, (corresponds.pictures pictures').unique pictures]
    exact Or.inl rfl

/-- Shadowed entries never decide a color. A bake that succeeds comes to the same table without
them. One that succeeds without them comes to the same table with them, unless a shadowed entry has
a reference that leads nowhere. -/
theorem bake_deduplicate (hd : d.Built) (mode : Mode) :
    (∀ t, d.bake mode = .ok t → d.deduplicate.bake mode = .ok t) ∧
    ∀ t, d.deduplicate.bake mode = .ok t → d.bake mode = .ok t ∨
      ∃ i e r, d.Applies mode i e ∧ d.isShadowed i = true ∧ r ∈ e.value.references ∧
        d.find? mode r.state r.key = none ∧
        d.bake mode = .error (.unknownReference e.qualifiedKey r.text) := by
  have hd' := hd.deduplicate.indexed
  by_cases hm : mode = .debug
  · subst hm
    exact ⟨fun t ht => ht, fun t ht => Or.inl ht⟩
  refine ⟨fun t ht => ?_, fun t ht => ?_⟩
  · obtain ⟨ρ, -, corresponds⟩ := exists_corresponds hd.indexed mode
    obtain ⟨resolved, covered, grid, rfl, pictures⟩ := of_bake_eq_ok hd.indexed hm ht
    rw [← firstMissing?_cells_eq_none_iff, ← corresponds.firstMissing?_eq,
      firstMissing?_cells_eq_none_iff] at covered
    obtain ⟨grid', pictures', hbake⟩ :=
      bakeWithReport_eq_ok hd' hm (stuck_deduplicate hd.indexed resolved) covered
    rw [bake_of_bakeWithReport_eq_ok hbake, pictures'.unique (corresponds.pictures pictures)]
  · obtain ⟨resolved, covered, grid, rfl, pictures⟩ := of_bake_eq_ok hd' hm ht
    exact bake_of_deduplicate hd.indexed hm resolved covered pictures

/-- The entry that all slots take their color from shadows one with a reference to nowhere. -/
def overinked : Definition := ofEntries <|
  ⟨"Ink", .all, .any, .reference ⟨"Nowhere", .hovered⟩⟩ :: inked.entries.toList

theorem bake_overinked : overinked.Built ∧
    (∃ t, overinked.deduplicate.bake .dark = .ok t) ∧
    overinked.bake .dark = .error (.unknownReference "Ink" "Nowhere_Hovered") := by
  have hb : overinked.Built := built_ofEntries (by decide)
  have hsame : overinked.deduplicate = inked := by
    have hlasting : lasting overinked.entries.toList = inked.entries.toList := by
      decide +kernel
    rw [deduplicate, hlasting, inked, entries_ofEntries]
  have resolved : inked.Stuck .dark = ∅ :=
    (stuck_eq_empty_iff built_inked.indexed).2 ⟨answered_inked, acyclic_inked⟩
  obtain ⟨grid, -, hr⟩ :=
    bakeWithReport_eq_ok built_inked.indexed (by decide) resolved covered_inked
  have baked := bake_of_bakeWithReport_eq_ok hr
  rw [← hsame] at baked
  refine ⟨hb, ⟨_, baked⟩, ?_⟩
  rcases (bake_deduplicate hb .dark).2 _ baked with ht | ⟨i, e, r, he, -, hmem, hf, hbake⟩
  · -- the reference to nowhere is asked for all the same
    obtain ⟨resolved', -⟩ := resolved_of_bake hb.indexed (by decide) ht
    obtain ⟨answered, -⟩ := (stuck_eq_empty_iff hb.indexed).1 resolved'
    have hsome := answered 0 _ ⟨rfl, rfl⟩ ⟨"Nowhere", .hovered⟩ (by decide)
    have hnone : overinked.find? .dark .hovered "Nowhere" = none := by
      rw [hb.indexed.find?_eq]
      decide +kernel
    rw [hnone] at hsome
    cases hsome
  · have hall : ∀ e ∈ overinked.entries, ∀ r ∈ e.value.references,
        r = ⟨"Ink", .any⟩ ∨ r = ⟨"Nowhere", .hovered⟩ ∧ e.qualifiedKey = "Ink" := by decide +kernel
    rcases hall e (Array.mem_of_getElem? he.entry) r hmem with rfl | ⟨rfl, hk⟩
    · have hink : (overinked.find? .dark .any "Ink").isSome := by
        rw [hb.indexed.find?_eq]
        decide +kernel
      rw [hf] at hink
      cases hink
    · rw [hbake, hk]
      rfl

end ColorTheme.Definition
