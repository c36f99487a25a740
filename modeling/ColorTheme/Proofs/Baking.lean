import Mathlib
import ColorTheme.Proofs.Built
import ColorTheme.Proofs.Verdict
/-! # When baking succeeds, and how it fails

Main statements: `bake_eq_ok_iff`, by three conditions on look-ups and the look-up graph, with the
color of every cell; `bake_eq_error`, the kind of the failure and what it names. -/
namespace ColorTheme.Definition

open Relation

variable {d : Definition} {mode : Mode}

/-- A look-up answers every reference of every applicable entry. -/
def Answered (d : Definition) (mode : Mode) : Prop :=
  ∀ i e, d.Applies mode i e → ∀ r ∈ e.value.references, (d.find? mode r.state r.key).isSome

/-- No applicable entry leads back to itself. -/
def Acyclic (d : Definition) (mode : Mode) : Prop := ∀ i, ¬ TransGen (d.Leads mode) i i

/-- A look-up answers for every slot in every state that the slot is colored for. -/
def Covered (d : Definition) (mode : Mode) : Prop :=
  ∀ slot : Slot, slot ≠ .unassigned → ∀ state, slot.supports state = true →
    (d.find? mode state slot.name).isSome

theorem firstMissing?_cells_eq_none_iff :
    d.firstMissing? mode Slot.cells = none ↔ d.Covered mode := by
  rw [firstMissing?_eq_none_iff]
  constructor
  · exact fun h slot _ state hs => h slot state (Slot.mem_cells.2 hs)
  · intro h slot state hm
    have hs := Slot.mem_cells.1 hm
    refine h slot ?_ state hs
    rintro rfl
    cases hs

theorem Answered.not_exposed (h : d.Answered mode) (e : Entry) (r : Reference) :
    ¬ d.Exposed mode e r := by
  intro exposed
  obtain ⟨i, he⟩ := exposed.applies
  have hr := h i e he r exposed.mem
  rw [exposed.missing] at hr
  cases hr

theorem Answered.leads_of_stuck (hd : d.Indexed) (h : d.Answered mode) {i : Nat}
    (hi : i ∈ d.Stuck mode) : ∃ j ∈ d.Stuck mode, d.Leads mode i j := by
  obtain ⟨⟨e, he⟩, hn⟩ := hi
  by_contra hall
  apply hn
  have found : ∀ r ∈ e.value.references,
      d.find? mode r.state r.key = some ((d.find? mode r.state r.key).getD 0) := by
    intro r hr
    obtain ⟨j, hj⟩ := Option.isSome_iff_exists.1 (h i e he r hr)
    rw [hj]
    rfl
  refine .intro _ he.entry found fun r hr => ?_
  by_contra hr'
  exact hall ⟨_, ⟨applies_of_find? hd (found r hr), hr'⟩, e, he.entry, he.mode, r, hr, found r hr⟩

theorem stuck_eq_empty_iff (hd : d.Indexed) :
    d.Stuck mode = ∅ ↔ d.Answered mode ∧ d.Acyclic mode := by
  constructor
  · intro hs
    have resolvable := stuck_eq_empty_iff_resolvable.1 hs
    constructor
    · intro i e he r hr
      obtain ⟨j, hj, -⟩ := (resolvable i e he).exists_find? he.entry hr
      rw [hj]
      rfl
    · intro i hc
      obtain ⟨j, ⟨e, he, hm, -⟩, -⟩ := TransGen.head'_iff.1 hc
      exact (resolvable i e ⟨he, hm⟩).not_cyclic hc
  · rintro ⟨answered, acyclic⟩
    apply Set.eq_empty_of_forall_notMem
    intro i hi
    obtain ⟨j, -, hj⟩ := reachesCycle_of_finite (finite_stuck d mode)
      (fun k hk => answered.leads_of_stuck hd hk) hi
    exact acyclic j hj

/-- Every applicable entry is a color literal. -/
def Plain (d : Definition) (mode : Mode) : Prop :=
  ∀ i e, d.Applies mode i e → ∃ c, e.value = .color c

theorem Plain.references_eq_nil (h : d.Plain mode) {i : Nat} {e : Entry}
    (he : d.Applies mode i e) : e.value.references = [] := by
  obtain ⟨c, hc⟩ := h i e he
  rw [hc, Value.references]

theorem Plain.not_leads (h : d.Plain mode) (i j : Nat) : ¬ d.Leads mode i j := by
  rintro ⟨e, he, hm, r, hr, -⟩
  rw [h.references_eq_nil ⟨he, hm⟩] at hr
  cases hr

theorem Plain.stuck_eq_empty (hd : d.Indexed) (h : d.Plain mode) : d.Stuck mode = ∅ := by
  refine (stuck_eq_empty_iff hd).2 ⟨fun i e he r hr => ?_, fun i hc => ?_⟩
  · rw [h.references_eq_nil he] at hr
    cases hr
  · obtain ⟨j, hl, -⟩ := TransGen.head'_iff.1 hc
    exact h.not_leads i j hl

theorem bake_of_bakeWithReport_eq_ok {report : Report} (h : d.bakeWithReport mode = .ok report) :
    d.bake mode = .ok report.table := by simp [bake, h, Except.map]

theorem bake_of_bakeWithReport_eq_error {err : BakeError}
    (h : d.bakeWithReport mode = .error err) : d.bake mode = .error err := by
  simp [bake, h, Except.map]

theorem bakeWithReport_eq_ok (hd : d.Indexed) (hm : mode ≠ .debug) (hs : d.Stuck mode = ∅)
    (hc : d.Covered mode) :
    ∃ grid, d.Pictures mode grid ∧ d.bakeWithReport mode = .ok ⟨⟨mode, grid⟩, d.idle mode⟩ :=
  (verdict_bakeWithReport hd hm).eq_ok hs (firstMissing?_cells_eq_none_iff.2 hc)

/-- What a bake that succeeds says about the definition and the table. -/
theorem of_bake_eq_ok (hd : d.Indexed) (hm : mode ≠ .debug) {t : Table}
    (h : d.bake mode = .ok t) :
    d.Stuck mode = ∅ ∧ d.Covered mode ∧ ∃ grid, t = ⟨mode, grid⟩ ∧ d.Pictures mode grid := by
  rw [← firstMissing?_cells_eq_none_iff]
  have hv := verdict_bakeWithReport hd hm
  rw [bake] at h
  cases hr : d.bakeWithReport mode with
  | error err =>
    rw [hr] at h
    cases h
  | ok report =>
    rw [hr] at hv h
    cases hv with
    | @baked grid resolved covered pictures =>
      cases h
      exact ⟨resolved, covered, grid, rfl, pictures⟩

theorem resolved_of_bake (hd : d.Indexed) (hm : mode ≠ .debug) {t : Table}
    (h : d.bake mode = .ok t) : d.Stuck mode = ∅ ∧ d.Covered mode := by
  obtain ⟨resolved, covered, -⟩ := of_bake_eq_ok hd hm h
  exact ⟨resolved, covered⟩

theorem Pictures.get?_eq_some_iff {grid : Grid} (h : d.Pictures mode grid) {slot : Slot}
    {state : State} {c : Color} :
    (⟨mode, grid⟩ : Table).get? slot state = some c ↔ slot.supports state = true ∧
      ∃ i, d.find? mode state slot.name = some i ∧ d.Denotes mode i c := by
  rw [Table.get?]
  by_cases hs : slot.supports state = true
  · rw [if_pos hs, Option.some.injEq]
    obtain ⟨i, hi, hc⟩ := h.cell slot state hs
    constructor
    · rintro rfl
      exact ⟨hs, i, hi, hc⟩
    · rintro ⟨-, j, hj, hc'⟩
      cases Option.some.inj (hi.symm.trans hj)
      exact hc.unique hc'
  · simp [hs]

theorem Denotes.eq_of_literal {i : Nat} {e : Entry} {c c' : Color} (h : d.Denotes mode i c)
    (he : d.entries[i]? = some e) (hv : e.value = .color c') : c = c' := by
  obtain ⟨next, colors, entry, -, -⟩ := h
  cases Option.some.inj (entry.symm.trans he)
  rw [hv, Value.evaluate]

/-- A cell that finds a color literal has that color. -/
theorem Pictures.cell_of_literal {grid : Grid} (h : d.Pictures mode grid) {slot : Slot}
    {state : State} (hs : slot.supports state = true) {i : Nat} {e : Entry} {c : Color}
    (hi : d.find? mode state slot.name = some i) (he : d.entries[i]? = some e)
    (hv : e.value = .color c) : grid.cell slot state = c := by
  obtain ⟨j, hj, hc⟩ := h.cell slot state hs
  cases Option.some.inj (hi.symm.trans hj)
  exact hc.eq_of_literal he hv

theorem bake_eq_ok_iff (hd : d.Built) (hm : mode ≠ .debug) :
    ((∃ t, d.bake mode = .ok t) ↔ d.Answered mode ∧ d.Acyclic mode ∧ d.Covered mode) ∧
      ∀ t, d.bake mode = .ok t → t.mode = mode ∧
        ∀ slot state c, t.get? slot state = some c ↔ slot.supports state = true ∧
          ∃ i, d.find? mode state slot.name = some i ∧ d.Denotes mode i c := by
  have hv := verdict_bakeWithReport hd.indexed hm
  rw [← and_assoc, ← stuck_eq_empty_iff hd.indexed, ← firstMissing?_cells_eq_none_iff]
  generalize hr : d.bakeWithReport mode = result at hv
  cases hv with
  | @unknown e r exposed =>
    have hb := bake_of_bakeWithReport_eq_error hr
    have hs := exposed.stuck.ne_empty
    simp [hb, hs]
  | unresolved sheltered least =>
    have hb := bake_of_bakeWithReport_eq_error hr
    have hs := Set.Nonempty.ne_empty ⟨_, least.1⟩
    simp [hb, hs]
  | missing resolved first =>
    have hb := bake_of_bakeWithReport_eq_error hr
    simp [hb, first]
  | @baked grid resolved covered pictures =>
    have hb := bake_of_bakeWithReport_eq_ok hr
    refine ⟨⟨fun _ => ⟨resolved, covered⟩, fun _ => ⟨_, hb⟩⟩, fun t ht => ?_⟩
    cases hb.symm.trans ht
    exact ⟨rfl, fun slot state c => pictures.get?_eq_some_iff⟩

/-- Every slot takes the color of one entry, which stands behind them all. -/
def inked : Definition := ofEntries <|
  (Slot.filled.map fun slot => ⟨slot.name, .all, .any, .reference ⟨"Ink", .any⟩⟩) ++
    [⟨"Ink", .all, .any, .color .gray⟩]

theorem built_inked : inked.Built := built_ofEntries (by decide)

theorem find?_ink : inked.find? .dark .any "Ink" = some 17 := by
  rw [built_inked.indexed.find?_eq]
  decide

theorem mem_references_inked {i : Nat} {e : Entry} (he : inked.Applies .dark i e) {r : Reference}
    (hr : r ∈ e.value.references) : r = ⟨"Ink", .any⟩ := by
  have hall : ∀ e ∈ inked.entries, ∀ r ∈ e.value.references, r = ⟨"Ink", .any⟩ := by decide
  exact hall e (Array.mem_of_getElem? he.entry) r hr

theorem answered_inked : inked.Answered .dark := by
  intro i e he r hr
  rw [mem_references_inked he hr, find?_ink]
  rfl

theorem acyclic_inked : inked.Acyclic .dark := by
  have hlead : ∀ i j, inked.Leads .dark i j → j = 17 := by
    rintro i j ⟨e, he, hm, r, hr, hf⟩
    rw [mem_references_inked ⟨he, hm⟩ hr, find?_ink] at hf
    exact (Option.some.inj hf).symm
  intro i hc
  obtain ⟨k, -, hki⟩ := TransGen.tail'_iff.1 hc
  obtain ⟨j, ⟨e, he, -, r, hr, -⟩, -⟩ := TransGen.head'_iff.1 hc
  rw [hlead k i hki] at he
  cases he
  cases hr

theorem covered_inked : inked.Covered .dark := by
  intro slot hs state _
  have hall : ∀ slot ∈ Slot.filled, ∃ e ∈ inked.entries, e.key = slot.name ∧ e.mode = .all ∧
      e.state = .any := by decide
  obtain ⟨e, he, hk, hm, hst⟩ := hall slot (Slot.mem_filled.2 hs)
  obtain ⟨i, hi⟩ := Array.getElem?_of_mem he
  have ha : e.answers .dark state = true := Entry.answers_iff.2 ⟨.inr hm, .inr hst⟩
  exact hk ▸ find?_isSome built_inked.indexed hi ha

theorem exists_bake_inked : inked.Built ∧ Mode.dark ≠ .debug ∧
    ∃ t, inked.bake .dark = .ok t ∧ t.get? .selected .hovered = some .gray := by
  refine ⟨built_inked, by decide, ?_⟩
  obtain ⟨⟨-, hok⟩, hcell⟩ := bake_eq_ok_iff built_inked (show Mode.dark ≠ .debug by decide)
  obtain ⟨t, ht⟩ := hok ⟨answered_inked, acyclic_inked, covered_inked⟩
  refine ⟨t, ht, ((hcell t ht).2 _ _ _).2 ⟨by decide, 5, ?_, ?_⟩⟩
  · rw [built_inked.indexed.find?_eq]
    decide
  · have hink : inked.Denotes .dark 17 .gray :=
      .intro (e := ⟨"Ink", .all, .any, .color .gray⟩) (fun _ => 0) (fun _ => .gray) rfl
        (by simp [Value.references]) (by simp [Value.references])
    exact .intro (e := ⟨"Selected", .all, .any, .reference ⟨"Ink", .any⟩⟩) (fun _ => 17)
      (fun _ => .gray) rfl (by simp [Value.references, find?_ink])
      (by simp [Value.references, hink])

/-- An exposed reference is reported before anything else. Without one, the first entry that cannot
be resolved is reported with the number of the others; all of them come to a cycle. -/
theorem bake_eq_error (hd : d.Built) (hm : mode ≠ .debug) :
    ((∃ e r, d.Exposed mode e r) →
      ∃ e r, d.Exposed mode e r ∧ d.bake mode = .error (.unknownReference e.qualifiedKey r.text)) ∧
    ((∀ e r, ¬ d.Exposed mode e r) → (d.Stuck mode).Nonempty →
      ∃ i e remaining, IsLeast (d.Stuck mode) i ∧ d.entries[i]? = some e ∧
        (d.Stuck mode).ncard = remaining + 1 ∧ (∀ j ∈ d.Stuck mode, d.ReachesCycle mode j) ∧
        d.bake mode = .error (.unresolved e.qualifiedKey remaining)) ∧
    ((∀ e r, ¬ d.Exposed mode e r) → d.Stuck mode = ∅ →
      ∀ slot state, d.firstMissing? mode Slot.cells = some (slot, state) →
        d.bake mode = .error (.missingCell slot state)) ∧
    ((∀ e r, ¬ d.Exposed mode e r) → d.Stuck mode = ∅ →
      d.firstMissing? mode Slot.cells = none → ∃ t, d.bake mode = .ok t) := by
  have hv := verdict_bakeWithReport hd.indexed hm
  refine ⟨fun hx => ?_, fun hx hs => ?_, fun _ hs slot state hf => ?_, fun _ hs hf => ?_⟩
  · obtain ⟨e, r, exposed, hr⟩ := hv.eq_unknown hx
    exact ⟨e, r, exposed, bake_of_bakeWithReport_eq_error hr⟩
  · obtain ⟨i, e, n, least, entry, count, cyclic, hr⟩ := hv.eq_unresolved hx hs
    exact ⟨i, e, n, least, entry, count, cyclic, bake_of_bakeWithReport_eq_error hr⟩
  · exact bake_of_bakeWithReport_eq_error (hv.eq_missing hs hf)
  · obtain ⟨grid, -, hr⟩ := hv.eq_ok hs hf
    exact ⟨_, bake_of_bakeWithReport_eq_ok hr⟩

/-- Two entries that refer to each other, and a call whose unknown name stands behind one of
them. -/
def tangled : Definition := ofEntries
  [⟨"A", .all, .any, .reference ⟨"B", .any⟩⟩, ⟨"B", .all, .any, .reference ⟨"A", .any⟩⟩,
    ⟨"C", .all, .any,
      .call .contrast [.entry ⟨"A", .any⟩, .entry ⟨"Nowhere", .any⟩, .entry ⟨"B", .any⟩]⟩]

theorem built_tangled : tangled.Built := built_ofEntries (by decide)

theorem find?_tangled :
    tangled.find? .dark .any "A" = some 0 ∧ tangled.find? .dark .any "B" = some 1 := by
  rw [built_tangled.indexed.find?_eq, built_tangled.indexed.find?_eq]
  decide

/-- Every entry begins with a reference that is answered. -/
theorem references_tangled {e : Entry} (he : e ∈ tangled.entries) : ∃ r rest,
    e.value.references = r :: rest ∧ ∃ i, tangled.find? .dark r.state r.key = some i := by
  obtain ⟨hA, hB⟩ := find?_tangled
  have hall : ∀ e ∈ tangled.entries, e.value.references.head? = some ⟨"A", .any⟩ ∨
      e.value.references.head? = some ⟨"B", .any⟩ := by decide
  rcases hall e he with hr | hr
  · obtain ⟨rest, hrest⟩ := List.head?_eq_some_iff.1 hr
    exact ⟨_, rest, hrest, 0, hA⟩
  · obtain ⟨rest, hrest⟩ := List.head?_eq_some_iff.1 hr
    exact ⟨_, rest, hrest, 1, hB⟩

theorem not_resolvable_tangled (i : Nat) : ¬ tangled.Resolvable .dark i := by
  intro h
  induction h with
  | intro next entry found onward ih =>
    obtain ⟨r, rest, hr, -⟩ := references_tangled (Array.mem_of_getElem? entry)
    exact ih r (by simp [hr])

theorem stuck_tangled : tangled.Stuck .dark = (Finset.range 3 : Finset Nat) := by
  ext i
  simp only [Finset.coe_range, Set.mem_Iio]
  constructor
  · rintro ⟨⟨e, he⟩, -⟩
    exact he.lt_size
  · intro hi
    refine ⟨?_, not_resolvable_tangled i⟩
    interval_cases i
    all_goals exact ⟨_, rfl, rfl⟩

theorem not_exposed_tangled (e : Entry) (r : Reference) : ¬ tangled.Exposed .dark e r := by
  rintro ⟨⟨i, he⟩, missing, before, after, split, through⟩
  obtain ⟨r', rest, hr, j, hj⟩ := references_tangled (Array.mem_of_getElem? he.entry)
  cases before with
  | nil =>
    cases hr.symm.trans split
    cases missing.symm.trans hj
  | cons b before =>
    obtain ⟨k, -, hk⟩ := through b (by simp)
    exact not_resolvable_tangled k hk

theorem bake_tangled : tangled.Built ∧ Mode.dark ≠ .debug ∧
    tangled.bake .dark = .error (.unresolved "A" 2) := by
  refine ⟨built_tangled, by decide, ?_⟩
  obtain ⟨-, hstuck, -⟩ := bake_eq_error built_tangled (show Mode.dark ≠ .debug by decide)
  have hzero : IsLeast (tangled.Stuck .dark) 0 := by simp [stuck_tangled, IsLeast, lowerBounds]
  obtain ⟨i, e, n, least, entry, count, -, hb⟩ := hstuck not_exposed_tangled ⟨0, hzero.1⟩
  cases least.unique hzero
  cases entry
  rw [stuck_tangled, Set.ncard_coe_finset, Finset.card_range] at count
  obtain rfl : n = 2 := by omega
  exact hb

end ColorTheme.Definition
