import Mathlib
import ColorTheme.Proofs.Grounding
/-! # Entries that nothing leads to

Looking a reference up marks the entry that it comes upon, in whatever pass that happens and whether
or not that entry has its color by then. When a bake succeeds, the marks are those that following
every reference once would set, and the report of unused entries can be read off the definition. -/
namespace ColorTheme

theorem Slot.ofKey?_eq_none_iff {key : String} :
    ofKey? key = none ↔ ∀ slot : Slot, slot ≠ unassigned → slot.name ≠ key := by
  simp [ofKey?, mem_filled]

namespace Definition

variable {d : Definition} {mode : Mode}

/-- The entry at `i` takes part, names no slot, has no later one of its mode, state and key, and no
reference of an entry that takes part leads to it. -/
structure Idle (d : Definition) (mode : Mode) (i : Nat) (e : Entry) : Prop where
  applies : d.Applies mode i e
  unnamed : ∀ slot : Slot, slot ≠ .unassigned → slot.name ≠ e.key
  last : ∀ j e', d.entries[j]? = some e' → e'.triple = e.triple → j ≤ i
  unreferenced : ∀ k e', d.Applies mode k e' → ∀ r ∈ e'.value.references,
    d.find? mode r.state r.key ≠ some i

/-- Whether an entry is idle can be found out by going over the entries and slots that there are. -/
theorem idle_iff_bounded {i : Nat} {e : Entry} :
    d.Idle mode i e ↔ (e, i) ∈ d.applicable mode ∧ (∀ slot ∈ Slot.filled, slot.name ≠ e.key) ∧
      (∀ x ∈ d.entries.toList.zipIdx, x.1.triple = e.triple → x.2 ≤ i) ∧
      ∀ x ∈ d.applicable mode, ∀ r ∈ x.1.value.references,
        d.find? mode r.state r.key ≠ some i := by
  constructor
  · rintro ⟨applies, unnamed, last, unreferenced⟩
    refine ⟨mem_applicable.2 applies, fun slot hs => unnamed slot (Slot.mem_filled.1 hs), ?_, ?_⟩
    · rintro ⟨e', j⟩ hx
      rw [List.mem_zipIdx_iff_getElem?, Array.getElem?_toList] at hx
      exact last j e' hx
    · rintro ⟨e', k⟩ hx
      exact unreferenced k e' (mem_applicable.1 hx)
  · rintro ⟨applies, unnamed, last, unreferenced⟩
    exact {
      applies := mem_applicable.1 applies
      unnamed := fun slot hs => unnamed slot (Slot.mem_filled.2 hs)
      last := fun j e' he => last (e', j) (mem_zipIdx_of_entry he)
      unreferenced := fun k e' he => unreferenced (e', k) (mem_applicable.2 he) }

instance (d : Definition) (mode : Mode) (i : Nat) (e : Entry) : Decidable (d.Idle mode i e) :=
  decidable_of_iff _ idle_iff_bounded.symm

theorem not_isShadowed_iff (hd : d.Indexed) {i : Nat} {e : Entry} (he : d.entries[i]? = some e) :
    ¬ d.isShadowed i = true ↔
      ∀ j e', d.entries[j]? = some e' → e'.triple = e.triple → j ≤ i := by
  rw [isShadowed_iff hd he]
  push Not
  rfl

theorem not_leads_iff {i : Nat} :
    (¬ ∃ k, d.Leads mode k i) ↔ ∀ k e, d.Applies mode k e → ∀ r ∈ e.value.references,
      d.find? mode r.state r.key ≠ some i := by
  constructor
  · intro h k e he r hr hf
    exact h ⟨k, e, he.entry, he.mode, r, hr, hf⟩
  · rintro h ⟨k, e, he, hm, r, hr, hf⟩
    exact h k e ⟨he, hm⟩ r hr hf

theorem idle_iff_of_applies (hd : d.Indexed) {i : Nat} {e : Entry} (he : d.Applies mode i e) :
    d.Idle mode i e ↔ ¬ ((∃ k, d.Leads mode k i) ∨ (Slot.ofKey? e.key).isSome ∨
      d.isShadowed i = true) := by
  rw [not_or, not_or, not_leads_iff, not_isShadowed_iff hd he.entry,
    Option.not_isSome_iff_eq_none, Slot.ofKey?_eq_none_iff]
  constructor
  · exact fun h => ⟨h.unreferenced, h.unnamed, h.last⟩
  · exact fun ⟨unreferenced, unnamed, last⟩ => ⟨he, unnamed, last, unreferenced⟩

theorem idle_eq_map (hd : d.Indexed) :
    d.idle mode =
      (d.entries.toList.zipIdx.filter fun x => d.Idle mode x.2 x.1).map
        fun x => ⟨x.1.key, x.1.mode, x.1.state⟩ := by
  have hfilter : (d.entries.toList.zipIdx.filter fun x => d.Idle mode x.2 x.1) =
      (d.applicable mode).filter fun x => d.Idle mode x.2 x.1 := by
    rw [applicable, List.filter_filter]
    apply List.filter_congr
    rintro ⟨e, i⟩ -
    by_cases h : d.Idle mode i e
    · simp [h, h.applies.mode]
    · simp [h]
  rw [hfilter, idle, ← List.filterMap_eq_map, List.filterMap_filter]
  apply List.filterMap_congr
  rintro ⟨e, i⟩ hx
  have hidle := idle_iff_of_applies hd (mem_applicable.1 hx)
  by_cases h : d.Idle mode i e
  · rw [if_neg (hidle.1 h)]
    simp [h]
  · rw [if_pos (not_not.1 (hidle.not.1 h))]
    simp [h]

/-- From wherever the passes go on, once no entry waits any more the marks are those of all
references. -/
theorem isFound_iff_of_resolve (hd : d.Indexed) {p q : Progress} (hp : d.Sound mode p)
    (h : d.resolve mode (d.uncolored mode p) p = .ok q) (i : Nat) :
    q.isFound i = true ↔ ∃ k, d.Leads mode k i := by
  have hr := resolved_of_resolve hd hp rfl
  rw [h] at hr
  obtain ⟨sound, colored⟩ := hr
  exact isFound_iff_of_uncolored_eq_nil sound colored i

theorem exists_resolve_of_bakeWithReport (hm : mode ≠ .debug) {report : Report}
    (h : d.bakeWithReport mode = .ok report) :
    ∃ p, d.resolve mode (d.applicable mode) (.start d.size) = .ok p := by
  rw [bakeWithReport, if_neg hm] at h
  cases hr : d.resolve mode (d.applicable mode) (.start d.size) with
  | error err =>
    rw [hr] at h
    cases h
  | ok p => exact ⟨p, rfl⟩

theorem unused_eq_of_bakeWithReport (hd : d.Indexed) (hm : mode ≠ .debug) {report : Report}
    (h : d.bakeWithReport mode = .ok report) : report.unused = d.idle mode := by
  have hv := verdict_bakeWithReport hd hm
  rw [h] at hv
  cases hv with
  | baked => rfl

/-- The entries that a successful bake reports are the idle ones, in their order. It does not matter
when a look-up was made: what the passes mark is just what references lead to. -/
theorem unused_of_bakeWithReport (hd : d.Built) (hm : mode ≠ .debug) {report : Report}
    (h : d.bakeWithReport mode = .ok report) :
    report.unused = (d.entries.toList.zipIdx.filter fun x => d.Idle mode x.2 x.1).map
        (fun x => ⟨x.1.key, x.1.mode, x.1.state⟩) ∧
      ∃ p, d.resolve mode (d.applicable mode) (.start d.size) = .ok p ∧
        ∀ i, p.isFound i = true ↔ ∃ k e, d.Applies mode k e ∧
          ∃ r ∈ e.value.references, d.find? mode r.state r.key = some i := by
  obtain ⟨p, hp⟩ := exists_resolve_of_bakeWithReport hm h
  have hstart : d.applicable mode = d.uncolored mode (.start d.size) := by simp [uncolored]
  have hfound : ∀ i, p.isFound i = true ↔ ∃ k, d.Leads mode k i :=
    isFound_iff_of_resolve hd.indexed (sound_start d mode) (hstart ▸ hp)
  refine ⟨?_, p, hp, fun i => ?_⟩
  · rw [unused_eq_of_bakeWithReport hd.indexed hm h, idle_eq_map hd.indexed]
  · rw [hfound]
    constructor
    · rintro ⟨k, e, he, happlies, hr⟩
      exact ⟨k, e, ⟨he, happlies⟩, hr⟩
    · rintro ⟨k, e, he, hr⟩
      exact ⟨k, e, he.entry, he.mode, hr⟩

/-- A call that nothing refers to and that shadows a color, with what only the call refers to and an
entry of another mode. -/
def dusty : Definition := ofEntries <|
  [⟨"Ink", .all, .any, .color .gray⟩, ⟨"Shadow", .all, .any, .reference ⟨"Ink", .any⟩⟩,
    ⟨"Glow", .all, .any, .color .white⟩] ++
  (Slot.filled.map fun slot => ⟨slot.name, .all, .any, .reference ⟨"Ink", .any⟩⟩) ++
  [⟨"Glow", .all, .any, .call .mix [.entry ⟨"Shadow", .any⟩, .color .white, .number 1]⟩,
    ⟨"Dim", .light, .any, .color .black⟩]

theorem idle_dusty (hd : dusty.Indexed) :
    ∀ x ∈ dusty.entries.toList.zipIdx, dusty.Idle .dark x.2 x.1 ↔ x.2 = 20 := by
  simp only [idle_iff_bounded, hd.find?_eq]
  decide +kernel

theorem unused_dusty : dusty.Built ∧ Mode.dark ≠ .debug ∧
    ∃ report, dusty.bakeWithReport .dark = .ok report ∧
      report.unused = [⟨"Glow", .all, .any⟩] := by
  have hb : dusty.Built := built_ofEntries (by decide)
  have grounded : Grounded .dark dusty.entries.toList := by decide +kernel
  have furnished : Furnished .dark dusty.entries.toList := by decide +kernel
  obtain ⟨grid, -, hr⟩ := bakeWithReport_eq_ok hb.indexed (by decide)
    (grounded.stuck_eq_empty hb.indexed) (furnished.covered hb.indexed)
  refine ⟨hb, by decide, _, hr, ?_⟩
  obtain ⟨hunused, -⟩ := unused_of_bakeWithReport hb (by decide) hr
  have hidle : (dusty.entries.toList.zipIdx.filter fun x => dusty.Idle .dark x.2 x.1) =
      dusty.entries.toList.zipIdx.filter fun x => x.2 = 20 :=
    List.filter_congr fun x hx => decide_eq_decide.2 (idle_dusty hb.indexed x hx)
  rw [hunused, hidle]
  decide +kernel

end Definition

end ColorTheme
