import Mathlib
import ColorTheme.Proofs.Built
import ColorTheme.Proofs.Transfer
/-! # The order of entries

Entries of one mode, state and key are ranked by their order. Nothing else depends on the order:
moving entries about without changing the order among those moves the look-up graph along, and
baking comes to the same table or to a failure of the same kind. -/
namespace ColorTheme

namespace Definition

variable {d d' : Definition} {σ : Equiv.Perm ℕ} {mode : Mode}

def Distinct (d : Definition) : Prop :=
  ∀ (i j : ℕ) (e e' : Entry), d.entries[i]? = some e → d.entries[j]? = some e' →
    e.triple = e'.triple → i = j

/-- Moving every position `i` to `σ i` keeps the order among the entries of one mode, state and
key. -/
def KeepsOrder (d : Definition) (σ : Equiv.Perm ℕ) : Prop :=
  ∀ (i j : ℕ) (e e' : Entry), d.entries[i]? = some e → d.entries[j]? = some e' →
    e.triple = e'.triple → i < j → σ i < σ j

theorem Distinct.keepsOrder (h : d.Distinct) (σ : Equiv.Perm ℕ) : d.KeepsOrder σ :=
  fun i j e e' he he' ht hij => absurd (h i j e e' he he' ht) hij.ne

/-- The entry at each position of `d` stands at `σ` of that position in `d'`. -/
structure Reordered (σ : Equiv.Perm ℕ) (d d' : Definition) : Prop where
  entry : ∀ i, d'.entries[σ i]? = d.entries[i]?
  kept : d.KeepsOrder σ

theorem Reordered.entry_symm (h : Reordered σ d d') (j : ℕ) :
    d.entries[σ.symm j]? = d'.entries[j]? := by rw [← h.entry, Equiv.apply_symm_apply]

theorem Reordered.symm (h : Reordered σ d d') : Reordered σ.symm d' d where
  entry := h.entry_symm
  kept i j e e' he he' ht hij := by
    rw [← h.entry_symm] at he he'
    rcases Nat.lt_trichotomy (σ.symm i) (σ.symm j) with hlt | heq | hgt
    · exact hlt
    · have hne := σ.symm.injective heq
      omega
    · have hji := h.kept _ _ e' e he' he ht.symm hgt
      rw [Equiv.apply_symm_apply, Equiv.apply_symm_apply] at hji
      omega

theorem Reordered.isLatest (h : Reordered σ d d') {triple : Mode × State × String} {i : ℕ}
    (hi : d.IsLatest triple i) : d'.IsLatest triple (σ i) where
  entry := by
    rw [h.entry]
    exact hi.entry
  last j e he ht := by
    rw [← h.entry_symm] at he
    obtain ⟨e', he', ht'⟩ := hi.entry
    have hle := hi.last _ e he ht
    rcases Nat.lt_or_eq_of_le hle with hlt | heq
    · have hji := h.kept _ _ e e' he he' (ht.trans ht'.symm) hlt
      rw [Equiv.apply_symm_apply] at hji
      exact hji.le
    · rw [← heq, Equiv.apply_symm_apply]

theorem Reordered.findExact?_eq (h : Reordered σ d d') (hd : d.Indexed) (hd' : d'.Indexed)
    (mode : Mode) (state : State) (key : String) :
    d'.findExact? mode state key = (d.findExact? mode state key).map σ := by
  cases hf : d.findExact? mode state key with
  | some i => exact (findExact?_eq_some_iff hd').2 (h.isLatest ((findExact?_eq_some_iff hd).1 hf))
  | none =>
    cases hf' : d'.findExact? mode state key with
    | none => rfl
    | some j =>
      have hj := (findExact?_eq_some_iff hd).2
        (h.symm.isLatest ((findExact?_eq_some_iff hd').1 hf'))
      cases hf.symm.trans hj

theorem Reordered.find?_eq (h : Reordered σ d d') (hd : d.Indexed) (hd' : d'.Indexed)
    (mode : Mode) (state : State) (key : String) :
    d'.find? mode state key = (d.find? mode state key).map σ := by
  simp only [find?, h.findExact?_eq hd hd', Option.orElse_eq_orElse, Option.orElse_eq_or,
    Option.map_or]

theorem Reordered.applies (h : Reordered σ d d') {i : ℕ} {e : Entry} (he : d.Applies mode i e) :
    d'.Applies mode (σ i) e := ⟨(h.entry i).trans he.entry, he.mode⟩

section Graph

variable (h : Reordered σ d d') (hd : d.Indexed) (hd' : d'.Indexed)
include h hd hd'

theorem Reordered.leads {i j : ℕ} (hl : d.Leads mode i j) : d'.Leads mode (σ i) (σ j) := by
  obtain ⟨e, he, hm, r, hr, hf⟩ := hl
  refine ⟨e, (h.entry i).trans he, hm, r, hr, ?_⟩
  rw [h.find?_eq hd hd', hf]
  rfl

theorem Reordered.corresponds : Corresponds σ mode d d' :=
  ⟨h.find?_eq hd hd' mode, fun _ _ i _ => h.entry i⟩

theorem Reordered.resolvable {i : ℕ} (hi : d.Resolvable mode i) : d'.Resolvable mode (σ i) :=
  (h.corresponds hd hd').resolvable (h.entry i) hi

theorem Reordered.exposed {e : Entry} {r : Reference} (hx : d.Exposed mode e r) :
    d'.Exposed mode e r := by
  obtain ⟨⟨i, he⟩, missing, before, after, split, through⟩ := hx
  refine ⟨⟨σ i, h.applies he⟩, ?_, before, after, split, fun b hb => ?_⟩
  · rw [h.find?_eq hd hd', missing]
    rfl
  · obtain ⟨j, hf, hj⟩ := through b hb
    refine ⟨σ j, ?_, h.resolvable hd hd' hj⟩
    rw [h.find?_eq hd hd', hf]
    rfl

theorem Reordered.stuck {i : ℕ} (hi : i ∈ d.Stuck mode) : σ i ∈ d'.Stuck mode := by
  obtain ⟨⟨e, he⟩, hn⟩ := hi
  refine ⟨⟨e, h.applies he⟩, fun hr => hn ?_⟩
  simpa using h.symm.resolvable hd' hd hr

theorem Reordered.stuck_eq : d'.Stuck mode = σ '' d.Stuck mode := by
  ext j
  rw [Equiv.image_eq_preimage_symm, Set.mem_preimage]
  constructor
  · exact fun hj => h.symm.stuck hd' hd hj
  · exact fun hj => by simpa using h.stuck hd hd' hj

theorem Reordered.isShadowed_eq {i : ℕ} {e : Entry} (he : d.entries[i]? = some e) :
    d'.isShadowed (σ i) = d.isShadowed i := by
  rw [Bool.eq_iff_iff, isShadowed_iff hd he, isShadowed_iff hd' ((h.entry i).trans he)]
  constructor
  · rintro ⟨j, e', he', ht, hij⟩
    refine ⟨σ.symm j, e', (h.entry_symm j).trans he', ht, ?_⟩
    simpa using h.symm.kept (σ i) j e e' ((h.entry i).trans he) he' ht.symm hij
  · rintro ⟨j, e', he', ht, hij⟩
    exact ⟨σ j, e', (h.entry j).trans he', ht, h.kept i j e e' he he' ht.symm hij⟩

omit hd hd' in
theorem Reordered.applicable_perm (mode : Mode) :
    ((d.applicable mode).map fun x => (x.1, σ x.2)).Perm (d'.applicable mode) := by
  have nodup {d : Definition} : (d.applicable mode).Nodup :=
    (applicable_sorted d mode).imp fun hlt heq => absurd (congrArg Prod.snd heq) hlt.ne
  have inj : Function.Injective fun x : Entry × ℕ => (x.1, σ x.2) := by
    rintro ⟨e, i⟩ ⟨e', i'⟩ heq
    simpa using heq
  rw [List.perm_ext_iff_of_nodup (nodup.map inj) nodup]
  rintro ⟨e, j⟩
  simp only [List.mem_map, Prod.exists, Prod.mk.injEq, mem_applicable]
  constructor
  · rintro ⟨e', i, he, rfl, rfl⟩
    exact h.applies he
  · exact fun he => ⟨e, σ.symm j, h.symm.applies he, rfl, σ.apply_symm_apply j⟩

theorem Reordered.idle_perm : (d.idle mode).Perm (d'.idle mode) := by
  classical
  have hleads : ∀ i, (∃ j, d'.Leads mode j (σ i)) ↔ ∃ j, d.Leads mode j i := by
    intro i
    constructor
    · rintro ⟨j, hj⟩
      exact ⟨σ.symm j, by simpa using h.symm.leads hd' hd hj⟩
    · rintro ⟨j, hj⟩
      exact ⟨σ j, h.leads hd hd' hj⟩
  have hperm := (h.applicable_perm mode).filterMap fun x : Entry × ℕ =>
    if (∃ j, d'.Leads mode j x.2) ∨ (Slot.ofKey? x.1.key).isSome ∨ d'.isShadowed x.2 then none
    else some (⟨x.1.key, x.1.mode, x.1.state⟩ : Unused)
  rw [List.filterMap_map] at hperm
  refine .trans (.of_eq ?_) hperm
  apply List.filterMap_congr
  rintro ⟨e, i⟩ hx
  have he := (mem_applicable.1 hx).entry
  simp only [Function.comp_apply, hleads, h.isShadowed_eq hd hd' he]

end Graph

/-- The same table with the same unused entries in any order, or failures of one kind that agree on
the number of entries left, or on the slot and the state. -/
def Agree : Except BakeError Report → Except BakeError Report → Prop
  | .ok r, .ok r' => r.table = r'.table ∧ r.unused.Perm r'.unused
  | .error (.unknownReference _ _), .error (.unknownReference _ _) => True
  | .error (.unresolved _ n), .error (.unresolved _ n') => n = n'
  | .error (.missingCell slot state), .error (.missingCell slot' state') =>
    slot = slot' ∧ state = state'
  | _, _ => False

theorem agree_of_verdict (hd : d.Indexed) (hd' : d'.Indexed) (h : Reordered σ d d')
    {result result' : Except BakeError Report} (hv : d.Verdict mode result)
    (hv' : d'.Verdict mode result') : Agree result result' := by
  by_cases hx : ∃ e r, d.Exposed mode e r
  · obtain ⟨e, r, exposed⟩ := hx
    obtain ⟨-, -, -, rfl⟩ := hv.eq_unknown ⟨e, r, exposed⟩
    obtain ⟨-, -, -, rfl⟩ := hv'.eq_unknown ⟨e, r, h.exposed hd hd' exposed⟩
    trivial
  have sheltered : ∀ e r, ¬ d.Exposed mode e r := fun e r exposed => hx ⟨e, r, exposed⟩
  rcases Set.eq_empty_or_nonempty (d.Stuck mode) with hs | hs
  · have hs' : d'.Stuck mode = ∅ := by rw [h.stuck_eq hd hd', hs, Set.image_empty]
    cases hf : d.firstMissing? mode Slot.cells with
    | some cell =>
      have hf' : d'.firstMissing? mode Slot.cells = some cell := by
        rw [(h.corresponds hd hd').firstMissing?_eq, hf]
      rw [hv.eq_missing hs hf, hv'.eq_missing hs' hf']
      exact ⟨rfl, rfl⟩
    | none =>
      have hf' : d'.firstMissing? mode Slot.cells = none := by
        rw [(h.corresponds hd hd').firstMissing?_eq, hf]
      obtain ⟨grid, pictures, rfl⟩ := hv.eq_ok hs hf
      obtain ⟨grid', pictures', rfl⟩ := hv'.eq_ok hs' hf'
      have hgrid := ((h.corresponds hd hd').pictures pictures).unique pictures'
      exact ⟨by rw [hgrid], h.idle_perm hd hd'⟩
  · have hs' : (d'.Stuck mode).Nonempty := by
      rw [h.stuck_eq hd hd']
      exact hs.image σ
    have sheltered' : ∀ e r, ¬ d'.Exposed mode e r :=
      fun e r exposed => sheltered e r (h.symm.exposed hd' hd exposed)
    obtain ⟨-, -, n, -, -, count, -, rfl⟩ := hv.eq_unresolved sheltered hs
    obtain ⟨-, -, n', -, -, count', -, rfl⟩ := hv'.eq_unresolved sheltered' hs'
    rw [h.stuck_eq hd hd', Set.ncard_image_of_injective _ σ.injective, count] at count'
    exact Nat.succ.inj count'

theorem agree_of_moved (hd : d.Built) (hd' : d'.Built)
    (moved : ∀ i, d'.entries[σ i]? = d.entries[i]?) (order : d.KeepsOrder σ ∨ d.Distinct)
    (mode : Mode) : Agree (d.bakeWithReport mode) (d'.bakeWithReport mode) := by
  have h : Reordered σ d d' := ⟨moved, order.elim id fun unique => unique.keepsOrder σ⟩
  by_cases hm : mode = .debug
  · simp [bakeWithReport, hm, Agree]
  · exact agree_of_verdict hd.indexed hd'.indexed h (verdict_bakeWithReport hd.indexed hm)
      (verdict_bakeWithReport hd'.indexed hm)

/-- Two entries of one name, as combining makes them, and between them one that refers to them. -/
def layered : Definition := ofEntries
  [⟨"A", .all, .any, .color .gray⟩, ⟨"B", .all, .any, .reference ⟨"A", .any⟩⟩,
    ⟨"A", .all, .any, .color .black⟩]

def relayered : Definition := ofEntries
  [⟨"B", .all, .any, .reference ⟨"A", .any⟩⟩, ⟨"A", .all, .any, .color .gray⟩,
    ⟨"A", .all, .any, .color .black⟩]

theorem moved_layered (i : ℕ) : relayered.entries[Equiv.swap 0 1 i]? = layered.entries[i]? := by
  rcases i with _ | _ | _ | i
  · rfl
  · rfl
  · rw [Equiv.swap_apply_of_ne_of_ne (by omega) (by omega)]
    rfl
  · rw [Equiv.swap_apply_of_ne_of_ne (by omega) (by omega)]
    simp [relayered, layered, entries_ofEntries]

theorem keepsOrder_layered : layered.KeepsOrder (Equiv.swap 0 1) := by
  intro i j e e' he he' ht hij
  have hj : j < 3 := (Array.getElem?_eq_some_iff.1 he').1
  obtain ⟨rfl, rfl⟩ | ⟨rfl, rfl⟩ | ⟨rfl, rfl⟩ : i = 0 ∧ j = 1 ∨ i = 0 ∧ j = 2 ∨ i = 1 ∧ j = 2 := by
    omega
  · cases he
    cases he'
    exact absurd ht (by decide)
  · decide
  · cases he
    cases he'
    exact absurd ht (by decide)

theorem agree_layered : layered.Built ∧ relayered.Built ∧
    (∀ i, relayered.entries[Equiv.swap 0 1 i]? = layered.entries[i]?) ∧
    layered.KeepsOrder (Equiv.swap 0 1) ∧
    Agree (layered.bakeWithReport .dark) (relayered.bakeWithReport .dark) := by
  have hb : layered.Built := built_ofEntries (by decide)
  have hb' : relayered.Built := built_ofEntries (by decide)
  exact ⟨hb, hb', moved_layered, keepsOrder_layered,
    agree_of_moved hb hb' moved_layered (.inl keepsOrder_layered) .dark⟩

end Definition

end ColorTheme
