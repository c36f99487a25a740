import Mathlib
import ColorTheme.Proofs.Baking
import ColorTheme.Proofs.Combining
/-! # Overriding a theme that bakes

An overlay may capture look-ups of the base, but what was answered stays answered, and what leads
from base entry to base entry did so before. A bake of the combination can therefore only fail by
entries of the overlay. -/
namespace ColorTheme.Definition

open Relation

variable {base overlay : Definition} {mode : Mode}

theorem exists_cycle_of_transGen {α : Type} {r : α → α → Prop} {a : α} (h : TransGen r a a) :
    ∃ c : Cycle α, c ≠ .nil ∧ c.Chain r := by
  obtain ⟨b, hab, hba⟩ := TransGen.head'_iff.1 h
  obtain ⟨l, hl, hlast⟩ := List.exists_isChain_cons_of_relationReflTransGen hba
  refine ⟨((b :: l : List α) : Cycle α), by simp, ?_⟩
  rw [Cycle.chain_ne_nil r (List.cons_ne_nil b l), hlast]
  exact .cons_cons hab hl

theorem transGen_of_mem_cycle {α : Type} {r : α → α → Prop} {c : Cycle α} (h : c.Chain r) {a : α}
    (ha : a ∈ c) : TransGen r a a :=
  Cycle.chain_iff_pairwise.1 (h.imp fun _ _ => TransGen.single) a ha a ha

theorem chain_of_mem_cycle {α : Type} {r s : α → α → Prop} {c : Cycle α} (h : c.Chain r)
    (hs : ∀ a ∈ c, ∀ b ∈ c, r a b → s a b) : c.Chain s := by
  induction c with
  | nil => trivial
  | cons a l =>
    rw [Cycle.chain_coe_cons] at h ⊢
    have mem : ∀ b ∈ a :: (l ++ [a]), b ∈ ((a :: l : List α) : Cycle α) := by
      simp [or_comm]
    exact h.imp_of_mem_imp fun b b' hb hb' => hs b (mem b hb) b' (mem b' hb')

theorem exists_mem_of_ne_nil {α : Type} {c : Cycle α} (h : c ≠ .nil) : ∃ a, a ∈ c := by
  induction c with
  | nil => exact absurd rfl h
  | cons a l => exact ⟨a, by simp⟩

theorem find?_isSome_combine (hb : base.Indexed) {state : State} {key : String}
    (h : (base.find? mode state key).isSome) :
    ((base.combine overlay).find? mode state key).isSome := by
  obtain ⟨i, hi⟩ := Option.isSome_iff_exists.1 h
  obtain ⟨e, he⟩ := closest_of_find? hb hi
  have := find?_isSome (indexed_combine base overlay) (entry_combine_base he.entry) he.answers
  rwa [he.key_eq] at this

theorem find?_of_combine (hb : base.Indexed) {state : State} {key : String} {i : Nat}
    (h : (base.combine overlay).find? mode state key = some i) (hi : i < base.size) :
    base.find? mode state key = some i := by
  obtain ⟨e, he⟩ := closest_of_find? (indexed_combine base overlay) h
  exact (he.of_combine hi).find?_eq hb

theorem Covered.combine (hb : base.Indexed) (h : base.Covered mode) :
    (base.combine overlay).Covered mode :=
  fun slot hs state hm => find?_isSome_combine hb (h slot hs state hm)

theorem applies_of_combine {k : Nat} {e : Entry} (h : (base.combine overlay).Applies mode k e) :
    base.Applies mode k e ∨ ∃ j, k = base.size + j ∧ overlay.Applies mode j e := by
  rcases entry_of_combine h.entry with he | ⟨j, hk, he⟩
  · exact Or.inl ⟨he, h.mode⟩
  · exact Or.inr ⟨j, hk, he, h.mode⟩

theorem Answered.combine (hb : base.Indexed) (h : base.Answered mode) (overlay : Definition)
    {k : Nat} {e : Entry} (he : base.Applies mode k e) {r : Reference}
    (hr : r ∈ e.value.references) :
    ((base.combine overlay).find? mode r.state r.key).isSome :=
  find?_isSome_combine hb (h k e he r hr)

/-- A reference from base entry to base entry is one of the base alone. -/
theorem Leads.of_combine (hb : base.Indexed) {i j : Nat}
    (h : (base.combine overlay).Leads mode i j) (hi : i < base.size) (hj : j < base.size) :
    base.Leads mode i j := by
  obtain ⟨e, he, hm, r, hr, hf⟩ := h
  rcases entry_of_combine he with he | ⟨k, rfl, -⟩
  · exact ⟨e, he, hm, r, hr, find?_of_combine hb hf hj⟩
  · omega

/-- Every cycle of the combination goes through the overlay. -/
theorem exists_overlay_mem_cycle (hb : base.Indexed) (acyclic : base.Acyclic mode) {c : Cycle ℕ}
    (hne : c ≠ .nil) (hc : c.Chain ((base.combine overlay).Leads mode)) :
    ∃ j e, overlay.Applies mode j e ∧ base.size + j ∈ c := by
  by_contra hall
  -- with nothing but base entries on it, the cycle would be one of the base
  have inside : ∀ i ∈ c, i < base.size := by
    intro i hi
    obtain ⟨k, ⟨e, he, hm, -⟩, -⟩ := TransGen.head'_iff.1 (transGen_of_mem_cycle hc hi)
    rcases applies_of_combine ⟨he, hm⟩ with hx | ⟨j, rfl, hx⟩
    · exact hx.lt_size
    · exact absurd ⟨j, e, hx, hi⟩ hall
  have hbase : c.Chain (base.Leads mode) :=
    chain_of_mem_cycle hc fun i hi j hj hl => hl.of_combine hb (inside i hi) (inside j hj)
  obtain ⟨i, hi⟩ := exists_mem_of_ne_nil hne
  exact acyclic i (transGen_of_mem_cycle hbase hi)

/-- Only references of the overlay can lead nowhere. -/
theorem exposed_of_combine (hb : base.Indexed) (answered : base.Answered mode) {e : Entry}
    {r : Reference} (h : (base.combine overlay).Exposed mode e r) :
    ∃ j, overlay.Applies mode j e ∧ r ∈ e.value.references := by
  obtain ⟨i, he⟩ := h.applies
  rcases applies_of_combine he with he | ⟨j, -, he⟩
  · have hf := answered.combine hb overlay he h.mem
    rw [h.missing] at hf
    cases hf
  · exact ⟨j, he, h.mem⟩

/-- An overlay of literals only cuts references off. -/
theorem Plain.stuck_combine_eq_empty (h : overlay.Plain mode) (hb : base.Indexed)
    (answered : base.Answered mode) (acyclic : base.Acyclic mode) :
    (base.combine overlay).Stuck mode = ∅ := by
  refine (stuck_eq_empty_iff (indexed_combine base overlay)).2
    ⟨fun k e he r hr => ?_, fun i hi => ?_⟩
  · rcases applies_of_combine he with he | ⟨j, -, he⟩
    · exact answered.combine hb overlay he hr
    · rw [h.references_eq_nil he] at hr
      cases hr
  · obtain ⟨c, hne, hc⟩ := exists_cycle_of_transGen hi
    obtain ⟨j, e, he, hj⟩ := exists_overlay_mem_cycle hb acyclic hne hc
    obtain ⟨k, ⟨e', he', -, r, hr, -⟩, -⟩ := TransGen.head'_iff.1 (transGen_of_mem_cycle hc hj)
    cases Option.some.inj (he'.symm.trans (entry_combine_overlay base he.entry))
    rw [h.references_eq_nil he] at hr
    cases hr

theorem bake_debug (d : Definition) : d.bake .debug = .ok .debug := rfl

/-- What a bake of the combination can come to. -/
inductive Overridden (base overlay : Definition) (mode : Mode) : Except BakeError Table → Prop
  | baked (t : Table) : Overridden base overlay mode (.ok t)
  | unknown {j : Nat} {e : Entry} {r : Reference} (applies : overlay.Applies mode j e)
      (mem : r ∈ e.value.references)
      (missing : (base.combine overlay).find? mode r.state r.key = none) :
      Overridden base overlay mode (.error (.unknownReference e.qualifiedKey r.text))
  | unresolved {key : String} {remaining : Nat}
      (cyclic : ∃ i, TransGen ((base.combine overlay).Leads mode) i i) :
      Overridden base overlay mode (.error (.unresolved key remaining))

theorem overridden_bake (hb : base.Indexed) (hm : mode ≠ .debug) (answered : base.Answered mode)
    (covered : base.Covered mode) (overlay : Definition) :
    Overridden base overlay mode ((base.combine overlay).bake mode) := by
  have hv := verdict_bakeWithReport (indexed_combine base overlay) hm
  rw [bake]
  generalize (base.combine overlay).bakeWithReport mode = result at hv
  cases hv with
  | unknown exposed =>
    obtain ⟨j, he, hr⟩ := exposed_of_combine hb answered exposed
    exact .unknown he hr exposed.missing
  | unresolved _ least _ _ cyclic =>
    obtain ⟨j, -, hj⟩ := cyclic _ least.1
    exact .unresolved ⟨j, hj⟩
  | missing _ first =>
    rw [firstMissing?_cells_eq_none_iff.2 (covered.combine hb)] at first
    cases first
  | baked => exact .baked _

/-- With an overlay of literals, a base that bakes still does. -/
theorem Plain.exists_bake_combine (h : overlay.Plain mode) (hb : base.Indexed) {t : Table}
    (baked : base.bake mode = .ok t) : ∃ t', (base.combine overlay).bake mode = .ok t' := by
  by_cases hm : mode = .debug
  · subst hm
    exact ⟨_, bake_debug _⟩
  obtain ⟨resolved, covered⟩ := resolved_of_bake hb hm baked
  obtain ⟨answered, acyclic⟩ := (stuck_eq_empty_iff hb).1 resolved
  obtain ⟨grid, -, hr⟩ := bakeWithReport_eq_ok (indexed_combine base overlay) hm
    (h.stuck_combine_eq_empty hb answered acyclic) (covered.combine hb)
  exact ⟨_, bake_of_bakeWithReport_eq_ok hr⟩

/-- On a base that bakes, an overlay leaves no cell without an entry. An unknown name is one of the
overlay's own references, a cycle goes through the overlay, and color literals do no harm. -/
theorem bake_combine (hb : base.Built) {t : Table} (baked : base.bake mode = .ok t) :
    (∀ slot state, (base.combine overlay).bake mode ≠ .error (.missingCell slot state)) ∧
    (∀ key reference,
      (base.combine overlay).bake mode = .error (.unknownReference key reference) →
      ∃ j e r, overlay.Applies mode j e ∧ r ∈ e.value.references ∧
        (base.combine overlay).find? mode r.state r.key = none ∧
        key = e.qualifiedKey ∧ reference = r.text) ∧
    (∀ key remaining, (base.combine overlay).bake mode = .error (.unresolved key remaining) →
      (∃ c : Cycle ℕ, c ≠ .nil ∧ c.Chain ((base.combine overlay).Leads mode)) ∧
      ∀ c : Cycle ℕ, c ≠ .nil → c.Chain ((base.combine overlay).Leads mode) →
        ∃ j e, overlay.Applies mode j e ∧ base.size + j ∈ c) ∧
    (overlay.Plain mode → ∃ t, (base.combine overlay).bake mode = .ok t) := by
  by_cases hm : mode = .debug
  · subst hm
    have hd := bake_debug (base.combine overlay)
    simp [hd]
  obtain ⟨resolved, covered⟩ := resolved_of_bake hb.indexed hm baked
  obtain ⟨answered, acyclic⟩ := (stuck_eq_empty_iff hb.indexed).1 resolved
  have h := overridden_bake hb.indexed hm answered covered overlay
  refine ⟨fun slot state hr => ?_, fun key reference hr => ?_, fun key remaining hr => ?_,
    fun plain => plain.exists_bake_combine hb.indexed baked⟩
  · rw [hr] at h
    cases h
  · rw [hr] at h
    cases h with
    | unknown applies mem missing => exact ⟨_, _, _, applies, mem, missing, rfl, rfl⟩
  · rw [hr] at h
    cases h with
    | unresolved cyclic =>
      obtain ⟨i, hi⟩ := cyclic
      exact ⟨exists_cycle_of_transGen hi,
        fun c hne hc => exists_overlay_mem_cycle hb.indexed acyclic hne hc⟩

/-- The entry that all slots take their color from, once more for the mode `dark`. -/
def reinked : Definition := ofEntries [⟨"Ink", .dark, .any, .color .white⟩]

theorem plain_reinked : reinked.Plain .dark := by
  intro i e he
  have hall : ∀ e ∈ reinked.entries, e.value = .color .white := by decide
  exact ⟨_, hall e (Array.mem_of_getElem? he.entry)⟩

theorem exists_bake_reinked : inked.Built ∧ (∃ t, inked.bake .dark = .ok t) ∧
    reinked.Plain .dark ∧ ∃ t, (inked.combine reinked).bake .dark = .ok t := by
  have resolved : inked.Stuck .dark = ∅ :=
    (stuck_eq_empty_iff built_inked.indexed).2 ⟨answered_inked, acyclic_inked⟩
  obtain ⟨grid, -, hr⟩ :=
    bakeWithReport_eq_ok built_inked.indexed (by decide) resolved covered_inked
  have hb := bake_of_bakeWithReport_eq_ok hr
  exact ⟨built_inked, ⟨_, hb⟩, plain_reinked,
    (bake_combine built_inked hb).2.2.2 plain_reinked⟩

end ColorTheme.Definition
