import Mathlib
import ColorTheme.Proofs.Resolution
/-! # Entries that cannot be resolved

At the end of the loop the entries without a color are those that cannot be resolved. When no
look-up fails, each of them leads to another one, and so comes to a cycle of the look-up graph. -/
namespace ColorTheme.Definition

open Relation

variable {d : Definition} {mode : Mode}

/-- Following references from the entry at `i` comes to one that leads back to itself. -/
def ReachesCycle (d : Definition) (mode : Mode) (i : Nat) : Prop :=
  ∃ j, ReflTransGen (d.Leads mode) i j ∧ TransGen (d.Leads mode) j j

/-- The positions of the applicable entries that cannot be resolved. -/
def Stuck (d : Definition) (mode : Mode) : Set Nat :=
  {i | (∃ e, d.Applies mode i e) ∧ ¬ d.Resolvable mode i}

theorem finite_stuck (d : Definition) (mode : Mode) : (d.Stuck mode).Finite := by
  apply (Set.finite_lt_nat d.size).subset
  rintro i ⟨⟨e, he⟩, -⟩
  exact he.lt_size

theorem stuck_eq_empty_iff_resolvable :
    d.Stuck mode = ∅ ↔ ∀ i e, d.Applies mode i e → d.Resolvable mode i := by
  simp [Set.eq_empty_iff_forall_notMem, Stuck]

/-- A walk that never leaves a finite set of entries comes back to where it was. -/
theorem reachesCycle_of_finite {s : Set Nat} (hs : s.Finite)
    (step : ∀ i ∈ s, ∃ j ∈ s, d.Leads mode i j) {i : Nat} (hi : i ∈ s) : d.ReachesCycle mode i := by
  choose! next hmem hlead using step
  have hin : ∀ n, next^[n] i ∈ s := by
    intro n
    induction n with
    | zero => exact hi
    | succ n ih =>
      rw [Function.iterate_succ_apply']
      exact hmem _ ih
  have hstep : ∀ n, d.Leads mode (next^[n] i) (next^[n + 1] i) := by
    intro n
    rw [Function.iterate_succ_apply']
    exact hlead _ (hin n)
  have hto : ∀ n, ReflTransGen (d.Leads mode) i (next^[n] i) := by
    intro n
    induction n with
    | zero => exact .refl
    | succ n ih => exact ih.tail (hstep n)
  have hon : ∀ m n, m < n → TransGen (d.Leads mode) (next^[m] i) (next^[n] i) := by
    intro m n hmn
    induction n, hmn using Nat.le_induction with
    | base => exact .single (hstep m)
    | succ n _ ih => exact ih.tail (hstep n)
  have := hs.to_subtype
  obtain ⟨m, n, hne, he⟩ :=
    Finite.exists_ne_map_eq_of_infinite fun n => (⟨next^[n] i, hin n⟩ : s)
  have he : next^[m] i = next^[n] i := congrArg Subtype.val he
  rcases Nat.lt_or_gt_of_ne hne with hmn | hnm
  · exact ⟨_, hto m, by simpa only [he] using hon m n hmn⟩
  · exact ⟨_, hto n, by simpa only [he] using hon n m hnm⟩

theorem Resolvable.not_cyclic {i : Nat} (h : d.Resolvable mode i) :
    ¬ TransGen (d.Leads mode) i i := by
  induction h with
  | @intro i e next entry found onward ih =>
    intro hc
    obtain ⟨j, hl, hj⟩ := TransGen.head'_iff.1 hc
    obtain ⟨e', he', -, r, hr, hf⟩ := id hl
    cases Option.some.inj (entry.symm.trans he')
    have hn : next r = j := Option.some.inj ((found r hr).symm.trans hf)
    exact ih r hr (hn ▸ .tail' hj hl)

theorem Resolvable.of_reflTransGen {i j : Nat} (h : d.Resolvable mode i)
    (hij : ReflTransGen (d.Leads mode) i j) : d.Resolvable mode j := by
  induction hij with
  | refl => exact h
  | tail _ hl ih => exact ih.of_leads hl

theorem ReachesCycle.not_resolvable {i : Nat} (h : d.ReachesCycle mode i) :
    ¬ d.Resolvable mode i := by
  obtain ⟨j, hij, hj⟩ := h
  exact fun resolvable => (resolvable.of_reflTransGen hij).not_cyclic hj

/-- An entry that can be resolved has its color once every entry without one is blocked: else the
entry that blocks it would lack its color as well. -/
theorem colored_of_resolvable (hd : d.Indexed) {p : Progress}
    (blocked : ∀ x ∈ d.uncolored mode p, d.Blocked mode p p x.1) {i : Nat} {e : Entry}
    (he : d.Applies mode i e) (h : d.Resolvable mode i) : p.color? i ≠ none := by
  induction h generalizing e with
  | @intro i e' next entry found onward ih =>
    intro hn
    cases Option.some.inj (entry.symm.trans he.entry)
    obtain ⟨before, r, after, j, split, known, hf, pending⟩ :=
      blocked (e', i) (mem_uncolored.2 ⟨he, hn⟩)
    have hr : r ∈ e'.value.references := by simp [split]
    have hj : next r = j := Option.some.inj ((found r hr).symm.trans hf)
    obtain ⟨other, ho⟩ := applies_of_find? hd hf
    exact ih r hr (hj ▸ ho) (hj ▸ pending)

theorem mem_stuck_iff (hd : d.Indexed) {p : Progress} (h : d.Sound mode p)
    (blocked : ∀ x ∈ d.uncolored mode p, d.Blocked mode p p x.1) {i : Nat} :
    i ∈ d.Stuck mode ↔ i ∈ (d.uncolored mode p).map Prod.snd := by
  simp only [Stuck, Set.mem_ofPred_eq, List.mem_map, Prod.exists, exists_eq_right, mem_uncolored]
  constructor
  · rintro ⟨⟨e, he⟩, hr⟩
    exact ⟨e, he, h.color?_eq_none hr⟩
  · rintro ⟨e, he, hn⟩
    exact ⟨⟨e, he⟩, fun hr => colored_of_resolvable hd blocked he hr hn⟩

/-- Where all entries without a color are blocked, no reference leads nowhere that all references
before it would let through. -/
theorem not_exposed_of_blocked (hd : d.Indexed) {p : Progress} (h : d.Sound mode p)
    (blocked : ∀ x ∈ d.uncolored mode p, d.Blocked mode p p x.1) (e : Entry) (r : Reference) :
    ¬ d.Exposed mode e r := by
  intro exposed
  obtain ⟨⟨i, he⟩, missing, before, after, split, through⟩ := id exposed
  have hn : p.color? i = none := h.color?_eq_none (exposed.not_resolvable he)
  obtain ⟨before', r', after', j, split', known, found, pending⟩ :=
    blocked (e, i) (mem_uncolored.2 ⟨he, hn⟩)
  rcases List.append_eq_append_iff.1 (split.symm.trans split') with
    ⟨between, hb, hr⟩ | ⟨between, hb, hr⟩
  · -- `r` is the blocking reference or stands before it
    cases between with
    | nil =>
      cases hr
      rw [missing] at found
      cases found
    | cons first between =>
      cases hr
      obtain ⟨k, hf, -⟩ := exists_of_seen? (known r (by simp [hb]))
      rw [missing] at hf
      cases hf
  · -- the blocking reference is `r` or stands before it
    cases between with
    | nil =>
      cases hr
      rw [missing] at found
      cases found
    | cons first between =>
      cases hr
      obtain ⟨k, hf, hk⟩ := through r' (by simp [hb])
      cases Option.some.inj (hf.symm.trans found)
      obtain ⟨e', he'⟩ := applies_of_find? hd found
      exact colored_of_resolvable hd blocked he' hk pending

/-- Each blocked entry leads to another one, and there are only finitely many. -/
theorem reachesCycle_of_blocked (hd : d.Indexed) {p : Progress} (h : d.Sound mode p)
    (blocked : ∀ x ∈ d.uncolored mode p, d.Blocked mode p p x.1) {i : Nat}
    (hi : i ∈ d.Stuck mode) : d.ReachesCycle mode i := by
  refine reachesCycle_of_finite (finite_stuck d mode) (fun k hk => ?_) hi
  obtain ⟨x, hx, rfl⟩ := List.mem_map.1 ((mem_stuck_iff hd h blocked).1 hk)
  obtain ⟨he, -⟩ := mem_uncolored.1 hx
  obtain ⟨before, r, after, j, split, -, found, pending⟩ := blocked x hx
  obtain ⟨e, hj⟩ := applies_of_find? hd found
  refine ⟨j, (mem_stuck_iff hd h blocked).2 ?_, x.1, he.entry, he.mode, r, by simp [split], found⟩
  exact List.mem_map.2 ⟨(e, j), mem_uncolored.2 ⟨hj, pending⟩, rfl⟩

end ColorTheme.Definition
