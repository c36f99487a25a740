import Mathlib
import ColorTheme.Definition
/-! # Look-ups by the entries alone

The index of a definition answers with the last entry of a mode, state and key. What a look-up and
the test for shadowing say then follows from the entries, without the index: a look-up finds the
entry that fits most closely, and of those that fit equally the last. -/
namespace ColorTheme

namespace Entry

/-- Mode, state and key: two entries that agree on them stand for the same name. -/
def triple (e : Entry) : Mode × State × String := (e.mode, e.state, e.key)

variable {e e' : Entry} {mode : Mode} {state : State}

theorem answers_iff : e.answers mode state = true ↔
    (e.mode = mode ∨ e.mode = .all) ∧ (e.state = state ∨ e.state = .any) := by
  simp [answers, Mode.appliesTo]

theorem appliesTo_of_answers (h : e.answers mode state = true) : e.mode.appliesTo mode = true :=
  (Bool.and_eq_true_iff.1 h).1

/-- Entries that fit equally closely have one mode and one state. -/
theorem eq_of_specificity_eq (he : e.answers mode state = true)
    (he' : e'.answers mode state = true)
    (h : e.specificity mode state = e'.specificity mode state) :
    e.mode = e'.mode ∧ e.state = e'.state := by
  have hbits : ∀ a b a' b' : Bool, 2 * a.toNat + b.toNat = 2 * a'.toNat + b'.toNat →
      a = a' ∧ b = b' := by decide
  obtain ⟨hs, hm⟩ := hbits _ _ _ _ h
  rw [Bool.eq_iff_iff, beq_iff_eq, beq_iff_eq] at hs hm
  obtain ⟨hmode, hstate⟩ := answers_iff.1 he
  obtain ⟨hmode', hstate'⟩ := answers_iff.1 he'
  constructor
  · rcases hmode with h | h <;> rcases hmode' with h' | h' <;> grind
  · rcases hstate with h | h <;> rcases hstate' with h' | h' <;> grind

/-- An entry fits more closely by its state, or by its mode where the states are the same. -/
theorem specificity_lt (he : e.answers mode state = true) (he' : e'.answers mode state = true)
    (h : e.specificity mode state < e'.specificity mode state) :
    (e'.state = state ∧ e.state ≠ state) ∨
      (e'.state = e.state ∧ e'.mode = mode ∧ e.mode ≠ mode) := by
  have hbits : ∀ a b a' b' : Bool, 2 * a.toNat + b.toNat < 2 * a'.toNat + b'.toNat →
      (a' = true ∧ a = false) ∨ (a' = a ∧ b' = true ∧ b = false) := by decide
  obtain ⟨-, hstate⟩ := answers_iff.1 he
  obtain ⟨-, hstate'⟩ := answers_iff.1 he'
  rcases hbits _ _ _ _ h with ⟨hs', hs⟩ | ⟨hs, hm', hm⟩
  · exact Or.inl ⟨beq_iff_eq.1 hs', beq_eq_false_iff_ne.1 hs⟩
  · rw [Bool.eq_iff_iff, beq_iff_eq, beq_iff_eq] at hs
    refine Or.inr ⟨?_, beq_iff_eq.1 hm', beq_eq_false_iff_ne.1 hm⟩
    rcases hstate with h | h <;> rcases hstate' with h' | h' <;> grind

end Entry

namespace Definition

/-- The last position of an entry with this mode, state and key. -/
structure IsLatest (d : Definition) (triple : Mode × State × String) (i : Nat) : Prop where
  entry : ∃ e, d.entries[i]? = some e ∧ e.triple = triple
  last : ∀ j e, d.entries[j]? = some e → e.triple = triple → j ≤ i

theorem mem_positionsOf {d : Definition} {p : Entry → Bool} {i : Nat} :
    i ∈ d.positionsOf p ↔ ∃ e, d.entries[i]? = some e ∧ p e = true := by
  simp only [positionsOf, List.mem_filter, List.mem_range, Option.any_eq_true, size]
  constructor
  · exact fun h => h.2
  · rintro ⟨e, he, hp⟩
    exact ⟨(Array.getElem?_eq_some_iff.1 he).1, e, he, hp⟩

theorem positionsOf_sorted (d : Definition) (p : Entry → Bool) :
    (d.positionsOf p).Pairwise (· < ·) := List.pairwise_lt_range.filter _

private theorem getLast?_eq_some_iff_of_sorted {l : List Nat} (h : l.Pairwise (· < ·)) {i : Nat} :
    l.getLast? = some i ↔ i ∈ l ∧ ∀ j ∈ l, j ≤ i := by
  rcases List.eq_nil_or_concat l with rfl | ⟨l, k, rfl⟩
  · simp
  · rw [List.concat_eq_append] at h ⊢
    have hk : ∀ j ∈ l, j < k := fun j hj => (List.pairwise_append.1 h).2.2 j hj k (by simp)
    simp only [List.getLast?_append, List.getLast?_singleton, Option.some_or, Option.some.injEq,
      List.mem_append, List.mem_singleton]
    constructor
    · rintro rfl
      refine ⟨Or.inr rfl, fun j hj => ?_⟩
      rcases hj with hj | rfl
      · exact (hk j hj).le
      · exact le_rfl
    · rintro ⟨hi | hi, hmax⟩
      · have hki := hmax k (Or.inr rfl)
        have hik := hk i hi
        omega
      · exact hi.symm

theorem findExact?_eq_some_iff {d : Definition} (h : d.Indexed) {mode : Mode} {state : State}
    {key : String} {i : Nat} :
    d.findExact? mode state key = some i ↔ d.IsLatest (mode, state, key) i := by
  have same : ∀ e : Entry, (e.key == key && e.isFor mode state) = true ↔
      e.triple = (mode, state, key) := by
    intro e
    simp only [Entry.isFor, Entry.triple, Bool.and_eq_true, beq_iff_eq, Prod.mk.injEq]
    tauto
  rw [h.findExact?_eq, getLast?_eq_some_iff_of_sorted (positionsOf_sorted d _)]
  simp only [mem_positionsOf, same]
  constructor
  · rintro ⟨entry, last⟩
    exact ⟨entry, fun j e he ht => last j ⟨e, he, ht⟩⟩
  · rintro ⟨entry, last⟩
    refine ⟨entry, fun j hj => ?_⟩
    obtain ⟨e, he, ht⟩ := hj
    exact last j e he ht

/-- Look-ups by the positions of the entries, in order of preference. -/
theorem Indexed.find?_eq {d : Definition} (h : d.Indexed) (mode : Mode) (state : State)
    (key : String) :
    d.find? mode state key =
      ((d.positionsOf fun e => e.key == key && e.isFor mode state).getLast? <|>
        (d.positionsOf fun e => e.key == key && e.isFor .all state).getLast? <|>
        (d.positionsOf fun e => e.key == key && e.isFor mode .any).getLast? <|>
        (d.positionsOf fun e => e.key == key && e.isFor .all .any).getLast?) := by
  simp only [find?, h.findExact?_eq]

theorem findExact?_isSome {d : Definition} (h : d.Indexed) {i : Nat} {e : Entry}
    (he : d.entries[i]? = some e) : (d.findExact? e.mode e.state e.key).isSome := by
  rw [h.findExact?_eq]
  have hm : i ∈ d.positionsOf fun other => other.key == e.key && other.isFor e.mode e.state :=
    mem_positionsOf.2 ⟨e, he, by simp [Entry.isFor]⟩
  exact List.getLast?_isSome.2 (List.ne_nil_of_mem hm)

theorem of_find?_eq_some {d : Definition} (h : d.Indexed) {mode : Mode} {state : State}
    {key : String} {i : Nat} (hf : d.find? mode state key = some i) :
    ∃ e, d.entries[i]? = some e ∧ e.key = key ∧ e.answers mode state = true ∧
      d.IsLatest e.triple i := by
  have latest : ∃ m s, d.IsLatest (m, s, key) i ∧ (m = mode ∨ m = .all) ∧
      (s = state ∨ s = .any) := by
    simp only [find?, Option.orElse_eq_orElse, Option.orElse_eq_or, Option.or_eq_some_iff,
      findExact?_eq_some_iff h] at hf
    rcases hf with hf | ⟨-, hf | ⟨-, hf | ⟨-, hf⟩⟩⟩
    · exact ⟨_, _, hf, Or.inl rfl, Or.inl rfl⟩
    · exact ⟨_, _, hf, Or.inr rfl, Or.inl rfl⟩
    · exact ⟨_, _, hf, Or.inl rfl, Or.inr rfl⟩
    · exact ⟨_, _, hf, Or.inr rfl, Or.inr rfl⟩
  obtain ⟨m, s, hl, hm, hs⟩ := latest
  obtain ⟨e, he, ht⟩ := hl.entry
  obtain ⟨rfl, rfl, rfl⟩ : e.mode = m ∧ e.state = s ∧ e.key = key := by
    simpa [Entry.triple] using ht
  exact ⟨e, he, rfl, Entry.answers_iff.2 ⟨hm, hs⟩, hl⟩

theorem find?_isSome {d : Definition} (h : d.Indexed) {mode : Mode} {state : State} {i : Nat}
    {e : Entry} (he : d.entries[i]? = some e) (ha : e.answers mode state = true) :
    (d.find? mode state e.key).isSome := by
  have hx := findExact?_isSome h he
  obtain ⟨hm, hs⟩ := Entry.answers_iff.1 ha
  simp only [find?, Option.orElse_eq_orElse, Option.orElse_eq_or, Option.isSome_or,
    Bool.or_eq_true]
  rcases hm with hm | hm <;> rcases hs with hs | hs <;> rw [hm, hs] at hx <;> tauto

theorem not_isFor_of_findExact? {d : Definition} (h : d.Indexed) {mode : Mode} {state : State}
    {i : Nat} {e : Entry} (he : d.entries[i]? = some e) (hn : d.findExact? mode state e.key = none)
    (hm : e.mode = mode) : e.state ≠ state := by
  rintro rfl
  subst hm
  have hx := findExact?_isSome h he
  rw [hn] at hx
  cases hx

theorem specificity_le_of_find? {d : Definition} (h : d.Indexed) {mode : Mode} {state : State}
    {key : String} {i j : Nat} {e e' : Entry} (hf : d.find? mode state key = some i)
    (he : d.entries[i]? = some e) (he' : d.entries[j]? = some e') (hk : e'.key = key)
    (ha : e'.answers mode state = true) :
    e'.specificity mode state ≤ e.specificity mode state := by
  subst hk
  by_contra hlt
  obtain ⟨e₁, he₁, -, ha₁, -⟩ := of_find?_eq_some h hf
  cases Option.some.inj (he₁.symm.trans he)
  have hcloser := Entry.specificity_lt ha₁ ha (by omega)
  obtain ⟨hm, hs⟩ := Entry.answers_iff.1 ha
  have hmode {m : Mode} {s : State} (hi : d.IsLatest (m, s, e'.key) i) :
      e.mode = m ∧ e.state = s := by
    obtain ⟨e₁, he₁, ht⟩ := hi.entry
    cases Option.some.inj (he₁.symm.trans he)
    simp only [Entry.triple, Prod.mk.injEq] at ht
    exact ⟨ht.1, ht.2.1⟩
  have absent {m : Mode} {s : State} (hn : d.findExact? m s e'.key = none) :
      e'.mode = m → e'.state ≠ s := not_isFor_of_findExact? h he' hn
  simp only [find?, Option.orElse_eq_orElse, Option.orElse_eq_or, Option.or_eq_some_iff,
    findExact?_eq_some_iff h] at hf
  rcases hf with hf | ⟨hn₁, hf | ⟨hn₂, hf | ⟨hn₃, hf⟩⟩⟩
  · obtain ⟨h₁, h₂⟩ := hmode hf
    grind
  · obtain ⟨h₁, h₂⟩ := hmode hf
    have a₁ := absent hn₁
    grind
  · obtain ⟨h₁, h₂⟩ := hmode hf
    have a₁ := absent hn₁
    have a₂ := absent hn₂
    grind
  · obtain ⟨h₁, h₂⟩ := hmode hf
    have a₁ := absent hn₁
    have a₂ := absent hn₂
    have a₃ := absent hn₃
    grind

/-- The entry answers, no other one fits more closely, and of those that fit equally it is the
last. -/
structure Closest (d : Definition) (mode : Mode) (state : State) (key : String) (i : Nat)
    (e : Entry) : Prop where
  entry : d.entries[i]? = some e
  key_eq : e.key = key
  answers : e.answers mode state = true
  last : ∀ j e', d.entries[j]? = some e' → e'.key = key → e'.answers mode state = true →
    e'.specificity mode state < e.specificity mode state ∨
      e'.specificity mode state = e.specificity mode state ∧ j ≤ i

theorem closest_of_find? {d : Definition} (h : d.Indexed) {mode : Mode} {state : State}
    {key : String} {i : Nat} (hf : d.find? mode state key = some i) :
    ∃ e, d.Closest mode state key i e := by
  obtain ⟨e, he, hk, ha, latest⟩ := of_find?_eq_some h hf
  refine ⟨e, he, hk, ha, fun j e' he' hk' ha' => ?_⟩
  have hle := specificity_le_of_find? h hf he he' hk' ha'
  rcases Nat.lt_or_eq_of_le hle with hlt | heq
  · exact Or.inl hlt
  · obtain ⟨hm, hs⟩ := Entry.eq_of_specificity_eq ha' ha heq
    have ht : e'.triple = e.triple := by simp [Entry.triple, hm, hs, hk, hk']
    exact Or.inr ⟨heq, latest.last j e' he' ht⟩

theorem find?_eq_some_iff {d : Definition} (h : d.Indexed) {mode : Mode} {state : State}
    {key : String} {i : Nat} :
    d.find? mode state key = some i ↔ ∃ e, d.Closest mode state key i e := by
  constructor
  · exact closest_of_find? h
  · rintro ⟨e, he⟩
    obtain ⟨k, hf⟩ := Option.isSome_iff_exists.1 (find?_isSome h he.entry he.answers)
    rw [he.key_eq] at hf
    obtain ⟨e', he'⟩ := closest_of_find? h hf
    have hki := he.last k e' he'.entry he'.key_eq he'.answers
    have hik := he'.last i e he.entry he.key_eq he.answers
    obtain rfl : k = i := by omega
    exact hf

/-- Going over the candidates from the back comes to the last entry of a mode, state and key. -/
theorem findRev?_candidates {d : Definition} (h : d.Indexed) (mode : Mode) (state : State)
    (key : String) :
    (d.candidates key).findRev? (fun j => d.entries[j]?.any fun e => e.isFor mode state) =
      d.findExact? mode state key := by
  rw [← Array.back?_filter, ← Array.getLast?_toList, Array.toList_filter, h.candidates_eq,
    h.findExact?_eq, positionsOf, List.filter_filter, positionsOf]
  congr 1
  apply List.filter_congr
  intro j _
  cases d.entries[j]? <;> simp [Bool.and_comm]

/-- An entry is shadowed when the last entry of its mode, state and key stands behind it. -/
theorem isShadowed_iff {d : Definition} (h : d.Indexed) {i : Nat} {e : Entry}
    (he : d.entries[i]? = some e) :
    d.isShadowed i = true ↔ ∃ j e', d.entries[j]? = some e' ∧ e'.triple = e.triple ∧ i < j := by
  simp only [isShadowed, he, findRev?_candidates h]
  rw [Option.any_eq_true]
  simp only [findExact?_eq_some_iff h, decide_eq_true_eq]
  constructor
  · rintro ⟨j, hl, hij⟩
    obtain ⟨e', he', ht⟩ := hl.entry
    exact ⟨j, e', he', ht, hij⟩
  · rintro ⟨j, e', he', ht, hij⟩
    obtain ⟨k, hk⟩ := Option.isSome_iff_exists.1 (findExact?_isSome h he)
    have hl := (findExact?_eq_some_iff h).1 hk
    have hjk := hl.last j e' he' ht
    exact ⟨k, hl, by omega⟩

theorem isShadowed_eq_false_iff {d : Definition} (h : d.Indexed) {i : Nat} {e : Entry}
    (he : d.entries[i]? = some e) : d.isShadowed i = false ↔ d.IsLatest e.triple i := by
  rw [← Bool.not_eq_true, isShadowed_iff h he]
  constructor
  · intro hn
    refine ⟨⟨e, he, rfl⟩, fun j e' he' ht => ?_⟩
    by_contra hlt
    exact hn ⟨j, e', he', ht, Nat.lt_of_not_le hlt⟩
  · rintro latest ⟨j, e', he', ht, hij⟩
    have := latest.last j e' he' ht
    omega

end Definition

end ColorTheme
