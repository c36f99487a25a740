import Mathlib
import ColorTheme.Proofs.Attempt
/-! # Passes of the resolver

Throughout a bake the pending entries are exactly the applicable ones without a color, in order, and
every color is the one the look-up graph gives. The loop therefore ends when all entries have their
colors, at a reference that leads nowhere, or with entries that wait for each other. -/
namespace ColorTheme

namespace Progress

def Grows (p q : Progress) : Prop := ∀ i c, p.color? i = some c → q.color? i = some c

theorem Grows.refl (p : Progress) : p.Grows p := fun _ _ h => h

theorem Grows.trans {p q r : Progress} (hpq : p.Grows q) (hqr : q.Grows r) : p.Grows r :=
  fun i c h => hqr i c (hpq i c h)

theorem Grows.eq_none {p q : Progress} (h : p.Grows q) {i : Nat} (hq : q.color? i = none) :
    p.color? i = none := by
  cases hp : p.color? i with
  | none => rfl
  | some c =>
    rw [h i c hp] at hq
    cases hq

/-- Takes in what an attempt at the entry at `i` came to. -/
def advance (p : Progress) (i : Nat) (a : Attempt Color) : Progress :=
  (a.found.foldl markFound p).setColor i a.result

theorem color?_foldl_markFound (p : Progress) (positions : List Nat) (i : Nat) :
    (positions.foldl markFound p).color? i = p.color? i := by
  simp [color?, colors_foldl_markFound]

theorem color?_advance_none (p : Progress) (i j : Nat) (found : List Nat) :
    (p.advance i ⟨none, found⟩).color? j = p.color? j := color?_foldl_markFound p found j

theorem color?_advance_some {p : Progress} {i : Nat} (h : i < p.colors.size) (c : Color)
    (found : List Nat) (j : Nat) :
    (p.advance i ⟨some c, found⟩).color? j = if i = j then some c else p.color? j := by
  rw [advance, color?_setColor (by rwa [colors_foldl_markFound]), color?_foldl_markFound]

theorem isFound_advance {p : Progress} {i : Nat} {a : Attempt Color}
    (h : ∀ j ∈ a.found, j < p.found.size) (j : Nat) :
    (p.advance i a).isFound j = true ↔ j ∈ a.found ∨ p.isFound j = true := by
  rw [advance, isFound_setColor, isFound_foldl_markFound h]

theorem colors_size_advance (p : Progress) (i : Nat) (a : Attempt Color) :
    (p.advance i a).colors.size = p.colors.size := by
  rw [advance]
  cases a.result <;> simp [setColor, colors_foldl_markFound]

theorem found_size_advance (p : Progress) (i : Nat) (a : Attempt Color) :
    (p.advance i a).found.size = p.found.size := by
  rw [advance]
  cases a.result <;> simp [setColor, found_size_foldl_markFound]

end Progress

namespace Definition

variable {d : Definition} {mode : Mode}

/-- The entry at `i` is `e`, and it takes part in baking for the mode. -/
structure Applies (d : Definition) (mode : Mode) (i : Nat) (e : Entry) : Prop where
  entry : d.entries[i]? = some e
  mode : e.mode.appliesTo mode = true

theorem Applies.lt_size {i : Nat} {e : Entry} (h : d.Applies mode i e) : i < d.size :=
  (Array.getElem?_eq_some_iff.1 h.entry).1

theorem Applies.unique {i : Nat} {e e' : Entry} (h : d.Applies mode i e)
    (h' : d.Applies mode i e') : e = e' := Option.some.inj (h.entry.symm.trans h'.entry)

theorem applies_of_find? (h : d.Indexed) {state : State} {key : String} {i : Nat}
    (hf : d.find? mode state key = some i) : ∃ e, d.Applies mode i e := by
  obtain ⟨e, he, -, ha, -⟩ := of_find?_eq_some h hf
  exact ⟨e, he, Entry.appliesTo_of_answers ha⟩

theorem mem_applicable {i : Nat} {e : Entry} :
    (e, i) ∈ d.applicable mode ↔ d.Applies mode i e := by
  simp only [applicable, List.mem_filter, List.mem_zipIdx_iff_getElem?, Array.getElem?_toList]
  exact ⟨fun h => ⟨h.1, h.2⟩, fun h => ⟨h.1, h.2⟩⟩

theorem applicable_sorted (d : Definition) (mode : Mode) :
    (d.applicable mode).Pairwise fun x y => x.2 < y.2 := by
  apply List.Pairwise.filter
  rw [← List.pairwise_map (f := Prod.snd) (R := (· < ·)), List.zipIdx_map_snd]
  exact List.pairwise_lt_range'

/-- The applicable entries that have no color yet, in order. -/
def uncolored (d : Definition) (mode : Mode) (p : Progress) : List (Entry × Nat) :=
  (d.applicable mode).filter fun x => (p.color? x.2).isNone

theorem mem_uncolored {p : Progress} {i : Nat} {e : Entry} :
    (e, i) ∈ d.uncolored mode p ↔ d.Applies mode i e ∧ p.color? i = none := by
  rw [uncolored, List.mem_filter, mem_applicable, Option.isNone_iff_eq_none]

theorem uncolored_sorted (d : Definition) (mode : Mode) (p : Progress) :
    (d.uncolored mode p).Pairwise fun x y => x.2 < y.2 := (applicable_sorted d mode).filter _

theorem uncolored_congr {p q : Progress} (h : ∀ i, p.color? i = q.color? i) :
    d.uncolored mode p = d.uncolored mode q := by simp [uncolored, h]

theorem uncolored_of_colored {p q : Progress} {before rest : List (Entry × Nat)} {e : Entry}
    {i : Nat} {c : Color} (h : d.uncolored mode p = before ++ (e, i) :: rest)
    (hq : ∀ j, q.color? j = if i = j then some c else p.color? j) :
    d.uncolored mode q = before ++ rest := by
  have hsorted := uncolored_sorted d mode p
  rw [h, List.pairwise_append, List.pairwise_cons] at hsorted
  obtain ⟨-, ⟨hrest, -⟩, hbefore⟩ := hsorted
  have hne : ∀ x ∈ before ++ rest, i ≠ x.2 := by
    intro x hx
    rcases List.mem_append.1 hx with hx | hx
    · exact (hbefore x hx (e, i) (by simp)).ne'
    · exact (hrest x hx).ne
  have hfilter : d.uncolored mode q = (d.uncolored mode p).filter fun x => i ≠ x.2 := by
    rw [uncolored, uncolored, List.filter_filter]
    apply List.filter_congr
    intro x _
    rw [hq]
    by_cases hx : i = x.2 <;> simp [hx]
  have hself : (before ++ rest).filter (fun x => i ≠ x.2) = before ++ rest :=
    List.filter_eq_self.2 fun x hx => by simpa using hne x hx
  rw [hfilter, h, ← hself]
  simp

/-- Colors are those of the look-up graph, only entries that references lead to are marked, and the
references of a colored entry are all followed. -/
structure Sound (d : Definition) (mode : Mode) (p : Progress) : Prop where
  colors_size : p.colors.size = d.size
  found_size : p.found.size = d.size
  denotes : ∀ i c, p.color? i = some c → d.Denotes mode i c
  led : ∀ j, p.isFound j = true → ∃ i, d.Leads mode i j
  marked : ∀ i j, (p.color? i).isSome → d.Leads mode i j → p.isFound j = true

theorem sound_start (d : Definition) (mode : Mode) : d.Sound mode (.start d.size) where
  colors_size := by simp [Progress.start]
  found_size := by simp [Progress.start]
  denotes i c h := by simp at h
  led j h := by simp at h
  marked i j h := by simp at h

theorem exists_of_seen? {p : Progress} {r : Reference} (h : (d.seen? mode p r).isSome) :
    ∃ i, d.find? mode r.state r.key = some i ∧ p.color? i = some (d.seen mode p r) := by
  obtain ⟨c, hc⟩ := Option.isSome_iff_exists.1 h
  obtain ⟨i, hf, hi⟩ := Option.bind_eq_some_iff.1 hc
  exact ⟨i, hf, by simpa [seen, hc] using hi⟩

theorem Sound.resolvable {p : Progress} (h : d.Sound mode p) {r : Reference}
    (hr : (d.seen? mode p r).isSome) :
    ∃ i, d.find? mode r.state r.key = some i ∧ d.Resolvable mode i := by
  obtain ⟨i, hf, hc⟩ := exists_of_seen? hr
  exact ⟨i, hf, (h.denotes i _ hc).resolvable⟩

theorem Sound.color?_eq_none {p : Progress} (h : d.Sound mode p) {i : Nat}
    (hi : ¬ d.Resolvable mode i) : p.color? i = none := by
  by_contra hn
  obtain ⟨c, hc⟩ := Option.ne_none_iff_exists'.1 hn
  exact hi (h.denotes i c hc).resolvable

theorem leads_of_mem_hits {i j : Nat} {e : Entry} (he : d.Applies mode i e)
    {references : List Reference} (hs : references ⊆ e.value.references)
    (h : j ∈ d.hits mode references) : d.Leads mode i j := by
  obtain ⟨r, hr, hf⟩ := List.mem_filterMap.1 h
  exact ⟨e, he.entry, he.mode, r, hs hr, hf⟩

theorem mem_hits_of_leads {i j : Nat} {e : Entry} (he : d.Applies mode i e)
    (h : d.Leads mode i j) : j ∈ d.hits mode e.value.references := by
  obtain ⟨e', he', hm', r, hr, hf⟩ := h
  cases he.unique ⟨he', hm'⟩
  exact List.mem_filterMap.2 ⟨r, hr, hf⟩

theorem Leads.lt_size (hd : d.Indexed) {i j : Nat} (h : d.Leads mode i j) : j < d.size := by
  obtain ⟨-, -, -, r, -, hf⟩ := h
  obtain ⟨e, he⟩ := applies_of_find? hd hf
  exact he.lt_size

theorem leads_of_attempt {p : Progress} {i : Nat} {e : Entry} (he : d.Applies mode i e)
    {a : Attempt Color} (ha : d.attempt mode p e = .ok a) : ∀ j ∈ a.found, d.Leads mode i j := by
  have hs := attempt_scanned d mode p e
  rw [ha] at hs
  cases hs with
  | colored known => exact fun j hj => leads_of_mem_hits he (List.Subset.refl _) hj
  | waiting split known found pending =>
    refine fun j hj => leads_of_mem_hits he (fun b hb => ?_) hj
    rw [split]
    simp only [List.mem_append, List.mem_cons] at hb ⊢
    tauto

theorem Sound.denotes_value {p : Progress} (h : d.Sound mode p) {i : Nat} {e : Entry}
    (he : d.Applies mode i e) (known : ∀ r ∈ e.value.references, (d.seen? mode p r).isSome) :
    d.Denotes mode i (e.value.evaluate (d.seen mode p)) := by
  refine .intro (fun r => (d.find? mode r.state r.key).getD 0) _ he.entry ?_ ?_
  all_goals
    intro r hr
    obtain ⟨j, hf, hj⟩ := exists_of_seen? (known r hr)
    rw [hf]
  · rfl
  · exact h.denotes j _ hj

/-- An attempt that is no error keeps everything sound, whether or not it gives a color. -/
theorem Sound.advance (hd : d.Indexed) {p : Progress} (h : d.Sound mode p) {i : Nat} {e : Entry}
    (he : d.Applies mode i e) {a : Attempt Color} (ha : d.attempt mode p e = .ok a) :
    d.Sound mode (p.advance i a) := by
  have hi : i < p.colors.size := h.colors_size ▸ he.lt_size
  have hled := leads_of_attempt he ha
  have hfound : ∀ j, (p.advance i a).isFound j = true ↔ j ∈ a.found ∨ p.isFound j = true :=
    Progress.isFound_advance fun j hj => h.found_size ▸ (hled j hj).lt_size hd
  have hs := attempt_scanned d mode p e
  rw [ha] at hs
  refine ⟨?_, ?_, ?_, ?_, ?_⟩
  · rw [Progress.colors_size_advance, h.colors_size]
  · rw [Progress.found_size_advance, h.found_size]
  · intro k c hc
    cases hs with
    | colored known =>
      rw [Progress.color?_advance_some hi] at hc
      by_cases hk : i = k
      · subst hk
        rw [if_pos rfl] at hc
        cases hc
        exact h.denotes_value he known
      · rw [if_neg hk] at hc
        exact h.denotes k c hc
    | waiting =>
      rw [Progress.color?_advance_none] at hc
      exact h.denotes k c hc
  · intro j hj
    rcases (hfound j).1 hj with hj | hj
    · exact ⟨i, hled j hj⟩
    · exact h.led j hj
  · intro k j hk hl
    rw [hfound]
    cases hs with
    | colored known =>
      rw [Progress.color?_advance_some hi] at hk
      by_cases hik : i = k
      · subst hik
        exact Or.inl (mem_hits_of_leads he hl)
      · rw [if_neg hik] at hk
        exact Or.inr (h.marked k j hk hl)
    | waiting =>
      rw [Progress.color?_advance_none] at hk
      exact Or.inr (h.marked k j hk hl)

/-- The references of an entry up to one that leads to an entry without a color in `p`; those before
it have their colors by `q`. -/
def Blocked (d : Definition) (mode : Mode) (p q : Progress) (e : Entry) : Prop :=
  ∃ before r after i, e.value.references = before ++ r :: after ∧
    (∀ b ∈ before, (d.seen? mode q b).isSome) ∧ d.find? mode r.state r.key = some i ∧
    p.color? i = none

theorem seen?_isSome_of_grows {p q : Progress} (h : p.Grows q) {r : Reference}
    (hr : (d.seen? mode p r).isSome) : (d.seen? mode q r).isSome := by
  obtain ⟨i, hf, hc⟩ := exists_of_seen? hr
  simp [seen?, hf, h i _ hc]

theorem Blocked.mono {p p' q q' : Progress} {e : Entry} (h : d.Blocked mode p q e)
    (hp : p'.Grows p) (hq : q.Grows q') : d.Blocked mode p' q' e := by
  obtain ⟨before, r, after, i, split, known, found, pending⟩ := h
  exact ⟨before, r, after, i, split, fun b hb => seen?_isSome_of_grows hq (known b hb), found,
    hp.eq_none pending⟩

/-- A reference of an applicable entry leads nowhere, and all that stand before it in the entry lead
to entries that can be resolved. -/
structure Exposed (d : Definition) (mode : Mode) (e : Entry) (r : Reference) : Prop where
  applies : ∃ i, d.Applies mode i e
  missing : d.find? mode r.state r.key = none
  split : ∃ before after, e.value.references = before ++ r :: after ∧
    ∀ b ∈ before, ∃ i, d.find? mode b.state b.key = some i ∧ d.Resolvable mode i

theorem Exposed.mem {e : Entry} {r : Reference} (h : d.Exposed mode e r) :
    r ∈ e.value.references := by
  obtain ⟨before, after, split, -⟩ := h.split
  simp [split]

theorem Exposed.not_resolvable {e : Entry} {r : Reference} (h : d.Exposed mode e r) {i : Nat}
    (he : d.Applies mode i e) : ¬ d.Resolvable mode i := by
  intro resolvable
  obtain ⟨j, hj, -⟩ := resolvable.exists_find? he.entry h.mem
  cases h.missing.symm.trans hj

/-- What one attempt does when it is made in order. -/
structure Stepped (d : Definition) (mode : Mode) (p q : Progress) (e : Entry) (i : Nat) : Prop where
  sound : d.Sound mode q
  grows : p.Grows q
  blocked : q.color? i = none → d.Blocked mode p p e

theorem stepped_of_attempt (hd : d.Indexed) {p : Progress} (h : d.Sound mode p) {i : Nat}
    {e : Entry} (he : d.Applies mode i e) (hp : p.color? i = none) {a : Attempt Color}
    (ha : d.attempt mode p e = .ok a) : d.Stepped mode p (p.advance i a) e i := by
  have hi : i < p.colors.size := h.colors_size ▸ he.lt_size
  have hs := attempt_scanned d mode p e
  rw [ha] at hs
  refine ⟨h.advance hd he ha, fun j c hc => ?_, fun hn => ?_⟩
  · cases hs with
    | colored known =>
      rw [Progress.color?_advance_some hi, if_neg, hc]
      rintro rfl
      rw [hp] at hc
      cases hc
    | waiting => rwa [Progress.color?_advance_none]
  · cases hs with
    | colored known =>
      rw [Progress.color?_advance_some hi, if_pos rfl] at hn
      cases hn
    | waiting split known found pending => exact ⟨_, _, _, _, split, known, found, pending⟩

theorem exposed_of_attempt {p : Progress} (h : d.Sound mode p) {i : Nat} {e : Entry}
    (he : d.Applies mode i e) {err : BakeError} (ha : d.attempt mode p e = .error err) :
    ∃ r, d.Exposed mode e r ∧ err = .unknownReference e.qualifiedKey r.text := by
  have hs := attempt_scanned d mode p e
  rw [ha] at hs
  cases hs with
  | @unknown before after r split known missing =>
    exact ⟨r, ⟨⟨i, he⟩, missing, before, after, split, fun b hb => h.resolvable (known b hb)⟩, rfl⟩

/-- An attempt at the first entry still to be tried, with those tried before it in reverse. -/
theorem uncolored_advance {p : Progress} (h : d.Sound mode p) {waiting rest : List (Entry × Nat)}
    {e : Entry} {i : Nat} (hu : d.uncolored mode p = waiting.reverse ++ (e, i) :: rest)
    (a : Attempt Color) :
    d.uncolored mode (p.advance i a) =
      (if a.result.isNone then (e, i) :: waiting else waiting).reverse ++ rest := by
  rcases a with ⟨_ | c, found⟩
  · rw [uncolored_congr fun j => Progress.color?_advance_none p i j found, hu]
    simp
  · obtain ⟨he, -⟩ : d.Applies mode i e ∧ p.color? i = none := mem_uncolored.1 (hu ▸ by simp)
    have hi : i < p.colors.size := h.colors_size ▸ he.lt_size
    exact uncolored_of_colored hu fun j => Progress.color?_advance_some hi c found j

/-- What a run of attempts does. -/
structure Passed (d : Definition) (mode : Mode) (p q : Progress) (tried : List (Entry × Nat)) :
    Prop where
  sound : d.Sound mode q
  grows : p.Grows q
  blocked : ∀ x ∈ tried, q.color? x.2 = none → d.Blocked mode p q x.1

theorem Passed.cons {p p' q : Progress} {e : Entry} {i : Nat} {rest : List (Entry × Nat)}
    (hs : d.Stepped mode p p' e i) (h : d.Passed mode p' q rest) :
    d.Passed mode p q ((e, i) :: rest) where
  sound := h.sound
  grows := hs.grows.trans h.grows
  blocked x hx hn := by
    rcases List.mem_cons.1 hx with rfl | hx
    · exact (hs.blocked (h.grows.eq_none hn)).mono (.refl p) (hs.grows.trans h.grows)
    · exact (h.blocked x hx hn).mono hs.grows (.refl q)

/-- The entries without a color are always those that were tried and still wait, followed by those
that are still to be tried. -/
theorem passed_of_passOn (hd : d.Indexed) {waiting pending still : List (Entry × Nat)}
    {p q : Progress} (h : d.Sound mode p) (hu : d.uncolored mode p = waiting.reverse ++ pending)
    (hp : d.passOn mode waiting pending p = .ok (q, still)) :
    d.Passed mode p q pending ∧ d.uncolored mode q = still := by
  induction pending generalizing waiting p with
  | nil =>
    cases hp
    exact ⟨⟨h, .refl _, by simp⟩, by simpa using hu⟩
  | cons first rest ih =>
    obtain ⟨e, i⟩ := first
    obtain ⟨he, hn⟩ : d.Applies mode i e ∧ p.color? i = none := mem_uncolored.1 (hu ▸ by simp)
    rw [passOn] at hp
    split at hp
    · cases hp
    · rename_i a ha
      have hs := stepped_of_attempt hd h he hn ha
      obtain ⟨passed, hstill⟩ := ih hs.sound (uncolored_advance h hu a) hp
      exact ⟨passed.cons hs, hstill⟩

theorem exposed_of_passOn (hd : d.Indexed) {waiting pending : List (Entry × Nat)} {p : Progress}
    {err : BakeError} (h : d.Sound mode p)
    (hu : d.uncolored mode p = waiting.reverse ++ pending)
    (hp : d.passOn mode waiting pending p = .error err) :
    ∃ e r, d.Exposed mode e r ∧ err = .unknownReference e.qualifiedKey r.text := by
  induction pending generalizing waiting p with
  | nil => cases hp
  | cons first rest ih =>
    obtain ⟨e, i⟩ := first
    obtain ⟨he, hn⟩ : d.Applies mode i e ∧ p.color? i = none := mem_uncolored.1 (hu ▸ by simp)
    rw [passOn] at hp
    split at hp
    · rename_i ha
      cases hp
      exact ⟨e, exposed_of_attempt h he ha⟩
    · rename_i a ha
      have hs := stepped_of_attempt hd h he hn ha
      exact ih hs.sound (uncolored_advance h hu a) hp

theorem passed_of_pass (hd : d.Indexed) {still : List (Entry × Nat)} {p q : Progress}
    (h : d.Sound mode p) (hp : d.pass mode (d.uncolored mode p) p = .ok (q, still)) :
    d.Passed mode p q (d.uncolored mode p) ∧ d.uncolored mode q = still :=
  passed_of_passOn hd h rfl hp

theorem exposed_of_pass (hd : d.Indexed) {p : Progress} {err : BakeError} (h : d.Sound mode p)
    (hp : d.pass mode (d.uncolored mode p) p = .error err) :
    ∃ e r, d.Exposed mode e r ∧ err = .unknownReference e.qualifiedKey r.text :=
  exposed_of_passOn hd h rfl hp

inductive Resolved (d : Definition) (mode : Mode) : Except BakeError Progress → Prop
  | done {p : Progress} (sound : d.Sound mode p) (colored : d.uncolored mode p = []) :
      Resolved d mode (.ok p)
  | unknown {e : Entry} {r : Reference} (exposed : d.Exposed mode e r) :
      Resolved d mode (.error (.unknownReference e.qualifiedKey r.text))
  | stuck {p : Progress} {first : Entry × Nat} {others : List (Entry × Nat)}
      (sound : d.Sound mode p) (pending : d.uncolored mode p = first :: others)
      (blocked : ∀ x ∈ d.uncolored mode p, d.Blocked mode p p x.1) :
      Resolved d mode (.error (.unresolved first.1.qualifiedKey others.length))

/-- A pass that leaves as many entries as it found has colored none. -/
theorem uncolored_eq_of_length {p q : Progress} (h : p.Grows q)
    (hl : (d.uncolored mode p).length ≤ (d.uncolored mode q).length) :
    d.uncolored mode q = d.uncolored mode p := by
  have hsub : (d.uncolored mode q).Sublist (d.uncolored mode p) := by
    apply List.monotone_filter_right
    intro x hx
    rw [Option.isNone_iff_eq_none] at hx ⊢
    exact h.eq_none hx
  exact hsub.eq_of_length_le hl

theorem blocked_of_no_progress (hd : d.Indexed) {p q : Progress}
    (h : d.Passed mode p q (d.uncolored mode p))
    (hl : (d.uncolored mode p).length ≤ (d.uncolored mode q).length) :
    ∀ x ∈ d.uncolored mode q, d.Blocked mode q q x.1 := by
  intro x hx
  have hq := uncolored_eq_of_length h.grows hl
  obtain ⟨-, hn⟩ := mem_uncolored.1 hx
  obtain ⟨before, r, after, i, split, known, found, pending⟩ := h.blocked x (hq ▸ hx) hn
  obtain ⟨e, he⟩ := applies_of_find? hd found
  have hi : (e, i) ∈ d.uncolored mode q := hq ▸ mem_uncolored.2 ⟨he, pending⟩
  exact ⟨before, r, after, i, split, known, found, (mem_uncolored.1 hi).2⟩

theorem resolved_of_resolve (hd : d.Indexed) {pending : List (Entry × Nat)} {p : Progress}
    (h : d.Sound mode p) (hu : d.uncolored mode p = pending) :
    d.Resolved mode (d.resolve mode pending p) := by
  fun_induction resolve d mode pending p with
  | case1 pending p err hp =>
    subst hu
    obtain ⟨e, r, exposed, rfl⟩ := exposed_of_pass hd h hp
    exact .unknown exposed
  | case2 pending p q hp =>
    subst hu
    obtain ⟨passed, hq⟩ := passed_of_pass hd h hp
    exact .done passed.sound hq
  | case3 pending p q first others hp _ ih =>
    subst hu
    obtain ⟨passed, hq⟩ := passed_of_pass hd h hp
    exact ih passed.sound hq
  | case4 pending p q first others hp hl =>
    subst hu
    obtain ⟨passed, hq⟩ := passed_of_pass hd h hp
    refine .stuck passed.sound hq (blocked_of_no_progress hd passed ?_)
    rw [hq, List.length_cons]
    omega

end Definition

end ColorTheme
