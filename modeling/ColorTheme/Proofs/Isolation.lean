import Mathlib
import ColorTheme.Proofs.Baking
import ColorTheme.Proofs.Transfer
/-! # Modes do not see each other

A bake for a mode depends on nothing but the entries that apply to the mode, in their order. Entries
of other modes only shift the positions. Two bakes that differ in them are followed side by side,
the positions of one renamed to those of the other. -/
namespace ColorTheme.Definition

variable {d d' : Definition} {mode : Mode} {ρ : ℕ → ℕ}

/-- The entries that apply to a mode, in order. -/
def own (d : Definition) (mode : Mode) : List Entry :=
  d.entries.toList.filter fun e => e.mode.appliesTo mode

theorem map_fst_applicable (d : Definition) (mode : Mode) :
    (d.applicable mode).map Prod.fst = d.own mode := by
  have hfst : (d.entries.toList.zipIdx).map Prod.fst = d.entries.toList := List.zipIdx_map_fst ..
  rw [own, ← hfst, List.filter_map]
  rfl

/-- `ρ` takes the position of every entry that applies in `d` to the position that the same entry
has in `d'`, and no other entry of `d'` applies. -/
def Renamed (ρ : ℕ → ℕ) (mode : Mode) (d d' : Definition) : Prop :=
  (d.applicable mode).map (Prod.map id ρ) = d'.applicable mode

theorem exists_renamed (h : d.own mode = d'.own mode) : ∃ ρ, Renamed ρ mode d d' := by
  rw [← map_fst_applicable, ← map_fst_applicable] at h
  obtain ⟨ρ, hρ⟩ := exists_carried (.refl _) h
  exact ⟨ρ, hρ.map_eq⟩

namespace Renamed

variable (h : Renamed ρ mode d d')
include h

theorem carried : Carried ρ mode (d.applicable mode) d d' := ⟨.refl _, h⟩

theorem applies {i : ℕ} {e : Entry} (he : d.Applies mode i e) : d'.Applies mode (ρ i) e :=
  h.carried.applies (mem_applicable.2 he)

theorem exists_applies {j : ℕ} {e : Entry} (he : d'.Applies mode j e) :
    ∃ i, d.Applies mode i e ∧ ρ i = j := by
  obtain ⟨i, hi, hij⟩ := h.carried.exists_mem he
  exact ⟨i, mem_applicable.1 hi, hij⟩

theorem lt {i j : ℕ} {e e' : Entry} (he : d.Applies mode i e) (he' : d.Applies mode j e')
    (hij : i < j) : ρ i < ρ j :=
  h.carried.lt (mem_applicable.2 he) (mem_applicable.2 he') hij

theorem eq_iff {i j : ℕ} {e e' : Entry} (he : d.Applies mode i e) (he' : d.Applies mode j e') :
    ρ i = ρ j ↔ i = j := by
  refine ⟨fun hij => ?_, congrArg ρ⟩
  rcases Nat.lt_trichotomy i j with hlt | heq | hgt
  · exact absurd hij (h.lt he he' hlt).ne
  · exact heq
  · exact absurd hij (h.lt he' he hgt).ne'

theorem find?_eq (hd : d.Indexed) (hd' : d'.Indexed) (state : State) (key : String) :
    d'.find? mode state key = (d.find? mode state key).map ρ :=
  (h.carried.corresponds hd hd' fun _ _ _ _ _ he => mem_applicable.2 he).find?_eq state key

theorem isShadowed_eq (hd : d.Indexed) (hd' : d'.Indexed) {i : ℕ} {e : Entry}
    (he : d.Applies mode i e) : d'.isShadowed (ρ i) = d.isShadowed i := by
  have mode_of_triple {e' : Entry} (ht : e'.triple = e.triple) :
      e'.mode.appliesTo mode = true := by
    rw [show e'.mode = e.mode from congrArg Prod.fst ht]
    exact he.mode
  rw [Bool.eq_iff_iff, isShadowed_iff hd he.entry, isShadowed_iff hd' (h.applies he).entry]
  constructor
  · rintro ⟨j', e', he', ht, hij⟩
    obtain ⟨j, hj, rfl⟩ := h.exists_applies ⟨he', mode_of_triple ht⟩
    refine ⟨j, e', hj.entry, ht, ?_⟩
    by_contra hji
    have hle := h.carried.le (mem_applicable.2 hj) (mem_applicable.2 he) (Nat.le_of_not_lt hji)
    omega
  · rintro ⟨j, e', he', ht, hij⟩
    have hj : d.Applies mode j e' := ⟨he', mode_of_triple ht⟩
    exact ⟨ρ j, e', (h.applies hj).entry, ht, h.lt he hj hij⟩

end Renamed

/-- The same error, or two values of which the relation holds. -/
inductive Paired {α β : Type} (R : α → β → Prop) :
    Except BakeError α → Except BakeError β → Prop
  | error (err : BakeError) : Paired R (.error err) (.error err)
  | ok {a : α} {b : β} (related : R a b) : Paired R (.ok a) (.ok b)

theorem Paired.eq_error {α β : Type} {R : α → β → Prop} {err : BakeError}
    {result : Except BakeError β} (h : Paired R (.error err) result) : result = .error err := by
  cases h
  rfl

theorem Paired.exists_ok {α β : Type} {R : α → β → Prop} {a : α} {result : Except BakeError β}
    (h : Paired R (.ok a) result) : ∃ b, result = .ok b ∧ R a b := by
  cases h with
  | ok related => exact ⟨_, rfl, related⟩

/-- `p'` is to `d'` what `p` is to `d`: it agrees on the entries that apply. -/
structure Mirrors (ρ : ℕ → ℕ) (mode : Mode) (d d' : Definition) (p p' : Progress) : Prop where
  colors_size : p.colors.size = d.size ∧ p'.colors.size = d'.size
  found_size : p.found.size = d.size ∧ p'.found.size = d'.size
  color : ∀ i e, d.Applies mode i e → p'.color? (ρ i) = p.color? i
  found : ∀ i e, d.Applies mode i e → p'.isFound (ρ i) = p.isFound i

theorem mirrors_start (ρ : ℕ → ℕ) (mode : Mode) (d d' : Definition) :
    Mirrors ρ mode d d' (.start d.size) (.start d'.size) where
  colors_size := by simp [Progress.start]
  found_size := by simp [Progress.start]
  color i e _ := by simp
  found i e _ := by simp

section Progress

variable (h : Renamed ρ mode d d')
include h

theorem Mirrors.markFound {p p' : Progress} (hp : Mirrors ρ mode d d' p p') {i : ℕ} {e : Entry}
    (he : d.Applies mode i e) :
    Mirrors ρ mode d d' (p.markFound i) (p'.markFound (ρ i)) where
  colors_size := hp.colors_size
  found_size := by simpa [Progress.markFound] using hp.found_size
  color := hp.color
  found j e' he' := by
    have hi : i < p.found.size := hp.found_size.1 ▸ he.lt_size
    have hi' : ρ i < p'.found.size := hp.found_size.2 ▸ (h.applies he).lt_size
    rw [Progress.isFound_markFound hi, Progress.isFound_markFound hi', hp.found j e' he',
      beq_eq_decide, beq_eq_decide, decide_eq_decide.2 (h.eq_iff he he')]

theorem Mirrors.setColor {p p' : Progress} (hp : Mirrors ρ mode d d' p p') {i : ℕ} {e : Entry}
    (he : d.Applies mode i e) (result : Option Color) :
    Mirrors ρ mode d d' (p.setColor i result) (p'.setColor (ρ i) result) := by
  cases result with
  | none => exact hp
  | some c =>
    have hi : i < p.colors.size := hp.colors_size.1 ▸ he.lt_size
    have hi' : ρ i < p'.colors.size := hp.colors_size.2 ▸ (h.applies he).lt_size
    refine ⟨by simpa [Progress.setColor] using hp.colors_size, hp.found_size,
      fun j e' he' => ?_, hp.found⟩
    simp only [Progress.color?_setColor hi, Progress.color?_setColor hi', hp.color j e' he',
      h.eq_iff he he']

theorem Mirrors.foldl_markFound {p p' : Progress} (hp : Mirrors ρ mode d d' p p')
    {positions : List ℕ} (happly : ∀ i ∈ positions, ∃ e, d.Applies mode i e) :
    Mirrors ρ mode d d' (positions.foldl .markFound p)
      ((positions.map ρ).foldl .markFound p') := by
  induction positions generalizing p p' with
  | nil => exact hp
  | cons i positions ih =>
    obtain ⟨e, he⟩ := happly i (by simp)
    exact ih (hp.markFound h he) fun j hj => happly j (by simp [hj])

/-- Taking in what an attempt came to keeps the two bakes side by side. -/
theorem Mirrors.advance (hd : d.Indexed) {p p' : Progress} (hp : Mirrors ρ mode d d' p p')
    {i : ℕ} {e : Entry} (he : d.Applies mode i e) {a : Attempt Color}
    (ha : d.attempt mode p e = .ok a) :
    Mirrors ρ mode d d' (p.advance i a) (p'.advance (ρ i) ⟨a.result, a.found.map ρ⟩) := by
  have happly : ∀ j ∈ a.found, ∃ e', d.Applies mode j e' := by
    intro j hj
    obtain ⟨-, -, -, r, -, hf⟩ := leads_of_attempt he ha j hj
    exact applies_of_find? hd hf
  exact (hp.foldl_markFound h happly).setColor h he a.result

end Progress

theorem applies_of_follow (hd : d.Indexed) {e : Entry} {target : Reference} {i : ℕ}
    (hi : d.follow mode e target = .ok i) : ∃ e', d.Applies mode i e' := by
  rw [Definition.follow] at hi
  split at hi
  · rename_i hf
    cases hi
    exact applies_of_find? hd hf
  · cases hi

section Bakes

variable (h : Renamed ρ mode d d') (hd : d.Indexed) (hd' : d'.Indexed)
include h hd hd'

theorem Renamed.follow (e : Entry) (target : Reference) :
    d'.follow mode e target = (d.follow mode e target).map ρ := by
  rw [Definition.follow, Definition.follow, h.find?_eq hd hd']
  cases d.find? mode target.state target.key <;> rfl

theorem Renamed.concrete {p p' : Progress} (hp : Mirrors ρ mode d d' p p') (e : Entry)
    (arguments : List Argument) :
    d'.concrete mode p' e arguments =
      (d.concrete mode p e arguments).map fun a => ⟨a.result, a.found.map ρ⟩ := by
  induction arguments with
  | nil => rfl
  | cons argument rest ih =>
    rw [Definition.concrete, Definition.concrete]
    cases argument.target? with
    | none =>
      dsimp only
      rw [ih]
      cases d.concrete mode p e rest <;> rfl
    | some target =>
      dsimp only
      rw [h.follow hd hd']
      cases hi : d.follow mode e target with
      | error err => rfl
      | ok i =>
        obtain ⟨e', he'⟩ := applies_of_follow hd hi
        simp only [Except.map, hp.color i e' he']
        cases p.color? i with
        | none => rfl
        | some c =>
          dsimp only
          rw [ih]
          cases d.concrete mode p e rest <;> rfl

theorem Renamed.attempt {p p' : Progress} (hp : Mirrors ρ mode d d' p p') (e : Entry) :
    d'.attempt mode p' e = (d.attempt mode p e).map fun a => ⟨a.result, a.found.map ρ⟩ := by
  rw [Definition.attempt, Definition.attempt]
  cases e.value with
  | color c => rfl
  | reference target =>
    dsimp only
    rw [h.follow hd hd']
    cases hi : d.follow mode e target with
    | error err => rfl
    | ok i =>
      obtain ⟨e', he'⟩ := applies_of_follow hd hi
      simp only [Except.map, hp.color i e' he', List.map_cons, List.map_nil]
  | call f arguments =>
    dsimp only
    rw [h.concrete hd hd' hp]
    cases d.concrete mode p e arguments <;> rfl

/-- The attempts of a pass. -/
theorem Mirrors.passOn {p p' : Progress} {pending : List (Entry × ℕ)}
    (hp : Mirrors ρ mode d d' p p') (happly : ∀ x ∈ pending, d.Applies mode x.2 x.1)
    (waiting : List (Entry × ℕ)) :
    Paired (fun x x' => Mirrors ρ mode d d' x.1 x'.1 ∧ x'.2 = x.2.map (Prod.map id ρ))
      (d.passOn mode waiting pending p)
      (d'.passOn mode (waiting.map (Prod.map id ρ)) (pending.map (Prod.map id ρ)) p') := by
  induction pending generalizing waiting p p' with
  | nil => exact .ok ⟨hp, by simp⟩
  | cons first rest ih =>
    obtain ⟨e, i⟩ := first
    have he : d.Applies mode i e := happly (e, i) (by simp)
    have hrest : ∀ x ∈ rest, d.Applies mode x.2 x.1 := fun x hx => happly x (by simp [hx])
    rw [List.map_cons, Prod.map_apply, Definition.passOn, Definition.passOn, id,
      h.attempt hd hd' hp]
    cases ha : d.attempt mode p e with
    | error err => exact .error err
    | ok a =>
      have hwaiting : (if a.result.isNone then (e, i) :: waiting else waiting).map (Prod.map id ρ) =
          if a.result.isNone then (e, ρ i) :: waiting.map (Prod.map id ρ)
          else waiting.map (Prod.map id ρ) := by
        split <;> rfl
      have hnext := ih (hp.advance h hd he ha) hrest
        (if a.result.isNone then (e, i) :: waiting else waiting)
      rw [hwaiting] at hnext
      exact hnext

theorem Mirrors.pass {p p' : Progress} {pending : List (Entry × ℕ)}
    (hp : Mirrors ρ mode d d' p p') (happly : ∀ x ∈ pending, d.Applies mode x.2 x.1) :
    Paired (fun x x' => Mirrors ρ mode d d' x.1 x'.1 ∧ x'.2 = x.2.map (Prod.map id ρ))
      (d.pass mode pending p) (d'.pass mode (pending.map (Prod.map id ρ)) p') :=
  hp.passOn h hd hd' happly []

theorem Mirrors.resolve {p p' : Progress} {pending : List (Entry × ℕ)}
    (hp : Mirrors ρ mode d d' p p') (happly : ∀ x ∈ pending, d.Applies mode x.2 x.1) :
    Paired (Mirrors ρ mode d d') (d.resolve mode pending p)
      (d'.resolve mode (pending.map (Prod.map id ρ)) p') := by
  fun_induction d.resolve mode pending p generalizing p' with
  | case1 pending p err hq =>
    have hpass := hp.pass h hd hd' happly
    rw [hq] at hpass
    rw [Definition.resolve, hpass.eq_error]
    exact .error err
  | case2 pending p q hq =>
    have hpass := hp.pass h hd hd' happly
    rw [hq] at hpass
    obtain ⟨⟨q', still⟩, hq', hmirrors, rfl⟩ := hpass.exists_ok
    rw [Definition.resolve, hq']
    exact .ok hmirrors
  | case3 pending p q first others hq hl ih =>
    have hpass := hp.pass h hd hd' happly
    rw [hq] at hpass
    obtain ⟨⟨q', still⟩, hq', hmirrors, rfl⟩ := hpass.exists_ok
    rw [Definition.resolve.eq_def d', hq']
    simp only [List.map_cons, List.length_map, if_pos hl]
    exact ih hmirrors fun x hx => happly x ((sublist_of_pass hq).subset hx)
  | case4 pending p q first others hq hl =>
    have hpass := hp.pass h hd hd' happly
    rw [hq] at hpass
    obtain ⟨⟨q', still⟩, hq', hmirrors, rfl⟩ := hpass.exists_ok
    rw [Definition.resolve.eq_def d', hq']
    simp only [List.map_cons, List.length_map, if_neg hl]
    exact .error _

theorem Mirrors.fill {p p' : Progress} (hp : Mirrors ρ mode d d' p p')
    (cells : List (Slot × State)) (grid : Grid) :
    Paired (fun x x' => x'.1 = x.1 ∧ Mirrors ρ mode d d' x.2 x'.2) (d.fill mode cells grid p)
      (d'.fill mode cells grid p') := by
  induction cells generalizing p p' grid with
  | nil => exact .ok ⟨rfl, hp⟩
  | cons cell cells ih =>
    obtain ⟨slot, state⟩ := cell
    rw [Definition.fill, Definition.fill, h.find?_eq hd hd']
    cases hf : d.find? mode state slot.name with
    | none => exact .error _
    | some i =>
      obtain ⟨e, he⟩ := applies_of_find? hd hf
      simp only [Option.map_some, hp.color i e he]
      cases p.color? i with
      | none => exact .error _
      | some c => exact ih (hp.markFound h he) _

theorem Mirrors.unused {p p' : Progress} (hp : Mirrors ρ mode d d' p p') :
    d'.unused mode p' = d.unused mode p := by
  rw [Definition.unused, Definition.unused, ← h, List.filterMap_map]
  apply List.filterMap_congr
  rintro ⟨e, i⟩ hx
  have he := mem_applicable.1 hx
  simp [hp.found i e he, h.isShadowed_eq hd hd' he]

/-- Definitions whose entries for a mode are the same bake to the same. -/
theorem bakeWithReport_eq_of_renamed : d'.bakeWithReport mode = d.bakeWithReport mode := by
  rw [bakeWithReport, bakeWithReport]
  split
  · rfl
  have hr := (mirrors_start ρ mode d d').resolve h hd hd' fun x hx => mem_applicable.1 hx
  rw [h] at hr
  cases hp : d.resolve mode (d.applicable mode) (.start d.size) with
  | error err =>
    rw [hp] at hr
    rw [hr.eq_error]
  | ok p =>
    rw [hp] at hr
    obtain ⟨p', hp', hmirrors⟩ := hr.exists_ok
    have hf := hmirrors.fill h hd hd' Slot.cells .blank
    rw [hp']
    dsimp only
    cases hq : d.fill mode Slot.cells .blank p with
    | error err =>
      rw [hq] at hf
      rw [hf.eq_error]
      rfl
    | ok filled =>
      rw [hq] at hf
      obtain ⟨⟨grid, q'⟩, hq', rfl, hfound⟩ := hf.exists_ok
      simp only [hq', Except.map, hfound.unused h hd hd']

end Bakes

/-- The definition without the entries that do not apply to a mode. -/
def restrict (d : Definition) (mode : Mode) : Definition := ofEntries (d.own mode)

theorem own_restrict (d : Definition) (mode : Mode) : (d.restrict mode).own mode = d.own mode := by
  simp [restrict, own, entries_ofEntries]

theorem Built.restrict (h : d.Built) (mode : Mode) : (d.restrict mode).Built := by
  refine built_ofEntries fun e he => h.wellTyped e ?_
  exact Array.mem_toList_iff.1 (List.mem_filter.1 he).1

/-- Leaving out all entries that do not apply to a mode, or having others of them anywhere, changes
nothing about a bake for the mode: not the table, not the unused entries and their order, and not
the error. -/
theorem bakeWithReport_restrict (hd : d.Built) (mode : Mode) :
    (d.restrict mode).Built ∧ (d.restrict mode).bakeWithReport mode = d.bakeWithReport mode ∧
      ∀ d' : Definition, d'.Built → d'.own mode = d.own mode →
        d'.bakeWithReport mode = d.bakeWithReport mode := by
  have same {d' : Definition} (hd' : d'.Built) (hown : d'.own mode = d.own mode) :
      d'.bakeWithReport mode = d.bakeWithReport mode := by
    obtain ⟨ρ, h⟩ := exists_renamed hown.symm
    exact bakeWithReport_eq_of_renamed h hd.indexed hd'.indexed
  exact ⟨hd.restrict mode, same (hd.restrict mode) (d.own_restrict mode), fun _ => same⟩

/-- The entries that take their color from one, between two for the mode `light` that make it refer
to itself. -/
def crossed : Definition := ofEntries <|
  ⟨"Ink", .light, .any, .reference ⟨"Ink", .any⟩⟩ ::
    (inked.entries.toList ++ [⟨"Paper", .light, .hovered, .reference ⟨"Nowhere", .any⟩⟩])

theorem bakeWithReport_crossed : inked.Built ∧ crossed.Built ∧
    crossed.own .dark = inked.own .dark ∧ crossed.size = inked.size + 2 ∧
    crossed.bakeWithReport .dark = inked.bakeWithReport .dark := by
  have hb : crossed.Built := built_ofEntries (by decide)
  have hown : crossed.own .dark = inked.own .dark := by decide
  exact ⟨built_inked, hb, hown, by decide,
    (bakeWithReport_restrict built_inked .dark).2.2 crossed hb hown⟩

end ColorTheme.Definition
