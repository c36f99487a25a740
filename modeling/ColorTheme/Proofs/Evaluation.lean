import Mathlib
import ColorTheme.Proofs.Baking
/-! # The calls that a bake evaluates

A function is total: where an argument is missing or of another kind it falls back on a color or a
number that nobody wrote. A bake never comes to that. Whatever call it evaluates has the arguments
of the function's parameters, each of its kind, because only such calls get into a definition and
the names of entries are replaced by colors before. -/
namespace ColorTheme

namespace Argument

def color? : Argument → Option Color
  | color value => some value
  | _ => none

def number? : Argument → Option Float32
  | number value => if value.isFinite then some value else none
  | _ => none

def byte? : Argument → Option UInt8
  | byte value => some value
  | _ => none

def integer? : Argument → Option Int32
  | integer value => some value
  | _ => none

/-- Whether the argument is what a parameter gets when its call is evaluated. Where the call names
an entry, that is the color of the entry. -/
def suits : Argument → Parameter → Bool
  | byte _, .byte => true
  | integer _, .integer => true
  | number value, .number => value.isFinite
  | color _, .color => true
  | color _, .entry => true
  | _, _ => false

theorem suits_substitute {a : Argument} {parameter : Parameter} (h : a.fits parameter = true)
    (colors : Reference → Color) : (a.substitute colors).suits parameter = true := by
  cases a <;> cases parameter <;> first | exact h | rfl

section Suits

variable {a : Argument}

theorem color?_eq (h : a.suits .color = true) : a.color? = some a.asColor := by
  cases a <;> first | rfl | cases h

theorem color?_eq_of_entry (h : a.suits .entry = true) : a.color? = some a.asColor := by
  cases a <;> first | rfl | cases h

theorem number?_eq (h : a.suits .number = true) : a.number? = some a.asNumber := by
  cases a with
  | number v => exact if_pos h
  | _ => cases h

theorem byte?_eq (h : a.suits .byte = true) : a.byte? = some a.asByte := by
  cases a <;> first | rfl | cases h

theorem integer?_eq (h : a.suits .integer = true) : a.integer? = some a.asInteger := by
  cases a <;> first | rfl | cases h

end Suits

end Argument

namespace Builtin

/-- The color of a call whose arguments are all there and all of the kind that is asked of them. -/
def evaluate? : Builtin → List Argument → Option Color
  | mix, [a, b, t] => do some (Color.mix (← a.color?) (← b.color?) (← t.number?))
  | opacity, [c, v] => do some ((← c.color?).withAlpha (← v.number?))
  | alpha, [c, n] => do some ((← c.color?).withAlpha (Color.ofByte (← n.byte?)))
  | darken, [c, v] => do some ((← c.color?).darken (← v.number?))
  | lighten, [c, v] => do some ((← c.color?).lighten (← v.number?))
  | shade, [c, n] => do some ((← c.color?).lighten (Float32.ofInt (← n.integer?).toInt / 255))
  | contrast, [c, light, dark] => do
    if (← c.color?).luminance < 0.5 then light.color? else dark.color?
  | _, _ => none

theorem fits_of_accepts {f : Builtin} {args : List Argument} (h : f.accepts args = true) :
    List.Forall₂ (fun a p => a.fits p = true) args f.parameters := by
  simp only [accepts, Bool.and_eq_true, beq_iff_eq, mismatch?, Option.isNone_iff_eq_none,
    Option.map_eq_none_iff, List.findIdx?_eq_none_iff] at h
  refine List.forall₂_iff_zip.2 ⟨h.1, fun {a p} hx => ?_⟩
  simpa using h.2 (a, p) hx

theorem evaluate?_eq_some {f : Builtin} {args : List Argument}
    (h : List.Forall₂ (fun a p => a.suits p = true) args f.parameters) :
    f.evaluate? args = some (f.evaluate args) := by
  cases f with
  | mix =>
    obtain _ | ⟨ha, _ | ⟨hb, _ | ⟨ht, ⟨⟩⟩⟩⟩ := h
    simp [evaluate?, evaluate, Argument.color?_eq ha, Argument.color?_eq hb,
      Argument.number?_eq ht]
  | opacity | darken | lighten =>
    obtain _ | ⟨hc, _ | ⟨hv, ⟨⟩⟩⟩ := h
    simp [evaluate?, evaluate, Argument.color?_eq hc, Argument.number?_eq hv]
  | alpha =>
    obtain _ | ⟨hc, _ | ⟨hn, ⟨⟩⟩⟩ := h
    simp [evaluate?, evaluate, Argument.color?_eq hc, Argument.byte?_eq hn]
  | shade =>
    obtain _ | ⟨hc, _ | ⟨hn, ⟨⟩⟩⟩ := h
    simp [evaluate?, evaluate, Argument.color?_eq hc, Argument.integer?_eq hn]
  | contrast =>
    obtain _ | ⟨hc, _ | ⟨hl, _ | ⟨hk, ⟨⟩⟩⟩⟩ := h
    simp only [evaluate?, evaluate, Argument.color?_eq_of_entry hc, Argument.color?_eq hl,
      Argument.color?_eq hk]
    exact (apply_ite some _ _ _).symm

end Builtin

namespace Definition

variable {d : Definition} {mode : Mode}

/-- In the course of a pass over some pending entries that begins with `p`, the entry `e` is tried
when the progress is `q`. -/
inductive Tried (d : Definition) (mode : Mode) (e : Entry) (q : Progress) :
    List (Entry × Nat) → Progress → Prop
  | first {i : Nat} {rest : List (Entry × Nat)} : Tried d mode e q ((e, i) :: rest) q
  | later {e' : Entry} {i : Nat} {rest : List (Entry × Nat)} {p : Progress} {a : Attempt Color}
      (attempted : d.attempt mode p e' = .ok a) (tried : Tried d mode e q rest (p.advance i a)) :
      Tried d mode e q ((e', i) :: rest) p

/-- The same in the course of all passes. -/
inductive Visited (d : Definition) (mode : Mode) (e : Entry) (q : Progress) :
    List (Entry × Nat) → Progress → Prop
  | now {pending : List (Entry × Nat)} {p : Progress} (tried : d.Tried mode e q pending p) :
      Visited d mode e q pending p
  | again {pending still : List (Entry × Nat)} {p p' : Progress}
      (passed : d.pass mode pending p = .ok (p', still)) (fewer : still.length < pending.length)
      (visited : Visited d mode e q still p') : Visited d mode e q pending p

/-- A bake for the mode evaluates the function on the arguments. -/
def Evaluates (d : Definition) (mode : Mode) (f : Builtin) (args : List Argument) : Prop :=
  mode ≠ .debug ∧ ∃ e q arguments found,
    d.Visited mode e q (d.applicable mode) (.start d.size) ∧ e.value = .call f arguments ∧
      d.concrete mode q e arguments = .ok ⟨some args, found⟩

theorem Tried.mem {e : Entry} {q p : Progress} {pending : List (Entry × Nat)}
    (h : d.Tried mode e q pending p) : ∃ i, (e, i) ∈ pending := by
  induction h with
  | first => exact ⟨_, List.mem_cons_self⟩
  | later _ _ ih => exact ih.imp fun _ hi => List.mem_cons_of_mem _ hi

theorem Visited.mem {e : Entry} {q p : Progress} {pending : List (Entry × Nat)}
    (h : d.Visited mode e q pending p) : ∃ i, (e, i) ∈ pending := by
  induction h with
  | now tried => exact tried.mem
  | again passed _ _ ih => exact ih.imp fun _ hi => (sublist_of_pass passed).subset hi

/-- Colors in place of the entries that a call names make the arguments it is evaluated on. -/
theorem eq_of_concrete {e : Entry} {q : Progress} {arguments args : List Argument}
    {found : List Nat} (h : d.concrete mode q e arguments = .ok ⟨some args, found⟩) :
    args = arguments.map (Argument.substitute (d.seen mode q)) := by
  have hs := concrete_scanned d mode q e arguments
  rw [h] at hs
  cases hs
  rfl

/-- A bake evaluates a function on as many arguments as it has parameters, each of the kind of its
parameter, so that no argument is ever made up. -/
theorem evaluate?_of_evaluates (hd : d.Built) {f : Builtin} {args : List Argument}
    (h : d.Evaluates mode f args) :
    args.length = f.arity ∧ List.Forall₂ (fun a p => a.suits p = true) args f.parameters ∧
      f.evaluate? args = some (f.evaluate args) := by
  obtain ⟨-, e, q, arguments, found, hvisited, hvalue, hconcrete⟩ := h
  obtain ⟨i, hi⟩ := hvisited.mem
  have typed := hd.wellTyped e (Array.mem_of_getElem? (mem_applicable.1 hi).entry)
  rw [hvalue, Value.wellTyped] at typed
  have suits : List.Forall₂ (fun a p => a.suits p = true) args f.parameters := by
    rw [eq_of_concrete hconcrete, List.forall₂_map_left_iff]
    exact (Builtin.fits_of_accepts typed).imp fun _ _ hfit => Argument.suits_substitute hfit _
  exact ⟨suits.length_eq, suits, Builtin.evaluate?_eq_some suits⟩

/-- A color and a call that names its entry. -/
def toned : Definition := ofEntries
  [⟨"Ink", .all, .any, .color .gray⟩,
    ⟨"Text", .all, .any, .call .contrast [.entry ⟨"Ink", .any⟩, .color .white, .color .black]⟩]

theorem built_toned : toned.Built := built_ofEntries (by decide)

theorem evaluates_toned :
    toned.Evaluates .dark .contrast [.color .gray, .color .white, .color .black] := by
  have hink : toned.find? .dark .any "Ink" = some 0 := by
    rw [built_toned.indexed.find?_eq]
    decide
  refine ⟨by decide, _, _, _, [0], .now (.later rfl .first), rfl, ?_⟩
  simp only [concrete, Argument.target?, follow, hink]
  rfl

theorem evaluate?_toned : toned.Built ∧
    toned.Evaluates .dark .contrast [.color .gray, .color .white, .color .black] ∧
    Builtin.contrast.evaluate? [.color .gray, .color .white, .color .black] =
      some (Builtin.contrast.evaluate [.color .gray, .color .white, .color .black]) :=
  ⟨built_toned, evaluates_toned, (evaluate?_of_evaluates built_toned evaluates_toned).2.2⟩

theorem exists_tried {e : Entry} {i : Nat} {waiting pending still : List (Entry × Nat)}
    {p q : Progress} (h : d.passOn mode waiting pending p = .ok (q, still))
    (hi : (e, i) ∈ pending) (hstill : (e, i) ∉ still) :
    ∃ p' a, d.Tried mode e p' pending p ∧ d.attempt mode p' e = .ok a ∧ a.result.isSome := by
  induction pending generalizing waiting p with
  | nil => cases hi
  | cons first rest ih =>
    obtain ⟨e', j⟩ := first
    rw [passOn] at h
    split at h
    · cases h
    · rename_i a ha
      rcases List.mem_cons.1 hi with hfirst | hi
      · cases hfirst
        refine ⟨p, a, .first, ha, ?_⟩
        by_contra hn
        obtain ⟨kept, rfl, -⟩ := eq_append_of_passOn h
        rw [if_pos (by simpa using hn)] at hstill
        exact hstill (by simp)
      · obtain ⟨p', a', htried, ha', hs⟩ := ih h hi
        exact ⟨p', a', .later ha htried, ha', hs⟩

theorem exists_visited {e : Entry} {i : Nat} {pending : List (Entry × Nat)} {p q : Progress}
    (h : d.resolve mode pending p = .ok q) (hi : (e, i) ∈ pending) :
    ∃ p' a, d.Visited mode e p' pending p ∧ d.attempt mode p' e = .ok a ∧ a.result.isSome := by
  fun_induction d.resolve mode pending p with
  | case1 => cases h
  | case2 pending p q' hq =>
    obtain ⟨p', a, htried, ha, hs⟩ := exists_tried hq hi (by simp)
    exact ⟨p', a, .now htried, ha, hs⟩
  | case3 pending p q' first others hq hl ih =>
    by_cases hstill : (e, i) ∈ first :: others
    · obtain ⟨p', a, hvisited, ha, hs⟩ := ih h hstill
      exact ⟨p', a, .again hq hl hvisited, ha, hs⟩
    · obtain ⟨p', a, htried, ha, hs⟩ := exists_tried hq hi hstill
      exact ⟨p', a, .now htried, ha, hs⟩
  | case4 => cases h

/-- A theme that bakes has all its calls evaluated. -/
theorem exists_evaluates {report : Report} (hm : mode ≠ .debug)
    (h : d.bakeWithReport mode = .ok report) {i : Nat} {e : Entry} (he : d.Applies mode i e)
    {f : Builtin} {arguments : List Argument} (hv : e.value = .call f arguments) :
    ∃ args, d.Evaluates mode f args := by
  rw [bakeWithReport, if_neg hm] at h
  cases hr : d.resolve mode (d.applicable mode) (.start d.size) with
  | error err =>
    rw [hr] at h
    cases h
  | ok q =>
    obtain ⟨p', a, hvisited, ha, hs⟩ := exists_visited hr (mem_applicable.2 he)
    rw [attempt, hv] at ha
    dsimp only at ha
    cases hc : d.concrete mode p' e arguments with
    | error err =>
      rw [hc] at ha
      cases ha
    | ok b =>
      rw [hc] at ha
      cases ha
      obtain ⟨_ | args, found⟩ := b
      · cases hs
      · exact ⟨args, hm, e, p', arguments, found, hvisited, hv, hc⟩

end Definition

end ColorTheme
