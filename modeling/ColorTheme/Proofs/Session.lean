import Mathlib
import ColorTheme.Active
/-! # Sessions with the active theme

Mode switches, overrides and their removal in any order, whether they succeed or not. The table is
always the one that baking the base, under the current override, gives for the current mode. -/
namespace ColorTheme

theorem Definition.mode_of_bake {d : Definition} {mode : Mode} {t : Table}
    (h : d.bake mode = .ok t) : t.mode = mode := by
  rw [bake, bakeWithReport] at h
  split at h
  · rename_i hm
    cases h
    exact hm.symm
  · split at h
    · cases h
    · rename_i p _
      cases hf : d.fill mode Slot.cells .blank p with
      | error err =>
        rw [hf] at h
        cases h
      | ok filled =>
        rw [hf] at h
        cases h
        rfl

namespace Active

inductive Call where
  | setMode (mode : Mode)
  | applyOverride (text : String)
  | clearOverride
  deriving DecidableEq, Repr

/-- Makes a call. A result says what was read if the call applied a text. -/
def perform (a : Active) : Call → Active × Except ThemeError (Option Outcome)
  | .setMode mode =>
    let (b, result) := a.setMode mode
    (b, (result.map fun _ => none).mapError .bake)
  | .applyOverride text =>
    let (b, result) := a.applyOverride text
    (b, result.map some)
  | .clearOverride =>
    let (b, result) := a.clearOverride
    (b, (result.map fun _ => none).mapError .bake)

def after (a : Active) (calls : List Call) : Active :=
  calls.foldl (fun a call => (a.perform call).1) a

/-- What a call can come to: it finds nothing to do, it stores what was just baked, or it fails and
stores nothing. -/
inductive Performed (a : Active) : Call → Active × Except ThemeError (Option Outcome) → Prop
  | sameMode : Performed a (.setMode a.mode) (a, .ok none)
  | switched {mode : Mode} {table : Table} (other : a.mode ≠ mode)
      (baked : a.combined.bake mode = .ok table) :
      Performed a (.setMode mode) ({ a with mode, table }, .ok none)
  | notSwitched {mode : Mode} {err : BakeError} (other : a.mode ≠ mode)
      (failed : a.combined.bake mode = .error err) :
      Performed a (.setMode mode) (a, .error (.bake err))
  | overridden {text : String} {overlay : Definition} {outcome : Outcome} {table : Table}
      (read : Definition.parse text = .ok (overlay, outcome))
      (baked : (a.base.combine overlay).bake a.mode = .ok table) :
      Performed a (.applyOverride text)
        ({ a with combined := a.base.combine overlay, overrideText := some text, table },
          .ok (some outcome))
  | notRead {text : String} {err : ParseError} (failed : Definition.parse text = .error err) :
      Performed a (.applyOverride text) (a, .error (.parse err))
  | notOverridden {text : String} {overlay : Definition} {outcome : Outcome} {err : BakeError}
      (read : Definition.parse text = .ok (overlay, outcome))
      (failed : (a.base.combine overlay).bake a.mode = .error err) :
      Performed a (.applyOverride text) (a, .error (.bake err))
  | noOverride (plain : a.overrideText = none) : Performed a .clearOverride (a, .ok none)
  | cleared {table : Table} (overlaid : a.overrideText ≠ none)
      (baked : a.base.bake a.mode = .ok table) :
      Performed a .clearOverride
        ({ a with combined := a.base, overrideText := none, table }, .ok none)
  | notCleared {err : BakeError} (overlaid : a.overrideText ≠ none)
      (failed : a.base.bake a.mode = .error err) :
      Performed a .clearOverride (a, .error (.bake err))

theorem performed_perform (a : Active) (call : Call) : a.Performed call (a.perform call) := by
  cases call with
  | setMode mode =>
    rw [perform, setMode]
    by_cases hm : a.mode = mode
    · subst hm
      rw [if_pos rfl]
      exact .sameMode
    · rw [if_neg hm]
      cases hb : a.combined.bake mode with
      | error err => exact .notSwitched hm hb
      | ok table => exact .switched hm hb
  | applyOverride text =>
    rw [perform, applyOverride]
    rcases hp : Definition.parse text with err | ⟨overlay, outcome⟩
    · exact .notRead hp
    · dsimp only
      cases hb : (a.base.combine overlay).bake a.mode with
      | error err => exact .notOverridden hp hb
      | ok table => exact .overridden hp hb
  | clearOverride =>
    rw [perform, clearOverride]
    by_cases ho : a.overrideText = none
    · rw [if_pos (by simp [ho])]
      exact .noOverride ho
    · rw [if_neg (by simpa using ho)]
      cases hb : a.base.bake a.mode with
      | error err => exact .notCleared ho hb
      | ok table => exact .cleared ho hb

/-- A theme that was just started with a base. -/
inductive Begun : Definition → Active → Prop
  | start {base : Definition} {mode : Mode} {a : Active} (started : start base mode = .ok a) :
      Begun base a
  | builtin {base : Definition} {outcome : Outcome} {mode : Mode} {a : Active}
      (read : Preset.standard.definition = .ok (base, outcome))
      (started : builtin mode = .ok a) : Begun base a

/-- The three pieces that are stored apart belong together. -/
structure Settled (base : Definition) (a : Active) : Prop where
  base_eq : a.base = base
  baked : a.combined.bake a.mode = .ok a.table
  plain : a.overrideText = none → a.combined = base
  overlaid : ∀ text, a.overrideText = some text → ∃ overlay outcome,
    Definition.parse text = .ok (overlay, outcome) ∧ a.combined = base.combine overlay

theorem settled_of_start {base : Definition} {mode : Mode} {a : Active}
    (h : start base mode = .ok a) : a.Settled base := by
  rw [start] at h
  cases hb : base.bake mode with
  | error err =>
    rw [hb] at h
    cases h
  | ok table =>
    rw [hb] at h
    cases h
    exact ⟨rfl, hb, fun _ => rfl, fun text ht => nomatch ht⟩

theorem start_of_startRead {base : Definition} {outcome : Outcome} {mode : Mode} {a : Active}
    (h : startRead mode (.ok (base, outcome)) = .ok a) : start base mode = .ok a := by
  rw [startRead] at h
  cases hs : Active.start base mode with
  | error err =>
    rw [hs] at h
    cases h
  | ok b =>
    rw [hs] at h
    cases h
    rfl

theorem Begun.settled {base : Definition} {a : Active} (h : Begun base a) : a.Settled base := by
  rcases h with started | ⟨read, started⟩
  · exact settled_of_start started
  · rw [Active.builtin, read] at started
    exact settled_of_start (start_of_startRead started)

section Calls

variable {base : Definition} {a : Active} (h : a.Settled base)
include h

theorem Settled.perform (call : Call) : (a.perform call).1.Settled base := by
  have hp := a.performed_perform call
  generalize a.perform call = result at hp
  cases hp with
  | sameMode | notSwitched | notRead | notOverridden | noOverride | notCleared => exact h
  | switched _ baked => exact ⟨h.base_eq, baked, h.plain, h.overlaid⟩
  | overridden read baked =>
    refine ⟨h.base_eq, baked, fun hn => (nomatch hn), fun text ht => ?_⟩
    cases ht
    exact ⟨_, _, read, by rw [h.base_eq]⟩
  | cleared _ baked => exact ⟨h.base_eq, baked, fun _ => h.base_eq, fun _ ht => nomatch ht⟩

theorem Settled.after (calls : List Call) : (a.after calls).Settled base := by
  induction calls generalizing a with
  | nil => exact h
  | cons call calls ih => exact ih (h.perform call)

end Calls

theorem bake_eq_ok_after {base : Definition} {a : Active} (h : Begun base a)
    (calls : List Call) :
    (a.after calls).base = base ∧ (a.after calls).table.mode = (a.after calls).mode ∧
      match (a.after calls).overrideText with
      | none => base.bake (a.after calls).mode = .ok (a.after calls).table
      | some text => ∃ overlay outcome, Definition.parse text = .ok (overlay, outcome) ∧
        (base.combine overlay).bake (a.after calls).mode = .ok (a.after calls).table := by
  have hs := h.settled.after calls
  refine ⟨hs.base_eq, Definition.mode_of_bake hs.baked, ?_⟩
  cases ho : (a.after calls).overrideText with
  | none => exact hs.plain ho ▸ hs.baked
  | some text =>
    obtain ⟨overlay, outcome, hp, hc⟩ := hs.overlaid text ho
    exact ⟨overlay, outcome, hp, hc ▸ hs.baked⟩

/-- In the mode `debug` even an override with an unknown name is taken. -/
def idleDebug : Active := ⟨.empty, .empty, none, .debug, .debug⟩

theorem begun_idleDebug : Begun .empty idleDebug :=
  .start (show Active.start .empty .debug = .ok idleDebug from rfl)

theorem bake_idleDebug : Begun .empty idleDebug ∧ ∃ overlay outcome,
    Definition.parse "Accent: Nowhere" = .ok (overlay, outcome) ∧
      (Definition.empty.combine overlay).bake .debug = .ok .debug := by
  have hrun := bake_eq_ok_after begun_idleDebug
    [.applyOverride "Accent: Nowhere", .setMode .debug, .applyOverride "Accent"]
  exact ⟨begun_idleDebug, hrun.2.2⟩

theorem eq_of_perform_error {a b : Active} {call : Call} {err : ThemeError}
    (h : a.perform call = (b, .error err)) : b = a := by
  have hp := a.performed_perform call
  rw [h] at hp
  cases hp <;> rfl

/-- Calls made one after the other, each with what it returned. -/
abbrev Trace := List (Call × Except ThemeError (Option Outcome))

def trace (a : Active) : List Call → Trace
  | [] => []
  | call :: calls => (call, (a.perform call).2) :: (a.perform call).1.trace calls

namespace Trace

def calls (t : Trace) : List Call := t.map Prod.fst

/-- The calls of a trace that returned no error. -/
def succeeded (t : Trace) : Trace := t.filter fun x => x.2.isOk

end Trace

theorem after_concat (a : Active) (calls : List Call) (call : Call) :
    a.after (calls ++ [call]) = ((a.after calls).perform call).1 := by simp [after]

theorem succeeded_trace_of_error {a b : Active} {call : Call} {err : ThemeError}
    (h : a.perform call = (b, .error err)) (calls : List Call) :
    (a.trace (call :: calls)).succeeded = (a.trace calls).succeeded := by
  obtain rfl := eq_of_perform_error h
  simp [trace, h, Trace.succeeded, Except.isOk, Except.toBool]

theorem succeeded_trace_of_ok {a b : Active} {call : Call} {outcome : Option Outcome}
    (h : a.perform call = (b, .ok outcome)) (calls : List Call) :
    (a.trace (call :: calls)).succeeded = (call, .ok outcome) :: (b.trace calls).succeeded := by
  simp [trace, h, Trace.succeeded, Except.isOk, Except.toBool]

/-- Leaving out the calls that fail changes neither what the others return nor what they come to,
and each call that fails leaves the whole theme as it was. -/
theorem trace_succeeded (a : Active) (calls : List Call) :
    a.trace (a.trace calls).succeeded.calls = (a.trace calls).succeeded ∧
      a.after (a.trace calls).succeeded.calls = a.after calls ∧
      ∀ before call err, ((a.after before).perform call).2 = .error err →
        a.after (before ++ [call]) = a.after before := by
  have erased : a.trace (a.trace calls).succeeded.calls = (a.trace calls).succeeded ∧
      a.after (a.trace calls).succeeded.calls = a.after calls := by
    induction calls generalizing a with
    | nil => exact ⟨rfl, rfl⟩
    | cons call calls ih =>
      have hafter : a.after (call :: calls) = (a.perform call).1.after calls := rfl
      rcases hp : a.perform call with ⟨b, err | outcome⟩
      · obtain rfl := eq_of_perform_error hp
        rw [succeeded_trace_of_error hp, hafter, hp]
        exact ih b
      · obtain ⟨htrace, hrest⟩ := ih b
        rw [succeeded_trace_of_ok hp, hafter, hp]
        refine ⟨?_, ?_⟩
        · rw [Trace.calls, List.map_cons, trace, hp]
          exact congrArg _ htrace
        · rw [Trace.calls, List.map_cons, after, List.foldl_cons, hp]
          exact hrest
  refine ⟨erased.1, erased.2, fun before call err herr => ?_⟩
  rw [after_concat]
  exact eq_of_perform_error (Prod.ext rfl herr)

/-- A text without a colon is refused, between a text that is taken and a mode that is set. -/
def halting : List Call :=
  [.applyOverride "Accent: Nowhere", .applyOverride "Accent", .setMode .debug]

theorem trace_halting : (idleDebug.trace halting).succeeded.calls =
      [.applyOverride "Accent: Nowhere", .setMode .debug] ∧
    ((idleDebug.after (halting.take 1)).perform (.applyOverride "Accent")).2 =
      .error (.parse ⟨1, .missingColon⟩) ∧
    idleDebug.after (halting.take 2) = idleDebug.after (halting.take 1) ∧
    idleDebug.after [.applyOverride "Accent: Nowhere", .setMode .debug] =
      idleDebug.after halting := by
  have hcalls : (idleDebug.trace halting).succeeded.calls =
    [.applyOverride "Accent: Nowhere", .setMode .debug] := rfl
  have herr : ((idleDebug.after (halting.take 1)).perform (.applyOverride "Accent")).2 =
    .error (.parse ⟨1, .missingColon⟩) := rfl
  obtain ⟨-, hafter, hfails⟩ := trace_succeeded idleDebug halting
  rw [hcalls] at hafter
  exact ⟨hcalls, herr, hfails _ _ _ herr, hafter⟩

end Active

end ColorTheme
