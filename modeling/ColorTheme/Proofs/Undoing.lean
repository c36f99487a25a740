import Mathlib
import ColorTheme.Proofs.Recovery
/-! # Calls that take others back

Of all that an active theme stores, the base, the mode and the text of the override decide the rest.
A call that brings mode and text back to what they were therefore brings everything back, and it
succeeds, since what it bakes was baked before. -/
namespace ColorTheme.Active

variable {base : Definition} {a b : Active}

/-- Themes over one base with the same override lay the same definition over it. -/
theorem Settled.combined_eq (ha : a.Settled base) (hb : b.Settled base)
    (text : b.overrideText = a.overrideText) : b.combined = a.combined := by
  cases ho : a.overrideText with
  | none => rw [ha.plain ho, hb.plain (text.trans ho)]
  | some t =>
    obtain ⟨overlay, outcome, read, hcombined⟩ := ha.overlaid t ho
    obtain ⟨overlay', outcome', read', hcombined'⟩ := hb.overlaid t (text.trans ho)
    cases read.symm.trans read'
    rw [hcombined, hcombined']

/-- Nothing is stored that the base, the mode and the override do not decide. -/
theorem Settled.eq (ha : a.Settled base) (hb : b.Settled base) (mode : b.mode = a.mode)
    (text : b.overrideText = a.overrideText) : b = a := by
  have hbase : b.base = a.base := hb.base_eq.trans ha.base_eq.symm
  have hcombined := ha.combined_eq hb text
  have htable : b.table = a.table := by
    have hbaked := hb.baked
    rw [hcombined, mode, ha.baked] at hbaked
    exact (Except.ok.inj hbaked).symm
  cases a
  cases b
  simp_all

theorem overrideText_setMode (a : Active) (mode : Mode) :
    (a.perform (.setMode mode)).1.overrideText = a.overrideText := by
  have hp := a.performed_perform (.setMode mode)
  generalize a.perform (.setMode mode) = result at hp
  cases hp <;> rfl

theorem mode_applyOverride (a : Active) (text : String) :
    (a.perform (.applyOverride text)).1.mode = a.mode := by
  have hp := a.performed_perform (.applyOverride text)
  generalize a.perform (.applyOverride text) = result at hp
  cases hp <;> rfl

theorem mode_clearOverride (a : Active) : (a.perform .clearOverride).1.mode = a.mode := by
  have hp := a.performed_perform .clearOverride
  generalize a.perform .clearOverride = result at hp
  cases hp <;> rfl

theorem overrideText_after_setMode (a : Active) (modes : List Mode) :
    (a.after (modes.map .setMode)).overrideText = a.overrideText := by
  induction modes generalizing a with
  | nil => rfl
  | cons mode modes ih => exact (ih _).trans (a.overrideText_setMode mode)

theorem mode_after_applyOverride (a : Active) (texts : List String) :
    (a.after (texts.map .applyOverride)).mode = a.mode := by
  induction texts generalizing a with
  | nil => rfl
  | cons text texts ih => exact (ih _).trans (a.mode_applyOverride text)

section Calls

variable (ha : a.Settled base)
include ha

theorem Settled.exists_setMode {mode : Mode} {t : Table} (baked : a.combined.bake mode = .ok t) :
    ∃ c, a.perform (.setMode mode) = (c, .ok none) ∧ c.Settled base ∧ c.mode = mode := by
  have hc := ha.perform (.setMode mode)
  have hp := a.performed_perform (.setMode mode)
  generalize a.perform (.setMode mode) = result at hc hp
  cases hp with
  | sameMode => exact ⟨a, rfl, hc, rfl⟩
  | switched => exact ⟨_, rfl, hc, rfl⟩
  | notSwitched _ failed =>
    rw [baked] at failed
    cases failed

theorem Settled.exists_applyOverride {text : String} {overlay : Definition} {outcome : Outcome}
    (read : Definition.parse text = .ok (overlay, outcome)) {t : Table}
    (baked : (base.combine overlay).bake a.mode = .ok t) :
    ∃ c, a.perform (.applyOverride text) = (c, .ok (some outcome)) ∧ c.Settled base ∧
      c.overrideText = some text := by
  have hc := ha.perform (.applyOverride text)
  have hp := a.performed_perform (.applyOverride text)
  generalize a.perform (.applyOverride text) = result at hc hp
  cases hp with
  | overridden read' =>
    cases read.symm.trans read'
    exact ⟨_, rfl, hc, rfl⟩
  | notRead failed => cases read.symm.trans failed
  | notOverridden read' failed =>
    cases read.symm.trans read'
    rw [ha.base_eq, baked] at failed
    cases failed

variable (hb : b.Settled base)
include hb

theorem Settled.setMode_back (text : b.overrideText = a.overrideText) :
    b.perform (.setMode a.mode) = (a, .ok none) := by
  have baked : b.combined.bake a.mode = .ok a.table := ha.combined_eq hb text ▸ ha.baked
  obtain ⟨c, hperform, hc, hmode⟩ := hb.exists_setMode baked
  have htext : c.overrideText = b.overrideText := by
    have hkeeps := b.overrideText_setMode a.mode
    rwa [hperform] at hkeeps
  rw [hperform, ha.eq hc hmode (htext.trans text)]

theorem Settled.clearOverride_back (plain : a.overrideText = none) (mode : b.mode = a.mode) :
    b.perform .clearOverride = (a, .ok none) := by
  have baked : base.bake b.mode = .ok a.table := by rw [mode, ← ha.plain plain, ha.baked]
  obtain ⟨c, hperform, hc, hplain⟩ := hb.exists_cleared baked
  have hmode : c.mode = b.mode := by
    have hkeeps := b.mode_clearOverride
    rwa [hperform] at hkeeps
  rw [hperform, ha.eq hc (hmode.trans mode) (hplain.trans plain.symm)]

end Calls

theorem Settled.applyOverride_again (ha : a.Settled base) {text : String}
    (overlaid : a.overrideText = some text) : ∃ overlay outcome,
    Definition.parse text = .ok (overlay, outcome) ∧
      a.perform (.applyOverride text) = (a, .ok (some outcome)) := by
  obtain ⟨overlay, outcome, read, hcombined⟩ := ha.overlaid text overlaid
  obtain ⟨c, hperform, hc, htext⟩ := ha.exists_applyOverride read (hcombined ▸ ha.baked)
  have hmode : c.mode = a.mode := by
    have hkeeps := a.mode_applyOverride text
    rwa [hperform] at hkeeps
  exact ⟨overlay, outcome, read, by rw [hperform, ha.eq hc hmode (htext.trans overlaid.symm)]⟩

/-- In any state that calls lead to: setting the mode that it has undoes any run of other mode
settings, taking the override that it has once more changes nothing, and, when it has no override,
clearing undoes any run of overrides. All three calls succeed, and what they bring back is the whole
state, whether or not the calls in between succeeded. -/
theorem perform_after_back (h : Begun base a) (calls : List Call) :
    (∀ modes : List Mode,
      ((a.after calls).after (modes.map .setMode)).perform (.setMode (a.after calls).mode) =
        (a.after calls, .ok none)) ∧
    (∀ text, (a.after calls).overrideText = some text → ∃ overlay outcome,
      Definition.parse text = .ok (overlay, outcome) ∧
        (a.after calls).perform (.applyOverride text) = (a.after calls, .ok (some outcome))) ∧
    ((a.after calls).overrideText = none → ∀ texts : List String,
      ((a.after calls).after (texts.map .applyOverride)).perform .clearOverride =
        (a.after calls, .ok none)) := by
  have hs := h.settled.after calls
  refine ⟨fun modes => ?_, fun text overlaid => hs.applyOverride_again overlaid,
    fun plain texts => ?_⟩
  · exact hs.setMode_back (hs.after _) (overrideText_after_setMode _ modes)
  · exact hs.clearOverride_back (hs.after _) plain (mode_after_applyOverride _ texts)

/-- One entry, whose value is the name of none. -/
theorem parse_nowhere :
    ∃ overlay, Definition.parse "Accent: Nowhere" = .ok (overlay, ⟨1, []⟩) := by
  have accepted : ∀ line ∈ Text.lines "Accent: Nowhere".toList, Line.fault? line = none := by
    decide +kernel
  have distinct : ((Definition.written "Accent: Nowhere").map fun w => w.entry.triple).Nodup := by
    decide +kernel
  have hlength : (Definition.written "Accent: Nowhere").length = 1 := by decide +kernel
  obtain ⟨overlay, hparse, -⟩ := Definition.parse_of_distinct accepted distinct
  exact ⟨overlay, hlength ▸ hparse⟩

/-- In the mode `debug` an override with an unknown name is taken, taken again and cleared. Without
it the mode can be changed twice and changed back. -/
theorem perform_back_nowhere : ∃ base a, Begun base a ∧ builtin .debug = .ok a ∧
    (a.after [.setMode .light, .setMode .dark]).mode = .dark ∧
    (a.after [.setMode .light, .setMode .dark]).perform (.setMode .debug) = (a, .ok none) ∧
    ∃ b, a.perform (.applyOverride "Accent: Nowhere") = (b, .ok (some ⟨1, []⟩)) ∧
      b.overrideText = some "Accent: Nowhere" ∧
      b.perform (.applyOverride "Accent: Nowhere") = (b, .ok (some ⟨1, []⟩)) ∧
      b.perform .clearOverride = (a, .ok none) := by
  obtain ⟨base, outcome, read, -, bakes⟩ := Definition.exists_bake_standard
  obtain ⟨overlay, hparse⟩ := parse_nowhere
  let a : Active := ⟨base, base, none, .debug, .debug⟩
  have started : builtin .debug = .ok a := builtin_of_start read rfl
  have begun : Begun base a := .builtin read started
  obtain ⟨switched, -, cleared⟩ := perform_after_back begun []
  obtain ⟨-, again, -⟩ := perform_after_back begun [.applyOverride "Accent: Nowhere"]
  have hmode : (a.after [.setMode .light, .setMode .dark]).mode = .dark := by
    obtain ⟨light, hlight⟩ := bakes .light (by decide)
    obtain ⟨dark, hdark⟩ := bakes .dark (by decide)
    simp [a, after, perform, setMode, hlight, hdark]
  obtain ⟨b, hperform, -, htext⟩ :=
    begun.settled.exists_applyOverride hparse (Definition.bake_debug _)
  have hafter : a.after [.applyOverride "Accent: Nowhere"] = b := by simp [after, hperform]
  rw [hafter] at again
  obtain ⟨overlay', outcome', hparse', hagain⟩ := again _ htext
  cases hparse.symm.trans hparse'
  exact ⟨base, a, begun, started, hmode, switched [.light, .dark], b, hperform, htext, hagain,
    hafter ▸ cleared rfl ["Accent: Nowhere"]⟩

end ColorTheme.Active
