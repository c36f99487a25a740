import Mathlib
import ColorTheme.Proofs.Grounding
import ColorTheme.Proofs.Session
/-! # The way back to the standard theme

Whatever was called on a theme that was started from the standard one, and whatever of it failed:
clearing the override in a mode with a palette succeeds, and from there each such mode is as if the
theme had just been started in it. -/
namespace ColorTheme.Active

variable {base : Definition} {outcome : Outcome} {a : Active}

theorem builtin_of_start (read : Preset.standard.definition = .ok (base, outcome)) {mode : Mode}
    (started : start base mode = .ok a) : builtin mode = .ok a := by
  rw [builtin, read, startRead, started]
  rfl

/-- Without an override a theme is in the state that it is started in. -/
theorem Settled.started (h : a.Settled base) (plain : a.overrideText = none) :
    start base a.mode = .ok a := by
  have hbaked := h.baked
  have hcombined := h.plain plain
  obtain ⟨b, combined, overrideText, mode, table⟩ := a
  obtain rfl : b = base := h.base_eq
  obtain rfl : combined = b := hcombined
  obtain rfl : overrideText = none := plain
  rw [start, show combined.bake mode = .ok table from hbaked]
  rfl

section Calls

variable (h : a.Settled base)
include h

theorem Settled.exists_cleared {t : Table} (baked : base.bake a.mode = .ok t) :
    ∃ b, a.perform .clearOverride = (b, .ok none) ∧ b.Settled base ∧ b.overrideText = none := by
  have hb := h.perform .clearOverride
  have hp := a.performed_perform .clearOverride
  generalize a.perform .clearOverride = result at hb hp
  cases hp with
  | noOverride plain => exact ⟨a, rfl, hb, plain⟩
  | cleared => exact ⟨_, rfl, hb, rfl⟩
  | notCleared _ failed =>
    rw [h.base_eq, baked] at failed
    cases failed

theorem Settled.exists_switched (plain : a.overrideText = none) {mode : Mode} {t : Table}
    (baked : base.bake mode = .ok t) :
    ∃ b, a.perform (.setMode mode) = (b, .ok none) ∧ start base mode = .ok b := by
  have hb := h.perform (.setMode mode)
  have hp := a.performed_perform (.setMode mode)
  generalize a.perform (.setMode mode) = result at hb hp
  cases hp with
  | sameMode => exact ⟨a, rfl, hb.started plain⟩
  | switched => exact ⟨_, rfl, hb.started plain⟩
  | notSwitched _ failed =>
    rw [h.plain plain, baked] at failed
    cases failed

end Calls

/-- After any calls on a theme started from the standard one, successful or not, the override can be
cleared unless the mode is `all`. Then the theme can be switched to every mode but `all`, and is in
the very state of one that was just started in that mode, its table included. -/
theorem clearOverride_setMode {mode : Mode} (started : builtin mode = .ok a) (calls : List Call)
    (named : (a.after calls).mode ≠ .all) :
    ∃ b, (a.after calls).perform .clearOverride = (b, .ok none) ∧
      ∀ target, target ≠ .all → ∃ fresh, builtin target = .ok fresh ∧
        b.perform (.setMode target) = (fresh, .ok none) := by
  obtain ⟨base, outcome, read, -, bakes⟩ := Definition.exists_bake_standard
  have hs := (Begun.builtin read started).settled.after calls
  obtain ⟨t, ht⟩ := bakes _ named
  obtain ⟨b, hclear, hb, plain⟩ := hs.exists_cleared ht
  refine ⟨b, hclear, fun target htarget => ?_⟩
  obtain ⟨t', ht'⟩ := bakes target htarget
  obtain ⟨fresh, hswitch, hfresh⟩ := hb.exists_switched plain ht'
  exact ⟨fresh, builtin_of_start read hfresh, hswitch⟩

/-- The mode `debug` takes an override with an unknown name, which no other mode bakes. -/
theorem clearOverride_nowhere : ∃ a, builtin .debug = .ok a ∧
    (a.after [.applyOverride "Accent: Nowhere"]).overrideText = some "Accent: Nowhere" ∧
    (a.after [.applyOverride "Accent: Nowhere"]).mode ≠ .all ∧
    ∃ b, (a.after [.applyOverride "Accent: Nowhere"]).perform .clearOverride = (b, .ok none) ∧
      ∃ fresh, builtin .light = .ok fresh ∧ b.perform (.setMode .light) = (fresh, .ok none) := by
  obtain ⟨base, outcome, read, -⟩ := Definition.exists_bake_standard
  have started : builtin .debug = .ok ⟨base, base, none, .debug, .debug⟩ :=
    builtin_of_start read rfl
  have named : ((⟨base, base, none, .debug, .debug⟩ : Active).after
      [.applyOverride "Accent: Nowhere"]).mode ≠ .all := nofun
  obtain ⟨b, hclear, hswitch⟩ := clearOverride_setMode started _ named
  exact ⟨_, started, rfl, named, b, hclear, hswitch .light (by decide)⟩

end ColorTheme.Active
