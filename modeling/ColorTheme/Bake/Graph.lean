import ColorTheme.Bake
/-! # The look-up graph

What color an entry has, said without the passes of the resolver: every reference leads to one
entry, and the color of a value follows from the colors that its references lead to. An entry has at
most one color, and it has one only if all that it leads to have one. -/
namespace ColorTheme

/-- The argument with a color in place of an entry's name. -/
def Argument.substitute (colors : Reference → Color) (a : Argument) : Argument :=
  match a.target? with
  | some target => .color (colors target)
  | none => a

/-- The color of a value whose references have the given colors. -/
def Value.evaluate (colors : Reference → Color) : Value → Color
  | color c => c
  | reference target => colors target
  | call f arguments => f.evaluate (arguments.map (Argument.substitute colors))

/-- Only the colors of the value's own references matter. -/
theorem Value.evaluate_congr {colors colors' : Reference → Color} (v : Value)
    (h : ∀ r ∈ v.references, colors r = colors' r) : v.evaluate colors = v.evaluate colors' := by
  cases v with
  | color c => rfl
  | reference target => exact h target (by simp [references])
  | call f arguments =>
    simp only [evaluate]
    congr 1
    apply List.map_congr_left
    intro a ha
    cases ht : a.target? with
    | none => simp [Argument.substitute, ht]
    | some target =>
      simp [Argument.substitute, ht, h target (List.mem_filterMap.2 ⟨a, ha, ht⟩)]

namespace Definition

/-- The entry at `i` applies to the mode and has a reference that leads to `j`. -/
def Leads (d : Definition) (mode : Mode) (i j : Nat) : Prop :=
  ∃ e, d.entries[i]? = some e ∧ e.mode.appliesTo mode = true ∧
    ∃ r ∈ e.value.references, d.find? mode r.state r.key = some j

/-- Every reference of the entry leads to an entry of which the same is true. -/
inductive Resolvable (d : Definition) (mode : Mode) : Nat → Prop
  | intro {i : Nat} {e : Entry} (next : Reference → Nat) (entry : d.entries[i]? = some e)
      (found : ∀ r ∈ e.value.references, d.find? mode r.state r.key = some (next r))
      (onward : ∀ r ∈ e.value.references, Resolvable d mode (next r)) : Resolvable d mode i

/-- The entry has the color, as its value and the colors of the entries it leads to make it. -/
inductive Denotes (d : Definition) (mode : Mode) : Nat → Color → Prop
  | intro {i : Nat} {e : Entry} (next : Reference → Nat) (colors : Reference → Color)
      (entry : d.entries[i]? = some e)
      (found : ∀ r ∈ e.value.references, d.find? mode r.state r.key = some (next r))
      (onward : ∀ r ∈ e.value.references, Denotes d mode (next r) (colors r)) :
      Denotes d mode i (e.value.evaluate colors)

theorem Denotes.resolvable {d : Definition} {mode : Mode} {i : Nat} {c : Color}
    (h : d.Denotes mode i c) : d.Resolvable mode i := by
  induction h with
  | intro next _ entry found _ ih => exact .intro next entry found ih

theorem Denotes.unique {d : Definition} {mode : Mode} {i : Nat} {c c' : Color}
    (h : d.Denotes mode i c) (h' : d.Denotes mode i c') : c = c' := by
  induction h generalizing c' with
  | intro next colors entry found _ ih =>
    obtain ⟨next', colors', entry', found', onward'⟩ := h'
    cases Option.some.inj (entry.symm.trans entry')
    apply Value.evaluate_congr
    intro r hr
    have hn : next r = next' r := Option.some.inj ((found r hr).symm.trans (found' r hr))
    exact ih r hr (hn ▸ onward' r hr)

theorem Resolvable.exists_find? {d : Definition} {mode : Mode} {i : Nat}
    (h : d.Resolvable mode i) {e : Entry} (he : d.entries[i]? = some e) {r : Reference}
    (hr : r ∈ e.value.references) :
    ∃ j, d.find? mode r.state r.key = some j ∧ d.Resolvable mode j := by
  obtain ⟨next, entry, found, onward⟩ := h
  cases Option.some.inj (entry.symm.trans he)
  exact ⟨next r, found r hr, onward r hr⟩

theorem Resolvable.of_leads {d : Definition} {mode : Mode} {i j : Nat} (h : d.Resolvable mode i)
    (hl : d.Leads mode i j) : d.Resolvable mode j := by
  obtain ⟨e, he, -, r, hr, hf⟩ := hl
  obtain ⟨k, hk, resolvable⟩ := h.exists_find? he hr
  cases hf.symm.trans hk
  exact resolvable

end Definition

end ColorTheme
