import Mathlib
import ColorTheme.Proofs.Combining
import ColorTheme.Proofs.Evaluation
import ColorTheme.Proofs.Reading
/-! # Editing a definition

Inserting entries and reading texts, in any order and whether or not they succeed, only ever put
admitted entries behind those that are there. So the first entry of a mode, state and key stays the
only one, except where a combination has brought others, and of those there come no more. -/
namespace ColorTheme

/-- A value is well typed unless it is a call whose arguments do not fit its function. -/
theorem Value.wellTyped_eq_false_iff {v : Value} : v.wellTyped = false ↔ ∃ f args,
    v = .call f args ∧ ¬ List.Forall₂ (fun a p => Argument.fits a p = true) args f.parameters := by
  cases v with
  | color c => simp [wellTyped]
  | reference target => simp [wellTyped]
  | call f args =>
    rw [wellTyped, ← Bool.not_eq_true]
    constructor
    · intro hn
      exact ⟨f, args, rfl, fun hfit => hn (Builtin.accepts_of_fits hfit)⟩
    · rintro ⟨f', args', heq, hn⟩ ha
      cases heq
      exact hn (Builtin.fits_of_accepts ha)

namespace Definition

variable {d : Definition}

/-- Adds an entry if it is admitted, and tells whether it was. -/
def insert (d : Definition) (e : Entry) : Definition × Bool :=
  match d.insert? e with
  | some d' => (d', true)
  | none => (d, false)

inductive Edit where
  | insert (e : Entry)
  | read (text : String)
  deriving DecidableEq, Repr

/-- What an edit leaves. Of a text that is refused, the lines above the refused one count. -/
def edit (d : Definition) : Edit → Definition
  | .insert e => (d.insert e).1
  | .read text => (d.readInto text).1

def editAll (d : Definition) (edits : List Edit) : Definition := edits.foldl edit d

/-- The modes, states and keys of the entries, in order. -/
def triples (d : Definition) : List (Mode × State × String) := d.entries.toList.map Entry.triple

theorem mem_triples {triple : Mode × State × String} :
    triple ∈ d.triples ↔ ∃ e ∈ d.entries, e.triple = triple := by simp [triples]

theorem triples_push (d : Definition) (e : Entry) :
    (d.push e).triples = d.triples ++ [e.triple] := by simp [triples]

theorem insert_eq (d : Definition) (e : Entry) :
    d.insert e = if d.admits e then (d.push e, true) else (d, false) := by
  rw [insert, insert?]
  cases d.admits e <;> rfl

theorem admits_eq_false_iff (hd : d.Indexed) {e : Entry} :
    d.admits e = false ↔ e.triple ∈ d.triples ∨ e.value.wellTyped = false := by
  rw [mem_triples, Entry.triple, ← findExact?_isSome_iff hd, admits, Bool.and_eq_false_iff, or_comm,
    Option.isNone_eq_false_iff]

theorem insert_eq_self_iff (hd : d.Indexed) {e : Entry} : d.insert e = (d, false) ↔
    e.triple ∈ d.triples ∨ e.value.wellTyped = false := by
  rw [← admits_eq_false_iff hd, insert_eq]
  cases d.admits e <;> simp

section Runs

variable {P : Definition → Prop} (push : ∀ d e, d.admits e = true → P d → P (d.push e))
include push

/-- One edit keeps what every admitted entry keeps. -/
theorem edit_induction (edit : Edit) (hd : P d) : P (d.edit edit) := by
  cases edit with
  | insert e =>
    rw [Definition.edit, insert_eq]
    by_cases ha : d.admits e = true
    · rw [if_pos ha]
      exact push d e ha hd
    · rw [if_neg ha]
      exact hd
  | read text => exact readInto_induction push text hd

theorem editAll_induction (edits : List Edit) (hd : P d) : P (d.editAll edits) := by
  induction edits generalizing d with
  | nil => exact hd
  | cons edit edits ih => exact ih (edit_induction push edit hd)

end Runs

theorem entries_prefix_editAll (d : Definition) (edits : List Edit) :
    d.entries.toList <+: (d.editAll edits).entries.toList := by
  refine editAll_induction (P := fun d' => d.entries.toList <+: d'.entries.toList) ?_ edits
    (List.prefix_refl _)
  intro d' e _ h
  rw [entries_push, Array.toList_push]
  exact h.trans (List.prefix_append _ _)

/-- An admitted entry is the first one of its mode, state and key. -/
theorem count_triples_push (hd : d.Indexed) {e : Entry} (ha : d.admits e = true)
    (triple : Mode × State × String) :
    (d.push e).triples.count triple ≤ max 1 (d.triples.count triple) := by
  have hfree : e.triple ∉ d.triples := by
    intro hm
    rw [(admits_eq_false_iff hd).2 (Or.inl hm)] at ha
    cases ha
  rw [triples_push, List.count_append, List.count_singleton]
  by_cases ht : e.triple = triple
  · subst ht
    simp [List.count_eq_zero_of_not_mem hfree]
  · simp [ht]

theorem count_triples_editAll (hd : d.Indexed) (edits : List Edit)
    (triple : Mode × State × String) :
    (d.editAll edits).triples.count triple ≤ max 1 (d.triples.count triple) := by
  refine (editAll_induction (P := fun d' => d'.Indexed ∧
    d'.triples.count triple ≤ max 1 (d.triples.count triple)) ?_ edits ⟨hd, le_max_right _ _⟩).2
  rintro d' e ha ⟨hd', hcount⟩
  have hpush := count_triples_push hd' ha triple
  exact ⟨hd'.push e, by omega⟩

theorem nodup_triples_editAll (edits : List Edit) : (empty.editAll edits).triples.Nodup := by
  rw [List.nodup_iff_count_le_one]
  intro triple
  simpa [triples, empty] using count_triples_editAll indexed_empty edits triple

/-- From nothing, edits give every mode, state and key at most one entry. In any definition they
only add behind what is there, an entry is refused just when its name is taken or its call does not
fit its function, and no name comes to have more entries than one, or than it had. -/
theorem triples_editAll (hd : d.Built) :
    (∀ edits, (empty.editAll edits).triples.Nodup) ∧
    (∀ edits, d.entries.toList <+: (d.editAll edits).entries.toList) ∧
    (∀ edits triple, (d.editAll edits).triples.count triple ≤ max 1 (d.triples.count triple)) ∧
    ∀ e, (d.insert e = (d, false) ↔ e.triple ∈ d.triples ∨ ∃ f args, e.value = .call f args ∧
        ¬ List.Forall₂ (fun a p => Argument.fits a p = true) args f.parameters) ∧
      (d.insert e ≠ (d, false) → d.insert e = (d.push e, true)) := by
  refine ⟨nodup_triples_editAll, entries_prefix_editAll d,
    fun edits triple => count_triples_editAll hd.indexed edits triple, fun e => ⟨?_, ?_⟩⟩
  · rw [insert_eq_self_iff hd.indexed, Value.wellTyped_eq_false_iff]
  · rw [insert_eq]
    cases d.admits e <;> simp

/-- A color, a call with an argument too few and a text whose second line is refused. -/
def blotted : List Edit :=
  [.insert ⟨"Ink", .all, .any, .color .gray⟩,
    .insert ⟨"Text", .all, .any, .call .darken [.entry ⟨"Ink", .any⟩]⟩, .read "Ink: red\nInk"]

/-- The combination has two entries of one name, which stay two. -/
theorem editAll_blotted : (tinted.combine retinted).Built ∧
    (empty.editAll blotted).triples.Nodup ∧
    ((tinted.combine retinted).editAll blotted).triples.count (.all, .any, "Ink") = 2 ∧
    (tinted.combine retinted).insert
      ⟨"Text", .all, .any, .call .darken [.entry ⟨"Ink", .any⟩]⟩ =
        (tinted.combine retinted, false) := by
  have hb : (tinted.combine retinted).Built :=
    .combine (built_ofEntries (by decide)) (built_ofEntries (by decide))
  obtain ⟨distinct, kept, counted, inserted⟩ := triples_editAll hb
  have htwo : (tinted.combine retinted).triples.count (.all, .any, "Ink") = 2 := by decide
  refine ⟨hb, distinct blotted, le_antisymm ?_ ?_, (inserted _).1.2 (Or.inr ⟨_, _, rfl, ?_⟩)⟩
  · simpa [htwo] using counted blotted (.all, .any, "Ink")
  · rw [← htwo]
    exact ((kept blotted).sublist.map Entry.triple).count_le _
  · intro hfit
    cases hfit.length_eq

end Definition

end ColorTheme
