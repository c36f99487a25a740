import Mathlib
import ColorTheme.Definition.Reader
/-! # Definitions that can be built

Definitions are only ever made by starting empty, inserting entries, reading texts and combining.
Reading adds nothing but admitted entries, one behind the other, so that what such an entry keeps
is kept by a whole text. -/
namespace ColorTheme.Definition

section Reading

variable {P : Definition → Prop} (push : ∀ d e, d.admits e = true → P d → P (d.push e))
include push

theorem insertStates_induction (line : Nat) (mode : Mode) (key : String) (value : Value)
    (states : List State) {d : Definition} (hd : P d) :
    P (d.insertStates line mode key value states).1 := by
  induction states generalizing d with
  | nil => exact hd
  | cons state states ih =>
    simp only [insertStates]
    by_cases ha : d.admits ⟨key, mode, state, value⟩ = true
    · rw [if_pos ha]
      exact ih (push d _ ha hd)
    · rw [if_neg ha]
      exact ih hd

theorem readTokens_induction (mode : Mode) (tokens : List Token) {d : Definition} (hd : P d) :
    P (d.readTokens mode tokens).1 := by
  induction tokens generalizing mode d with
  | nil => exact hd
  | cons token rest ih =>
    rcases token with ⟨line, fault | comment | mode' | ⟨key, text⟩⟩
    · exact hd
    · exact ih mode hd
    · exact ih mode' hd
    · rw [readTokens]
      cases Value.read key text with
      | error fault => exact hd
      | ok value => exact ih mode (insertStates_induction push line mode _ value _ hd)

theorem readInto_induction (text : String) {d : Definition} (hd : P d) :
    P (d.readInto text).1 := readTokens_induction push .all _ hd

end Reading

/-- A definition that some sequence of operations makes. An entry or a line that is refused leaves
what was there before. -/
inductive Built : Definition → Prop
  | empty : Built empty
  | insert {d d' : Definition} {e : Entry} (built : Built d) (inserted : d.insert? e = some d') :
      Built d'
  | read {d : Definition} (text : String) (built : Built d) : Built (d.readInto text).1
  | combine {base overlay : Definition} (base_built : Built base)
      (overlay_built : Built overlay) : Built (base.combine overlay)

theorem Built.indexed {d : Definition} (h : d.Built) : d.Indexed := by
  induction h with
  | empty => exact indexed_empty
  | insert _ inserted ih => exact ih.insert? inserted
  | read text _ ih => exact readInto_induction (fun _ e _ hd => hd.push e) text ih
  | combine => exact indexed_combine _ _

theorem wellTyped_push {d : Definition} {e : Entry} (ha : d.admits e = true)
    (h : ∀ e ∈ d.entries, e.value.wellTyped = true) :
    ∀ e' ∈ (d.push e).entries, e'.value.wellTyped = true := by
  intro e' he'
  rcases Array.mem_push.1 he' with he' | rfl
  · exact h e' he'
  · exact (Bool.and_eq_true_iff.1 ha).1

/-- Combining checks nothing, and need not: what it copies was checked when it was added. -/
theorem Built.wellTyped {d : Definition} (h : d.Built) :
    ∀ e ∈ d.entries, e.value.wellTyped = true := by
  induction h with
  | empty => simp [Definition.empty]
  | @insert d d' e _ inserted ih =>
    rw [insert?] at inserted
    split at inserted
    · rename_i ha
      cases inserted
      exact wellTyped_push ha ih
    · cases inserted
  | read text _ ih =>
    exact readInto_induction (P := fun d => ∀ e ∈ d.entries, e.value.wellTyped = true)
      (fun _ _ ha hd => wellTyped_push ha hd) text ih
  | combine _ _ base overlay =>
    intro e he
    rw [entries_combine] at he
    rcases Array.mem_append.1 he with he | he
    · exact base e he
    · exact overlay e he

theorem readInto_of_parse {text : String} {d : Definition} {outcome : Outcome}
    (h : parse text = .ok (d, outcome)) : empty.readInto text = (d, .ok outcome) := by
  rw [parse] at h
  split at h
  · rename_i hr
    cases h
    exact hr
  · cases h

theorem Built.of_parse {text : String} {d : Definition} {outcome : Outcome}
    (h : parse text = .ok (d, outcome)) : d.Built := by
  have hb := Built.empty.read text
  rwa [readInto_of_parse h] at hb

def ofEntries (es : List Entry) : Definition := es.foldl push empty

theorem entries_ofEntries (es : List Entry) : (ofEntries es).entries = es.toArray := by
  simp [ofEntries, entries_foldl_push, empty]

theorem indexed_ofEntries (es : List Entry) : (ofEntries es).Indexed :=
  indexed_empty.foldl_push es

theorem combine_eq_ofEntries (base overlay : Definition) :
    base.combine overlay = ofEntries (base.entries.toList ++ overlay.entries.toList) := by
  simp [combine, ofEntries]

theorem built_ofEntries {es : List Entry} (h : ∀ e ∈ es, e.value.wellTyped = true) :
    (ofEntries es).Built := by
  induction es using List.reverseRecOn with
  | nil => exact .empty
  | append_singleton es e ih =>
    have single : (ofEntries [e]).Built := by
      refine .insert .empty (e := e) ?_
      have ha : empty.admits e = true := by simp [admits, findExact?, empty, h e (by simp)]
      rw [insert?, if_pos ha]
      rfl
    have hb := (ih fun e' he' => h e' (by simp [he'])).combine single
    rwa [combine_eq_ofEntries, entries_ofEntries, entries_ofEntries] at hb

end ColorTheme.Definition
