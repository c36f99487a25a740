import Mathlib
import ColorTheme.Proofs.Layout
import ColorTheme.Proofs.Reading
import ColorTheme.Proofs.Verdict
/-! # What is said about entries

A key or a reference that was read from a text is a name, or the part of one before its states. No
line break gets into it that way, nor into a message about it. -/
namespace ColorTheme

open Text

/-- The text has no line break in it. -/
def OneLine (s : String) : Prop := '\n' ∉ s.toList

instance (s : String) : Decidable (OneLine s) := inferInstanceAs (Decidable (¬ _))

namespace OneLine

@[simp]
theorem append_iff {s t : String} : OneLine (s ++ t) ↔ OneLine s ∧ OneLine t := by
  simp [OneLine]

theorem ofList_iff {s : List Char} : OneLine (String.ofList s) ↔ '\n' ∉ s := by simp [OneLine]

theorem of_isName {s : List Char} (h : isName s = true) : '\n' ∉ s := fun hn =>
  (of_mem_of_isName h hn).2 (by simp)

end OneLine

@[simp]
theorem oneLine_nat (n : ℕ) : OneLine (toString n) := by
  rw [OneLine, Nat.toString_eq_ofList_toDigits, String.toList_ofList]
  intro h
  have hdigit := Nat.isDigit_of_mem_toDigits (by decide) (by decide) h
  revert hdigit
  decide

@[simp]
theorem Mode.oneLine_name (mode : Mode) : OneLine mode.name := by cases mode <;> decide

@[simp]
theorem State.oneLine_name (state : State) : OneLine state.name := by cases state <;> decide

@[simp]
theorem Slot.oneLine_name (slot : Slot) : OneLine slot.name := by
  have hall : ∀ slot ∈ every, OneLine slot.name := by decide
  exact hall slot (mem_every slot)

theorem Reference.oneLine_text {r : Reference} (h : OneLine r.key) : OneLine r.text := by
  obtain ⟨key, state⟩ := r
  cases state with
  | any => exact h
  | _ =>
    have hkey : OneLine (key ++ "_") := OneLine.append_iff.2 ⟨h, by simp [OneLine]⟩
    exact OneLine.append_iff.2 ⟨hkey, State.oneLine_name _⟩

namespace BakeError

theorem message_unknownReference (key reference : String) :
    (unknownReference key reference).message =
      "`" ++ key ++ "` refers to unknown entry `" ++ reference ++ "`" := rfl

theorem message_unresolved (key : String) (remaining : ℕ) :
    (unresolved key remaining).message =
      "`" ++ key ++ "` cannot be resolved (circular or unresolvable dependency); " ++
        toString remaining ++ " other " ++ "entries also unresolved" := rfl

theorem message_missingCell (slot : Slot) (state : State) :
    (missingCell slot state).message =
      "no entry provides `" ++ slot.name ++ "` for state `" ++ state.name ++ "`" := rfl

theorem oneLine_unknownReference {key reference : String} (hk : OneLine key)
    (hr : OneLine reference) : OneLine (unknownReference key reference).message := by
  simp only [message_unknownReference, OneLine.append_iff, hk, hr]
  simp [OneLine]

theorem oneLine_unresolved {key : String} (hk : OneLine key) (remaining : ℕ) :
    OneLine (unresolved key remaining).message := by
  simp only [message_unresolved, OneLine.append_iff, oneLine_nat, hk]
  simp [OneLine]

theorem oneLine_missingCell (slot : Slot) (state : State) :
    OneLine (missingCell slot state).message := by
  simp only [message_missingCell, OneLine.append_iff, Slot.oneLine_name, State.oneLine_name]
  simp [OneLine]

end BakeError

/-- Nothing in the entry that a message could name has a line break in it. -/
structure Entry.Legible (e : Entry) : Prop where
  key : OneLine e.key
  references : ∀ r ∈ e.value.references, OneLine r.key

theorem Reference.splitState_isPrefix (name : List Char) : (splitState name).1 <+: name := by
  cases hs : suffix? name with
  | none => simp [splitState, hs]
  | some cut =>
    obtain ⟨hcut, -⟩ := suffix?_eq_some hs
    simp only [splitState, hs, Option.getD_some]
    exact ⟨_, hcut.symm⟩

theorem Reference.oneLine_of_read? {s : List Char} {r : Reference} (h : read? s = some r) :
    OneLine r.key := by
  rw [read?] at h
  split at h
  · rename_i hname
    cases h
    exact OneLine.ofList_iff.2 fun hn =>
      OneLine.of_isName hname ((splitState_isPrefix _).subset hn)
  · cases h

theorem Reference.oneLine_of_expandKey {key base : List Char} {states : List State}
    (hk : isName key = true) (h : expandKey key = (base, states)) :
    OneLine (String.ofList base) := by
  have hfree := OneLine.of_isName hk
  rw [OneLine.ofList_iff]
  rcases expandKey_written h with ⟨rfl, -⟩ | ⟨-, rfl⟩
  · exact hfree
  · exact fun hm => hfree (List.mem_append_left _ hm)

theorem Parameter.target_of_read? {parameter : Parameter} {text : List Char} {a : Argument}
    {r : Reference} (h : parameter.read? text = some a) (hr : a.target? = some r) :
    Reference.read? text = some r := by
  cases parameter with
  | color =>
    simp only [read?, Option.orElse_eq_orElse, Option.orElse_eq_or, Option.or_eq_some_iff,
      Option.map_eq_some_iff] at h
    rcases h with ⟨c, -, rfl⟩ | ⟨-, r', hread, rfl⟩
    · cases hr
    · cases hr
      exact hread
  | entry =>
    obtain ⟨r', hread, rfl⟩ := Option.map_eq_some_iff.1 h
    cases hr
    exact hread
  | _ =>
    obtain ⟨x, -, rfl⟩ := Option.map_eq_some_iff.1 h
    cases hr

theorem Builtin.exists_read?_of_readEach {f : Builtin} {position : ℕ}
    {parameters : List Parameter} {texts : List (List Char)} {args : List Argument}
    (h : f.readEach position parameters texts = .ok args) :
    ∀ a ∈ args, ∃ parameter text, Parameter.read? text parameter = some a := by
  intro a ha
  have hmem : some a ∈ Parameter.readAll parameters texts := by
    rw [readAll_of_readEach h]
    exact List.mem_map_of_mem ha
  obtain ⟨x, -, hx⟩ := List.mem_map.1 hmem
  exact ⟨x.1, x.2, hx⟩

theorem Value.oneLine_of_read {key s : List Char} {v : Value} (h : read key s = .ok v) :
    ∀ r ∈ v.references, OneLine r.key := by
  rcases of_read_eq_ok h with ⟨c, rfl⟩ | ⟨f, inner, args, ha, rfl⟩ | ⟨target, hread, rfl⟩
  · simp [references]
  · intro r hr
    obtain ⟨a, hmem, htarget⟩ := List.mem_filterMap.1 hr
    obtain ⟨parameter, text, hread⟩ :=
      Builtin.exists_read?_of_readEach (Builtin.of_readArguments_eq_ok ha).2 a hmem
    exact Reference.oneLine_of_read? (Parameter.target_of_read? hread htarget)
  · intro r hr
    obtain rfl : r = target := List.mem_singleton.1 hr
    exact Reference.oneLine_of_read? hread

namespace Definition

theorem legible_of_mem_written {text : String} {w : Written} (h : w ∈ written text) :
    w.entry.Legible := by
  obtain ⟨_, _, _, hline, hvalue, hkey, -⟩ := exists_assignment h
  obtain ⟨-, -, -, -, -, hname, -⟩ := Line.of_read_eq_assignment hline
  exact ⟨hkey ▸ Reference.oneLine_of_expandKey hname rfl, Value.oneLine_of_read hvalue⟩

variable {d : Definition} {mode : Mode}

def Legible (d : Definition) : Prop := ∀ e ∈ d.entries, e.Legible

/-- Everything that a text adds and everything that it repeats is named on one line. -/
theorem legible_of_parse {text : String} {outcome : Outcome}
    (h : parse text = .ok (d, outcome)) :
    d.Legible ∧ ∀ x ∈ outcome.duplicates, OneLine x.key := by
  constructor
  · intro e he
    obtain ⟨w, hw, rfl⟩ := exists_written_of_parse h he
    exact legible_of_mem_written hw
  · intro x hx
    rw [(of_parse_eq_ok h).2] at hx
    obtain ⟨w, hw, rfl⟩ := List.mem_map.1 hx
    exact (legible_of_mem_written (mem_of_mem_repeated hw)).key

theorem Legible.combine {base overlay : Definition} (hb : base.Legible) (ho : overlay.Legible) :
    (base.combine overlay).Legible := by
  intro e he
  rw [entries_combine] at he
  rcases Array.mem_append.1 he with he | he
  · exact hb e he
  · exact ho e he

theorem Legible.at (h : d.Legible) {i : ℕ} {e : Entry} (he : d.entries[i]? = some e) :
    e.Legible := h e (Array.mem_of_getElem? he)

/-- Whatever a bake reports, an error or entries that did not matter, is said on one line. -/
theorem Legible.of_bakeWithReport (h : d.Legible) (hd : d.Indexed) (mode : Mode) :
    (∀ e, d.bakeWithReport mode = .error e → OneLine e.message) ∧
      ∀ report, d.bakeWithReport mode = .ok report → ∀ u ∈ report.unused, OneLine u.key := by
  by_cases hm : mode = .debug
  · subst hm
    refine ⟨nofun, fun report hr => ?_⟩
    cases hr
    simp
  have hv := verdict_bakeWithReport hd hm
  generalize d.bakeWithReport mode = result at hv
  cases hv with
  | @unknown entry r exposed =>
    obtain ⟨i, applies⟩ := exposed.applies
    have hentry := h.at applies.entry
    have hr : OneLine r.key := hentry.references r exposed.mem
    refine ⟨fun e he => ?_, nofun⟩
    cases he
    exact BakeError.oneLine_unknownReference (Reference.oneLine_text hentry.key)
      (Reference.oneLine_text hr)
  | @unresolved i n entry sheltered least found count cyclic =>
    refine ⟨fun e he => ?_, nofun⟩
    cases he
    exact BakeError.oneLine_unresolved (Reference.oneLine_text (h.at found).key) n
  | missing =>
    refine ⟨fun e he => ?_, nofun⟩
    cases he
    exact BakeError.oneLine_missingCell _ _
  | baked =>
    refine ⟨nofun, fun report hr u hu => ?_⟩
    cases hr
    obtain ⟨x, hx, hu⟩ := List.mem_filterMap.1 hu
    split at hu
    · cases hu
    · cases hu
      exact (h.at (mem_applicable.1 hx).entry).key

end Definition

end ColorTheme
