import Mathlib
import ColorTheme.Proofs.Built
import ColorTheme.Proofs.Lookup
/-! # What a text adds to a definition

A text writes entries line by line: every line under the mode of the last directive above it, and
one entry for each state of its key. Reading adds those whose mode, state and key nobody took
before, and reports the others. Calls that are read always have the arguments they need, so nothing
else is ever left out. -/
namespace ColorTheme

open Text

theorem Parameter.fits_of_read? {parameter : Parameter} {text : List Char} {a : Argument}
    (h : parameter.read? text = some a) : a.fits parameter = true := by
  cases parameter with
  | byte =>
    obtain ⟨n, -, rfl⟩ := Option.map_eq_some_iff.1 h
    rfl
  | integer =>
    obtain ⟨n, -, rfl⟩ := Option.map_eq_some_iff.1 h
    rfl
  | number =>
    obtain ⟨v, hv, rfl⟩ := Option.map_eq_some_iff.1 h
    exact (Option.filter_eq_some_iff.1 hv).2
  | color =>
    simp only [read?, Option.orElse_eq_orElse, Option.orElse_eq_or, Option.or_eq_some_iff,
      Option.map_eq_some_iff] at h
    rcases h with ⟨c, -, rfl⟩ | ⟨-, r, -, rfl⟩
    · rfl
    · rfl
  | entry =>
    obtain ⟨r, -, rfl⟩ := Option.map_eq_some_iff.1 h
    rfl

/-- What each text writes for the parameter at its place. -/
def Parameter.readAll (parameters : List Parameter) (texts : List (List Char)) :
    List (Option Argument) :=
  (parameters.zip texts).map fun x => x.1.read? x.2

namespace Builtin

/-- Every text writes an argument for its parameter, or the first one that does not is reported. -/
theorem readEach_cases (f : Builtin) (position : ℕ) (parameters : List Parameter)
    (texts : List (List Char)) :
    (∃ args, Parameter.readAll parameters texts = args.map some ∧
      f.readEach position parameters texts = .ok args) ∨
    ∃ i p text, (Parameter.readAll parameters texts).findIdx? Option.isNone = some i ∧
      parameters[i]? = some p ∧ texts[i]? = some text ∧
      f.readEach position parameters texts =
        .error (.argumentType f (position + i) p (String.ofList text)) := by
  induction parameters generalizing position texts with
  | nil => exact Or.inl ⟨[], rfl, rfl⟩
  | cons p parameters ih =>
    cases texts with
    | nil => exact Or.inl ⟨[], rfl, rfl⟩
    | cons text texts =>
      have hall : Parameter.readAll (p :: parameters) (text :: texts) =
          p.read? text :: Parameter.readAll parameters texts := rfl
      rw [hall, List.findIdx?_cons, readEach]
      cases ha : p.read? text with
      | none => exact Or.inr ⟨0, p, text, rfl, rfl, rfl, rfl⟩
      | some a =>
        rcases ih (position + 1) texts with
          ⟨args, hargs, hread⟩ | ⟨i, q, other, hi, hq, ho, hread⟩
        · exact Or.inl ⟨a :: args, by simp [hargs], by simp [hread, Except.map]⟩
        · refine Or.inr ⟨i + 1, q, other, by simp [hi], by simpa using hq, by simpa using ho, ?_⟩
          simp [hread, Except.map, add_assoc, add_comm 1 i]

theorem readAll_of_readEach {f : Builtin} {position : ℕ} {parameters : List Parameter}
    {texts : List (List Char)} {args : List Argument}
    (h : f.readEach position parameters texts = .ok args) :
    Parameter.readAll parameters texts = args.map some := by
  rcases f.readEach_cases position parameters texts with
    ⟨args', hall, hread⟩ | ⟨i, p, text, -, -, -, hread⟩
  · cases h.symm.trans hread
    exact hall
  · cases h.symm.trans hread

theorem fits_of_readEach {f : Builtin} {position : Nat} {parameters : List Parameter}
    {texts : List (List Char)} {args : List Argument} (hl : texts.length = parameters.length)
    (h : f.readEach position parameters texts = .ok args) :
    List.Forall₂ (fun a p => a.fits p = true) args parameters := by
  have hread : List.Forall₂ (fun a x => some a = Parameter.read? x.2 x.1) args
      (parameters.zip texts) := by
    have hall := (readAll_of_readEach h).symm
    rwa [Parameter.readAll, ← List.forall₂_eq_eq_eq, List.forall₂_map_left_iff,
      List.forall₂_map_right_iff] at hall
  rw [← List.map_fst_zip hl.ge, List.forall₂_map_right_iff]
  exact hread.imp fun a x hx => Parameter.fits_of_read? hx.symm

theorem mismatch?_of_fits {f : Builtin} {args : List Argument}
    (h : List.Forall₂ (fun a p => a.fits p = true) args f.parameters) :
    f.mismatch? args = none := by
  simp only [mismatch?, Option.map_eq_none_iff, List.findIdx?_eq_none_iff]
  rintro ⟨a, p⟩ hx
  simp [List.forall₂_zip h hx]

theorem accepts_of_fits {f : Builtin} {args : List Argument}
    (h : List.Forall₂ (fun a p => a.fits p = true) args f.parameters) : f.accepts args = true := by
  simp [accepts, arity, h.length_eq, mismatch?_of_fits h]

theorem of_readArguments_eq_ok {f : Builtin} {inner : List Char} {args : List Argument}
    (h : f.readArguments inner = .ok args) : (argumentTexts inner).length = f.arity ∧
      f.readEach 1 f.parameters (argumentTexts inner) = .ok args := by
  rw [readArguments] at h
  split at h
  · exact ⟨‹_›, h⟩
  · cases h

theorem accepts_of_readArguments {f : Builtin} {inner : List Char} {args : List Argument}
    (h : f.readArguments inner = .ok args) : f.accepts args = true := by
  obtain ⟨hl, hread⟩ := of_readArguments_eq_ok h
  exact accepts_of_fits (fits_of_readEach hl hread)

end Builtin

/-- What is read is a color, a call whose arguments are read, or a reference. -/
theorem Value.of_read_eq_ok {key s : List Char} {v : Value} (h : read key s = .ok v) :
    (∃ c, v = .color c) ∨
    (∃ f inner args, Builtin.readArguments f inner = .ok args ∧ v = .call f args) ∨
      ∃ r, Reference.read? (trim s) = some r ∧ v = .reference r := by
  rw [read] at h
  split at h
  · cases h
    exact Or.inl ⟨_, rfl⟩
  · split at h
    · rename_i f inner _
      cases ha : f.readArguments inner with
      | error fault =>
        rw [ha] at h
        cases h
      | ok args =>
        rw [ha] at h
        cases h
        exact Or.inr (Or.inl ⟨f, inner, args, ha, rfl⟩)
    · split at h
      · rename_i target hread
        cases h
        exact Or.inr (Or.inr ⟨target, hread, rfl⟩)
      · cases h

theorem Value.wellTyped_of_read {key s : List Char} {v : Value} (h : read key s = .ok v) :
    v.wellTyped = true := by
  rcases of_read_eq_ok h with ⟨c, rfl⟩ | ⟨f, inner, args, ha, rfl⟩ | ⟨r, -, rfl⟩
  · rfl
  · exact Builtin.accepts_of_readArguments ha
  · rfl

/-- The members of a list, each with those before it; `before` stand before all of them. -/
def withPrefixes {α : Type} (before : List α) : List α → List (List α × α)
  | [] => []
  | a :: l => (before, a) :: withPrefixes (before ++ [a]) l

/-- An entry as a text writes it, and the number of its line. -/
structure Written where
  line : Nat
  entry : Entry
  deriving DecidableEq, Repr

def Written.duplicate (w : Written) : Duplicate :=
  ⟨w.entry.mode, w.entry.state, w.entry.key, w.line⟩

namespace Line

def directive? (line : List Char) : Option Mode :=
  match read (trim line) with
  | .ok (.directive mode) => some mode
  | _ => none

/-- The mode that the last directive among some lines sets. -/
def modeBelow (above : List (List Char)) : Mode := (above.filterMap directive?).getLast?.getD .all

/-- The entries that a line writes for a mode, one for each state of its key. -/
def entries (mode : Mode) (line : List Char) : List Entry :=
  match read (trim line) with
  | .ok (.assignment key text) =>
    match Value.read key text with
    | .ok value =>
      let (base, states) := Reference.expandKey key
      states.map fun state => ⟨String.ofList base, mode, state, value⟩
    | .error _ => []
  | _ => []

/-- Why a line is refused, be it for its form or for its value. -/
def fault? (line : List Char) : Option Fault :=
  if trim line = [] then none
  else match read (trim line) with
    | .error fault => some fault
    | .ok (.assignment key text) =>
      match Value.read key text with
      | .error fault => some fault
      | .ok _ => none
    | .ok _ => none

/-- What the lines `rest` write below the lines `above`. -/
def writtenBelow (above rest : List (List Char)) : List Written :=
  (withPrefixes above rest).flatMap fun (above, line) =>
    (entries (modeBelow above) line).map (Written.mk (above.length + 1))

end Line

namespace Definition

/-- The entries that a text writes, whether or not a definition takes them. -/
def written (text : String) : List Written := Line.writtenBelow [] (lines text.toList)

/-- An entry of the definition, or one written before, has this mode, state and key. -/
def Taken (d : Definition) (earlier : List Written) (triple : Mode × State × String) : Prop :=
  (∃ e ∈ d.entries, e.triple = triple) ∨ ∃ w ∈ earlier, w.entry.triple = triple

instance (d : Definition) (earlier : List Written) (triple : Mode × State × String) :
    Decidable (d.Taken earlier triple) := inferInstanceAs (Decidable (_ ∨ _))

def fresh (d : Definition) (earlier ws : List Written) : List Written :=
  ((withPrefixes earlier ws).filter fun x => ¬ d.Taken x.1 x.2.entry.triple).map Prod.snd

def repeated (d : Definition) (earlier ws : List Written) : List Written :=
  ((withPrefixes earlier ws).filter fun x => d.Taken x.1 x.2.entry.triple).map Prod.snd

/-- Adds the written entries that are admitted, one by one. -/
def absorb (d : Definition) : List Written → Definition × Outcome
  | [] => (d, .nothing)
  | w :: ws =>
    if d.admits w.entry then
      let (d, rest) := (d.push w.entry).absorb ws
      (d, ⟨1, []⟩ ++ rest)
    else
      let (d, rest) := d.absorb ws
      (d, ⟨0, [w.duplicate]⟩ ++ rest)

end Definition

/-- A key without states stands for itself; otherwise its states follow its base in order. -/
theorem Reference.expandKey_written {key base : List Char} {states : List State}
    (h : expandKey key = (base, states)) :
    base = key ∧ states = [.any] ∨
      .any ∉ states ∧ key = base ++ states.flatMap fun state => '_' :: state.name.toList := by
  rw [expandKey] at h
  cases hs : stripStates maxStates key [] with
  | mk rest taken =>
    obtain ⟨states', rfl, -, hany, -, -, hkey⟩ := eq_of_stripStates hs
    rw [hs, List.append_nil] at h
    cases states' with
    | nil =>
      cases h
      exact Or.inl ⟨rfl, rfl⟩
    | cons state states' =>
      cases h
      exact Or.inr ⟨hany, hkey⟩

namespace Outcome

theorem append_eq (o p : Outcome) :
    o ++ p = ⟨o.added + p.added, o.duplicates ++ p.duplicates⟩ := rfl

theorem nothing_append (o : Outcome) : nothing ++ o = o := by simp [append_eq, nothing]

theorem append_assoc (o p q : Outcome) : o ++ p ++ q = o ++ (p ++ q) := by
  simp [append_eq, Nat.add_assoc]

theorem map_nothing_append (result : Except ParseError Outcome) :
    result.map (nothing ++ ·) = result := by
  cases result <;> simp [Except.map, nothing_append]

end Outcome

theorem Line.modeBelow_concat (above : List (List Char)) (line : List Char) :
    modeBelow (above ++ [line]) = (directive? line).getD (modeBelow above) := by
  rw [modeBelow, List.filterMap_append]
  cases h : directive? line with
  | none => simp [h, modeBelow]
  | some mode => simp [h]

/-- Without a directive among them, lines write their entries for one mode. -/
theorem Line.entry_writtenBelow (above : List (List Char)) {rest : List (List Char)}
    (plain : ∀ line ∈ rest, directive? line = none) :
    (writtenBelow above rest).map Written.entry = rest.flatMap (entries (modeBelow above)) := by
  induction rest generalizing above with
  | nil => rfl
  | cons line rest ih =>
    have hmode : modeBelow (above ++ [line]) = modeBelow above := by
      rw [modeBelow_concat, plain line (by simp)]
      rfl
    have hrest := ih (above ++ [line]) fun l hl => plain l (by simp [hl])
    have hfirst (es : List Entry) (number : Nat) :
        (es.map (Written.mk number)).map Written.entry = es := by simp [Function.comp_def]
    rw [hmode] at hrest
    rw [writtenBelow, withPrefixes, List.flatMap_cons, List.map_append, List.flatMap_cons, hfirst]
    exact congrArg _ hrest

namespace Definition

theorem absorb_append (d : Definition) (ws ws' : List Written) :
    d.absorb (ws ++ ws') = (((d.absorb ws).1.absorb ws').1,
      (d.absorb ws).2 ++ ((d.absorb ws).1.absorb ws').2) := by
  induction ws generalizing d with
  | nil => simp [absorb, Outcome.nothing_append]
  | cons w ws ih =>
    simp only [List.cons_append, absorb]
    split
    · rw [ih, Outcome.append_assoc]
    · rw [ih, Outcome.append_assoc]

theorem insertStates_eq_absorb (d : Definition) (line : Nat) (mode : Mode) (key : String)
    (value : Value) (states : List State) :
    d.insertStates line mode key value states =
      d.absorb (states.map fun state => ⟨line, key, mode, state, value⟩) := by
  induction states generalizing d with
  | nil => rfl
  | cons state states ih =>
    simp only [insertStates, List.map_cons, absorb]
    split
    · rw [ih]
    · rw [ih]
      rfl

/-- One line of a text: it is refused, or its entries are added and the rest is read, below the
mode that the line sets. -/
theorem readTokens_ofLines_cons (d : Definition) (mode : Mode) (number : Nat) (line : List Char)
    (rest : List (List Char)) :
    d.readTokens mode (Token.ofLines number (line :: rest)) =
      match Line.fault? line with
      | some fault => (d, .error ⟨number, fault⟩)
      | none =>
        let (d, first) := d.absorb ((Line.entries mode line).map (Written.mk number))
        let (d, others) := d.readTokens ((Line.directive? line).getD mode)
          (Token.ofLines (number + 1) rest)
        (d, others.map (first ++ ·)) := by
  rw [Token.ofLines]
  by_cases ht : trim line = []
  · have hr : Line.read [] = .error .missingColon := rfl
    simp [Line.fault?, Line.entries, Line.directive?, ht, hr, absorb, Outcome.map_nothing_append]
  · rw [if_neg ht, Line.fault?, if_neg ht, Line.entries, Line.directive?]
    rcases hl : Line.read (trim line) with fault | comment | mode' | ⟨key, text⟩
    · rfl
    · simp [readTokens, absorb, Outcome.map_nothing_append]
    · simp [readTokens, absorb, Outcome.map_nothing_append]
    · rw [readTokens]
      cases hv : Value.read key text with
      | error fault => simp [hv]
      | ok value => simp [hv, assign, insertStates_eq_absorb, List.map_map, Function.comp_def]

/-- Lines of which none is refused add what they write. -/
theorem readTokens_of_accepted (d : Definition) (above : List (List Char))
    {rest : List (List Char)} (accepted : ∀ line ∈ rest, Line.fault? line = none) :
    d.readTokens (Line.modeBelow above) (Token.ofLines (above.length + 1) rest) =
      ((d.absorb (Line.writtenBelow above rest)).1,
        .ok (d.absorb (Line.writtenBelow above rest)).2) := by
  induction rest generalizing above d with
  | nil => rfl
  | cons line rest ih =>
    have hmode := Line.modeBelow_concat above line
    have hlength : (above ++ [line]).length = above.length + 1 := by simp
    have hrest := fun d => ih d (above ++ [line]) fun l hl => accepted l (by simp [hl])
    rw [hmode, hlength] at hrest
    rw [readTokens_ofLines_cons, accepted line (by simp)]
    simp only [hrest, Line.writtenBelow, withPrefixes, List.flatMap_cons, absorb_append]
    rfl

theorem accepted_of_readTokens {mode : Mode} {number : Nat} {rest : List (List Char)}
    {d d' : Definition} {outcome : Outcome}
    (h : d.readTokens mode (Token.ofLines number rest) = (d', .ok outcome)) :
    ∀ line ∈ rest, Line.fault? line = none := by
  induction rest generalizing mode number d d' outcome with
  | nil => simp
  | cons line rest ih =>
    rw [readTokens_ofLines_cons] at h
    cases hf : Line.fault? line with
    | some fault =>
      rw [hf] at h
      cases h
    | none =>
      rw [hf] at h
      dsimp only at h
      generalize hr : (d.absorb _).1.readTokens _ _ = result at h
      obtain ⟨d₂, fault | others⟩ := result
      · cases h
      · intro l hl
        rcases List.mem_cons.1 hl with rfl | hl
        · exact hf
        · exact ih hr l hl

theorem readInto_of_accepted (d : Definition) {text : String}
    (accepted : ∀ line ∈ lines text.toList, Line.fault? line = none) :
    d.readInto text = ((d.absorb (written text)).1, .ok (d.absorb (written text)).2) :=
  readTokens_of_accepted d [] accepted

theorem readInto_eq_absorb {d d' : Definition} {text : String} {outcome : Outcome}
    (h : d.readInto text = (d', .ok outcome)) : (d', outcome) = d.absorb (written text) := by
  have hr := readInto_of_accepted d (accepted_of_readTokens h)
  rw [h] at hr
  simp only [Prod.mk.injEq, Except.ok.injEq] at hr
  exact Prod.ext hr.1 hr.2

/-- What a text writes is for one of the states of a key, with the value beside that key. -/
theorem exists_assignment {text : String} {w : Written} (h : w ∈ written text) :
    ∃ line key value, Line.read (trim line) = .ok (.assignment key value) ∧
      Value.read key value = .ok w.entry.value ∧
      w.entry.key = String.ofList (Reference.expandKey key).1 ∧
      w.entry.state ∈ (Reference.expandKey key).2 := by
  simp only [written, Line.writtenBelow, List.mem_flatMap, List.mem_map] at h
  obtain ⟨⟨above, line⟩, -, e, he, rfl⟩ := h
  rw [Line.entries] at he
  split at he
  · rename_i key text hline
    split at he
    · rename_i value hv
      obtain ⟨state, hstate, rfl⟩ := List.mem_map.1 he
      exact ⟨line, key, text, hline, hv, rfl, hstate⟩
    · cases he
  · cases he

theorem wellTyped_of_mem_written {text : String} {w : Written} (h : w ∈ written text) :
    w.entry.value.wellTyped = true := by
  obtain ⟨_, _, _, -, hvalue, -⟩ := exists_assignment h
  exact Value.wellTyped_of_read hvalue

theorem findExact?_isSome_iff {d : Definition} (hd : d.Indexed) {mode : Mode} {state : State}
    {key : String} :
    (d.findExact? mode state key).isSome ↔ ∃ e ∈ d.entries, e.triple = (mode, state, key) := by
  constructor
  · intro h
    obtain ⟨i, hi⟩ := Option.isSome_iff_exists.1 h
    obtain ⟨e, he, ht⟩ := ((findExact?_eq_some_iff hd).1 hi).entry
    exact ⟨e, Array.mem_of_getElem? he, ht⟩
  · rintro ⟨e, he, ht⟩
    obtain ⟨i, hi⟩ := Array.getElem?_of_mem he
    have hx := findExact?_isSome hd hi
    simp only [Entry.triple, Prod.mk.injEq] at ht
    rwa [ht.1, ht.2.1, ht.2.2] at hx

theorem admits_iff {d : Definition} (hd : d.Indexed) {e : Entry}
    (typed : e.value.wellTyped = true) :
    d.admits e = true ↔ ¬ ∃ e' ∈ d.entries, e'.triple = e.triple := by
  rw [Entry.triple, ← findExact?_isSome_iff hd]
  simp [admits, typed]

/-- Only the entries that are there matter for what is left out. -/
theorem taken_congr {d d' : Definition} (h : d.entries = d'.entries) (earlier : List Written)
    (triple : Mode × State × String) : d.Taken earlier triple ↔ d'.Taken earlier triple := by
  simp [Taken, h]

theorem fresh_congr {d d' : Definition} (h : d.entries = d'.entries) (earlier ws : List Written) :
    d.fresh earlier ws = d'.fresh earlier ws := by
  simp [fresh, taken_congr h]

theorem repeated_congr {d d' : Definition} (h : d.entries = d'.entries)
    (earlier ws : List Written) : d.repeated earlier ws = d'.repeated earlier ws := by
  simp [repeated, taken_congr h]

theorem taken_concat {d : Definition} {earlier : List Written} {w : Written}
    {triple : Mode × State × String} :
    d.Taken (earlier ++ [w]) triple ↔ d.Taken earlier triple ∨ w.entry.triple = triple := by
  simp [Taken, or_and_right, exists_or, or_assoc]

theorem fresh_cons (d : Definition) (earlier : List Written) (w : Written) (ws : List Written) :
    d.fresh earlier (w :: ws) =
      (if d.Taken earlier w.entry.triple then [] else [w]) ++ d.fresh (earlier ++ [w]) ws := by
  by_cases ht : d.Taken earlier w.entry.triple <;> simp [fresh, withPrefixes, ht]

theorem mem_of_mem_withPrefixes {α : Type} {before l : List α} {x : List α × α}
    (h : x ∈ withPrefixes before l) : x.2 ∈ l := by
  induction l generalizing before with
  | nil => cases h
  | cons a l ih =>
    rcases List.mem_cons.1 h with rfl | h
    · simp
    · exact List.mem_cons_of_mem _ (ih h)

theorem mem_of_mem_fresh {d : Definition} {earlier ws : List Written} {w : Written}
    (h : w ∈ d.fresh earlier ws) : w ∈ ws := by
  obtain ⟨x, hx, rfl⟩ := List.mem_map.1 h
  exact mem_of_mem_withPrefixes (List.mem_filter.1 hx).1

theorem mem_of_mem_repeated {d : Definition} {earlier ws : List Written} {w : Written}
    (h : w ∈ d.repeated earlier ws) : w ∈ ws := by
  obtain ⟨x, hx, rfl⟩ := List.mem_map.1 h
  exact mem_of_mem_withPrefixes (List.mem_filter.1 hx).1

theorem repeated_cons (d : Definition) (earlier : List Written) (w : Written)
    (ws : List Written) :
    d.repeated earlier (w :: ws) =
      (if d.Taken earlier w.entry.triple then [w] else []) ++ d.repeated (earlier ++ [w]) ws := by
  by_cases ht : d.Taken earlier w.entry.triple <;> simp [repeated, withPrefixes, ht]

/-- Written entries with names of their own are all added. -/
theorem fresh_of_nodup {d : Definition} {earlier ws : List Written}
    (distinct : (ws.map fun w => w.entry.triple).Nodup)
    (free : ∀ w ∈ ws, ¬ d.Taken earlier w.entry.triple) :
    d.fresh earlier ws = ws ∧ d.repeated earlier ws = [] := by
  induction ws generalizing earlier with
  | nil => exact ⟨rfl, rfl⟩
  | cons w ws ih =>
    obtain ⟨hw, distinct'⟩ := List.nodup_cons.1 distinct
    have free' : ∀ v ∈ ws, ¬ d.Taken (earlier ++ [w]) v.entry.triple := by
      intro v hv ht
      rcases taken_concat.1 ht with ht | ht
      · exact free v (by simp [hv]) ht
      · exact hw (List.mem_map.2 ⟨v, hv, ht.symm⟩)
    obtain ⟨hfresh, hrepeated⟩ := ih distinct' free'
    rw [fresh_cons, repeated_cons, if_neg (free w (by simp)), if_neg (free w (by simp))]
    exact ⟨by simp [hfresh], by simp [hrepeated]⟩

/-- What adding written entries comes to in a definition whose names are those that `d` has, and
those of `earlier`. -/
theorem absorb_eq {d d' : Definition} {earlier ws : List Written} (hd' : d'.Indexed)
    (typed : ∀ w ∈ ws, w.entry.value.wellTyped = true)
    (taken : ∀ triple, d.Taken earlier triple ↔ ∃ e ∈ d'.entries, e.triple = triple) :
    (d'.absorb ws).1.entries = d'.entries ++ (d.fresh earlier ws).map Written.entry ∧
      (d'.absorb ws).2 = ⟨(d.fresh earlier ws).length,
        (d.repeated earlier ws).map Written.duplicate⟩ := by
  -- `taken` is what every entry keeps: `d'` holds the names of `d` and of those before
  induction ws generalizing earlier d' with
  | nil => simp [absorb, fresh, repeated, withPrefixes, Outcome.nothing]
  | cons w ws ih =>
    have typed' : ∀ v ∈ ws, v.entry.value.wellTyped = true := fun v hv => typed v (by simp [hv])
    have ha := admits_iff hd' (typed w (by simp))
    rw [← taken] at ha
    rw [absorb, fresh_cons, repeated_cons]
    by_cases ht : d.Taken earlier w.entry.triple
    · have taken' : ∀ triple, d.Taken (earlier ++ [w]) triple ↔
          ∃ e ∈ d'.entries, e.triple = triple := by
        intro triple
        rw [taken_concat, ← taken, or_iff_left_iff_imp]
        rintro rfl
        exact ht
      obtain ⟨hentries, houtcome⟩ := ih hd' typed' taken'
      rw [if_neg (fun h => ha.1 h ht), if_pos ht, if_pos ht]
      exact ⟨by simpa using hentries, by simp [houtcome, Outcome.append_eq]⟩
    · have taken' : ∀ triple, d.Taken (earlier ++ [w]) triple ↔
          ∃ e ∈ (d'.push w.entry).entries, e.triple = triple := by
        intro triple
        rw [taken_concat, taken]
        simp [or_and_right, exists_or]
      obtain ⟨hentries, houtcome⟩ := ih (hd'.push w.entry) typed' taken'
      rw [if_pos (ha.2 ht), if_neg ht, if_neg ht]
      exact ⟨by simpa using hentries, by simp [houtcome, Outcome.append_eq, Nat.add_comm]⟩

theorem taken_nil {d : Definition} (triple : Mode × State × String) :
    d.Taken [] triple ↔ ∃ e ∈ d.entries, e.triple = triple := by simp [Taken]

/-- What adding all that a text writes comes to. -/
theorem absorb_written {d : Definition} (hd : d.Indexed) (text : String) :
    (d.absorb (written text)).1.entries =
        d.entries ++ (d.fresh [] (written text)).map Written.entry ∧
      (d.absorb (written text)).2 = ⟨(d.fresh [] (written text)).length,
        (d.repeated [] (written text)).map Written.duplicate⟩ :=
  absorb_eq hd (fun _ hw => wellTyped_of_mem_written hw) taken_nil

/-- A text on its own makes the entries that it writes, each name with its first value. -/
theorem of_parse_eq_ok {text : String} {d : Definition} {outcome : Outcome}
    (h : parse text = .ok (d, outcome)) :
    d.entries.toList = (empty.fresh [] (written text)).map Written.entry ∧
      outcome.duplicates = (empty.repeated [] (written text)).map Written.duplicate := by
  have habsorb := readInto_eq_absorb (readInto_of_parse h)
  obtain ⟨hentries, houtcome⟩ := absorb_written indexed_empty text
  rw [← habsorb] at hentries houtcome
  dsimp only at hentries houtcome
  rw [hentries, houtcome]
  exact ⟨by simp [empty], rfl⟩

theorem exists_written_of_parse {text : String} {d : Definition} {outcome : Outcome}
    (h : parse text = .ok (d, outcome)) {e : Entry} (he : e ∈ d.entries) :
    ∃ w ∈ written text, w.entry = e := by
  rw [← Array.mem_toList_iff, (of_parse_eq_ok h).1] at he
  obtain ⟨w, hw, rfl⟩ := List.mem_map.1 he
  exact ⟨w, mem_of_mem_fresh hw, rfl⟩

/-- A text of which no line is refused and no name is written twice makes a definition of just the
entries that it writes. -/
theorem parse_of_distinct {text : String}
    (accepted : ∀ line ∈ lines text.toList, Line.fault? line = none)
    (distinct : ((written text).map fun w => w.entry.triple).Nodup) :
    ∃ d, parse text = .ok (d, ⟨(written text).length, []⟩) ∧
      d.entries.toList = (written text).map Written.entry := by
  have free : ∀ w ∈ written text, ¬ empty.Taken [] w.entry.triple := by simp [Taken, empty]
  obtain ⟨hfresh, hrepeated⟩ := fresh_of_nodup distinct free
  obtain ⟨hentries, houtcome⟩ := absorb_written indexed_empty text
  rw [hfresh] at hentries
  rw [hfresh, hrepeated] at houtcome
  refine ⟨(empty.absorb (written text)).1, ?_, ?_⟩
  · rw [parse, readInto_of_accepted _ accepted, houtcome]
    rfl
  · rw [hentries]
    simp [empty]

/-- Reading adds, behind what was there, the written entries whose mode, state and key nobody took
before, and reports the others. All of them are well typed, and the states of a key stand in their
written order. -/
theorem readInto_eq_ok {d d' : Definition} {text : String} {outcome : Outcome} (hd : d.Built)
    (h : d.readInto text = (d', .ok outcome)) :
    d'.entries.toList = d.entries.toList ++ (d.fresh [] (written text)).map Written.entry ∧
    outcome.added = (d.fresh [] (written text)).length ∧
    outcome.duplicates = (d.repeated [] (written text)).map Written.duplicate ∧
    (∀ w ∈ written text, w.entry.value.wellTyped = true) ∧
    ∀ key base states, Reference.expandKey key = (base, states) →
      base = key ∧ states = [.any] ∨
        .any ∉ states ∧ key = base ++ states.flatMap fun state => '_' :: state.name.toList := by
  have typed : ∀ w ∈ written text, w.entry.value.wellTyped = true :=
    fun w hw => wellTyped_of_mem_written hw
  have habsorb := readInto_eq_absorb h
  obtain ⟨hentries, houtcome⟩ := absorb_written hd.indexed text
  rw [← habsorb] at hentries houtcome
  dsimp only at hentries houtcome
  rw [houtcome, hentries]
  exact ⟨by simp, rfl, rfl, typed, fun _ _ _ hk => Reference.expandKey_written hk⟩

/-- A key that names a state twice, below a call that refers onward, and the same name for another
mode. -/
def doubled : String := "\n".intercalate
  ["Ink_Hovered_Hovered: Contrast(Ink, white, #000)", "", "[Dark]", "Ink_Hovered: red // ink"]

theorem readInto_doubled : ∃ d' outcome, empty.Built ∧
    empty.readInto doubled = (d', .ok outcome) ∧ d'.size = 2 ∧ outcome.added = 2 ∧
    outcome.duplicates = [⟨.all, .hovered, "Ink", 1⟩] := by
  have accepted : ∀ line ∈ lines doubled.toList, Line.fault? line = none := by decide +kernel
  have h := readInto_of_accepted empty accepted
  obtain ⟨hentries, hadded, hduplicates, -⟩ := readInto_eq_ok .empty h
  have hfresh : (empty.fresh [] (written doubled)).length = 2 := by decide +kernel
  refine ⟨_, _, .empty, h, ?_, hadded.trans hfresh, hduplicates.trans ?_⟩
  · rw [size, ← Array.length_toList, hentries]
    simpa [empty] using hfresh
  · decide +kernel

end Definition

end ColorTheme
