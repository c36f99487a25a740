import ColorTheme.Definition
import ColorTheme.Table
/-! # Baking

Baking a definition for a mode gives every entry that applies to the mode its color, pass by pass
until none is left, and copies one color into every cell of a table. Colors found early in a pass
are seen later in the same pass. -/
namespace ColorTheme

inductive BakeError where
  | unknownReference (key reference : String)
  | unresolved (key : String) (remaining : Nat)
  | missingCell (slot : Slot) (state : State)
  deriving DecidableEq, Repr

namespace BakeError

def message : BakeError → String
  | unknownReference key reference => s!"`{key}` refers to unknown entry `{reference}`"
  | unresolved key remaining =>
    s!"`{key}` cannot be resolved (circular or unresolvable dependency); {remaining} other " ++
      "entries also unresolved"
  | missingCell slot state => s!"no entry provides `{slot.name}` for state `{state.name}`"

end BakeError

/-- An entry that no look-up came upon. -/
structure Unused where
  key : String
  mode : Mode
  state : State
  deriving DecidableEq, Repr

/-- A baked table and the entries that did not matter to it. -/
structure Report where
  table : Table
  unused : List Unused
  deriving DecidableEq, Repr

/-- How far a bake has come: the colors found so far and the entries that look-ups came upon, both
by position. -/
structure Progress where
  colors : Array (Option Color)
  found : Array Bool

namespace Progress

def start (size : Nat) : Progress := ⟨Array.replicate size none, Array.replicate size false⟩

def color? (p : Progress) (i : Nat) : Option Color := (p.colors[i]?).join

def isFound (p : Progress) (i : Nat) : Bool := (p.found[i]?).getD false

def markFound (p : Progress) (i : Nat) : Progress :=
  { p with found := p.found.setIfInBounds i true }

/-- Sets the color of an entry, if it has one by now. -/
def setColor (p : Progress) (i : Nat) (color : Option Color) : Progress :=
  match color with
  | none => p
  | some c => { p with colors := p.colors.setIfInBounds i (some c) }

@[simp]
theorem color?_start (size i : Nat) : (start size).color? i = none := by
  simp only [color?, start, Array.getElem?_replicate]
  split <;> rfl

@[simp]
theorem isFound_start (size i : Nat) : (start size).isFound i = false := by
  simp only [isFound, start, Array.getElem?_replicate]
  split <;> rfl

@[simp]
theorem color?_markFound (p : Progress) (i j : Nat) : (p.markFound i).color? j = p.color? j := rfl

theorem isFound_markFound {p : Progress} {i : Nat} (h : i < p.found.size) (j : Nat) :
    (p.markFound i).isFound j = (i == j || p.isFound j) := by
  simp only [isFound, markFound, Array.getElem?_setIfInBounds, h, if_true]
  by_cases hij : i = j <;> simp [hij]

@[simp]
theorem isFound_setColor (p : Progress) (i j : Nat) (color : Option Color) :
    (p.setColor i color).isFound j = p.isFound j := by cases color <;> rfl

theorem color?_setColor {p : Progress} {i : Nat} (h : i < p.colors.size) (c : Color) (j : Nat) :
    (p.setColor i (some c)).color? j = if i = j then some c else p.color? j := by
  simp only [color?, setColor, Array.getElem?_setIfInBounds, h, if_true]
  split <;> rfl

theorem colors_foldl_markFound (p : Progress) (positions : List Nat) :
    (positions.foldl markFound p).colors = p.colors := by
  induction positions generalizing p with
  | nil => rfl
  | cons i positions ih => exact ih _

theorem found_size_foldl_markFound (p : Progress) (positions : List Nat) :
    (positions.foldl markFound p).found.size = p.found.size := by
  induction positions generalizing p with
  | nil => rfl
  | cons i positions ih => simp [ih, markFound]

theorem isFound_foldl_markFound {p : Progress} {positions : List Nat}
    (h : ∀ i ∈ positions, i < p.found.size) (j : Nat) :
    (positions.foldl markFound p).isFound j = true ↔ j ∈ positions ∨ p.isFound j = true := by
  induction positions generalizing p with
  | nil => simp
  | cons i positions ih =>
    have hi : i < p.found.size := h i (by simp)
    have hsize : (p.markFound i).found.size = p.found.size := by simp [markFound]
    rw [List.foldl_cons, ih fun k hk => hsize ▸ h k (by simp [hk]), isFound_markFound hi]
    simp only [Bool.or_eq_true, beq_iff_eq, List.mem_cons, eq_comm (a := i)]
    exact ⟨fun h => by rcases h with h | h | h <;> simp [h],
      fun h => by rcases h with (h | h) | h <;> simp [h]⟩

end Progress

/-- What one attempt to color an entry came to: its color, unless it still waits for another entry,
and the positions that its look-ups came upon. -/
structure Attempt (α : Type) where
  result : Option α
  found : List Nat

namespace Definition

/-- The position of the entry that a reference in `e` leads to. -/
def follow (d : Definition) (mode : Mode) (e : Entry) (target : Reference) : Except BakeError Nat :=
  match d.find? mode target.state target.key with
  | some i => .ok i
  | none => .error (.unknownReference e.qualifiedKey target.text)

/-- Puts colors in place of the entries that arguments name, from left to right up to the first one
that has no color yet. -/
def concrete (d : Definition) (mode : Mode) (p : Progress) (e : Entry) :
    List Argument → Except BakeError (Attempt (List Argument))
  | [] => .ok ⟨some [], []⟩
  | argument :: rest =>
    match argument.target? with
    | none =>
      (concrete d mode p e rest).map fun a => { a with result := a.result.map (argument :: ·) }
    | some target =>
      match d.follow mode e target with
      | .error err => .error err
      | .ok i =>
        match p.color? i with
        | none => .ok ⟨none, [i]⟩
        | some c =>
          (concrete d mode p e rest).map fun a => ⟨a.result.map (.color c :: ·), i :: a.found⟩

def attempt (d : Definition) (mode : Mode) (p : Progress) (e : Entry) :
    Except BakeError (Attempt Color) :=
  match e.value with
  | .color c => .ok ⟨some c, []⟩
  | .reference target => (d.follow mode e target).map fun i => ⟨p.color? i, [i]⟩
  | .call f arguments =>
    (d.concrete mode p e arguments).map fun a => { a with result := a.result.map f.evaluate }

/-- Tries the rest of the pending entries, in order, after those that still wait, the last of which
comes first. -/
def passOn (d : Definition) (mode : Mode) (waiting : List (Entry × Nat)) :
    List (Entry × Nat) → Progress → Except BakeError (Progress × List (Entry × Nat))
  | [], p => .ok (p, waiting.reverse)
  | (e, i) :: rest, p =>
    match d.attempt mode p e with
    | .error err => .error err
    | .ok a =>
      passOn d mode (if a.result.isNone then (e, i) :: waiting else waiting) rest
        ((a.found.foldl .markFound p).setColor i a.result)

/-- Tries every pending entry once, in order, and returns those that still wait. -/
def pass (d : Definition) (mode : Mode) (pending : List (Entry × Nat)) (p : Progress) :
    Except BakeError (Progress × List (Entry × Nat)) :=
  d.passOn mode [] pending p

theorem eq_append_of_passOn {d : Definition} {mode : Mode}
    {waiting pending still : List (Entry × Nat)} {p p' : Progress}
    (h : d.passOn mode waiting pending p = .ok (p', still)) :
    ∃ kept, still = waiting.reverse ++ kept ∧ kept.Sublist pending := by
  induction pending generalizing waiting p with
  | nil =>
    cases h
    exact ⟨[], by simp, .slnil⟩
  | cons first rest ih =>
    rw [passOn] at h
    split at h
    · cases h
    · obtain ⟨kept, hk, hs⟩ := ih h
      split at hk
      · exact ⟨first :: kept, by simpa using hk, hs.cons_cons _⟩
      · exact ⟨kept, hk, hs.cons _⟩

/-- The entries that still wait after a pass are among those it tried, in the same order. -/
theorem sublist_of_pass {d : Definition} {mode : Mode} {pending still : List (Entry × Nat)}
    {p p' : Progress} (h : d.pass mode pending p = .ok (p', still)) : still.Sublist pending := by
  obtain ⟨kept, hk, hs⟩ := eq_append_of_passOn h
  simpa [hk] using hs

/-- Repeats passes over the pending entries until none waits. A pass that colors none of them shows
that they wait for each other. -/
def resolve (d : Definition) (mode : Mode) (pending : List (Entry × Nat)) (p : Progress) :
    Except BakeError Progress :=
  match d.pass mode pending p with
  | .error err => .error err
  | .ok (p, []) => .ok p
  | .ok (p, first :: others) =>
    if others.length + 1 < pending.length then resolve d mode (first :: others) p
    else .error (.unresolved first.1.qualifiedKey others.length)
termination_by pending.length

/-- Copies the color of every cell into a grid. -/
def fill (d : Definition) (mode : Mode) :
    List (Slot × State) → Grid → Progress → Except BakeError (Grid × Progress)
  | [], grid, p => .ok (grid, p)
  | (slot, state) :: rest, grid, p =>
    match d.find? mode state slot.name with
    | none => .error (.missingCell slot state)
    | some i =>
      match p.color? i with
      | none => .error (.missingCell slot state)
      | some c => fill d mode rest (grid.put slot state c) (p.markFound i)

/-- The entries that apply to a mode, with their positions. -/
def applicable (d : Definition) (mode : Mode) : List (Entry × Nat) :=
  d.entries.toList.zipIdx.filter fun (e, _) => e.mode.appliesTo mode

/-- The applicable entries that no look-up came upon, unless they name a slot or are shadowed. -/
def unused (d : Definition) (mode : Mode) (p : Progress) : List Unused :=
  (d.applicable mode).filterMap fun (e, i) =>
    if p.isFound i || (Slot.ofKey? e.key).isSome || d.isShadowed i then none
    else some ⟨e.key, e.mode, e.state⟩

/-- Bakes a definition for a mode and reports the entries that did not matter. -/
def bakeWithReport (d : Definition) (mode : Mode) : Except BakeError Report :=
  if mode = .debug then .ok ⟨.debug, []⟩
  else
    match d.resolve mode (d.applicable mode) (.start d.size) with
    | .error err => .error err
    | .ok p =>
      (d.fill mode Slot.cells .blank p).map fun (grid, p) => ⟨⟨mode, grid⟩, d.unused mode p⟩

def bake (d : Definition) (mode : Mode) : Except BakeError Table :=
  (d.bakeWithReport mode).map (·.table)

end Definition

end ColorTheme
