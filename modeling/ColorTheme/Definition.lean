import ColorTheme.Mode
import ColorTheme.Value
import Std.Data.HashMap
/-! # Definitions

A definition holds the entries of one or more theme files in the order in which they were added,
and an index over them. Inserting keeps the first entry of a mode, state and key; combining puts
later entries on top of earlier ones, and a look-up prefers the later of two equally specific
entries. -/
namespace ColorTheme

/-- The value of a key for a mode and a state. -/
structure Entry where
  key : String
  mode : Mode
  state : State
  value : Value
  deriving DecidableEq, Repr

namespace Entry

def reference (e : Entry) : Reference := ⟨e.key, e.state⟩

def qualifiedKey (e : Entry) : String := e.reference.text

def isFor (e : Entry) (mode : Mode) (state : State) : Bool := e.mode == mode && e.state == state

/-- Whether the entry can answer for a mode and a state, be it as a wildcard. -/
def answers (e : Entry) (mode : Mode) (state : State) : Bool :=
  e.mode.appliesTo mode && (e.state == state || e.state == .any)

/-- How closely the entry fits: its own state counts more than its own mode. -/
def specificity (e : Entry) (mode : Mode) (state : State) : Nat :=
  2 * (e.state == state).toNat + (e.mode == mode).toNat

end Entry

structure Definition where
  entries : Array Entry
  /-- The positions of the entries of each key, in ascending order. -/
  positions : Std.HashMap String (Array Nat)
  /-- The position of the last entry of each mode, state and key. -/
  latest : Std.HashMap (Mode × State × String) Nat

namespace Definition

def empty : Definition := ⟨#[], ∅, ∅⟩

instance : EmptyCollection Definition := ⟨empty⟩

def size (d : Definition) : Nat := d.entries.size

def isEmpty (d : Definition) : Bool := d.entries.isEmpty

/-- Adds an entry behind all others, without any check. -/
def push (d : Definition) (e : Entry) : Definition :=
  let i := d.size
  { entries := d.entries.push e
    positions := d.positions.alter e.key fun found => some ((found.getD #[]).push i)
    latest := d.latest.insert (e.mode, e.state, e.key) i }

def candidates (d : Definition) (key : String) : Array Nat := d.positions.getD key #[]

/-- The last position of an entry with exactly this mode, state and key. -/
def findExact? (d : Definition) (mode : Mode) (state : State) (key : String) : Option Nat :=
  d.latest[(mode, state, key)]?

/-- The position of the entry that answers for a mode, state and key: the most specific one, and of
equally specific ones the last. -/
def find? (d : Definition) (mode : Mode) (state : State) (key : String) : Option Nat :=
  d.findExact? mode state key <|> d.findExact? .all state key <|>
    d.findExact? mode .any key <|> d.findExact? .all .any key

/-- Whether the entry's value is well-typed and its mode, state and key are free. -/
def admits (d : Definition) (e : Entry) : Bool :=
  e.value.wellTyped && (d.findExact? e.mode e.state e.key).isNone

def insert? (d : Definition) (e : Entry) : Option Definition :=
  if d.admits e then some (d.push e) else none

def combine (base overlay : Definition) : Definition :=
  overlay.entries.foldl push (base.entries.foldl push empty)

/-- Whether a later entry has the same mode, state and key as the one at a position. -/
def isShadowed (d : Definition) (i : Nat) : Bool :=
  match d.entries[i]? with
  | none => false
  | some e =>
    let last := (d.candidates e.key).findRev? fun j =>
      d.entries[j]?.any fun other => other.isFor e.mode e.state
    last.any (i < ·)

@[simp]
theorem entries_push (d : Definition) (e : Entry) : (d.push e).entries = d.entries.push e := rfl

theorem size_push (d : Definition) (e : Entry) : (d.push e).size = d.size + 1 := by simp [size]

theorem candidates_push (d : Definition) (e : Entry) (key : String) :
    (d.push e).candidates key =
      if e.key == key then (d.candidates key).push d.size else d.candidates key := by
  by_cases h : e.key = key
  · subst h
    simp [candidates, push, Std.HashMap.getD_eq_getD_getElem?]
  · simp [candidates, push, Std.HashMap.getD_alter, h]

theorem findExact?_push (d : Definition) (e : Entry) (mode : Mode) (state : State) (key : String) :
    (d.push e).findExact? mode state key =
      if e.key == key && e.isFor mode state then some d.size
      else d.findExact? mode state key := by
  simp only [findExact?, push, Std.HashMap.getElem?_insert, Entry.isFor]
  by_cases hk : e.key = key <;> by_cases hm : e.mode = mode <;> by_cases hs : e.state = state <;>
    simp [hk, hm, hs]

theorem entries_foldl_push (es : List Entry) (d : Definition) :
    (es.foldl push d).entries = d.entries ++ es := by
  induction es generalizing d with
  | nil => simp
  | cons e es ih => simp [ih]

theorem entries_combine (base overlay : Definition) :
    (base.combine overlay).entries = base.entries ++ overlay.entries := by
  simp only [combine, ← Array.foldl_toList, entries_foldl_push]
  apply Array.toList_inj.1
  simp [empty]

def positionsOf (d : Definition) (p : Entry → Bool) : List Nat :=
  (List.range d.size).filter fun i => d.entries[i]?.any p

/-- The index lists, for every key, exactly the positions of its entries in ascending order, and
for every mode, state and key the last such position. -/
structure Indexed (d : Definition) : Prop where
  candidates_eq : ∀ key, (d.candidates key).toList = d.positionsOf fun e => e.key == key
  findExact?_eq : ∀ mode state key, d.findExact? mode state key =
    (d.positionsOf fun e => e.key == key && e.isFor mode state).getLast?

theorem positionsOf_push (d : Definition) (e : Entry) (p : Entry → Bool) :
    (d.push e).positionsOf p = d.positionsOf p ++ if p e then [d.size] else [] := by
  have old : (List.range d.size).filter (fun i => (d.push e).entries[i]?.any p) =
      d.positionsOf p := by
    apply List.filter_congr
    intro i hi
    have hi : i < d.entries.size := List.mem_range.1 hi
    have hne : i ≠ d.entries.size := Nat.ne_of_lt hi
    simp [Array.getElem?_push, hne]
  rw [positionsOf, size_push, List.range_succ, List.filter_append, old]
  by_cases hp : p e = true <;> simp [size, hp]

theorem indexed_empty : Indexed empty where
  candidates_eq key := by simp [candidates, empty, positionsOf, size]
  findExact?_eq mode state key := by simp [findExact?, empty, positionsOf, size]

theorem Indexed.push {d : Definition} (h : d.Indexed) (e : Entry) : (d.push e).Indexed where
  candidates_eq key := by
    rw [candidates_push, positionsOf_push, ← h.candidates_eq]
    by_cases hk : e.key = key <;> simp [hk]
  findExact?_eq mode state key := by
    rw [findExact?_push, positionsOf_push, h.findExact?_eq]
    split <;> simp_all

theorem Indexed.foldl_push {d : Definition} (h : d.Indexed) (es : List Entry) :
    (es.foldl Definition.push d).Indexed := by
  induction es generalizing d with
  | nil => exact h
  | cons e es ih => exact ih (h.push e)

theorem indexed_combine (base overlay : Definition) : (base.combine overlay).Indexed := by
  simp only [combine, ← Array.foldl_toList]
  exact (indexed_empty.foldl_push _).foldl_push _

theorem Indexed.insert? {d d' : Definition} (h : d.Indexed) {e : Entry}
    (hd : d.insert? e = some d') : d'.Indexed := by
  rw [Definition.insert?] at hd
  split at hd
  · cases hd
    exact h.push e
  · cases hd

end Definition

end ColorTheme
