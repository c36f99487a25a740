/-! # Interaction states

A color slot may look different while it is hovered, pressed, open or disabled. `any` stands for
every state that has no entry of its own. -/
namespace ColorTheme

inductive State where
  | any
  | default
  | hovered
  | pressed
  | opened
  | disabled
  deriving DecidableEq, Hashable, Repr

namespace State

def every : List State := [any, default, hovered, pressed, opened, disabled]

def count : Nat := 6

def index (state : State) : Fin count := ⟨state.ctorIdx, by cases state <;> decide⟩

def name : State → String
  | any => "Any"
  | default => "Default"
  | hovered => "Hovered"
  | pressed => "Pressed"
  | opened => "Open"
  | disabled => "Disabled"

def ofName? (s : String) : Option State := every.find? fun state => state.name = s

/-- The state that a key suffix names. `any` is written by leaving the suffix out. -/
def ofSuffix? (s : List Char) : Option State :=
  (every.drop 1).find? fun state => state.name.toList = s

theorem mem_every (state : State) : state ∈ every := by cases state <;> decide

theorem index_injective {a b : State} (h : a.index = b.index) : a = b := by
  revert h; cases a <;> cases b <;> decide

theorem ofSuffix?_eq_some_iff {s : List Char} {state : State} :
    ofSuffix? s = some state ↔ state ≠ any ∧ state.name.toList = s := by
  constructor
  · intro h
    have hm := List.mem_of_find?_eq_some h
    have hs := List.find?_some h
    exact ⟨fun he => absurd (he ▸ hm) (by decide), by simpa using hs⟩
  · rintro ⟨hn, rfl⟩
    revert hn
    cases state <;> decide

end State

end ColorTheme
