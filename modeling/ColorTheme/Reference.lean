import ColorTheme.State
import ColorTheme.Text
/-! # Names of entries

An entry is named by its key and its state, written `Key` or `Key_State`. A key on the left of an
assignment may carry up to three states at once. -/
namespace ColorTheme

/-- A key and a state, as an entry is referred to. -/
structure Reference where
  key : String
  state : State
  deriving DecidableEq, Repr

namespace Reference

open Text

/-- The text `Key`, or `Key_State` for a state other than `any`. -/
def text (r : Reference) : String :=
  match r.state with
  | .any => r.key
  | state => r.key ++ "_" ++ state.name

/-- The state that the text after the last `_` names, and the text before it. -/
def suffix? (name : List Char) : Option (List Char × State) :=
  (cutLast? '_' name).bind fun cut =>
    if cut.1 = [] then none else (State.ofSuffix? cut.2).map fun state => (cut.1, state)

/-- Takes one state off the end of a name; a name without one is for any state. -/
def splitState (name : List Char) : List Char × State := (suffix? name).getD (name, .any)

/-- Takes up to `limit` states off the end of a name; they come out in written order, in front of
`states`. -/
def stripStates : Nat → List Char → List State → List Char × List State
  | 0, name, states => (name, states)
  | limit + 1, name, states =>
    match suffix? name with
    | none => (name, states)
    | some (rest, state) => stripStates limit rest (state :: states)

def maxStates : Nat := 3

def expandKey (key : List Char) : List Char × List State :=
  match stripStates maxStates key [] with
  | (_, []) => (key, [.any])
  | (base, states) => (base, states)

def read? (s : List Char) : Option Reference :=
  let s := trim s
  if isName s then
    let (key, state) := splitState s
    some ⟨String.ofList key, state⟩
  else none

theorem suffix?_eq_some {name rest : List Char} {state : State}
    (h : suffix? name = some (rest, state)) :
    name = rest ++ '_' :: state.name.toList ∧ rest ≠ [] ∧ state ≠ .any := by
  obtain ⟨cut, hc, h⟩ := Option.bind_eq_some_iff.1 h
  by_cases hr : cut.1 = []
  · simp [hr] at h
  · simp only [hr, if_false, Option.map_eq_some_iff, Prod.mk.injEq] at h
    obtain ⟨state', hs, rfl, rfl⟩ := h
    obtain ⟨hn, ht⟩ := State.ofSuffix?_eq_some_iff.1 hs
    exact ⟨ht ▸ eq_of_cutLast? hc, hr, hn⟩

/-- What is taken off a name: states, as many as there are up to the limit, and never all of it. -/
theorem eq_of_stripStates {limit : Nat} {name base : List Char} {states states' : List State}
    (h : stripStates limit name states = (base, states')) :
    ∃ taken, states' = taken ++ states ∧ taken.length ≤ limit ∧ .any ∉ taken ∧
      (taken ≠ [] → base ≠ []) ∧ (taken.length < limit → suffix? base = none) ∧
      name = base ++ taken.flatMap fun state => '_' :: state.name.toList := by
  induction limit generalizing name states with
  | zero =>
    cases h
    exact ⟨[], by simp⟩
  | succ limit ih =>
    rw [stripStates] at h
    split at h
    · rename_i hs
      cases h
      exact ⟨[], by simp [hs]⟩
    · rename_i rest state hs
      obtain ⟨taken, rfl, hl, ha, hb, hm, hr⟩ := ih h
      obtain ⟨hn, hrest, hany⟩ := suffix?_eq_some hs
      have hbase : base ≠ [] := by
        cases taken with
        | nil => simpa [hr] using hrest
        | cons first taken => exact hb (List.cons_ne_nil _ _)
      refine ⟨taken ++ [state], by simp, by simpa using hl, ?_, fun _ => hbase, ?_, ?_⟩
      · simp [ha, hany.symm]
      · simpa using hm
      · simp [hn, hr]

end Reference

end ColorTheme
