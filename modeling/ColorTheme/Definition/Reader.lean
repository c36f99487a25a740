import ColorTheme.Definition
import ColorTheme.Line
import ColorTheme.Value.Reader
/-! # Reading theme files into definitions

A directive sets the mode of the assignments below it; above the first one the mode is `all`.
Reading stops at the first refused line and keeps the entries of the lines above it. -/
namespace ColorTheme

/-- An assignment that was left out because its mode, state and key were taken. -/
structure Duplicate where
  mode : Mode
  state : State
  key : String
  line : Nat
  deriving DecidableEq, Repr

/-- How many entries a text added and which of its assignments were left out, in order. -/
structure Outcome where
  added : Nat
  duplicates : List Duplicate
  deriving DecidableEq, Repr

namespace Outcome

def nothing : Outcome := ⟨0, []⟩

def isEmpty (o : Outcome) : Bool := o.added == 0 && o.duplicates.isEmpty

def append (o p : Outcome) : Outcome := ⟨o.added + p.added, o.duplicates ++ p.duplicates⟩

instance : Append Outcome := ⟨append⟩

end Outcome

namespace Definition

/-- Adds the entry of each state in turn; `line` is where they are written. -/
def insertStates (d : Definition) (line : Nat) (mode : Mode) (key : String) (value : Value) :
    List State → Definition × Outcome
  | [] => (d, .nothing)
  | state :: states =>
    let e : Entry := ⟨key, mode, state, value⟩
    let (d, first) : Definition × Outcome :=
      if d.admits e then (d.push e, ⟨1, []⟩) else (d, ⟨0, [⟨mode, state, key, line⟩]⟩)
    let (d, rest) := insertStates d line mode key value states
    (d, first ++ rest)

def assign (d : Definition) (line : Nat) (mode : Mode) (key : List Char) (value : Value) :
    Definition × Outcome :=
  let (base, states) := Reference.expandKey key
  d.insertStates line mode (String.ofList base) value states

/-- Reads tokens, the first of which stands below a directive for `mode`. -/
def readTokens (d : Definition) (mode : Mode) : List Token → Definition × Except ParseError Outcome
  | [] => (d, .ok .nothing)
  | ⟨line, .error fault⟩ :: _ => (d, .error ⟨line, fault⟩)
  | ⟨_, .ok .comment⟩ :: rest => readTokens d mode rest
  | ⟨_, .ok (.directive mode)⟩ :: rest => readTokens d mode rest
  | ⟨line, .ok (.assignment key value)⟩ :: rest =>
    match Value.read key value with
    | .error fault => (d, .error ⟨line, fault⟩)
    | .ok value =>
      let (d, first) := d.assign line mode key value
      let (d, others) := readTokens d mode rest
      (d, others.map (first ++ ·))

/-- Reads a theme text on top of a definition. -/
def readInto (d : Definition) (text : String) : Definition × Except ParseError Outcome :=
  d.readTokens .all (Token.ofText text.toList)

def parse (text : String) : Except ParseError (Definition × Outcome) :=
  match empty.readInto text with
  | (d, .ok outcome) => .ok (d, outcome)
  | (_, .error e) => .error e

end Definition

end ColorTheme
