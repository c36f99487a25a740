import ColorTheme.Fault
import ColorTheme.Mode
/-! # Lines of theme files

A line is blank, a comment, a mode directive or an assignment. A comment starts with `//` or `#`,
or follows a value after white space and `//`. -/
namespace ColorTheme

open Text

inductive Line where
  | comment
  | directive (mode : Mode)
  | assignment (key value : List Char)
  deriving DecidableEq, Repr

namespace Line

/-- The part of a value before its comment. `blank` tells whether white space, or nothing at all,
stands before the text. -/
def beforeComment : Bool → List Char → List Char
  | _, [] => []
  | blank, c :: s =>
    if blank ∧ c = '/' ∧ s.head? = some '/' then [] else c :: beforeComment (isBlank c) s

/-- A value without its comment and the white space before that. -/
def dropComment (value : List Char) : List Char := trimEnd (beforeComment true value)

/-- Reads a directive without its opening bracket. -/
def readDirective (s : List Char) : Except Fault Line :=
  if s.getLast? = some ']' then
    match Mode.ofName? s.dropLast with
    | some mode => .ok (.directive mode)
    | none => .error (.unknownMode (String.ofList (trim s.dropLast)))
  else .error .unterminatedDirective

/-- Checks the two sides of the first colon of an assignment, both without white space around. -/
def readAssignment (key value : List Char) : Except Fault Line :=
  let name := String.ofList key
  if key = [] then .error .emptyKey
  else if !isName key ∨ byteLength key > maxKeyBytes then .error (.invalidKey name)
  else
    let value := dropComment value
    if value = [] then .error (.missingValue name)
    else if byteLength value > maxValueBytes then .error (.valueTooLong name)
    else .ok (.assignment key value)

/-- Reads a line that is not blank and has no white space around. -/
def read (s : List Char) : Except Fault Line :=
  match s with
  | '/' :: '/' :: _ => .ok .comment
  | '#' :: _ => .ok .comment
  | '[' :: rest => readDirective rest
  | _ =>
    match cutFirst? ':' s with
    | none => .error .missingColon
    | some (key, value) => readAssignment (trim key) (trim value)

def chars : Line → List Char
  | comment => ['/', '/']
  | directive mode => '[' :: (mode.name.toList ++ [']'])
  | assignment key value => key ++ ':' :: ' ' :: value

end Line

/-- A line of a theme text that is not blank: its number, counted from 1, and what it says or why it
is refused. -/
structure Token where
  line : Nat
  content : Except Fault Line

namespace Token

/-- The tokens of some lines, the first of which has the given number. -/
def ofLines : Nat → List (List Char) → List Token
  | _, [] => []
  | number, line :: rest =>
    let text := trim line
    if text = [] then ofLines (number + 1) rest
    else ⟨number, Line.read text⟩ :: ofLines (number + 1) rest

/-- The tokens of a theme text, to its end even where lines are refused. -/
def ofText (s : List Char) : List Token := ofLines 1 (lines s)

end Token

/-- Writes lines in their plainest form, one below the other. -/
def Line.render (content : List Line) : List Char :=
  content.flatMap fun line => line.chars ++ ['\n']

end ColorTheme
