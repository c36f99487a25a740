import ColorTheme.Toml.Value
/-! # TOML documents

A document is a list of lines: headers that open tables, and keys with values for the table that
was opened last. -/
namespace ColorTheme.Toml

/-- Takes what may follow on a line off the front: blanks, a comment and the newline. -/
def lineEnd? (s : List Char) : Option (List Char) :=
  let s := match skip s with
    | '#' :: s => s.dropWhile (!isControl ·)
    | s => s
  match s with
  | [] => some []
  | '\n' :: s => some s
  | _ => none

/-- A document while it is read: its fields, and the path of the table that was opened last. -/
structure Draft where
  fields : Fields
  path : List String

/-- Reads a header or a field into a draft, and the end of its line; `fuel` bounds the steps of a
value. -/
def entry (fuel : Nat) (draft : Draft) (s : List Char) : Option (Draft × List Char) :=
  match skip s with
  | '[' :: '[' :: s =>
    match key s with
    | some (path, ']' :: ']' :: s) => do
      let rest ← lineEnd? s
      let fields ← draft.fields.openNext path
      some (⟨fields, path⟩, rest)
    | _ => none
  | '[' :: s =>
    match key s with
    | some (path, ']' :: s) => do
      let rest ← lineEnd? s
      let fields ← draft.fields.openTable path
      some (⟨fields, path⟩, rest)
    | _ => none
  | s =>
    match key s with
    | some (path, '=' :: s) => do
      let (node, s) ← value fuel (depthLimit - 1) (skip s)
      let rest ← lineEnd? s
      let fields ← draft.fields.change (·.assign node path) draft.path
      some ({ draft with fields }, rest)
    | _ => none

def entries (fuel : Nat) (draft : Draft) (s : List Char) : Option Draft :=
  match fuel, s with
  | _, [] => some draft
  | 0, _ => none
  | fuel + 1, s =>
    match lineEnd? s with
    | some rest => entries fuel draft rest
    | none => (entry (fuel + 1) draft s).bind fun (draft, rest) => entries fuel draft rest

/-- A byte order mark in front of a document does not belong to it. -/
def dropMark : List Char → List Char
  | '\uFEFF' :: s => s
  | s => s

def plainLines : List Char → List Char
  | '\r' :: '\n' :: s => '\n' :: plainLines s
  | c :: s => c :: plainLines s
  | [] => []

/-- Reads a document; `none` if it is malformed. -/
def read (text : String) : Option Fields :=
  let s := plainLines (dropMark text.toList)
  (entries s.length ⟨[], []⟩ s).map (·.fields)

end ColorTheme.Toml
