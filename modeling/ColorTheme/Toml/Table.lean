/-! # Tables of a TOML document

A key is never defined twice, and a table is extended only by the notation that made it. -/
namespace ColorTheme.Toml

/-- How a table came about, which decides how it may be extended. -/
inductive Origin where
  | header
  /-- A header named a table inside of it. -/
  | parent
  /-- A dotted key led through it. -/
  | dotted
  | inlined
  deriving DecidableEq, Repr

/-- A value. Of numbers and moments only the kind is kept. -/
inductive Node where
  | text (s : String)
  | number
  | boolean (b : Bool)
  | moment
  | array (items : List Node)
  | table (origin : Origin) (fields : List (String × Node))
  /-- The tables of `[[table]]` headers, those before the last in reverse. Whoever names them means
  the last one. -/
  | tables (earlier : List (List (String × Node))) (last : List (String × Node))

/-- The fields of a table, the last that was written first. -/
abbrev Fields := List (String × Node)

namespace Fields

def replace (key : String) (node : Node) : Fields → Fields
  | [] => []
  | field :: rest => if field.1 = key then (key, node) :: rest else field :: replace key node rest

/-- Adds a field below the tables that the front of a dotted key names. Tables that headers made
may be passed through, but do not get fields themselves. -/
def assign (node : Node) : List String → Fields → Option Fields
  | [], _ => none
  | [key], fields => if (fields.lookup key).isSome then none else some ((key, node) :: fields)
  | key :: path, fields =>
    match fields.lookup key with
    | none => (assign node path []).map fun inner => (key, .table .dotted inner) :: fields
    | some (.table origin inner) =>
      if origin = .dotted ∨ (origin = .parent ∧ path.length ≠ 1) then
        (assign node path inner).map fun inner => fields.replace key (.table origin inner)
      else none
    | some (.tables earlier last) =>
      if path.length ≠ 1 then
        (assign node path last).map fun last => fields.replace key (.tables earlier last)
      else none
    | some _ => none

/-- Applies a change to the table at a path; the tables on the way to it are made where missing. -/
def change (f : Fields → Option Fields) : List String → Fields → Option Fields
  | [], fields => f fields
  | key :: path, fields =>
    match fields.lookup key with
    | none => (change f path []).map fun inner => (key, .table .parent inner) :: fields
    | some (.table origin inner) =>
      if origin = .inlined then none
      else (change f path inner).map fun inner => fields.replace key (.table origin inner)
    | some (.tables earlier last) =>
      (change f path last).map fun last => fields.replace key (.tables earlier last)
    | some _ => none

def changeLast (f : String → Fields → Option Fields) (path : List String) (fields : Fields) :
    Option Fields :=
  path.getLast?.bind fun key => fields.change (f key) path.dropLast

/-- Opens the table that a header names. Only a table that is known from the headers of tables
inside of it may exist already; it counts as written where its own header stands. -/
def openTable : List String → Fields → Option Fields :=
  changeLast fun key outer =>
    match outer.lookup key with
    | none => some ((key, .table .header []) :: outer)
    | some (.table .parent inner) =>
      some ((key, .table .header inner) :: outer.filter (·.1 != key))
    | some _ => none

/-- Adds a table to those of a `[[table]]` header. -/
def openNext : List String → Fields → Option Fields :=
  changeLast fun key outer =>
    match outer.lookup key with
    | none => some ((key, .tables [] []) :: outer)
    | some (.tables earlier last) => some (outer.replace key (.tables (last :: earlier) []))
    | some _ => none

end Fields

end ColorTheme.Toml
