import ColorTheme.Toml.Scalar
/-! # Keys and values of a TOML document

Arrays may go over several lines and hold comments; tables in braces stand on one line. -/
namespace ColorTheme.Toml

/-- Keys have fewer parts than this, and values stand in fewer arrays and tables. -/
def depthLimit : Nat := 80

def isQuote (c : Char) : Bool := c == '"' || c == '\''

def keyPart : Reader String := fun s =>
  if s.head?.any isQuote then shortText s.length s
  else
    let part := s.takeWhile isBare
    if part = [] then none else some (String.ofList part, s.dropWhile isBare)

/-- Reads the parts of a key, which have dots between them. -/
def keyParts (fuel : Nat) : Reader (List String) := fun s =>
  match fuel with
  | 0 => none
  | fuel + 1 =>
    match keyPart (skip s) with
    | none => none
    | some (part, s) =>
      match skip s with
      | '.' :: s => (keyParts fuel s).map fun (parts, rest) => (part :: parts, rest)
      | s => some ([part], s)

def key : Reader (List String) := keyParts (depthLimit - 1)

mutual

/-- Reads a value that may hold `room` arrays and tables inside of each other. `fuel` bounds the
steps; as every bracket has a partner, the length of a document is enough. -/
def value (fuel room : Nat) : Reader Node := fun s =>
  match fuel, s with
  | 0, _ => none
  | fuel + 1, '[' :: s =>
    if room = 0 then none
    else (items fuel (room - 1) s).map fun (nodes, rest) => (.array nodes, rest)
  | fuel + 1, '{' :: s =>
    if room = 0 then none
    else
      match skip s with
      | '}' :: s => some (.table .inlined [], s)
      | s =>
        (members fuel (room - 1) [] s).map fun (fields, rest) => (.table .inlined fields, rest)
  | fuel + 1, s =>
    if s.head?.any isQuote then (text fuel s).map fun (text, rest) => (.text text, rest)
    else word s

/-- Reads the items of an array and the bracket behind them. A comma may follow the last item. -/
def items (fuel room : Nat) : Reader (List Node) := fun s =>
  match fuel with
  | 0 => none
  | fuel + 1 =>
    match skipLines false s with
    | ']' :: s => some ([], s)
    | s =>
      match value fuel room s with
      | none => none
      | some (node, s) =>
        match skipLines false s with
        | ',' :: s => (items fuel room s).map fun (nodes, rest) => (node :: nodes, rest)
        | ']' :: s => some ([node], s)
        | _ => none

/-- Reads the members of a table in braces and the brace behind them. -/
def members (fuel room : Nat) (fields : Fields) : Reader Fields := fun s =>
  match fuel with
  | 0 => none
  | fuel + 1 =>
    match key s with
    | some (path, '=' :: s) =>
      match value fuel room (skip s) with
      | none => none
      | some (node, s) =>
        match fields.assign node path, skip s with
        | some fields, ',' :: s => members fuel room fields s
        | some fields, '}' :: s => some (fields, s)
        | _, _ => none
    | _ => none

end

end ColorTheme.Toml
