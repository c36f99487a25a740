import ColorTheme.Digits
import ColorTheme.Text
/-! # Characters and texts of a TOML document

A text stands in double quotes, with escapes, or in single quotes, without; three quotes on either
side enclose a text of several lines. Newlines are plain here. -/
namespace ColorTheme.Toml

open Text (hexValue?)

/-- What a reader found and the rest of the text. -/
abbrev Reader (α : Type) := List Char → Option (α × List Char)

def isSpace (c : Char) : Bool := c == ' ' || c == '\t'

def skip (s : List Char) : List Char := s.dropWhile isSpace

/-- Whether a character may not stand in a line of text or a comment. -/
def isControl (c : Char) : Bool := (c.toNat < 32 && c != '\t') || c.toNat == 127

/-- Takes blanks, newlines and comments off the front. -/
def skipLines (inComment : Bool) : List Char → List Char
  | [] => []
  | c :: s =>
    if c = '\n' then skipLines false s
    else if inComment then if isControl c then c :: s else skipLines true s
    else if isSpace c then skipLines false s
    else if c = '#' then skipLines true s
    else c :: s

/-- The number that the digits of a text write; what is no digit counts for nothing. -/
def ofBase (base : Nat) (s : List Char) : Nat := Digits.value base (s.filterMap hexValue?)

/-- Reads a character by its number, which has a fixed count of hexadecimal digits. -/
def numbered (size : Nat) : Reader Char := fun s =>
  let digits := s.take size
  let code := ofBase 16 digits
  if digits.length = size ∧ digits.all (hexValue? · |>.isSome) ∧ code.isValidChar then
    some (Char.ofNat code, s.drop size)
  else none

def escape : Reader Char
  | '"' :: s => some ('"', s)
  | '\\' :: s => some ('\\', s)
  | 'b' :: s => some ('\x08', s)
  | 't' :: s => some ('\t', s)
  | 'n' :: s => some ('\n', s)
  | 'f' :: s => some ('\x0C', s)
  | 'r' :: s => some ('\r', s)
  | 'u' :: s => numbered 4 s
  | 'U' :: s => numbered 8 s
  | _ => none

/-- Reads a text behind its opening quotes, three of them if it is `long`. Of more than three
quotes at the end of a long text, up to two belong to the text; a backslash at the end of a line
joins it to the next word. -/
def quotedRest (quote : Char) (long : Bool) (fuel : Nat) : Reader (List Char) := fun s =>
  match fuel, s with
  | 0, _ => none
  | _, [] => none
  | fuel + 1, c :: s =>
    let add (c : Char) (s : List Char) :=
      (quotedRest quote long fuel s).map fun (text, rest) => (c :: text, rest)
    if c = quote then
      let more := (s.take 4).takeWhile (· == quote)
      if !long then some ([], s)
      else if more.length < 2 then add c s
      else some (more.drop 2, s.drop more.length)
    else if c = '\\' ∧ quote = '"' then
      match long, skip s with
      | true, '\n' :: s => quotedRest quote long fuel (s.dropWhile fun c => isSpace c || c == '\n')
      | _, _ => (escape s).bind fun (c, s) => add c s
    else if isControl c && !(long && c == '\n') then none
    else add c s

def quotedText (quote : Char) (long : Bool) (fuel : Nat) : Reader String := fun s =>
  (quotedRest quote long fuel s).map fun (text, rest) => (String.ofList text, rest)

def shortText (fuel : Nat) : Reader String
  | '"' :: s => quotedText '"' false fuel s
  | '\'' :: s => quotedText '\'' false fuel s
  | _ => none

/-- A newline right behind the opening quotes does not belong to a long text. -/
def dropNewline : List Char → List Char
  | '\n' :: s => s
  | s => s

def text (fuel : Nat) : Reader String
  | '"' :: '"' :: '"' :: s => quotedText '"' true fuel (dropNewline s)
  | '\'' :: '\'' :: '\'' :: s => quotedText '\'' true fuel (dropNewline s)
  | s => shortText fuel s

end ColorTheme.Toml
