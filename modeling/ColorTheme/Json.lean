/-! # JSON

The part of JSON that a color table needs: texts, arrays and objects, written over several lines
with two blanks a level. -/
namespace ColorTheme

inductive Json where
  | text (s : String)
  | array (items : List Json)
  | object (fields : List (String × Json))

namespace Json

def hexDigit (n : Nat) : Char := Nat.digitChar (n % 16)

/-- A character inside quotes. Quotes, backslashes and control characters are escaped. -/
def escape (c : Char) : List Char :=
  if c = '"' then ['\\', '"']
  else if c = '\\' then ['\\', '\\']
  else if c = '\n' then ['\\', 'n']
  else if c = '\r' then ['\\', 'r']
  else if c = '\t' then ['\\', 't']
  else if c.toNat = 8 then ['\\', 'b']
  else if c.toNat = 12 then ['\\', 'f']
  else if c.toNat < 32 then ['\\', 'u', '0', '0', hexDigit (c.toNat / 16), hexDigit c.toNat]
  else [c]

def quote (s : String) : List Char := '"' :: (s.toList.flatMap escape ++ ['"'])

def newLine (level : Nat) : List Char := '\n' :: List.replicate (2 * level) ' '

mutual

/-- The text of a value that starts at a level. -/
def chars (level : Nat) : Json → List Char
  | text s => quote s
  | array [] => ['[', ']']
  | array (item :: rest) =>
    '[' :: (newLine (level + 1) ++ item.chars (level + 1) ++ itemChars (level + 1) rest
      ++ newLine level ++ [']'])
  | object [] => ['{', '}']
  | object ((name, item) :: rest) =>
    '{' :: (newLine (level + 1) ++ quote name ++ ':' :: ' ' :: item.chars (level + 1)
      ++ fieldChars (level + 1) rest ++ newLine level ++ ['}'])

def itemChars (level : Nat) : List Json → List Char
  | [] => []
  | item :: rest => ',' :: (newLine level ++ item.chars level ++ itemChars level rest)

def fieldChars (level : Nat) : List (String × Json) → List Char
  | [] => []
  | (name, item) :: rest =>
    ',' :: (newLine level ++ quote name ++ ':' :: ' ' :: item.chars level ++ fieldChars level rest)

end

def pretty (j : Json) : String := String.ofList (j.chars 0)

end Json

end ColorTheme
