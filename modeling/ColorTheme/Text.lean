/-! # Text

Character classes, trimming, cutting and lines of theme texts, on lists of characters.
White space is the Unicode property `White_Space`; names and letter case are ASCII. -/
namespace ColorTheme.Text

/-- The closed code point ranges of the property `White_Space`. -/
def whiteSpace : List (Nat × Nat) :=
  [(0x09, 0x0D), (0x20, 0x20), (0x85, 0x85), (0xA0, 0xA0), (0x1680, 0x1680), (0x2000, 0x200A),
   (0x2028, 0x2029), (0x202F, 0x202F), (0x205F, 0x205F), (0x3000, 0x3000)]

def isBlank (c : Char) : Bool :=
  whiteSpace.any fun range => range.1 ≤ c.toNat && c.toNat ≤ range.2

def trimStart (s : List Char) : List Char := s.dropWhile isBlank

def trimEnd (s : List Char) : List Char := (s.reverse.dropWhile isBlank).reverse

def trim (s : List Char) : List Char := trimEnd (trimStart s)

theorem trimStart_cons (c : Char) (s : List Char) :
    trimStart (c :: s) = if isBlank c then trimStart s else c :: s := by
  simp [trimStart, List.dropWhile_cons]

theorem trimEnd_concat (c : Char) (s : List Char) :
    trimEnd (s ++ [c]) = if isBlank c then trimEnd s else s ++ [c] := by
  by_cases h : isBlank c = true <;> simp [trimEnd, h]

/-- A newline ends its line; a newline at the very end opens no further line. -/
def lines : List Char → List (List Char)
  | [] => []
  | c :: s =>
    if c = '\n' then [] :: lines s
    else match lines s with
      | [] => [[c]]
      | line :: rest => (c :: line) :: rest

def cutFirst? (c : Char) : List Char → Option (List Char × List Char)
  | [] => none
  | d :: s => if d = c then some ([], s) else (cutFirst? c s).map fun cut => (d :: cut.1, cut.2)

def cutLast? (c : Char) (s : List Char) : Option (List Char × List Char) :=
  (cutFirst? c s.reverse).map fun cut => (cut.2.reverse, cut.1.reverse)

theorem eq_of_cutFirst? {c : Char} {s before after : List Char}
    (h : cutFirst? c s = some (before, after)) : s = before ++ c :: after := by
  induction s generalizing before with
  | nil => simp [cutFirst?] at h
  | cons d s ih =>
    by_cases hd : d = c
    · simp only [cutFirst?, hd, if_true, Option.some.injEq, Prod.mk.injEq] at h
      simp [← h.1, ← h.2, hd]
    · simp only [cutFirst?, hd, if_false, Option.map_eq_some_iff, Prod.mk.injEq] at h
      obtain ⟨cut, hc, rfl, rfl⟩ := h
      simpa using ih hc

theorem eq_of_cutLast? {c : Char} {s before after : List Char}
    (h : cutLast? c s = some (before, after)) : s = before ++ c :: after := by
  simp only [cutLast?, Option.map_eq_some_iff, Prod.mk.injEq] at h
  obtain ⟨cut, hc, rfl, rfl⟩ := h
  simpa using congrArg List.reverse (eq_of_cutFirst? hc)

def consFirst (c : Char) : List (List Char) → List (List Char)
  | [] => [[c]]
  | piece :: pieces => (c :: piece) :: pieces

/-- The pieces between the commas that stand outside parentheses; `depth` parentheses are open.
A closing parenthesis without a partner changes nothing. -/
def splitCommas : Nat → List Char → List (List Char)
  | _, [] => [[]]
  | depth, c :: s =>
    if c = ',' ∧ depth = 0 then [] :: splitCommas depth s
    else if c = '(' then consFirst c (splitCommas (depth + 1) s)
    else if c = ')' then consFirst c (splitCommas (depth - 1) s)
    else consFirst c (splitCommas depth s)

def startsName (c : Char) : Bool := c.isAlpha || c == '_'

def continuesName (c : Char) : Bool := c.isAlphanum || c == '_'

/-- A name is an ASCII letter or `_`, then ASCII letters, digits and `_`. -/
def isName : List Char → Bool
  | [] => false
  | c :: s => startsName c && s.all continuesName

def hexValue? (c : Char) : Option Nat :=
  if c.isDigit then some (c.toNat - 48)
  else if 'a' ≤ c ∧ c ≤ 'f' then some (c.toNat - 87)
  else if 'A' ≤ c ∧ c ≤ 'F' then some (c.toNat - 55)
  else none

/-- Equality up to the case of ASCII letters. -/
def sameLetters (s t : List Char) : Bool := s.map Char.toLower == t.map Char.toLower

/-- The length of the text in UTF-8. -/
def byteLength : List Char → Nat
  | [] => 0
  | c :: s => c.utf8Size + byteLength s

end ColorTheme.Text
