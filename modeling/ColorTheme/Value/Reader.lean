import ColorTheme.Color.Literal
import ColorTheme.Fault
import ColorTheme.Value
/-! # Reading values

A value is, in this order of preference, a color literal, a call of a built-in function or a
reference. -/
namespace ColorTheme

open Text

def Parameter.read? (text : List Char) : Parameter → Option Argument
  | .byte => (Decimal.byte? text).map .byte
  | .integer => (Decimal.int32? text).map .integer
  | .number => (Decimal.finite? text).map .number
  | .color => (Color.read? text).map .color <|> (Reference.read? text).map .entry
  | .entry => (Reference.read? text).map .entry

namespace Builtin

/-- The arguments that the texts write for the parameters, counted from `position`. -/
def readEach (f : Builtin) : Nat → List Parameter → List (List Char) → Except Fault (List Argument)
  | position, parameter :: parameters, text :: texts =>
    match parameter.read? text with
    | none => .error (.argumentType f position parameter (String.ofList text))
    | some argument => (readEach f (position + 1) parameters texts).map (argument :: ·)
  | _, _, _ => .ok []

/-- The argument texts of a call, given what stands between its parentheses. -/
def argumentTexts (inner : List Char) : List (List Char) :=
  if inner.all isBlank then [] else (splitCommas 0 inner).map trim

/-- The arguments of a call; their number is checked before any of them is read. -/
def readArguments (f : Builtin) (inner : List Char) : Except Fault (List Argument) :=
  let texts := argumentTexts inner
  if texts.length = f.arity then readEach f 1 f.parameters texts
  else .error (.argumentCount f texts.length)

/-- What stands between the parentheses that end a text, if they follow white space only. -/
def parenthesized? (s : List Char) : Option (List Char) :=
  match trimStart s with
  | '(' :: inner => if inner.getLast? = some ')' then some inner.dropLast else none
  | _ => none

/-- The function that a text calls and what stands between the parentheses, which may be missing. -/
def splitCall? (s : List Char) : Option (Builtin × List Char) :=
  every.findSome? fun f =>
    (f.name.toList.isPrefixOf? s).bind fun rest =>
      if rest.all isBlank then some (f, []) else (parenthesized? rest).map fun inner => (f, inner)

end Builtin

namespace Value

/-- The name in `name(...)`, when it could be that of a function. -/
def functionName? (s : List Char) : Option (List Char) :=
  (cutFirst? '(' s).bind fun cut =>
    let name := trimEnd cut.1
    let literal := sameLetters name ['r', 'g', 'b'] || sameLetters name ['r', 'g', 'b', 'a']
    if s.getLast? = some ')' ∧ isName name ∧ !literal then some name else none

def fault (key s : List Char) : Fault :=
  match functionName? s with
  | some name => .unknownFunction (String.ofList name)
  | none => .invalidValue (String.ofList key) (String.ofList s)

def read (key s : List Char) : Except Fault Value :=
  let s := trim s
  match Color.read? s with
  | some c => .ok (.color c)
  | none =>
    match Builtin.splitCall? s with
    | some (f, inner) => (f.readArguments inner).map (.call f)
    | none =>
      match Reference.read? s with
      | some target => .ok (.reference target)
      | none => .error (fault key s)

end Value

end ColorTheme
