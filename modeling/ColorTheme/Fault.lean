import ColorTheme.Builtin
/-! # Faults of theme files

Why a line of a theme file is refused, and the message that says so. -/
namespace ColorTheme

inductive Fault where
  | unterminatedDirective
  | unknownMode (name : String)
  | missingColon
  | emptyKey
  | missingValue (key : String)
  | valueTooLong (key : String)
  | invalidKey (key : String)
  | invalidValue (key value : String)
  | unknownFunction (name : String)
  | argumentCount (function : Builtin) (found : Nat)
  | argumentType (function : Builtin) (position : Nat) (expected : Parameter) (text : String)
  deriving DecidableEq, Repr

def maxKeyBytes : Nat := 128

def maxValueBytes : Nat := 1024

/-- A fault and the number of its line, counted from 1. -/
structure ParseError where
  line : Nat
  fault : Fault
  deriving DecidableEq, Repr

namespace ParseError

def syntaxMessage (line : Nat) (what : String) : String :=
  s!"theme syntax error at line {line}: {what}"

def message (e : ParseError) : String :=
  let line := e.line
  match e.fault with
  | .unterminatedDirective =>
    syntaxMessage line "unterminated mode directive, expected `[Mode]`"
  | .unknownMode name =>
    syntaxMessage line s!"unknown mode `{name}` (expected All, Dark, Light or Debug)"
  | .missingColon => syntaxMessage line "expected `Key: Value`"
  | .emptyKey => syntaxMessage line "empty key"
  | .missingValue key => syntaxMessage line s!"missing value for `{key}`"
  | .valueTooLong key =>
    syntaxMessage line s!"value for `{key}` is too long (max {maxValueBytes} bytes)"
  | .invalidKey key => s!"invalid key `{key}` at line {line} (allowed: [A-Za-z_][A-Za-z0-9_]*)"
  | .invalidValue key value => s!"invalid value `{value}` for `{key}` at line {line}"
  | .unknownFunction name => s!"unknown function `{name}` at line {line}"
  | .argumentCount function found =>
    s!"`{function.name}` takes {function.arity} argument(s) but {found} were given at line {line}"
  | .argumentType function position expected text =>
    s!"argument {position} of `{function.name}` must be {expected.description}, got `{text}` " ++
      s!"at line {line}"

end ParseError

end ColorTheme
