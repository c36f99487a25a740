import ColorTheme.Builtin
/-! # Values of entries

What stands on the right of an assignment: a color, a reference to another entry or a call. -/
namespace ColorTheme

inductive Value where
  | color (value : Color)
  | reference (target : Reference)
  | call (function : Builtin) (arguments : List Argument)
  deriving DecidableEq, Repr

namespace Value

/-- The references in a value, in written order. -/
def references : Value → List Reference
  | color _ => []
  | reference target => [target]
  | call _ arguments => arguments.filterMap Argument.target?

/-- Whether a call has the arguments that its function takes. -/
def wellTyped : Value → Bool
  | call function arguments => function.accepts arguments
  | _ => true

end Value

end ColorTheme
