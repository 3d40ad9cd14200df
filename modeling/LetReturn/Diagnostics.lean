import LetReturn.Quoting
import LetReturn.Tokens

set_option autoImplicit false

namespace LetReturn.Diagnostics
open Tokens

inductive Diagnostic where
  | unexpectedToken (expected got : Kind) (span : Span)
  | invalidInteger (literal : String) (span : Span)
  deriving DecidableEq, Repr

namespace Diagnostic

def span : Diagnostic → Span
  | unexpectedToken _ _ span => span
  | invalidInteger _ span => span

def message : Diagnostic → String
  | unexpectedToken expected got _ =>
    "expected next token to be " ++ expected.name ++ ", got " ++ got.name ++ " instead"
  | invalidInteger literal _ => "could not parse " ++ Quoting.quote literal ++ " as integer"

end Diagnostic

end LetReturn.Diagnostics
