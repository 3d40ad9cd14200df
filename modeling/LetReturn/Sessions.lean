import LetReturn.Parsing
import LetReturn.Reports

set_option autoImplicit false

namespace LetReturn.Sessions
open Tokens Scanning Diagnostics Programs Parsing Reports

inductive ScanStep where
  | next | tokens
  deriving DecidableEq, Repr

def scanStep (s : Scanner) : ScanStep → List Token × Scanner
  | .next => ([s.next.1], s.next.2)
  | .tokens => s.tokens

def scan (s : Scanner) : List ScanStep → List (List Token) × Scanner
  | [] => ([], s)
  | step :: steps =>
    let first := scanStep s step
    let rest := scan first.2 steps
    (first.1 :: rest.1, rest.2)

structure Sitting where
  parser : Parser
  last : Program
  deriving DecidableEq, Repr

def Sitting.ofScanner (s : Scanner) : Sitting := ⟨.ofScanner s, .empty⟩

inductive ParseStep where
  | parse | errors | diagnostics | report
  deriving DecidableEq, Repr

inductive Answer where
  | program (p : Program)
  | errors (messages : List String)
  | diagnostics (ds : List Diagnostic)
  | report (r : Report)
  deriving DecidableEq, Repr

def fileName : String := "session.rl"

/-- Only a parse changes what later steps see. -/
def Sitting.step (x : Sitting) : ParseStep → Answer × Sitting
  | .parse =>
    let done := x.parser.parse
    (.program done.1, ⟨done.2, done.1⟩)
  | .errors => (.errors x.parser.errors, x)
  | .diagnostics => (.diagnostics x.parser.diagnostics, x)
  | .report => (.report (Report.of fileName x.last x.parser.diagnostics), x)

def Sitting.run (x : Sitting) : List ParseStep → List Answer × Sitting
  | [] => ([], x)
  | step :: steps =>
    let first := x.step step
    let rest := first.2.run steps
    (first.1 :: rest.1, rest.2)

end LetReturn.Sessions
