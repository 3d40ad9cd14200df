import LetReturn.Programs

set_option autoImplicit false

namespace LetReturn.Reports
open Diagnostics Programs

structure Note where
  message : String
  start : Nat
  stop : Nat
  deriving DecidableEq, Repr

def Note.ofDiagnostic (d : Diagnostic) : Note := ⟨d.message, d.span.start, d.span.stop⟩

structure Report where
  success : Bool
  sourceFile : String
  statementCount : Nat
  notes : List Note
  deriving DecidableEq, Repr

def Report.of (file : String) (program : Program) (diagnostics : List Diagnostic) : Report where
  success := diagnostics.isEmpty
  sourceFile := file
  statementCount := program.statements.length
  notes := diagnostics.map Note.ofDiagnostic

/-- Counts and offsets are 64-bit words where a report is exchanged. -/
def wordLimit : Nat := UInt64.size

def Note.Fits (n : Note) : Prop := n.start < wordLimit ∧ n.stop < wordLimit

def Report.Fits (r : Report) : Prop :=
  r.statementCount < wordLimit ∧ ∀ n ∈ r.notes, n.Fits

end LetReturn.Reports
