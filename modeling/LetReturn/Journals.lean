import LetReturn.Programs

set_option autoImplicit false

/-!
# Journals

A journal lists what a parse did, in order: each token it pulled, each token it passed over because
no statement starts with it, each statement it kept, and each one it dropped with the reason. The
program, the diagnostics and the log are three views of the one journal.
-/
namespace LetReturn.Journals
open Tokens Diagnostics Programs

inductive Event where
  | pulled (token : Token)
  | ignored (token : Token)
  | kept (statement : Statement)
  | dropped (reason : Diagnostic)
  deriving DecidableEq, Repr

abbrev Journal := List Event

inductive Level where
  | trace | debug
  deriving DecidableEq, Repr

def Level.name : Level → String
  | trace => "TRACE"
  | debug => "DEBUG"

/-- One line of the log. -/
structure Record where
  level : Level
  target : String
  message : String
  deriving DecidableEq, Repr

def scannerTarget : String := "riccilang::frontend::lexer"
def parserTarget : String := "riccilang::frontend::parser"
def readLoopTarget : String := "riccilang::repl"

def tokenText (t : Token) : String := t.kind.name ++ " " ++ Quoting.quote t.literal

def spanText (s : Span) : String :=
  "Span \x7b start: " ++ toString s.start ++ ", end: " ++ toString s.stop ++ " \x7d"

def Record.ofPulled (t : Token) : Record :=
  ⟨.trace, scannerTarget, "token " ++ tokenText t ++ " at " ++ spanText t.span⟩

def Record.inputClosed : Record :=
  ⟨.debug, readLoopTarget, "input closed, leaving read loop"⟩

namespace Event

def statement? : Event → Option Statement
  | kept statement => some statement
  | _ => none

def diagnostic? : Event → Option Diagnostic
  | dropped reason => some reason
  | _ => none

/-- A statement that is kept leaves no record. -/
def record? : Event → Option Record
  | pulled token => some (Record.ofPulled token)
  | ignored token =>
    some ⟨.debug, parserTarget, "no statement starts with " ++ tokenText token⟩
  | dropped reason => some ⟨.debug, parserTarget, "dropping statement: " ++ reason.message⟩
  | kept _ => none

end Event

namespace Journal

def program (j : Journal) : Program := ⟨j.filterMap Event.statement?⟩

def diagnostics (j : Journal) : List Diagnostic := j.filterMap Event.diagnostic?

def log (j : Journal) : List Record := j.filterMap Event.record?

end Journal

end LetReturn.Journals
