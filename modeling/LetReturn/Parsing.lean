import LetReturn.Journals
import LetReturn.Scanning

set_option autoImplicit false

/-!
# Parsing

A parse sees the source through a window of two tokens: the current one and the one ahead. It
keeps `let` and `return` statements, passing over their values up to the semicolon, and drops a
`let` that does not go on with a name and an equals sign. Whatever happens, it goes on with the
token behind the one it stopped at.

Every round of the loop leaves less to read (`statement_advance_lt`): `remaining` counts the
unread bytes and the tokens of the window that are not the end of the input.
-/
namespace LetReturn.Parsing
open Tokens Scanning Diagnostics Programs Journals

structure Window where
  current : Token
  ahead : Token
  scanner : Scanner
  deriving DecidableEq, Repr

namespace Window

def ofScanner (s : Scanner) : Journal × Window :=
  let first := s.next
  let second := first.2.next
  ([.pulled first.1, .pulled second.1], ⟨first.1, second.1, second.2⟩)

def pull (w : Window) : Event := .pulled w.scanner.next.1

def advance (w : Window) : Window :=
  let step := w.scanner.next
  ⟨w.ahead, step.1, step.2⟩

def weight (t : Token) : Nat := if t.kind = .eof then 0 else 1

def behind (w : Window) : Nat := w.scanner.unread.length + weight w.ahead

def remaining (w : Window) : Nat := w.behind + weight w.current

theorem advance_remaining_le (w : Window) : w.advance.remaining ≤ w.behind := by
  simp only [remaining, behind, advance]
  by_cases h : w.scanner.next.1.kind = .eof
  · have hle := w.scanner.next_unread_le
    have hw : weight w.scanner.next.1 = 0 := if_pos h
    omega
  · have hlt := w.scanner.next_unread_lt h
    have hw : weight w.scanner.next.1 = 1 := if_neg h
    omega

theorem behind_lt_remaining (w : Window) (h : w.current.kind ≠ .eof) :
    w.behind < w.remaining := by
  have hw : weight w.current = 1 := if_neg h
  simp only [remaining]
  omega

theorem advance_behind_le (w : Window) : w.advance.behind ≤ w.behind :=
  Nat.le_trans (Nat.le_add_right _ _) w.advance_remaining_le

def passValue (w : Window) : Journal × Window :=
  if _h : w.current.kind = .semicolon ∨ w.current.kind = .eof then ([], w)
  else
    let rest := passValue w.advance
    (w.pull :: rest.1, rest.2)
termination_by w.remaining
decreasing_by
  exact Nat.lt_of_le_of_lt w.advance_remaining_le (w.behind_lt_remaining fun he => _h (.inr he))

/-- Move on if the token ahead is of the expected kind, and stay put if it is not. -/
def expect (w : Window) (expected : Kind) : Except Diagnostic Window :=
  if w.ahead.kind = expected then .ok w.advance
  else .error (.unexpectedToken expected w.ahead.kind w.ahead.span)

/-- A `let`: a name, an equals sign, and a value that is not kept. -/
def binding (w : Window) : Journal × Window :=
  match w.expect .ident with
  | .error reason => ([.dropped reason], w)
  | .ok named =>
    match named.expect .assign with
    | .error reason => ([w.pull, .dropped reason], named)
    | .ok assigned =>
      let value := assigned.passValue
      let name := Identifier.ofToken named.current
      (w.pull :: named.pull :: value.1 ++ [.kept (.binding w.current name none)], value.2)

def returning (w : Window) : Journal × Window :=
  let value := w.passValue
  (value.1 ++ [.kept (.returning w.current none)], value.2)

/-- The statement that starts at the current token. The window is left on the last token that was
used for it. -/
def statement (w : Window) : Journal × Window :=
  match w.current.kind with
  | .letWord => w.binding
  | .returnWord => w.returning
  | _ => ([.ignored w.current], w)

theorem passValue_behind_le (w : Window) : w.passValue.2.behind ≤ w.behind := by
  fun_induction passValue w with
  | case1 => exact Nat.le_refl _
  | case2 w h rest ih => exact Nat.le_trans ih w.advance_behind_le

theorem expect_eq_ok {w v : Window} {expected : Kind} (h : w.expect expected = .ok v) :
    v = w.advance ∧ w.ahead.kind = expected := by
  unfold expect at h
  split at h
  · cases h
    exact ⟨rfl, by assumption⟩
  · cases h

theorem binding_behind_le (w : Window) : w.binding.2.behind ≤ w.behind := by
  unfold binding
  split
  · exact Nat.le_refl _
  · rename_i named hn
    obtain ⟨rfl, -⟩ := expect_eq_ok hn
    split
    · exact w.advance_behind_le
    · rename_i assigned ha
      obtain ⟨rfl, -⟩ := expect_eq_ok ha
      have h1 := w.advance_behind_le
      have h2 := w.advance.advance_behind_le
      have h3 := w.advance.advance.passValue_behind_le
      exact Nat.le_trans h3 (Nat.le_trans h2 h1)

theorem statement_behind_le (w : Window) : w.statement.2.behind ≤ w.behind := by
  unfold statement
  split
  · exact w.binding_behind_le
  · exact w.passValue_behind_le
  · exact Nat.le_refl _

theorem statement_advance_lt (w : Window) (h : w.current.kind ≠ .eof) :
    w.statement.2.advance.remaining < w.remaining :=
  Nat.lt_of_le_of_lt
    (Nat.le_trans w.statement.2.advance_remaining_le w.statement_behind_le)
    (w.behind_lt_remaining h)

def parse (w : Window) : Journal × Window :=
  if _h : w.current.kind = .eof then ([], w)
  else
    let front := w.statement
    let rest := parse front.2.advance
    (front.1 ++ front.2.pull :: rest.1, rest.2)
termination_by w.remaining
decreasing_by exact w.statement_advance_lt _h

end Window

def journal (s : Scanner) : Journal :=
  let opening := Window.ofScanner s
  opening.1 ++ opening.2.parse.1

/-- A parser stays usable after a parse: its window rests where the parse ended, and the
diagnostics stay recorded. -/
structure Parser where
  window : Window
  diagnostics : List Diagnostic
  deriving DecidableEq, Repr

namespace Parser

def ofScanner (s : Scanner) : Parser := ⟨(Window.ofScanner s).2, []⟩

def parse (p : Parser) : Program × Parser :=
  let run := p.window.parse
  (run.1.program, ⟨run.2, p.diagnostics ++ run.1.diagnostics⟩)

def errors (p : Parser) : List String := p.diagnostics.map Diagnostic.message

end Parser

/-- What became of a source: the program, and the diagnostics in order. -/
structure Parse where
  program : Program
  diagnostics : List Diagnostic
  deriving DecidableEq, Repr

def Parse.ofScanner (s : Scanner) : Parse :=
  let done := (Parser.ofScanner s).parse
  ⟨done.1, done.2.diagnostics⟩

def Parse.ofText (source : String) : Parse := .ofScanner (.ofText source)

def Parse.errors (p : Parse) : List String := p.diagnostics.map Diagnostic.message

end LetReturn.Parsing
