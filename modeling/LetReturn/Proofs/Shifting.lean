import LetReturn.Proofs.Relocation

set_option autoImplicit false

namespace LetReturn

namespace Programs

def Identifier.shift (n : ℕ) (x : Identifier) : Identifier := { x with token := x.token.shift n }

def IntegerLiteral.shift (n : ℕ) (x : IntegerLiteral) : IntegerLiteral :=
  { x with token := x.token.shift n }

def Expression.shift (n : ℕ) : Expression → Expression
  | ident name => ident (name.shift n)
  | int number => int (number.shift n)

def Statement.shift (n : ℕ) : Statement → Statement
  | binding token name value =>
    binding (token.shift n) (name.shift n) (value.map (Expression.shift n))
  | returning token value => returning (token.shift n) (value.map (Expression.shift n))
  | bare token value => bare (token.shift n) (value.shift n)

end Programs

def Diagnostics.Diagnostic.shift (n : ℕ) : Diagnostic → Diagnostic
  | unexpectedToken expected got span => unexpectedToken expected got (span.shift n)
  | invalidInteger literal span => invalidInteger literal (span.shift n)

def Journals.Event.shift (n : ℕ) : Event → Event
  | pulled token => pulled (token.shift n)
  | ignored token => ignored (token.shift n)
  | kept statement => kept (statement.shift n)
  | dropped reason => dropped (reason.shift n)

def Segments.Segment.shift (n : ℕ) (seg : Segment) : Segment :=
  ⟨seg.tokens.map (Tokens.Token.shift n), seg.decision.shift n⟩

namespace Shifting
open Tokens Scanning Diagnostics Programs Journals Parsing Lexing Segments Lookahead Relocation

theorem Lexed.shift {m : ℕ} {source : List UInt8} {ts : List Token} (h : Lexed m source ts)
    (n : ℕ) : Lexed (m + n) source (ts.map (Token.shift n)) := by
  induction h with
  | blanks hg => exact .blanks hg
  | @piece m gap piece rest kind ts hg hp tail ih =>
    have hgap : m + gap.length + n = m + n + gap.length := by omega
    have hstop : m + gap.length + piece.length + n = m + n + gap.length + piece.length := by omega
    rw [hstop] at ih
    simp only [List.map_cons, Token.shift, Span.shift, hgap, hstop]
    exact .piece hg hp ih

theorem words_shift (m n : ℕ) (source : List UInt8) :
    words ⟨m + n, source⟩ = (words ⟨m, source⟩).map (Token.shift n) :=
  (Lexed.shift (lexed_words ⟨m, source⟩) n).words_eq

theorem ending_shift (m n : ℕ) (source : List UInt8) :
    ending ⟨m + n, source⟩ = (ending ⟨m, source⟩).shift n := by
  simp only [ending, Token.eof, Token.shift, Span.shift, Token.mk.injEq, true_and]
  congr 1 <;> omega

theorem statement_shift_eq (n : ℕ) : Statement.shift n = Statement.relocate (Span.shift n) := by
  have he : Expression.shift n = Expression.relocate (Span.shift n) := by
    funext e
    cases e <;> rfl
  funext s
  cases s with
  | binding | returning =>
    rw [Statement.shift, he]
    rfl
  | bare =>
    rw [Statement.shift, he]
    rfl

theorem diagnostic_shift_eq (n : ℕ) : Diagnostic.shift n = Diagnostic.relocate (Span.shift n) := by
  funext d
  cases d <;> rfl

theorem text_shift (n : ℕ) (s : Statement) : (s.shift n).text = s.text := by
  rw [statement_shift_eq, text_relocate]

theorem message_shift (n : ℕ) (d : Diagnostic) : (d.shift n).message = d.message := by
  rw [diagnostic_shift_eq, message_relocate]

theorem segment_shift_eq (n : ℕ) : Segment.shift n = Segment.relocate (Span.shift n) := by
  have he : Event.shift n = Event.relocate (Span.shift n) := by
    funext e
    cases e with
    | pulled | ignored => rfl
    | kept => rw [Event.shift, statement_shift_eq, Event.relocate]
    | dropped => rw [Event.shift, diagnostic_shift_eq, Event.relocate]
  funext seg
  rw [Segment.shift, he]
  rfl

theorem Cut.shift {last : Token} {ts : List Token} {segs : List Segment} (h : Cut last ts segs)
    (n : ℕ) : Cut (last.shift n) (ts.map (Token.shift n)) (segs.map (Segment.shift n)) := by
  rw [segment_shift_eq]
  exact Cut.relocate h

theorem outcome_shift (n : ℕ) (segs : List Segment) :
    outcome (segs.map (Segment.shift n)) =
      ⟨⟨(outcome segs).program.statements.map (Statement.shift n)⟩,
        (outcome segs).diagnostics.map (Diagnostic.shift n)⟩ := by
  rw [segment_shift_eq, statement_shift_eq, diagnostic_shift_eq, outcome_relocate]

end Shifting

end LetReturn
