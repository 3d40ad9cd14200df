import LetReturn.Proofs.Lookahead

set_option autoImplicit false

namespace LetReturn

def Tokens.Token.relocate (f : Span → Span) (t : Token) : Token := { t with span := f t.span }

/-- What a token is, wherever it stands. -/
def Tokens.Token.word (t : Token) : Kind × String := (t.kind, t.literal)

namespace Programs
open Tokens

def Identifier.relocate (f : Span → Span) (x : Identifier) : Identifier :=
  { x with token := x.token.relocate f }

def IntegerLiteral.relocate (f : Span → Span) (x : IntegerLiteral) : IntegerLiteral :=
  { x with token := x.token.relocate f }

def Expression.relocate (f : Span → Span) : Expression → Expression
  | ident name => ident (name.relocate f)
  | int number => int (number.relocate f)

def Statement.relocate (f : Span → Span) : Statement → Statement
  | binding token name value =>
    binding (token.relocate f) (name.relocate f) (value.map (Expression.relocate f))
  | returning token value => returning (token.relocate f) (value.map (Expression.relocate f))
  | bare token value => bare (token.relocate f) (value.relocate f)

def Statement.unplaced : Statement → Statement := Statement.relocate fun _ => ⟨0, 0⟩

end Programs

def Diagnostics.Diagnostic.relocate (f : Tokens.Span → Tokens.Span) : Diagnostic → Diagnostic
  | unexpectedToken expected got span => unexpectedToken expected got (f span)
  | invalidInteger literal span => invalidInteger literal (f span)

def Journals.Event.relocate (f : Tokens.Span → Tokens.Span) : Event → Event
  | pulled token => pulled (token.relocate f)
  | ignored token => ignored (token.relocate f)
  | kept statement => kept (statement.relocate f)
  | dropped reason => dropped (reason.relocate f)

def Segments.Segment.relocate (f : Tokens.Span → Tokens.Span) (seg : Segment) : Segment :=
  ⟨seg.tokens.map (Tokens.Token.relocate f), seg.decision.relocate f⟩

namespace Relocation
open Tokens Scanning Diagnostics Programs Journals Parsing Lexing Segments Lookahead
variable {f : Span → Span}

theorem Value.relocate {value rest : List Token} (h : Value value rest) :
    Value (value.map (Token.relocate f)) (rest.map (Token.relocate f)) := by
  induction h with
  | closed hm => exact .closed hm
  | unclosed => exact .unclosed
  | pass ht _ ih => exact .pass ht ih

theorem Cut.relocate {last : Token} {ts : List Token} {segs : List Segment} (h : Cut last ts segs) :
    Cut (last.relocate f) (ts.map (Token.relocate f)) (segs.map (Segment.relocate f)) := by
  induction h with
  | done => exact .done
  | binding hw hn hs hv _ ih =>
    simp only [List.map_cons, List.map_append]
    exact .binding hw hn hs (Value.relocate hv) ih
  | returning hw hv _ ih =>
    simp only [List.map_cons, List.map_append]
    exact .returning hw (Value.relocate hv) ih
  | @nameless word rest segs hw hn _ ih =>
    cases rest with
    | nil => exact .nameless hw hn ih
    | cons t rest => exact .nameless hw hn ih
  | @signless word name rest segs hw hn hs _ ih =>
    cases rest with
    | nil => exact .signless hw hn hs ih
    | cons t rest => exact .signless hw hn hs ih
  | other hl hr _ ih => exact .other hl hr ih

theorem outcome_relocate (segs : List Segment) :
    outcome (segs.map (Segment.relocate f)) =
      ⟨⟨(outcome segs).program.statements.map (Statement.relocate f)⟩,
        (outcome segs).diagnostics.map (Diagnostic.relocate f)⟩ := by
  have hs : ∀ e : Event, (e.relocate f).statement? = e.statement?.map (Statement.relocate f) := by
    intro e
    cases e <;> rfl
  have hd : ∀ e : Event,
      (e.relocate f).diagnostic? = e.diagnostic?.map (Diagnostic.relocate f) := by
    intro e
    cases e <;> rfl
  simp [outcome, statements_eq, diagnostics_eq, Segment.relocate, List.filterMap_map,
    List.map_filterMap, Function.comp_def, hs, hd]

theorem message_relocate (d : Diagnostic) : (d.relocate f).message = d.message := by
  cases d <;> rfl

theorem text_relocate (s : Statement) : (s.relocate f).text = s.text := by
  have hvalue : ∀ value : Option Expression,
      Statement.valueText (value.map (Expression.relocate f)) = Statement.valueText value := by
    intro value
    rcases value with _ | (_ | _) <;> rfl
  cases s with
  | binding | returning =>
    simp only [Statement.relocate, Statement.text, hvalue]
    rfl
  | bare token value => cases value <;> rfl

theorem relocate_eq_of_words {ts us : List Token} (h : ts.map Token.word = us.map Token.word)
    (span : Span) :
    ts.map (Token.relocate fun _ => span) = us.map (Token.relocate fun _ => span) := by
  have hword : ∀ ts : List Token, ts.map (Token.relocate fun _ => span) =
      (ts.map Token.word).map fun w => ⟨w.1, w.2, span⟩ := by
    intro ts
    rw [List.map_map]
    rfl
  rw [hword, hword, h]

def SameWords (a b : Scanner) : Prop := a.tokens.1.map Token.word = b.tokens.1.map Token.word

theorem sameWords_iff {a b : Scanner} :
    SameWords a b ↔ (words a).map Token.word = (words b).map Token.word := by
  simp only [SameWords, tokens_eq_words, List.map_append, List.map_singleton]
  exact List.append_left_inj _

/-- Sources with the same kinds and literals are parsed alike but for the spans. -/
theorem parse_same_words {a b : Scanner} (h : SameWords a b) :
    (Parse.ofScanner a).program.statements.map Statement.unplaced =
        (Parse.ofScanner b).program.statements.map Statement.unplaced ∧
      (Parse.ofScanner a).errors = (Parse.ofScanner b).errors := by
  have hunplaced := relocate_eq_of_words (sameWords_iff.1 h) ⟨0, 0⟩
  have hending : (ending a).relocate (fun _ => ⟨0, 0⟩) = (ending b).relocate fun _ => ⟨0, 0⟩ := rfl
  have hcut : ∀ s : Scanner, _ := fun s =>
    (Cut.relocate (f := fun _ => ⟨0, 0⟩) (cut_segments s)).segments_eq
  have hsegs := hcut a
  rw [hunplaced, hending, hcut b] at hsegs
  have houtcome := congrArg outcome hsegs
  rw [outcome_relocate, outcome_relocate, ← ofScanner_eq_outcome,
    ← ofScanner_eq_outcome] at houtcome
  obtain ⟨hprogram, hdiagnostics⟩ := Parse.mk.inj houtcome
  refine ⟨(Program.mk.inj hprogram).symm, ?_⟩
  have hmessages := congrArg (List.map Diagnostic.message) hdiagnostics
  simpa only [Parse.errors, List.map_map, Function.comp_def, message_relocate] using hmessages.symm

end Relocation

end LetReturn
