import LetReturn.Sessions
import LetReturn.Proofs.Shifting
import Mathlib.Data.Stream.Init

set_option autoImplicit false

namespace LetReturn

def Scanning.Scanner.shift (n : ℕ) (s : Scanner) : Scanner := ⟨s.offset + n, s.unread⟩

namespace Streams
open Tokens Scanning Diagnostics Programs Parsing Sessions
open Lexemes Lexing Segments Lookahead Shifting

def stream (s : Scanner) : Stream' Token := words s ++ₛ Stream'.const (ending s)

/-- The answers are read from the stream in turn and leave a rest of it: one token for each `next`,
and for each `tokens` all that stand before the next end of the input, and that end. -/
inductive Reads : Stream' Token → List ScanStep → List (List Token) → Stream' Token → Prop where
  | done {rest : Stream' Token} : Reads rest [] [] rest
  | next {t : Token} {read rest : Stream' Token} {steps : List ScanStep}
      {answers : List (List Token)} (tail : Reads read steps answers rest) :
      Reads ([t] ++ₛ read) (.next :: steps) ([t] :: answers) rest
  | tokens {ts : List Token} {last : Token} {read rest : Stream' Token} {steps : List ScanStep}
      {answers : List (List Token)} (hts : ∀ t ∈ ts, t.kind ≠ .eof) (hlast : last.kind = .eof)
      (tail : Reads read steps answers rest) :
      Reads (ts ++ [last] ++ₛ read) (.tokens :: steps) ((ts ++ [last]) :: answers) rest

theorem Reads.flatten_append {read rest : Stream' Token} {steps : List ScanStep}
    {answers : List (List Token)} (h : Reads read steps answers rest) :
    answers.flatten ++ₛ rest = read := by
  induction h with
  | done => rfl
  | next _ ih | tokens _ _ _ ih =>
    rw [List.flatten_cons, Stream'.append_append_stream, ih]

section Steps
variable {s : Scanner}

theorem stream_next (s : Scanner) : stream s = [s.next.1] ++ₛ stream s.next.2 := by
  by_cases he : s.next.1.kind = .eof
  · obtain ⟨hw, hn⟩ := words_of_eof he
    rw [stream, stream, ending_next, next_eq_headD, hw, hn]
    exact Stream'.const_eq (ending s)
  · rw [stream, stream, ending_next, words_of_ne_eof he]
    rfl

theorem stream_tokens (s : Scanner) : stream s = words s ++ [ending s] ++ₛ stream s.tokens.2 := by
  have hrest : stream s.tokens.2 = Stream'.const (ending s) := by
    have hw : words ⟨s.offset + s.unread.length, []⟩ = [] := (Lexed.blanks (by simp)).words_eq
    rw [tokens_eq_words, stream, hw]
    rfl
  rw [hrest, Stream'.append_append_stream]
  exact congrArg (words s ++ₛ ·) (Stream'.const_eq (ending s))

theorem scanStep_reads {step : ScanStep} {steps : List ScanStep} {answers : List (List Token)}
    {rest : Stream' Token} (h : Reads (stream (scanStep s step).2) steps answers rest) :
    Reads (stream s) (step :: steps) ((scanStep s step).1 :: answers) rest := by
  cases step with
  | next =>
    rw [stream_next]
    exact .next h
  | tokens =>
    have hanswer : s.tokens.1 = words s ++ [ending s] := congrArg Prod.fst (tokens_eq_words s)
    rw [stream_tokens, scanStep, hanswer]
    exact .tokens (lexed_words s).kind_ne_eof rfl h

theorem scan_reads (s : Scanner) (steps : List ScanStep) :
    Reads (stream s) steps (scan s steps).1 (stream (scan s steps).2) := by
  induction steps generalizing s with
  | nil => exact .done
  | cons step steps ih => exact scanStep_reads (ih (scanStep s step).2)

end Steps

section Places
variable {source : List UInt8} {s : Scanner}

/-- The scanner has read the bytes of the source before its offset, and no others. -/
def Within (source : List UInt8) (s : Scanner) : Prop :=
  ∃ before, source = before ++ s.unread ∧ s.offset = before.length

theorem Within.next (h : Within source s) : Within source s.next.2 := by
  obtain ⟨before, hsource, hoffset⟩ := h
  obtain hb | ⟨gap, kind, piece, rest, hs, hg, hp⟩ := blanks_or_lexeme s.unread
  · refine ⟨source, ?_, ?_⟩
    · rw [next_blanks hb, List.append_nil]
    · rw [next_blanks hb, hsource, List.length_append, hoffset]
  · have hnext : s.next.2 = ⟨s.offset + gap.length + piece.length, rest⟩ := by
      have hlexeme := next_lexeme (n := s.offset) hg hp
      rw [← hs] at hlexeme
      exact congrArg Prod.snd hlexeme
    refine ⟨before ++ gap ++ piece, ?_, ?_⟩
    · rw [hnext, hsource, hs]
      simp only [List.append_assoc]
    · rw [hnext, hoffset]
      simp only [List.length_append]

theorem Within.tokens (h : Within source s) : Within source s.tokens.2 := by
  obtain ⟨before, hsource, hoffset⟩ := h
  refine ⟨source, ?_, ?_⟩
  · rw [tokens_eq_words, List.append_nil]
  · rw [tokens_eq_words, hsource, List.length_append, hoffset]

theorem Within.scan (h : Within source s) (steps : List ScanStep) :
    Within source (scan s steps).2 := by
  induction steps generalizing s with
  | nil => exact h
  | cons step steps ih =>
    cases step with
    | next => exact ih h.next
    | tokens => exact ih h.tokens

theorem Within.offset_le (h : Within source s) : s.offset ≤ source.length := by
  obtain ⟨before, hsource, hoffset⟩ := h
  rw [hoffset, hsource, List.length_append]
  exact Nat.le_add_right _ _

theorem Within.eq_shift (h : Within source s) :
    s = (Scanner.ofBytes (source.drop s.offset)).shift s.offset := by
  obtain ⟨before, hsource, hoffset⟩ := h
  have hunread : source.drop s.offset = s.unread := by
    rw [hsource, hoffset, List.drop_left]
  rw [hunread, Scanner.ofBytes, Scanner.shift, Nat.zero_add]

end Places

section Shifts

theorem next_shift (n : ℕ) (s : Scanner) :
    (s.shift n).next = (s.next.1.shift n, s.next.2.shift n) := by
  obtain ⟨m, unread⟩ := s
  obtain hb | ⟨gap, kind, piece, rest, rfl, hg, hp⟩ := blanks_or_lexeme unread
  · rw [next_blanks (s := ⟨m, unread⟩) hb, Scanner.shift, next_blanks hb, ending_shift, Scanner.shift,
      Nat.add_right_comm]
  · have hgap : m + n + gap.length = m + gap.length + n := Nat.add_right_comm ..
    have hstop : m + gap.length + n + piece.length = m + gap.length + piece.length + n :=
      Nat.add_right_comm ..
    rw [Scanner.shift, next_lexeme hg hp, next_lexeme hg hp, hgap, hstop]
    rfl

theorem tokens_shift (n : ℕ) (s : Scanner) :
    (s.shift n).tokens = (s.tokens.1.map (Token.shift n), s.tokens.2.shift n) := by
  obtain ⟨m, unread⟩ := s
  rw [tokens_eq_words, tokens_eq_words, Scanner.shift, words_shift, ending_shift, List.map_append,
    Scanner.shift, Nat.add_right_comm]
  rfl

theorem scanStep_shift (n : ℕ) (s : Scanner) (step : ScanStep) :
    scanStep (s.shift n) step =
      ((scanStep s step).1.map (Token.shift n), (scanStep s step).2.shift n) := by
  cases step with
  | next =>
    rw [scanStep, next_shift]
    rfl
  | tokens => exact tokens_shift n s

theorem scan_shift (n : ℕ) (s : Scanner) (steps : List ScanStep) :
    scan (s.shift n) steps =
      ((scan s steps).1.map (List.map (Token.shift n)), (scan s steps).2.shift n) := by
  induction steps generalizing s with
  | nil => rfl
  | cons step steps ih =>
    simp only [scan, scanStep_shift, ih]
    rfl

theorem parse_shift (n : ℕ) (s : Scanner) :
    Parse.ofScanner (s.shift n) =
      ⟨⟨(Parse.ofScanner s).program.statements.map (Statement.shift n)⟩,
        (Parse.ofScanner s).diagnostics.map (Diagnostic.shift n)⟩ := by
  have hcut := Cut.shift (cut_segments s) n
  rw [ofScanner_eq_outcome, ofScanner_eq_outcome, ← outcome_shift, ← hcut.segments_eq,
    Scanner.shift, words_shift, ending_shift]

end Shifts

/-- The answers of a session, one behind the other, are the front of one stream: the tokens of the
source and then its end, again and again. Where a session stops, what is read next, by a scanner or
by a parser, is what would be read from the remaining bytes alone, moved by the offset. -/
theorem scan_reads_one_stream (source : List UInt8) (steps : List ScanStep) :
    let whole := Scanner.ofBytes source
    let last : Token := ⟨.eof, "", ⟨source.length, source.length⟩⟩
    let answers := (scan whole steps).1
    let stopped := (scan whole steps).2
    let remaining := Scanner.ofBytes (source.drop stopped.offset)
    (∃ ts : List Token, whole.tokens.1 = ts ++ [last] ∧ (∀ t ∈ ts, t.kind ≠ .eof) ∧
      answers.flatten = (ts ++ₛ Stream'.const last).take answers.flatten.length ∧
      Reads (ts ++ₛ Stream'.const last) steps answers
        ((ts ++ₛ Stream'.const last).drop answers.flatten.length)) ∧
    stopped.offset ≤ source.length ∧ stopped.unread = source.drop stopped.offset ∧
    (∀ later : List ScanStep, (scan stopped later).1 =
      (scan remaining later).1.map (List.map (Token.shift stopped.offset))) ∧
    Parse.ofScanner stopped =
      ⟨⟨(Parse.ofScanner remaining).program.statements.map (Statement.shift stopped.offset)⟩,
        (Parse.ofScanner remaining).diagnostics.map (Diagnostic.shift stopped.offset)⟩ := by
  intro whole last answers stopped remaining
  have hending : ending whole = last := by
    simp [whole, last, ending, Token.eof, Scanner.ofBytes]
  have hstream : stream whole = words whole ++ₛ Stream'.const last := by rw [stream, hending]
  have hreads : Reads (stream whole) steps answers (stream stopped) := scan_reads whole steps
  have hsplit := hreads.flatten_append
  have hstart : Within source whole := ⟨[], rfl, rfl⟩
  have hwithin : Within source stopped := hstart.scan steps
  have hshift : stopped = remaining.shift stopped.offset := hwithin.eq_shift
  refine ⟨⟨words whole, ?_, (lexed_words whole).kind_ne_eof, ?_, ?_⟩, hwithin.offset_le, ?_, ?_, ?_⟩
  · rw [tokens_eq_words, hending]
  · rw [← hstream, ← hsplit, Stream'.take_append_of_le_length _ _ _ le_rfl, List.take_length]
  · rwa [← hstream, ← hsplit, Stream'.drop_append_stream, hsplit]
  · exact congrArg Scanner.unread hshift
  · intro later
    conv_lhs => rw [hshift]
    rw [scan_shift]
  · conv_lhs => rw [hshift]
    rw [parse_shift]

example : (scan (.ofText "let x") [.next, .tokens, .next]).1.map (List.map Token.kind) =
    [[.letWord], [.ident, .eof], [.eof]] := by
  cbv

end Streams

end LetReturn
