import LetReturn.Proofs.Lookahead
import LetReturn.Proofs.LoopRuns

set_option autoImplicit false

/-!
# The order of the log

A parse pulls every token once and the end of the input two or three times, and it decides about a
segment when it has pulled the token behind it. So its log has a row for each token that was
pulled: the record of the token, and behind it that of a decision if there is one
(`account`).
-/
namespace LetReturn.PullOrder
open Utf8 Tokens Scanning Diagnostics Programs Journals Parsing ReadLoop
open Lexing Segments Lookahead

/-- A token that was pulled, and what was decided before the next one was. -/
structure Row where
  token : Token
  decision : Option Event
  deriving DecidableEq, Repr

namespace Row

def events (r : Row) : Journal := .pulled r.token :: r.decision.toList

def wording (t : Token) : String := t.kind.name ++ " " ++ Quoting.quote t.literal

/-- The record of the token, and that of a token passed over or of a statement dropped. A statement
that is kept leaves none. -/
def records (r : Row) : List Record :=
  ⟨.trace, "riccilang::frontend::lexer", "token " ++ wording r.token ++ " at " ++
    ("Span \x7b start: " ++ toString r.token.span.start ++ ", end: " ++
      toString r.token.span.stop ++ " \x7d")⟩ ::
    match r.decision with
    | some (.ignored t) =>
      [⟨.debug, "riccilang::frontend::parser", "no statement starts with " ++ wording t⟩]
    | some (.dropped d) =>
      [⟨.debug, "riccilang::frontend::parser", "dropping statement: " ++ d.message⟩]
    | _ => []

def dropped? (r : Row) : Option Diagnostic :=
  match r.decision with
  | some (.dropped d) => some d
  | _ => none

/-- A token is passed over when the next one has been pulled, and one that does not continue a
statement is noted as soon as it has been pulled itself. -/
def Follows (r r' : Row) : Prop :=
  match r'.decision with
  | some (.ignored t) => t = r.token
  | some (.dropped d) => (∃ expected, d = unexpected expected r'.token) ∧ r.token.kind ≠ .eof
  | _ => True

def quiet (ts : List Token) : List Row := ts.map (⟨·, none⟩)

theorem quiet_events (ts : List Token) : (quiet ts).flatMap events = ts.map .pulled := by
  rw [quiet, List.flatMap_map, List.map_eq_flatMap]
  rfl

theorem quiet_tokens (ts : List Token) : (quiet ts).map token = ts := by
  rw [quiet, List.map_map]
  exact List.map_id ts

theorem quiet_decisions (ts : List Token) : (quiet ts).filterMap decision = [] := by
  rw [quiet, List.filterMap_map]
  exact List.filterMap_eq_nil_iff.2 fun _ _ => rfl

theorem log_events {rs : List Row} (h : ∀ d ∈ rs.filterMap decision, ∀ t, d ≠ .pulled t) :
    Journal.log (rs.flatMap events) = rs.flatMap records := by
  rw [Journal.log, List.filterMap_flatMap]
  refine List.flatMap_congr fun r hr => ?_
  obtain ⟨token, _ | d⟩ := r
  · rfl
  · cases d with
    | pulled t => exact absurd rfl (h _ (List.mem_filterMap.2 ⟨_, hr, rfl⟩) t)
    | ignored | kept | dropped => rfl

theorem dropped?_eq (r : Row) : r.dropped? = r.decision.bind Event.diagnostic? := by
  obtain ⟨token, _ | decision⟩ := r
  · rfl
  · cases decision <;> rfl

end Row

section Rows
variable {s : Scanner} {seg : Segment} {segs : List Segment}

def ahead (s : Scanner) : ℕ → List Token
  | 0 => []
  | n + 1 => s.next.2.next.1 :: ahead s.next.2 n

theorem pulls_eq_ahead (s : Scanner) (n : ℕ) : pulls s n = (ahead s.next.2 n).map .pulled := by
  induction n generalizing s with
  | zero => rfl
  | succ n ih => exact congrArg (_ :: ·) (ih s.next.2)

theorem ahead_add (s : Scanner) (m n : ℕ) : ahead s (m + n) = ahead s m ++ ahead (after s m) n := by
  induction m generalizing s with
  | zero => rw [Nat.zero_add]; rfl
  | succ m ih =>
    rw [Nat.succ_add]
    exact congrArg (_ :: ·) (ih s.next.2)

def rows (s : Scanner) : List Segment → List Row
  | [] => [⟨s.next.2.next.1, none⟩]
  | seg :: segs =>
    let last := after s (seg.extent - 1)
    Row.quiet (ahead s (seg.extent - 1)) ++ ⟨last.next.2.next.1, seg.decision⟩ ::
      rows last.next.2 segs

theorem journal_behind (hpos : ∀ seg ∈ segs, 0 < seg.extent) :
    .pulled s.next.2.next.1 :: course s segs = (rows s segs).flatMap Row.events := by
  induction segs generalizing s with
  | nil => rfl
  | cons seg segs ih =>
    rw [List.forall_mem_cons] at hpos
    have hahead := ahead_add s (seg.extent - 1) 1
    have hbehind := ih (s := (after s (seg.extent - 1)).next.2) hpos.2
    calc
      _ = (ahead s (seg.extent - 1 + 1)).map Event.pulled ++ (seg.decision ::
          .pulled (after s (seg.extent - 1)).next.2.next.2.next.1 ::
            course (after s (seg.extent - 1)).next.2 segs) := by
        rw [course, pulls_eq_ahead]
        rfl
      _ = (rows s (seg :: segs)).flatMap Row.events := by
        rw [hahead, List.map_append, hbehind, rows, List.flatMap_append, Row.quiet_events,
          List.append_assoc]
        rfl

theorem rows_tokens (hpos : ∀ seg ∈ segs, 0 < seg.extent) :
    (rows s segs).map Row.token = ahead s ((segs.map Segment.extent).sum + 1) := by
  induction segs generalizing s with
  | nil => rfl
  | cons seg segs ih =>
    rw [List.forall_mem_cons] at hpos
    have hsum : ((seg :: segs).map Segment.extent).sum + 1 =
        (seg.extent - 1) + ((segs.map Segment.extent).sum + 1 + 1) := by
      rw [List.map_cons, List.sum_cons]
      omega
    rw [rows, List.map_append, Row.quiet_tokens, List.map_cons, ih hpos.2, hsum, ahead_add s]
    rfl

theorem rows_decisions : (rows s segs).filterMap Row.decision = segs.map Segment.decision := by
  induction segs generalizing s with
  | nil => rfl
  | cons seg segs ih =>
    rw [rows, List.filterMap_append, Row.quiet_decisions, List.nil_append]
    exact congrArg (_ :: ·) ih

theorem words_after (s : Scanner) (n : ℕ) : words (after s n) = (words s).drop n := by
  induction n generalizing s with
  | zero => rfl
  | succ n ih =>
    rw [after, ih]
    by_cases he : s.next.1.kind = .eof
    · obtain ⟨hw, hn⟩ := words_of_eof he
      rw [hw, hn, List.drop_nil, List.drop_nil]
    · rw [words_of_ne_eof he, List.drop_succ_cons]

theorem after_next (s : Scanner) (n : ℕ) :
    (after s n).next.1 = ((words s).drop n).headD (ending s) := by
  rw [next_eq_headD, words_after, ending_after]

/-- The tokens that are pulled are those of the source, and then the end of the input. -/
theorem ahead_eq_words {n : ℕ} (h : (words s).length ≤ n) :
    s.next.1 :: ahead s n =
      words s ++ List.replicate (n + 1 - (words s).length) (ending s) := by
  induction n generalizing s with
  | zero =>
    have hw : words s = [] := List.length_eq_zero_iff.1 (Nat.le_zero.1 h)
    rw [next_eq_headD, hw]
    rfl
  | succ n ih =>
    rw [ahead]
    by_cases he : s.next.1.kind = .eof
    · obtain ⟨hw, hn⟩ := words_of_eof he
      rw [ih (hn ▸ Nat.zero_le n), ending_next, next_eq_headD, hw, hn]
      rfl
    · rw [words_of_ne_eof he, List.length_cons] at h
      rw [ih (Nat.le_of_succ_le_succ h), ending_next, words_of_ne_eof he, List.length_cons,
        Nat.add_sub_add_right]
      rfl

theorem Cut.follows (h : Cut (ending s) (words s) (seg :: segs)) (d : Option Event) :
    Row.Follows ⟨(after s (seg.extent - 1)).next.1, d⟩
      ⟨(after s (seg.extent - 1)).next.2.next.1, seg.decision⟩ := by
  have hnow := after_next s (seg.extent - 1)
  have hthen := after_next s (seg.extent - 1 + 1)
  rw [after_succ] at hthen
  rw [hnow, hthen]
  generalize words s = ts at h ⊢
  cases h with
  | binding | returning => trivial
  | nameless hw => exact ⟨⟨.ident, rfl⟩, ne_of_eq_of_ne hw (by decide)⟩
  | signless _ hn => exact ⟨⟨.assign, rfl⟩, ne_of_eq_of_ne hn (by decide)⟩
  | other => rfl

theorem isChain_ahead {n : ℕ} {r : Row} {more : List Row}
    (hr : ∀ d, Row.Follows ⟨(after s n).next.1, d⟩ r) (hmore : (r :: more).IsChain Row.Follows)
    (d : Option Event) :
    (⟨s.next.1, d⟩ :: (Row.quiet (ahead s n) ++ r :: more)).IsChain Row.Follows := by
  induction n generalizing s d with
  | zero => exact .cons_cons (hr d) hmore
  | succ n ih => exact .cons_cons trivial (ih hr none)

theorem isChain_rows (h : Cut (ending s) (words s) segs) (d : Option Event) :
    (⟨s.next.1, d⟩ :: rows s segs).IsChain Row.Follows := by
  induction segs generalizing s d with
  | nil => exact .cons_cons trivial (.singleton _)
  | cons seg segs ih =>
    -- The row with the decision is that of the current token of what is left.
    refine isChain_ahead (Cut.follows h) (ih ?_ _) d
    obtain ⟨hpos, tail⟩ := h.behind
    rwa [← after_succ, ending_after, words_after, Nat.sub_add_cancel hpos]

end Rows

/-- How a source is cut into segments. -/
def cut (source : Bytes) : List Segment :=
  segments ⟨.eof, "", ⟨source.length, source.length⟩⟩ (words (.ofBytes source))

/-- The rows account for the whole log of a source. -/
structure Account (source : Bytes) (rows : List Row) : Prop where
  log_eq : (journal (.ofBytes source)).log = rows.flatMap Row.records
  /-- The end of the input is pulled three times where it ends the last statement. -/
  tokens_eq : rows.map Row.token = words (.ofBytes source) ++
    List.replicate (if endsOpen (cut source) then 3 else 2)
      ⟨.eof, "", ⟨source.length, source.length⟩⟩
  length_le : rows.length ≤ (words (.ofBytes source)).length + 3
  decisions_eq : rows.filterMap Row.decision = (cut source).map Segment.decision
  dropped_eq : rows.filterMap Row.dropped? = (Parse.ofScanner (.ofBytes source)).diagnostics
  parse_eq : Parse.ofScanner (.ofBytes source) = outcome (cut source)
  first_quiet : ∀ r ∈ rows.head?, r.decision = none
  placed : rows.IsChain Row.Follows

theorem account (source : Bytes) : ∃ rows, Account source rows := by
  have hending : ending (.ofBytes source) = ⟨.eof, "", ⟨source.length, source.length⟩⟩ := by
    simp [ending, Token.eof, Scanner.ofBytes]
  generalize hs : Scanner.ofBytes source = s at hending
  obtain ⟨segs, hcut, hcourse⟩ := parse_course s
  have hsegs : cut source = segs := by rw [cut, hs, ← hending, hcut.segments_eq]
  have hpos := hcut.extent_pos
  have htokens : (⟨s.next.1, none⟩ :: rows s segs : List Row).map Row.token = words s ++
      List.replicate (if endsOpen segs then 3 else 2) (ending s) := by
    rw [List.map_cons, rows_tokens hpos, hcut.sum_extent, ahead_eq_words (by omega)]
    congr 2
    split_ifs <;> omega
  have hdecisions : (⟨s.next.1, none⟩ :: rows s segs : List Row).filterMap Row.decision =
      segs.map Segment.decision := rows_decisions
  have hparse : Parse.ofScanner s = outcome segs := by
    rw [ofScanner_eq_outcome, hcut.segments_eq]
  refine ⟨⟨s.next.1, none⟩ :: rows s segs, ?_, ?_, ?_, ?_, ?_, ?_, ?_, ?_⟩
  · have hjournal : journal s =
        .pulled s.next.1 :: .pulled s.next.2.next.1 :: course s segs :=
      congrArg (_ :: _ :: ·) hcourse
    have hpulled : ∀ d ∈ (⟨s.next.1, none⟩ :: rows s segs : List Row).filterMap Row.decision,
        ∀ t, d ≠ .pulled t := by
      rw [hdecisions, List.forall_mem_map]
      exact hcut.decision_ne_pulled
    rw [hs, hjournal, journal_behind hpos, ← Row.log_events hpulled]
    rfl
  · rw [hs, hsegs, htokens, hending]
  · have hlength := congrArg List.length htokens
    rw [List.length_map, List.length_append, List.length_replicate] at hlength
    rw [hs, hlength]
    split_ifs <;> omega
  · rw [hsegs, hdecisions]
  · rw [hs, hparse, outcome, diagnostics_eq, ← hdecisions, List.filterMap_filterMap]
    exact congrArg (List.filterMap · _) (funext Row.dropped?_eq)
  · rw [hs, hparse, hsegs]
  · intro r hr
    rw [← Option.mem_some_iff.1 hr]
  · exact isChain_rows hcut none

theorem line_accounts (ls : List Bytes) : ∃ accounts : List (List Row),
    List.Forall₂ (fun line rows => Account (encode (decodeLossy line)) rows) ls accounts ∧
      ls.flatMap (fun line => (journal (scanner line)).log) =
        accounts.flatMap (·.flatMap Row.records) := by
  induction ls with
  | nil => exact ⟨[], .nil, rfl⟩
  | cons line ls ih =>
    obtain ⟨accounts, haccounts, hlog⟩ := ih
    obtain ⟨rows, hrows⟩ := account (encode (decodeLossy line))
    refine ⟨rows :: accounts, .cons hrows haccounts, ?_⟩
    rw [List.flatMap_cons, List.flatMap_cons, hlog, ← hrows.log_eq]
    rfl

section Loop
variable {s t : Sink}

theorem flushed_write {piece : String} (h : s.write piece = .ok t ∨ s.write piece = .error t) :
    t.flushed = s.flushed := by
  by_cases hfits : ∀ n ∈ s.room, (ofString piece).length ≤ n
  · rw [LoopRuns.write_eq_ok hfits] at h
    obtain h | h := h <;> cases h
    rfl
  · push Not at hfits
    obtain ⟨n, hn, hlt⟩ := hfits
    rw [LoopRuns.write_eq_error hn hlt] at h
    obtain h | h := h <;> cases h
    rfl

theorem flushed_writeAll {pieces : List String}
    (h : s.writeAll pieces = .ok t ∨ s.writeAll pieces = .error t) : t.flushed = s.flushed := by
  induction pieces generalizing s with
  | nil => obtain h | h := h <;> cases h; rfl
  | cons piece pieces ih =>
    rw [Sink.writeAll] at h
    split at h
    · rename_i full hfull
      obtain h | h := h <;> cases h
      exact flushed_write (.inr hfull)
    · rename_i u hu
      exact (ih h).trans (flushed_write (.inl hu))

/-- What a loop logs: everything about each line it reads, and at last that nothing is left. -/
theorem loop_log (fails : Bool) (s : Sink) (ls : List Bytes) :
    ∃ n, (loop fails s ls).segments.length = s.flushed.length + (n + 1) ∧
      (loop fails s ls).log = (ls.take n).flatMap (fun line => (journal (scanner line)).log) ++
        (if ls.length < n ∧ fails = false then [Record.inputClosed] else []) ∧
      ((loop fails s ls).ending = .closed ↔ ls.length < n ∧ fails = false) := by
  induction ls generalizing s with
  | nil =>
    rw [loop]
    cases hw : s.write prompt with
    | error full =>
      refine ⟨0, ?_, rfl, ?_⟩
      · simp [Sink.segments, flushed_write (.inr hw)]
      · simp
    | ok t =>
      refine ⟨1, ?_, ?_, ?_⟩
      · cases fails <;> simp [leave, Sink.segments, Sink.flush, flushed_write (.inl hw)]
      · cases fails <;> rfl
      · cases fails <;> simp [leave]
  | cons line rest ih =>
    rw [loop]
    cases hw : s.write prompt with
    | error full =>
      refine ⟨0, ?_, rfl, ?_⟩
      · simp [Sink.segments, flushed_write (.inr hw)]
      · simp
    | ok t =>
      have hflushed : t.flush.flushed.length = s.flushed.length + 1 := by
        simp [Sink.flush, flushed_write (.inl hw)]
      cases ha : t.flush.writeAll (respond line) with
      -- The prompt was flushed, so the line has been read even if its answer does not fit.
      | error full =>
        refine ⟨1, ?_, ?_, ?_⟩
        · simp [ha, Sink.segments, flushed_writeAll (.inr ha), hflushed]
        · simp [ha]
        · simp [ha]
      | ok u =>
        obtain ⟨n, hlength, hlog, hending⟩ := ih u
        refine ⟨n + 1, ?_, ?_, ?_⟩
        · simp only [ha, Run.behind, hlength, flushed_writeAll (.inl ha), hflushed]
          omega
        · simp [ha, Run.behind, hlog]
        · simpa [ha, Run.behind] using hending

end Loop

/-- A run asks for a line after each flush. -/
def reads (r : Run) : ℕ := r.segments.length - 1

/-- A parse pulls each token once and in order, and decides about a segment when it has pulled the
token behind it; a run logs this about each line it has read, and at last that the input is closed
if it ended without a failure. -/
theorem log_follows_pulls :
    (∀ source : Bytes, ∃ rows, Account source rows) ∧
      ∀ (input : Input) (limit : Option ℕ),
        let r := run input limit
        let ended := input.lines.length < reads r ∧ input.fails = false
        (∃ accounts : List (List Row),
          List.Forall₂ (fun line rows => Account (encode (decodeLossy line)) rows)
            (input.lines.take (reads r)) accounts ∧
          r.log = accounts.flatMap (·.flatMap Row.records) ++
            (if ended then [⟨.debug, "riccilang::repl", "input closed, leaving read loop"⟩]
              else [])) ∧
          (r.ending = .closed ↔ ended) := by
  refine ⟨account, fun input limit => ?_⟩
  obtain ⟨n, hlength, hlog, hending⟩ := loop_log input.fails (.empty limit) input.lines
  have hreads : reads (run input limit) = n := by
    rw [reads, run, hlength]
    simp [Sink.empty]
  obtain ⟨accounts, haccounts, hlines⟩ := line_accounts (input.lines.take n)
  simp only [hreads]
  rw [hlines] at hlog
  exact ⟨⟨accounts, haccounts, hlog⟩, hending⟩

end LetReturn.PullOrder
