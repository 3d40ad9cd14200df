import LetReturn.Parsing
import LetReturn.Proofs.Lexing
import LetReturn.Proofs.Segments

set_option autoImplicit false

/-!
# Lookahead

Every window of a parse is the window on the first two tokens of some scanner (`view`), and moving
on by one token moves that scanner by one step. So a parse is followed token by token: from the
scanner at a statement to the scanner behind it, the tokens passed are one segment
(`statement_decides`), and a whole parse decides what the segments of all tokens decide
(`parse_view`).
-/
namespace LetReturn.Lookahead
open Tokens Scanning Diagnostics Programs Journals Parsing Lexing Segments

def view (s : Scanner) : Window := (Window.ofScanner s).2

theorem view_advance (s : Scanner) : (view s).advance = view s.next.2 := rfl

/-- The scanner `n` tokens further on. -/
def after (s : Scanner) : ℕ → Scanner
  | 0 => s
  | n + 1 => after s.next.2 n

theorem after_succ (s : Scanner) (n : ℕ) : after s (n + 1) = (after s n).next.2 := by
  induction n generalizing s with
  | zero => rfl
  | succ n ih => exact ih s.next.2

def pulls (s : Scanner) : ℕ → Journal
  | 0 => []
  | n + 1 => (view s).pull :: pulls s.next.2 n

def decisions (j : Journal) : Journal :=
  j.filter fun
    | .pulled _ => false
    | _ => true

theorem decisions_append (i j : Journal) : decisions (i ++ j) = decisions i ++ decisions j :=
  List.filter_append ..

theorem decisions_pulls (s : Scanner) (n : ℕ) : decisions (pulls s n) = [] := by
  induction n generalizing s with
  | zero => rfl
  | succ n ih => exact ih s.next.2

theorem program_decisions (j : Journal) : Journal.program (decisions j) = j.program := by
  simp only [Journal.program, decisions, List.filterMap_filter]
  congr 2
  funext e
  cases e <;> rfl

theorem diagnostics_decisions (j : Journal) :
    Journal.diagnostics (decisions j) = j.diagnostics := by
  simp only [Journal.diagnostics, decisions, List.filterMap_filter]
  congr 1
  funext e
  cases e <;> rfl

theorem words_of_ne_eof {s : Scanner} (h : s.next.1.kind ≠ .eof) :
    words s = s.next.1 :: words s.next.2 := by
  obtain ⟨-, hs⟩ | ⟨-, hs, -⟩ := next_cases s
  · rw [hs] at h
    exact absurd rfl h
  · exact hs

theorem words_of_eof {s : Scanner} (h : s.next.1.kind = .eof) :
    words s = [] ∧ words s.next.2 = [] := by
  obtain ⟨hw, hs⟩ | ⟨hne, -⟩ := next_cases s
  · rw [hs]
    exact ⟨hw, (Lexed.blanks (by simp)).words_eq⟩
  · exact absurd h hne

theorem ending_next (s : Scanner) : ending s.next.2 = ending s := by
  obtain ⟨-, hs⟩ | ⟨-, -, hs⟩ := next_cases s
  · rw [hs]
    rfl
  · exact hs

theorem next_eq_headD (s : Scanner) : s.next.1 = (words s).headD (ending s) := by
  obtain ⟨hw, hs⟩ | ⟨-, hs, -⟩ := next_cases s
  · rw [hw, hs]
    rfl
  · rw [hs]
    rfl

theorem after_unread_le (s : Scanner) (n : ℕ) : (after s n).unread.length ≤ s.unread.length := by
  induction n generalizing s with
  | zero => exact Nat.le_refl _
  | succ n ih => exact (ih s.next.2).trans s.next_unread_le

theorem ending_after (s : Scanner) (n : ℕ) : ending (after s n) = ending s := by
  induction n generalizing s with
  | zero => rfl
  | succ n ih => exact (ih s.next.2).trans (ending_next s)

theorem passValue_view (s : Scanner) : ∃ n value,
    (view s).passValue = (pulls s n, view (after s n)) ∧ n + 1 = extent value ∧
      words s = value ++ words (after s (n + 1)) ∧ Value value (words (after s (n + 1))) := by
  by_cases hstop : s.next.1.kind = .semicolon ∨ s.next.1.kind = .eof
  · have hpass : (view s).passValue = ([], view s) := by
      rw [Window.passValue]
      exact dif_pos hstop
    obtain hm | he := hstop
    · refine ⟨0, [s.next.1], hpass, ?_, words_of_ne_eof (by simp [hm]), .closed hm⟩
      simp [extent, isOpen, hm]
    · obtain ⟨hw, hn⟩ := words_of_eof he
      refine ⟨0, [], hpass, rfl, ?_, ?_⟩
      · exact hw.trans hn.symm
      · exact hn ▸ .unclosed
  -- The current token is one of those passed over, and the rest is the value from the next one on.
  · have hpass : (view s).passValue =
        ((view s).pull :: (view s.next.2).passValue.1, (view s.next.2).passValue.2) := by
      rw [Window.passValue]
      exact dif_neg hstop
    obtain ⟨hm, he⟩ := not_or.1 hstop
    obtain ⟨n, value, hrest, hn, hw, hv⟩ := passValue_view s.next.2
    refine ⟨n + 1, s.next.1 :: value, ?_, ?_, ?_, .pass hm hv⟩
    · rw [hpass, hrest]
      rfl
    · rw [extent_cons hm, hn]
    · rw [words_of_ne_eof he, hw]
      rfl
termination_by s.unread.length
decreasing_by exact s.next_unread_lt he

/-- Where the current token does not end a value, it is the first of those passed over. -/
theorem passValue_behind {s : Scanner} (hm : s.next.1.kind ≠ .semicolon)
    (he : s.next.1.kind ≠ .eof) : ∃ n value,
    (view s).passValue = (pulls s n, view (after s n)) ∧ n = extent value ∧
      words s.next.2 = value ++ words (after s (n + 1)) ∧
      Value value (words (after s (n + 1))) := by
  obtain ⟨n, value, hpass, hn, hw, hv⟩ := passValue_view s
  rw [words_of_ne_eof he] at hw
  refine ⟨n, value.tail, hpass, ?_⟩
  generalize words (after s (n + 1)) = rest at hw hv
  cases hv with
  | closed hmark =>
    rw [List.singleton_append, List.cons.injEq] at hw
    exact absurd (hw.1 ▸ hmark) hm
  | unclosed => simp at hw
  | pass ht tail =>
    rw [List.cons_append, List.cons.injEq] at hw
    rw [extent_cons ht] at hn
    exact ⟨Nat.succ.inj hn, hw.2, tail⟩

/-- The part of a journal and of the tokens that belongs to the statement at the current token. -/
def Decides (s : Scanner) (step : Journal × Window) : Prop :=
  ∃ n seg, step = (pulls s n ++ [seg.decision], view (after s n)) ∧ n + 1 = seg.extent ∧
    ∀ segs, Cut (ending s) (words (after s (n + 1))) segs →
      Cut (ending s) (words s) (seg :: segs)

theorem nameless_decides {s : Scanner} (hl : s.next.1.kind = .letWord)
    (hn : s.next.2.next.1.kind ≠ .ident) : Decides s (view s).binding := by
  have hstop : (view s).expect .ident = .error (unexpected .ident s.next.2.next.1) := if_neg hn
  have hname := next_eq_headD s.next.2
  rw [ending_next] at hname
  refine ⟨0, ⟨[s.next.1], .dropped (unexpected .ident s.next.2.next.1)⟩, ?_, rfl,
    fun segs tail => ?_⟩
  · simp only [Window.binding, hstop]
    rfl
  · rw [words_of_ne_eof (s := s) (by simp [hl]), hname]
    exact .nameless hl (hname ▸ hn) tail

theorem signless_decides {s : Scanner} (hl : s.next.1.kind = .letWord)
    (hn : s.next.2.next.1.kind = .ident) (ha : s.next.2.next.2.next.1.kind ≠ .assign) :
    Decides s (view s).binding := by
  have hnamed : (view s).expect .ident = .ok (view s.next.2) := if_pos hn
  have hstop : (view s.next.2).expect .assign =
      .error (unexpected .assign s.next.2.next.2.next.1) := if_neg ha
  have hsign := next_eq_headD s.next.2.next.2
  rw [ending_next, ending_next] at hsign
  refine ⟨1, ⟨[s.next.1, s.next.2.next.1],
    .dropped (unexpected .assign s.next.2.next.2.next.1)⟩, ?_, rfl, fun segs tail => ?_⟩
  · simp only [Window.binding, hnamed, hstop]
    rfl
  · rw [words_of_ne_eof (s := s) (by simp [hl]), words_of_ne_eof (s := s.next.2) (by simp [hn]),
      hsign]
    exact .signless hl hn (hsign ▸ ha) tail

theorem assigned_decides {s : Scanner} (hl : s.next.1.kind = .letWord)
    (hn : s.next.2.next.1.kind = .ident) (ha : s.next.2.next.2.next.1.kind = .assign) :
    Decides s (view s).binding := by
  have hnamed : (view s).expect .ident = .ok (view s.next.2) := if_pos hn
  have hassigned : (view s.next.2).expect .assign = .ok (view s.next.2.next.2) := if_pos ha
  obtain ⟨n, value, hpass, hlength, hw, hv⟩ :=
    passValue_behind (s := s.next.2.next.2) (by simp [ha]) (by simp [ha])
  refine ⟨n + 2, ⟨s.next.1 :: s.next.2.next.1 :: s.next.2.next.2.next.1 :: value,
    .kept (.binding s.next.1 (.ofToken s.next.2.next.1) none)⟩, ?_, ?_, fun segs tail => ?_⟩
  · simp only [Window.binding, hnamed, hassigned, hpass]
    rfl
  · calc
      n + 2 + 1 = extent value + 1 + 1 + 1 := by rw [hlength]
      _ = extent (s.next.1 :: s.next.2.next.1 :: s.next.2.next.2.next.1 :: value) := by
        rw [extent_cons (by simp [hl]), extent_cons (by simp [hn]), extent_cons (by simp [ha])]
  · rw [words_of_ne_eof (s := s) (by simp [hl]), words_of_ne_eof (s := s.next.2) (by simp [hn]),
      words_of_ne_eof (s := s.next.2.next.2) (by simp [ha]), hw]
    exact .binding hl hn ha hv tail

theorem binding_decides {s : Scanner} (hl : s.next.1.kind = .letWord) :
    Decides s (view s).binding := by
  by_cases hn : s.next.2.next.1.kind = .ident
  · by_cases ha : s.next.2.next.2.next.1.kind = .assign
    · exact assigned_decides hl hn ha
    · exact signless_decides hl hn ha
  · exact nameless_decides hl hn

theorem returning_decides {s : Scanner} (hr : s.next.1.kind = .returnWord) :
    Decides s (view s).returning := by
  obtain ⟨n, value, hpass, hlength, hw, hv⟩ :=
    passValue_behind (s := s) (by simp [hr]) (by simp [hr])
  refine ⟨n, ⟨s.next.1 :: value, .kept (.returning s.next.1 none)⟩, ?_, ?_, fun segs tail => ?_⟩
  · simp only [Window.returning, hpass]
    rfl
  · exact (congrArg (· + 1) hlength).trans (extent_cons (by simp [hr]) value).symm
  · rw [words_of_ne_eof (s := s) (by simp [hr]), hw]
    exact .returning hr hv tail

theorem statement_decides {s : Scanner} (h : s.next.1.kind ≠ .eof) :
    Decides s (view s).statement := by
  unfold Window.statement
  split
  · exact binding_decides ‹_›
  · exact returning_decides ‹_›
  · rename_i hl hr
    refine ⟨0, ⟨[s.next.1], .ignored s.next.1⟩, rfl, rfl, fun segs tail => ?_⟩
    rw [words_of_ne_eof h]
    exact .other hl hr tail

/-- All that a parse does from a scanner on, where the tokens are cut into the segments: it pulls
as many tokens as it passes, and decides about each segment before the last of them is pulled. -/
def course (s : Scanner) : List Segment → Journal
  | [] => []
  | seg :: segs =>
    let last := after s (seg.extent - 1)
    pulls s (seg.extent - 1) ++ seg.decision :: (view last).pull :: course last.next.2 segs

theorem parse_course (s : Scanner) : ∃ segs, Cut (ending s) (words s) segs ∧
    (view s).parse.1 = course s segs := by
  by_cases he : s.next.1.kind = .eof
  · have hp : (view s).parse = ([], view s) := by
      rw [Window.parse]
      exact dif_pos he
    rw [hp, (words_of_eof he).1]
    exact ⟨[], .done, rfl⟩
  · have hp : (view s).parse = ((view s).statement.1 ++
        (view s).statement.2.pull :: (view s).statement.2.advance.parse.1,
          (view s).statement.2.advance.parse.2) := by
      rw [Window.parse]
      exact dif_neg he
    obtain ⟨n, seg, hst, hn, hcut⟩ := statement_decides he
    -- One step more than the statement took: the token it stopped at is used up as well.
    have hlt : (after s (n + 1)).unread.length < s.unread.length :=
      (after_unread_le s.next.2 n).trans_lt (s.next_unread_lt he)
    obtain ⟨segs, htail, hrest⟩ := parse_course (after s (n + 1))
    rw [ending_after] at htail
    refine ⟨seg :: segs, hcut segs htail, ?_⟩
    have hlast : seg.extent - 1 = n := by rw [← hn, Nat.add_sub_cancel]
    rw [hp, hst, course, hlast, view_advance, ← after_succ, ← hrest, List.append_assoc]
    rfl
termination_by s.unread.length

theorem Cut.decisions_decision {last : Token} {ts : List Token} {segs : List Segment}
    (h : Cut last ts segs) : decisions (segs.map Segment.decision) = segs.map Segment.decision := by
  refine List.filter_eq_self.2 (List.forall_mem_map.2 fun seg hseg => ?_)
  have hpulled := h.decision_ne_pulled seg hseg
  cases hd : seg.decision with
  | pulled t => exact absurd hd (hpulled t)
  | ignored | kept | dropped => rfl

theorem decisions_course (s : Scanner) (segs : List Segment) :
    decisions (course s segs) = decisions (segs.map Segment.decision) := by
  induction segs generalizing s with
  | nil => rfl
  | cons seg segs ih =>
    have hpull : ∀ (w : Window) (j : Journal), decisions (w.pull :: j) = decisions j :=
      fun w j => rfl
    rw [course, decisions_append, decisions_pulls, List.nil_append, ← List.singleton_append,
      decisions_append, hpull, ih, ← decisions_append, List.map_cons, List.singleton_append]

theorem parse_view (s : Scanner) : ∃ segs, Cut (ending s) (words s) segs ∧
    decisions (view s).parse.1 = segs.map Segment.decision := by
  obtain ⟨segs, hcut, hcourse⟩ := parse_course s
  refine ⟨segs, hcut, ?_⟩
  rw [hcourse, decisions_course, Cut.decisions_decision hcut]

/-- What becomes of a source whose tokens are cut into the segments. -/
def outcome (segs : List Segment) : Parse := ⟨⟨statements segs⟩, diagnostics segs⟩

theorem ofScanner_eq_outcome (s : Scanner) :
    Parse.ofScanner s = outcome (segments (ending s) (words s)) := by
  obtain ⟨segs, hcut, hdecided⟩ := parse_view s
  rw [hcut.segments_eq]
  have hprogram : Journal.program (segs.map Segment.decision) = (view s).parse.1.program := by
    rw [← hdecided, program_decisions]
  have hdiagnostics : Journal.diagnostics (segs.map Segment.decision) =
      (view s).parse.1.diagnostics := by
    rw [← hdecided, diagnostics_decisions]
  rw [outcome, statements_eq, diagnostics_eq]
  exact (congrArg₂ Parse.mk hprogram hdiagnostics).symm

theorem cut_segments (s : Scanner) : Cut (ending s) (words s) (segments (ending s) (words s)) := by
  obtain ⟨segs, hcut, -⟩ := parse_view s
  rwa [hcut.segments_eq]

/-- A parse of a text through its window is the plain recursion over all of its tokens, and that
recursion cuts them without losing or rereading any. -/
theorem parse_eq_segments (source : String) :
    ∃ (ts : List Token) (last : Token), (Scanner.ofText source).tokens.1 = ts ++ [last] ∧
      last = ⟨.eof, "", ⟨(Utf8.ofString source).length, (Utf8.ofString source).length⟩⟩ ∧
      (∀ t ∈ ts, t.kind ≠ .eof) ∧
      Parse.ofText source = outcome (segments last ts) ∧
      (segments last ts).flatMap Segment.tokens = ts ∧ Cut last ts (segments last ts) ∧
      ∀ segs, Cut last ts segs → segs = segments last ts := by
  have hcut := cut_segments (.ofText source)
  refine ⟨words (.ofText source), ending (.ofText source), ?_, ?_, ?_, ?_, hcut.flatMap_tokens,
    hcut, ?_⟩
  · rw [tokens_eq_words]
  · simp [ending, Token.eof, Scanner.ofText, Scanner.ofBytes]
  · exact (lexed_words _).kind_ne_eof
  · rw [Parse.ofText, ofScanner_eq_outcome]
  · exact fun segs h => h.segments_eq.symm

end LetReturn.Lookahead
