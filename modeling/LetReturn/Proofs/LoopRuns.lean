import LetReturn.ReadLoop
import Mathlib.Data.List.DropRight
import Mathlib.Tactic.Common

set_option autoImplicit false

/-!
# Runs of the read loop

What a run wants to write does not depend on the output: it is a script of pieces and flushes. An
output with enough room takes all of it (`perform_eq_ok`), and one with too little stops it where it
is full (`perform_eq_error`), so what is written is always the beginning of what would have been
written.
-/
namespace LetReturn.LoopRuns
open Utf8 ReadLoop

section Lines

theorem cutLine_complete {l : Bytes} (hl : 0x0A ∉ l) (rest : Bytes) :
    cutLine (l ++ 0x0A :: rest) = (l ++ [0x0A], rest) := by
  induction l with
  | nil => rfl
  | cons b l ih =>
    rw [List.mem_cons, not_or] at hl
    simp [cutLine, ih hl.2, Ne.symm hl.1]

theorem cutLine_unfinished {l : Bytes} (hl : 0x0A ∉ l) : cutLine l = (l, []) := by
  induction l with
  | nil => rfl
  | cons b l ih =>
    rw [List.mem_cons, not_or] at hl
    simp [cutLine, ih hl.2, Ne.symm hl.1]

theorem lines_nil : lines [] = [] := by rw [lines]

theorem lines_complete {l : Bytes} (hl : 0x0A ∉ l) (rest : Bytes) :
    lines (l ++ 0x0A :: rest) = (l ++ [0x0A]) :: lines rest := by
  have hcut := cutLine_complete hl rest
  cases l with
  | nil => rw [List.nil_append, lines, ← List.nil_append (_ :: rest), hcut]
  | cons b l => rw [List.cons_append, lines, ← List.cons_append, hcut]

theorem lines_unfinished {l : Bytes} (hl : 0x0A ∉ l) (hne : l ≠ []) : lines l = [l] := by
  cases l with
  | nil => exact absurd rfl hne
  | cons b l => rw [lines, cutLine_unfinished hl, lines_nil]

theorem isComplete_append (l : Bytes) : isComplete (l ++ [0x0A]) = true := by
  simp [isComplete]

theorem isComplete_of_not_mem {l : Bytes} (hl : 0x0A ∉ l) : isComplete l = false := by
  simp only [isComplete, beq_eq_false_iff_ne]
  exact fun h => hl (List.mem_of_getLast? h)

theorem line_cases (input : Bytes) :
    0x0A ∉ input ∨ ∃ l rest, 0x0A ∉ l ∧ input = l ++ 0x0A :: rest := by
  by_cases h : 0x0A ∈ input
  · obtain ⟨l, rest, rfl, hl⟩ := List.eq_append_cons_of_mem h
    exact .inr ⟨l, rest, hl, rfl⟩
  · exact .inl h

/-- The bytes up to the last line feed. -/
def completed (input : Bytes) : Bytes := input.rdropWhile (· != 0x0A)

theorem completed_unfinished {l : Bytes} (hl : 0x0A ∉ l) : completed l = [] := by
  rw [completed, List.rdropWhile_eq_nil_iff]
  intro b hb
  rw [bne_iff_ne]
  rintro rfl
  exact hl hb

theorem completed_complete (l rest : Bytes) :
    completed (l ++ 0x0A :: rest) = l ++ 0x0A :: completed rest := by
  induction rest using List.reverseRecOn with
  | nil => simp [completed]
  | append_singleton rest b ih =>
    rw [← List.cons_append, ← List.append_assoc, completed, completed, List.rdropWhile_concat,
      List.rdropWhile_concat]
    split_ifs with hb
    · exact ih
    · simp

theorem lines_completed (input : Bytes) :
    lines (completed input) = (lines input).filter isComplete := by
  induction h : input.length using Nat.strongRecOn generalizing input with
  | ind n ih =>
    obtain hl | ⟨l, rest, hl, rfl⟩ := line_cases input
    · rw [completed_unfinished hl, lines_nil]
      by_cases hne : input = []
      · rw [hne, lines_nil, List.filter_nil]
      · rw [lines_unfinished hl hne]
        simp [isComplete_of_not_mem hl]
    · have hrest := ih rest.length (by simp only [← h, List.length_append, List.length_cons]; omega)
        rest rfl
      rw [completed_complete, lines_complete hl, lines_complete hl, hrest,
        List.filter_cons_of_pos (isComplete_append l)]

end Lines

section Scripts

inductive Act where
  | write (piece : String)
  | flush
  deriving DecidableEq, Repr

def Act.bytes : Act → Bytes
  | write piece => ofString piece
  | flush => []

def script : List Bytes → List Act
  | [] => [.write prompt, .flush]
  | line :: rest => .write prompt :: .flush :: ((respond line).map .write ++ script rest)

def output (acts : List Act) : Bytes := acts.flatMap Act.bytes

/-- How much is written before each flush, counted on from what was written before. -/
def marks (before : ℕ) : List Act → List ℕ
  | [] => []
  | .write piece :: acts => marks (before + (ofString piece).length) acts
  | .flush :: acts => before :: marks before acts

theorem output_cons (act : Act) (acts : List Act) :
    output (act :: acts) = act.bytes ++ output acts :=
  List.flatMap_cons

theorem le_of_mem_marks {acts : List Act} {before k : ℕ} (hk : k ∈ marks before acts) :
    before ≤ k := by
  induction acts generalizing before with
  | nil => cases hk
  | cons act acts ih =>
    cases act with
    | write piece => exact le_trans (Nat.le_add_right _ _) (ih hk)
    | flush =>
      rcases List.mem_cons.1 hk with rfl | hk
      · exact le_rfl
      · exact ih hk

theorem mem_marks_le {acts : List Act} {before k : ℕ} (hk : k ∈ marks before acts) :
    k ≤ before + (output acts).length := by
  induction acts generalizing before with
  | nil => cases hk
  | cons act acts ih =>
    rw [output_cons, List.length_append]
    cases act with
    | write piece =>
      have hle := ih hk
      simp only [Act.bytes]
      omega
    | flush =>
      rcases List.mem_cons.1 hk with rfl | hk
      · omega
      · have hle := ih hk
        omega

end Scripts

section Outputs
variable {s t : Sink} {n : ℕ}

def perform (s : Sink) : List Act → Except Sink Sink
  | [] => .ok s
  | .write piece :: acts =>
    match s.write piece with
    | .error full => .error full
    | .ok s => perform s acts
  | .flush :: acts => perform s.flush acts

def ending (fails : Bool) : Except Sink Sink → List Bytes × Ending
  | .error full => (full.segments, .writeFailed)
  | .ok s => (s.segments, if fails then .readFailed else .closed)

theorem perform_writes (pieces : List String) (acts : List Act) :
    perform s (pieces.map .write ++ acts) =
      match s.writeAll pieces with
      | .error full => .error full
      | .ok t => perform t acts := by
  induction pieces generalizing s with
  | nil => rfl
  | cons piece pieces ih =>
    simp only [List.map_cons, List.cons_append, perform, Sink.writeAll]
    cases s.write piece with
    | error full => rfl
    | ok t => exact ih

theorem loop_eq_ending (fails : Bool) (s : Sink) (ls : List Bytes) :
    ((loop fails s ls).segments, (loop fails s ls).ending) =
      ending fails (perform s (script ls)) := by
  induction ls generalizing s with
  | nil =>
    simp only [loop, script, perform]
    cases s.write prompt with
    | error full => rfl
    | ok t => cases fails <;> rfl
  | cons line rest ih =>
    simp only [loop, script, perform, perform_writes]
    cases s.write prompt with
    | error full => rfl
    | ok t =>
      simp only
      cases t.flush.writeAll (respond line) with
      | error full => rfl
      | ok u => exact ih u

/-- How much is written before each place where the segments are cut. -/
def cuts (segments : List Bytes) : List ℕ :=
  (List.range (segments.length - 1)).map fun i => (segments.take (i + 1)).flatten.length

theorem cuts_concat (segments : List Bytes) (last : Bytes) :
    cuts (segments ++ [last]) =
      (List.range segments.length).map fun i => (segments.take (i + 1)).flatten.length := by
  simp only [cuts, List.length_append, List.length_singleton, Nat.add_sub_cancel]
  apply List.map_congr_left
  intro i hi
  rw [List.take_append_of_le_length (Nat.succ_le_of_lt (List.mem_range.1 hi))]

/-- What an output that has enough room for some bytes is behind them. -/
def put (s : Sink) (bytes : Bytes) : Sink where
  room := s.room.map (· - bytes.length)
  flushed := s.flushed
  pending := s.pending ++ bytes

def written (s : Sink) : Bytes := s.segments.flatten

theorem written_put (s : Sink) (bytes : Bytes) : written (put s bytes) = written s ++ bytes := by
  simp [written, put, Sink.segments]

theorem cuts_put (s : Sink) (bytes : Bytes) : cuts (put s bytes).segments = cuts s.segments := by
  rw [Sink.segments, Sink.segments, cuts_concat, cuts_concat]
  rfl

theorem written_flush (s : Sink) : written s.flush = written s := by
  simp [written, Sink.flush, Sink.segments]

theorem cuts_flush (s : Sink) :
    cuts s.flush.segments = cuts s.segments ++ [(written s).length] := by
  have hflush : s.flush.segments = s.segments ++ [[]] := rfl
  have hlength : s.segments.length = s.flushed.length + 1 := List.length_append
  have hall : s.segments.take (s.flushed.length + 1) = s.segments := by
    rw [← hlength, List.take_length]
  rw [hflush, cuts_concat, hlength, List.range_succ, List.map_append, cuts, hlength,
    Nat.add_sub_cancel, List.map_singleton, hall]
  rfl

theorem write_eq_ok {piece : String} (h : ∀ n ∈ s.room, (ofString piece).length ≤ n) :
    s.write piece = .ok (put s (ofString piece)) := by
  rcases hr : s.room with _ | n
  · simp [Sink.write, put, hr]
  · simp [Sink.write, put, hr, h n hr]

theorem write_eq_error {piece : String} (hn : n ∈ s.room) (h : n < (ofString piece).length) :
    s.write piece = .error (put s ((ofString piece).take n)) := by
  have hr : s.room = some n := hn
  simp [Sink.write, put, hr, Nat.not_le.2 h, Nat.min_eq_left (Nat.le_of_lt h)]

theorem perform_write {piece : String} (h : ∀ n ∈ s.room, (ofString piece).length ≤ n)
    (acts : List Act) : perform s (.write piece :: acts) = perform (put s (ofString piece)) acts := by
  rw [perform, write_eq_ok h]

theorem perform_eq_ok {acts : List Act} (h : ∀ n ∈ s.room, (output acts).length ≤ n) :
    ∃ t, perform s acts = .ok t ∧ written t = written s ++ output acts ∧
      cuts t.segments = cuts s.segments ++ marks (written s).length acts := by
  induction acts generalizing s with
  | nil => exact ⟨s, rfl, (List.append_nil _).symm, (List.append_nil _).symm⟩
  | cons act acts ih =>
    simp only [output_cons, List.length_append] at h
    cases act with
    | write piece =>
      have hfits : ∀ n ∈ s.room, (ofString piece).length ≤ n := by
        intro n hn
        have hle := h n hn
        simp only [Act.bytes] at hle
        omega
      have hroom : ∀ n ∈ (put s (ofString piece)).room, (output acts).length ≤ n := by
        intro n hn
        obtain ⟨m, hm, rfl⟩ := Option.map_eq_some_iff.1 hn
        have hle := h m hm
        simp only [Act.bytes] at hle
        omega
      obtain ⟨t, ht, hbytes, hcuts⟩ := ih hroom
      refine ⟨t, (perform_write hfits acts).trans ht, ?_, ?_⟩
      · rw [hbytes, written_put, List.append_assoc, output_cons, Act.bytes]
      · rw [hcuts, cuts_put, written_put, List.length_append, marks]
    | flush =>
      have hroom : ∀ n ∈ s.flush.room, (output acts).length ≤ n := by
        intro n hn
        have hle := h n hn
        omega
      obtain ⟨t, ht, hbytes, hcuts⟩ := ih hroom
      refine ⟨t, ht, ?_, ?_⟩
      · rw [hbytes, written_flush, output_cons, Act.bytes, List.nil_append]
      · rw [hcuts, cuts_flush, written_flush, List.append_assoc, marks, List.singleton_append]

theorem perform_eq_error {acts : List Act} (hn : n ∈ s.room) (h : n < (output acts).length) :
    ∃ full, perform s acts = .error full ∧ written full = written s ++ (output acts).take n ∧
      cuts full.segments = cuts s.segments ++
        (marks (written s).length acts).filter (· ≤ (written s).length + n) := by
  induction acts generalizing s n with
  | nil => exact absurd h (Nat.not_lt_zero n)
  | cons act acts ih =>
    rw [output_cons, List.length_append] at h
    cases act with
    | write piece =>
      simp only [Act.bytes] at h
      rw [output_cons, Act.bytes]
      by_cases hfit : n < (ofString piece).length
      · -- every later flush stands behind bytes that were never written
        have hlate : ∀ k ∈ marks ((written s).length + (ofString piece).length) acts,
            ¬ k ≤ (written s).length + n := by
          intro k hk
          have hle := le_of_mem_marks hk
          omega
        refine ⟨put s ((ofString piece).take n), ?_, ?_, ?_⟩
        · rw [perform, write_eq_error hn hfit]
        · rw [written_put, List.take_append_of_le_length (Nat.le_of_lt hfit)]
        · rw [cuts_put, marks, List.filter_eq_nil_iff.2, List.append_nil]
          simpa using hlate
      · have hroom : n - (ofString piece).length ∈ (put s (ofString piece)).room :=
          Option.mem_map_of_mem _ hn
        have hfits : ∀ m ∈ s.room, (ofString piece).length ≤ m := by
          intro m hm
          rw [Option.mem_unique hm hn]
          exact Nat.not_lt.1 hfit
        obtain ⟨full, hfull, hbytes, hcuts⟩ := ih hroom (by omega)
        refine ⟨full, (perform_write hfits acts).trans hfull, ?_, ?_⟩
        · rw [hbytes, written_put, List.append_assoc, List.take_append,
            List.take_of_length_le (Nat.not_lt.1 hfit)]
        · have hlimit : (written s).length + (ofString piece).length +
              (n - (ofString piece).length) = (written s).length + n := by omega
          rw [hcuts, cuts_put, written_put, List.length_append, hlimit, marks]
    | flush =>
      rw [Act.bytes, List.length_nil, Nat.zero_add] at h
      obtain ⟨full, hfull, hbytes, hcuts⟩ := ih (s := s.flush) hn h
      refine ⟨full, hfull, ?_, ?_⟩
      · rw [hbytes, written_flush, output_cons, Act.bytes, List.nil_append]
      · rw [hcuts, cuts_flush, written_flush, List.append_assoc, marks,
          List.filter_cons_of_pos (by simp), List.singleton_append]

end Outputs

/-- The bytes whose lines can be read. -/
def readable (input : Input) : Bytes := if input.fails then completed input.bytes else input.bytes

theorem lines_readable (input : Input) : lines (readable input) = input.lines := by
  unfold readable Input.lines
  split_ifs
  · exact lines_completed input.bytes
  · rfl

section Runs
variable {input : Input} {limit : Option ℕ}

theorem run_eq_ending (input : Input) (limit : Option ℕ) :
    ((run input limit).segments, (run input limit).ending) =
      ending input.fails (perform (.empty limit) (script input.lines)) :=
  loop_eq_ending input.fails (.empty limit) input.lines

theorem run_with_room (h : ∀ n ∈ limit, (output (script input.lines)).length ≤ n) :
    (run input limit).segments.flatten = output (script input.lines) ∧
      cuts (run input limit).segments = marks 0 (script input.lines) ∧
      (run input limit).ending = if input.fails then .readFailed else .closed := by
  have hrun := run_eq_ending input limit
  obtain ⟨t, ht, hbytes, hcuts⟩ := perform_eq_ok (s := .empty limit) h
  rw [ht] at hrun
  obtain ⟨hsegments, hending⟩ := Prod.mk.inj hrun
  rw [hsegments, hending]
  exact ⟨hbytes, hcuts, rfl⟩

theorem run_without_room {n : ℕ} (hn : n ∈ limit) (h : n < (output (script input.lines)).length) :
    (run input limit).segments.flatten = (output (script input.lines)).take n ∧
      cuts (run input limit).segments = (marks 0 (script input.lines)).filter (· ≤ n) ∧
      (run input limit).ending = .writeFailed := by
  have hrun := run_eq_ending input limit
  obtain ⟨full, hfull, hbytes, hcuts⟩ := perform_eq_error (s := .empty limit) hn h
  rw [hfull] at hrun
  obtain ⟨hsegments, hending⟩ := Prod.mk.inj hrun
  rw [hsegments, hending]
  have hstart : (written (.empty limit)).length = 0 := rfl
  rw [hstart, Nat.zero_add] at hcuts
  exact ⟨hbytes, hcuts, rfl⟩

end Runs

/-- Where reading or writing fails, a run leaves the beginning of what it writes where nothing
fails, flushed at the same places. A failing write ends it before a failing read does. -/
theorem run_cut_short (input : Input) (limit : Option ℕ) :
    let whole := run ⟨readable input, false⟩ none
    let total := (transcript (readable input)).length
    let kept := limit.elim total (min · total)
    (run input limit).segments.flatten = (transcript (readable input)).take kept ∧
      cuts (run input limit).segments = (cuts whole.segments).filter (· ≤ kept) ∧
      (run input limit).ending =
        if ∃ n ∈ limit, n < total then .writeFailed
        else if input.fails then .readFailed else .closed := by
  intro whole total kept
  have hlines : (Input.mk (readable input) false).lines = input.lines := lines_readable input
  have hroom : ∀ n ∈ (none : Option ℕ),
      (output (script (Input.mk (readable input) false).lines)).length ≤ n := fun _ h => nomatch h
  obtain ⟨hbytes, hcuts, -⟩ := run_with_room hroom
  rw [hlines] at hbytes hcuts
  have htotal : total = (output (script input.lines)).length := congrArg List.length hbytes
  rw [transcript, hbytes, hcuts]
  by_cases hfull : ∃ n ∈ limit, n < total
  · rw [if_pos hfull]
    obtain ⟨n, hn, hlt⟩ := hfull
    have hkept : kept = n := by
      cases hn
      exact Nat.min_eq_left (Nat.le_of_lt hlt)
    rw [hkept]
    exact run_without_room hn (htotal ▸ hlt)
  · rw [if_neg hfull]
    push Not at hfull
    have hkept : kept = total := by
      cases limit with
      | none => rfl
      | some n => exact Nat.min_eq_right (hfull n rfl)
    obtain ⟨hrun, hmarks, hending⟩ := run_with_room fun n hn => htotal ▸ hfull n hn
    refine ⟨?_, ?_, hending⟩
    · rw [hrun, hkept, htotal, List.take_length]
    · rw [hmarks, List.filter_eq_self.2]
      intro k hk
      have hle := mem_marks_le hk
      rw [decide_eq_true_eq, hkept, htotal]
      omega

end LetReturn.LoopRuns
