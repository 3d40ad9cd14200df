import LetReturn.CommandLine
import LetReturn.Proofs.Characters
import LetReturn.Proofs.LoopRuns

set_option autoImplicit false

namespace LetReturn.LineAnswers
open Utf8 Scanning Programs Diagnostics Parsing ReadLoop Characters LoopRuns CommandLine

/-- The input is cut into the lines: each ends with its only line feed, though the last one need
not have any. -/
inductive Lined : Bytes → List Bytes → Prop where
  | none : Lined [] []
  | unfinished {l : Bytes} (hne : l ≠ []) (hl : 0x0A ∉ l) : Lined l [l]
  | line {l rest : Bytes} {ls : List Bytes} (hl : 0x0A ∉ l) (tail : Lined rest ls) :
      Lined (l ++ 0x0A :: rest) ((l ++ [0x0A]) :: ls)

/-- What is shown for a parsed line: its program, or a heading and all messages. -/
def shown (p : Parse) : String :=
  if p.diagnostics = [] then p.program.text ++ "\n"
  else "parser errors:\n" ++ String.join (p.diagnostics.map fun d => "\t" ++ d.message ++ "\n")

/-- What a line makes the loop show. -/
def shownFor (line : Bytes) : Bytes :=
  ofString (shown (.ofText (String.ofList (decodeLossy line))))

section Lines
variable {input rest : Bytes} {ls ls' : List Bytes}

theorem Lined.lines_eq (h : Lined input ls) : lines input = ls := by
  induction h with
  | none => exact lines_nil
  | unfinished hne hl => exact lines_unfinished hl hne
  | line hl _ ih => rw [lines_complete hl, ih]

theorem lined_lines (input : Bytes) : Lined input (lines input) := by
  obtain hl | ⟨l, rest, hl, hinput⟩ := line_cases input
  · by_cases hne : input = []
    · rw [hne, lines_nil]
      exact .none
    · rw [lines_unfinished hl hne]
      exact .unfinished hne hl
  · have hlt : rest.length < input.length := by
      simp only [hinput, List.length_append, List.length_cons]
      omega
    rw [hinput, lines_complete hl]
    exact .line hl (lined_lines rest)
termination_by input.length

theorem lined_iff (input : Bytes) (ls : List Bytes) : Lined input ls ↔ ls = lines input := by
  constructor
  · exact fun h => h.lines_eq.symm
  · rintro rfl
    exact lined_lines input

theorem Lined.append (h : Lined input ls) (hlast : ∀ b ∈ input.getLast?, b = 0x0A)
    (h' : Lined rest ls') : Lined (input ++ rest) (ls ++ ls') := by
  induction h with
  | none => exact h'
  | @unfinished l hne hl =>
    have hmem := List.getLast_mem hne
    rw [hlast _ (List.getLast?_eq_some_getLast hne)] at hmem
    exact absurd hmem hl
  | @line l more ls hl tail ih =>
    have htail : ∀ b ∈ more.getLast?, b = 0x0A := by
      intro b hb
      refine hlast b ?_
      rw [List.append_cons]
      exact List.mem_getLast?_append_of_mem_getLast? hb
    rw [List.append_assoc, List.cons_append, List.cons_append]
    exact .line hl (ih htail)

theorem lined_texts {texts : List Bytes} (h : ∀ text ∈ texts, 0x0A ∉ text)
    (hrest : Lined rest ls) : Lined (texts.flatMap (· ++ [0x0A]) ++ rest)
      (texts.map (· ++ [0x0A]) ++ ls) := by
  induction texts with
  | nil => exact hrest
  | cons text texts ih =>
    rw [List.forall_mem_cons] at h
    simp only [List.flatMap_cons, List.map_cons, List.append_assoc, List.cons_append,
      List.nil_append]
    exact .line h.1 (ih h.2)

end Lines

section Answers

theorem answer_bytes (p : Parse) : (answer p).flatMap ofString = ofString (shown p) := by
  unfold answer shown
  by_cases hd : p.diagnostics = []
  · rw [if_pos hd, if_pos (List.isEmpty_iff.2 hd), ofString_append, List.flatMap_cons,
      List.flatMap_singleton]
  · rw [if_neg hd, if_neg (mt List.isEmpty_iff.1 hd), ofString_append, ofString_join,
      List.flatMap_cons, Parse.errors, List.map_map]
    rfl

theorem respond_bytes (line : Bytes) : (respond line).flatMap ofString = shownFor line := by
  have hscanner : scanner line = .ofText (String.ofList (decodeLossy line)) := by
    rw [scanner, Scanner.ofText, ofString, String.toList_ofList]
  rw [respond, answer_bytes, hscanner]
  rfl

end Answers

section Segments
variable {s : Sink}

theorem put_put (s : Sink) (a b : Bytes) : put (put s a) b = put s (a ++ b) := by
  simp only [put, Option.map_map, Function.comp_def, Nat.sub_sub, List.length_append,
    List.append_assoc]

theorem put_nil (s : Sink) : put s [] = s := by
  simp [put]

theorem write_unlimited (h : s.room = none) (piece : String) :
    s.write piece = .ok (put s (ofString piece)) :=
  write_eq_ok (by simp [h])

theorem put_room (h : s.room = none) (bytes : Bytes) : (put s bytes).room = none := by
  rw [put, h, Option.map_none]

theorem writeAll_unlimited (h : s.room = none) (pieces : List String) :
    s.writeAll pieces = .ok (put s (pieces.flatMap ofString)) := by
  induction pieces generalizing s with
  | nil => rw [Sink.writeAll, List.flatMap_nil, put_nil]
  | cons piece pieces ih =>
    simp only [Sink.writeAll, write_unlimited h, ih (put_room h _), put_put, List.flatMap_cons]

/-- What a loop writes for its lines, each segment from one flush to the next. -/
theorem loop_segments (h : s.room = none) (ls : List Bytes) :
    (loop false s ls).segments = s.flushed ++ (s.pending ++ ofString prompt) ::
        (ls.map (fun l => shownFor l ++ ofString prompt) ++ [[]]) ∧
      (loop false s ls).ending = .closed := by
  induction ls generalizing s with
  | nil =>
    simp only [loop, write_unlimited h]
    exact ⟨List.append_assoc .., rfl⟩
  | cons line ls ih =>
    have hroom : (put s (ofString prompt)).flush.room = none := put_room h _
    obtain ⟨hsegments, hending⟩ := ih (put_room hroom ((respond line).flatMap ofString))
    simp only [loop, write_unlimited h, writeAll_unlimited hroom]
    refine ⟨hsegments.trans ?_, hending⟩
    simp only [put, Sink.flush, respond_bytes, List.nil_append, List.map_cons, List.cons_append,
      List.append_assoc]

theorem run_segments (input : Bytes) :
    (run ⟨input, false⟩ none).segments = ofString prompt ::
        ((lines input).map (fun l => shownFor l ++ ofString prompt) ++ [[]]) ∧
      (run ⟨input, false⟩ none).ending = .closed :=
  loop_segments rfl (lines input)

/-- The output is cut at each flush. -/
def flushes (r : Run) : ℕ := r.segments.length - 1

theorem flushes_run (input : Bytes) :
    flushes (run ⟨input, false⟩ none) = (lines input).length + 1 := by
  simp only [flushes, run_segments, List.length_cons, List.length_append, List.length_map,
    List.length_nil, Nat.add_sub_cancel]

theorem transcript_eq (input : Bytes) : transcript input =
    ofString prompt ++ (lines input).flatMap fun l => shownFor l ++ ofString prompt := by
  rw [transcript, (run_segments input).1, List.flatten_cons, List.flatten_append, ← List.flatMap_def]
  simp only [List.flatten_cons, List.flatten_nil, List.append_nil]

theorem prompts_append (mark : Bytes) (f : Bytes → Bytes) (ls : List Bytes) :
    mark ++ ls.flatMap (fun l => f l ++ mark) = ls.flatMap (fun l => mark ++ f l) ++ mark := by
  induction ls with
  | nil => exact List.append_nil mark
  | cons l ls ih =>
    simp only [List.flatMap_cons, List.append_assoc] at ih ⊢
    rw [ih]

theorem transcript_append {a : Bytes} (ha : a.getLast? = some 0x0A) (b : Bytes) :
    ∃ front, transcript a = front ++ ofString prompt ∧
      transcript (a ++ b) = front ++ transcript b := by
  have hlast : ∀ c ∈ a.getLast?, c = 0x0A := by simp [ha]
  have hlines : lines (a ++ b) = lines a ++ lines b :=
    ((lined_lines a).append hlast (lined_lines b)).lines_eq
  refine ⟨(lines a).flatMap fun l => ofString prompt ++ shownFor l, ?_, ?_⟩
  · rw [transcript_eq, prompts_append]
  · rw [transcript_eq, transcript_eq, hlines, List.flatMap_append, ← List.append_assoc,
      prompts_append, List.append_assoc]

end Segments

section Greetings

def userName (s : Surroundings) : String :=
  match s.user, s.username with
  | some user, _ => user
  | none, some username => username
  | none, none => "friend"

theorem greeting_eq (s : Surroundings) : greeting s.user s.username =
    "Hello " ++ userName s ++ "! Welcome to the riccilang programming language!\n" ++
      "Start playing around with it by typing in commands.\n" := by
  obtain ⟨user, username, stdin, files⟩ := s
  cases user with
  | some user => rfl
  | none => cases username <;> rfl

theorem run_interact (s : Surroundings) {arguments : List String}
    (h : arguments ∈ [[], ["repl"]]) : CommandLine.run arguments s =
      ⟨0, ofString (greeting s.user s.username) ++ transcript s.stdin, []⟩ := by
  have hcommand : Command.ofArguments? arguments = some .interact := by
    rw [List.mem_cons, List.mem_singleton] at h
    obtain rfl | rfl := h <;> rfl
  rw [CommandLine.run, hcommand]
  rfl

end Greetings

/-- A run shows for each line what that line alone asks for. What stands behind a line feed is
answered as if it stood alone, and if one line is changed, only its segment can change. The program
greets its user and then writes the same. -/
theorem run_line_by_line :
    (∀ input : Bytes, Lined input (lines input) ∧ (∀ ls, Lined input ls → ls = lines input) ∧
      flushes (run ⟨input, false⟩ none) = (lines input).length + 1 ∧
      (run ⟨input, false⟩ none).segments = ofString ">> " ::
        ((lines input).map (fun l => shownFor l ++ ofString ">> ") ++ [[]]) ∧
      (run ⟨input, false⟩ none).ending = .closed) ∧
    (∀ a b : Bytes, a.getLast? = some 0x0A → ∃ front,
      transcript a = front ++ ofString ">> " ∧ transcript (a ++ b) = front ++ transcript b) ∧
    (∀ (input input' : Bytes) (before after : List Bytes) (l l' : Bytes),
      Lined input (before ++ l :: after) → Lined input' (before ++ l' :: after) →
      ∃ front seg seg' back, front.length = before.length + 1 ∧
        (run ⟨input, false⟩ none).segments = front ++ seg :: back ∧
        (run ⟨input', false⟩ none).segments = front ++ seg' :: back) ∧
    ∀ s : Surroundings, ∀ arguments ∈ [[], ["repl"]],
      CommandLine.run arguments s =
        ⟨0, ofString ("Hello " ++ userName s ++
            "! Welcome to the riccilang programming language!\n" ++
            "Start playing around with it by typing in commands.\n") ++
          (ofString ">> " ++ (lines s.stdin).flatMap fun l => shownFor l ++ ofString ">> "),
          []⟩ := by
  refine ⟨fun input => ⟨lined_lines input, fun ls => (lined_iff input ls).1, flushes_run input,
    run_segments input⟩, fun a b ha => transcript_append ha b, ?_, ?_⟩
  · intro input input' before after l l' h h'
    refine ⟨ofString prompt :: before.map (fun l => shownFor l ++ ofString prompt),
      shownFor l ++ ofString prompt, shownFor l' ++ ofString prompt,
      after.map (fun l => shownFor l ++ ofString prompt) ++ [[]], ?_, ?_, ?_⟩
    · rw [List.length_cons, List.length_map]
    · rw [(run_segments input).1, h.lines_eq, List.map_append, List.append_assoc]
      rfl
    · rw [(run_segments input').1, h'.lines_eq, List.map_append, List.append_assoc]
      rfl
  · intro s arguments harguments
    rw [run_interact s harguments, greeting_eq, transcript_eq, prompt]

/-- A line with a byte that is no text and a `let` without a name. -/
def spoiled : Bytes := 0xFF :: ofString "let 5;"

def mended : Bytes := ofString "let x = 5;"

def closing : Bytes := ofString "return x"

def stranger : Surroundings := ⟨none, none, closing, .empty⟩

theorem run_line_by_line_mended :
    (spoiled ++ [0x0A]).getLast? = some 0x0A ∧
    (∃ front, transcript (spoiled ++ [0x0A]) = front ++ ofString prompt ∧
      transcript (spoiled ++ [0x0A] ++ closing) = front ++ transcript closing) ∧
    Lined (spoiled ++ 0x0A :: closing) ([] ++ (spoiled ++ [0x0A]) :: [closing]) ∧
    Lined (mended ++ 0x0A :: closing) ([] ++ (mended ++ [0x0A]) :: [closing]) ∧
    (∃ front seg seg' back, front.length = 1 ∧
      (run ⟨spoiled ++ 0x0A :: closing, false⟩ none).segments = front ++ seg :: back ∧
      (run ⟨mended ++ 0x0A :: closing, false⟩ none).segments = front ++ seg' :: back) ∧
    ["repl"] ∈ [[], ["repl"]] ∧
    CommandLine.run ["repl"] stranger =
      ⟨0, ofString ("Hello friend! Welcome to the riccilang programming language!\n" ++
          "Start playing around with it by typing in commands.\n") ++
        (ofString ">> " ++ (shownFor closing ++ ofString ">> ")), []⟩ := by
  have hlast : (spoiled ++ [0x0A]).getLast? = some 0x0A := by decide
  have hclosing : Lined closing [closing] := .unfinished (by decide) (by decide)
  have hspoiled : Lined (spoiled ++ 0x0A :: closing) ([] ++ (spoiled ++ [0x0A]) :: [closing]) :=
    .line (by decide) hclosing
  have hmended : Lined (mended ++ 0x0A :: closing) ([] ++ (mended ++ [0x0A]) :: [closing]) :=
    .line (by decide) hclosing
  have hmem : ["repl"] ∈ [[], ["repl"]] := by decide
  have hlines : lines stranger.stdin = [closing] := hclosing.lines_eq
  have hrun := run_line_by_line.2.2.2 stranger ["repl"] hmem
  rw [hlines, List.flatMap_singleton] at hrun
  exact ⟨hlast, run_line_by_line.2.1 _ closing hlast, hspoiled, hmended,
    run_line_by_line.2.2.1 _ _ [] [closing] _ _ hspoiled hmended, hmem, hrun⟩

end LetReturn.LineAnswers
