import LetReturn.Proofs.CheckReports
import LetReturn.Proofs.LineAnswers
import LetReturn.Proofs.WellFormedness

set_option autoImplicit false

namespace LetReturn.RefusedFiles
open Utf8 Scanning Diagnostics Parsing FileTree CommandLine ReadLoop
open Characters Decoding LoopRuns LineAnswers CheckReports WellFormedness

/-- All that is written about a file that is not text. -/
def refusal (path : String) : Outcome :=
  ⟨1, [], ofString ("Error: reading " ++ path ++ ": stream did not contain valid UTF-8\n")⟩

section Lines

theorem decodeLossy_lines (input : Bytes) :
    (lines input).flatMap decodeLossy = decodeLossy input := by
  have h := lined_lines input
  generalize lines input = ls at h
  induction h with
  | none => exact decodeLossy.eq_1.symm
  | unfinished => rw [List.flatMap_singleton]
  | line _ _ ih =>
    rw [List.flatMap_cons, ih, decodeLossy_append (by decide), decodeLossy_append (by decide),
      decodeLossy.eq_1, List.append_assoc, List.singleton_append]

theorem scanned_lines (input : Bytes) :
    (lines input).flatMap (fun line => (scanner line).unread) = encode (decodeLossy input) := by
  rw [← decodeLossy_lines, encode, List.flatMap_assoc]
  rfl

end Lines

section Refusals
variable {path : String} {bytes : Bytes}

theorem sourceText_none (h : decode? bytes = none) : sourceText (.ok bytes) = .error .notText := by
  rw [sourceText]
  simp [bind, Except.bind, h]

theorem unreadable_notText (path : String) : unreadable path .notText = refusal path := by
  have hend : ": " ++ ("stream did not contain valid UTF-8" ++ "\n") =
      ": stream did not contain valid UTF-8\n" := by decide
  have htext : "Error: reading " ++ path ++ ": " ++ "stream did not contain valid UTF-8" ++ "\n" =
      "Error: reading " ++ path ++ ": stream did not contain valid UTF-8\n" := by
    rw [String.append_assoc, String.append_assoc, hend]
  exact congrArg (Outcome.complain 1) htext

theorem onFile_refused (action : Action) (path : String) (h : decode? bytes = none) :
    action.onFile path (.ok bytes) = refusal path := by
  rw [Action.onFile, sourceText_none h]
  exact unreadable_notText path

theorem message_end (d : Diagnostic) :
    ∃ front last, d.message.toList = front ++ [last] ∧ last ≠ '8' := by
  have hinstead : " instead".toList = " instea".toList ++ ['d'] := by decide
  have hinteger : " as integer".toList = " as intege".toList ++ ['r'] := by decide
  cases d with
  | unexpectedToken expected got span =>
    refine ⟨("expected next token to be " ++ expected.name ++ ", got " ++ got.name).toList ++
      " instea".toList, 'd', ?_, by decide⟩
    rw [List.append_assoc, ← hinstead]
    exact String.toList_append
  | invalidInteger literal span =>
    refine ⟨("could not parse " ++ Quoting.quote literal).toList ++ " as intege".toList, 'r', ?_,
      by decide⟩
    rw [List.append_assoc, ← hinteger]
    exact String.toList_append

theorem diagnosticLine_end (path : String) (d : Diagnostic) :
    ∃ front last, (diagnosticLine path d).toList = front ++ [last, '\n'] ∧ last ≠ '8' := by
  obtain ⟨front, last, hmessage, hlast⟩ := message_end d
  have hfeed : "\n".toList = ['\n'] := by decide
  refine ⟨(path ++ ":" ++ toString d.span.start ++ ".." ++ toString d.span.stop ++ ": ").toList ++
    front, last, ?_, hlast⟩
  rw [diagnosticLine, String.toList_append, String.toList_append, hmessage, hfeed, List.append_assoc,
    List.append_assoc, List.append_assoc, List.singleton_append]

theorem refusal_end (path : String) : ∃ front,
    ("Error: reading " ++ path ++ ": stream did not contain valid UTF-8\n").toList =
      front ++ ['8', '\n'] := by
  have hend : ": stream did not contain valid UTF-8\n".toList =
      ": stream did not contain valid UTF-".toList ++ ['8', '\n'] := by decide
  refine ⟨("Error: reading " ++ path).toList ++ ": stream did not contain valid UTF-".toList, ?_⟩
  rw [String.toList_append, hend, List.append_assoc]

/-- A diagnostic does not end in the letters that a refusal ends in. -/
theorem checkPlain_ne_refusal (path : String) (p : Parse) : checkPlain path p ≠ refusal path := by
  unfold checkPlain
  obtain hd | ⟨ds, d, hd⟩ := p.diagnostics.eq_nil_or_concat'
  · rw [if_pos (List.isEmpty_iff.2 hd)]
    exact fun h => Nat.zero_ne_one (congrArg Outcome.status h)
  · obtain ⟨front, last, hline, hlast⟩ := diagnosticLine_end path d
    obtain ⟨front', hrefusal⟩ := refusal_end path
    rw [if_neg (by simp [hd])]
    intro h
    have htexts := congrArg String.toList (ofString_injective (congrArg Outcome.stderr h))
    rw [hd, List.map_append, String.toList_join, List.flatMap_append, List.map_singleton,
      List.flatMap_singleton, hline, hrefusal, ← List.append_assoc] at htexts
    exact hlast (List.cons.inj (List.append_inj_right' htexts rfl)).1

theorem onFile_eq_refusal_iff (action : Action) (path : String) (bytes : Bytes) :
    action.onFile path (.ok bytes) = refusal path ↔ ¬ WellFormed bytes := by
  rw [← exists_decode?_iff, not_exists]
  constructor
  · intro h text htext
    rw [onFile_text action htext] at h
    cases action with
    | check json =>
      cases json with
      | false => exact checkPlain_ne_refusal path _ h
      | true => exact ofString_ne_nil (by simp) (congrArg Outcome.stdout h)
    | tokens => exact Nat.zero_ne_one (congrArg Outcome.status h)
  · intro h
    exact onFile_refused action path (Option.eq_none_iff_forall_ne_some.2 h)

theorem run_file (s : Surroundings) (hne : path ≠ "") (hdash : path.toList.head? ≠ some '-')
    (hread : s.files.read path = .ok bytes) :
    ∀ arguments ∈ [["check", path], ["check", path, "--json"], ["tokens", path]],
      ∃ action : Action, CommandLine.run arguments s = action.onFile path (.ok bytes) := by
  obtain ⟨hplain, hjson⟩ := ofArguments_check hne hdash
  intro arguments harguments
  simp only [List.mem_cons, List.not_mem_nil, or_false] at harguments
  obtain rfl | rfl | rfl := harguments
  · exact ⟨_, run_asked hplain hread⟩
  · exact ⟨_, run_asked hjson hread⟩
  · exact ⟨_, run_asked (ofArguments_tokens hne hdash) hread⟩

end Refusals

/-- A file is refused, and nothing else is written, if and only if it is not well formed; these are
the bytes that decoding with replacements changes. It makes them well formed, keeps all that is
ASCII in its place, and replaces a run of other bytes by such a run. -/
theorem refused_iff_not_wellFormed :
    (∀ (path : String) (s : Surroundings) (bytes : Bytes), path ≠ "" →
      path.toList.head? ≠ some '-' → s.files.read path = .ok bytes →
      ∀ arguments ∈ [["check", path], ["check", path, "--json"], ["tokens", path]],
        CommandLine.run arguments s = refusal path ↔ ¬ WellFormed bytes) ∧
    ∀ bytes : Bytes,
      let decoded := encode (decodeLossy bytes)
      (lines bytes).flatMap (fun line => (scanner line).unread) = decoded ∧
      (¬ WellFormed bytes ↔ decoded ≠ bytes) ∧ WellFormed decoded ∧
      decoded.filter (· < 0x80) = bytes.filter (· < 0x80) ∧ SameRuns bytes decoded ∧
      decodeLossy decoded = decodeLossy bytes := by
  refine ⟨fun path s bytes hne hdash hread arguments harguments => ?_, fun bytes => ?_⟩
  · obtain ⟨action, hrun⟩ := run_file s hne hdash hread arguments harguments
    rw [hrun]
    exact onFile_eq_refusal_iff action path bytes
  · exact ⟨scanned_lines bytes, not_congr encode_decodeLossy_eq_iff.symm, wellFormed_encode _,
      (sameRuns_decodeLossy bytes).filter_eq, sameRuns_decodeLossy bytes, decodeLossy_encode _⟩

/-- A slash in two bytes, a surrogate, and a character cut off by a semicolon. -/
def spoiled : Bytes := [0x78, 0xC0, 0xAF, 0x0A, 0xED, 0xA0, 0x80, 0xE2, 0x82, 0x3B]

def heap : Surroundings where
  user := none
  username := none
  stdin := []
  files := (Tree.empty.add "spoiled.rl" spoiled).add "good.rl" (ofString "let \u00E9 = 1;")

theorem refused_iff_not_wellFormed_heap :
    (heap.files.read "spoiled.rl" = .ok spoiled ∧ ¬ WellFormed spoiled ∧
      CommandLine.run ["check", "spoiled.rl"] heap = refusal "spoiled.rl" ∧
      CommandLine.run ["check", "spoiled.rl", "--json"] heap = refusal "spoiled.rl" ∧
      CommandLine.run ["tokens", "spoiled.rl"] heap = refusal "spoiled.rl") ∧
    heap.files.read "good.rl" = .ok (ofString "let \u00E9 = 1;") ∧
      CommandLine.run ["check", "good.rl"] heap ≠ refusal "good.rl" := by
  have hspoiled : heap.files.read "spoiled.rl" = .ok spoiled := by decide +kernel
  have hgood : heap.files.read "good.rl" = .ok (ofString "let \u00E9 = 1;") := by decide +kernel
  have hchanged : encode (decodeLossy spoiled) ≠ spoiled := by decide +kernel
  have hform : ¬ WellFormed spoiled := (refused_iff_not_wellFormed.2 spoiled).2.1.2 hchanged
  have hrefused := refused_iff_not_wellFormed.1 "spoiled.rl" heap spoiled (by decide) (by decide)
    hspoiled
  have hother := refused_iff_not_wellFormed.1 "good.rl" heap _ (by decide) (by decide) hgood
    ["check", "good.rl"] (by simp)
  exact ⟨⟨hspoiled, hform, (hrefused _ (by simp)).2 hform, (hrefused _ (by simp)).2 hform,
    (hrefused _ (by simp)).2 hform⟩, hgood, fun h => hother.1 h (wellFormed_encode _)⟩

end LetReturn.RefusedFiles
