import LetReturn.CommandLine
import LetReturn.Proofs.Attribution
import LetReturn.Proofs.Decoding
import LetReturn.Proofs.ReportRoundTrip

set_option autoImplicit false

namespace LetReturn.CheckReports
open Utf8 Tokens Scanning Diagnostics Programs Parsing Reports FileTree CommandLine ReportReading
open Lexing Tiling Lookahead Attribution Decoding ReportRoundTrip

def reportOf (path : String) (p : Parse) : Report := .of path p.program p.diagnostics

section Told

def noteLine (path : String) (n : Note) : String :=
  path ++ ":" ++ toString n.start ++ ".." ++ toString n.stop ++ ": " ++ n.message ++ "\n"

/-- What a plain check writes, told from the report. -/
def told (r : Report) : Outcome :=
  if r.notes = [] then
    .print 0 (r.sourceFile ++ ": " ++ toString r.statementCount ++ " statements, no errors\n")
  else .complain 1 (String.join (r.notes.map (noteLine r.sourceFile)))

theorem notes_eq_nil {path : String} {p : Parse} :
    (reportOf path p).notes = [] ↔ p.diagnostics = [] :=
  List.map_eq_nil_iff

theorem checkPlain_eq_told (path : String) (p : Parse) :
    checkPlain path p = told (reportOf path p) := by
  have hlines : p.diagnostics.map (diagnosticLine path) =
      (reportOf path p).notes.map (noteLine path) := by
    rw [reportOf, Report.of, List.map_map]
    rfl
  unfold checkPlain told
  by_cases hd : p.diagnostics = []
  · rw [if_pos (List.isEmpty_iff.2 hd), if_pos (notes_eq_nil.2 hd)]
    rfl
  · rw [if_neg (mt List.isEmpty_iff.1 hd), if_neg (mt notes_eq_nil.1 hd), hlines]
    rfl

theorem told_status (path : String) (p : Parse) :
    (told (reportOf path p)).status = if p.diagnostics = [] then 0 else 1 := by
  unfold told
  by_cases hd : p.diagnostics = []
  · rw [if_pos (notes_eq_nil.2 hd), if_pos hd]
    rfl
  · rw [if_neg (mt notes_eq_nil.1 hd), if_neg hd]
    rfl

theorem checkJson_eq (path : String) (p : Parse) : checkJson path p =
    .print (told (reportOf path p)).status (JsonText.ofReport (reportOf path p) ++ "\n") := by
  have hstatus : (if (reportOf path p).success then 0 else 1) =
      if p.diagnostics = [] then 0 else 1 :=
    if_congr List.isEmpty_iff rfl rfl
  rw [told_status, ← hstatus]
  rfl

end Told

section Offsets
variable {source : Bytes}

theorem span_le {t : Token} (ht : t ∈ words (.ofBytes source) ++ [ending (.ofBytes source)]) :
    t.span.start ≤ source.length ∧ t.span.stop ≤ source.length := by
  obtain ht | ht := List.mem_append.1 ht
  · have hbounds := (words_tiled source).bounds t ht
    omega
  · obtain rfl := List.mem_singleton.1 ht
    simp [ending, Token.eof, Scanner.ofBytes]

theorem report_fits (path : String) (h : source.length < wordLimit) :
    (reportOf path (.ofScanner (.ofBytes source))).Fits := by
  have hcut := cut_segments (.ofBytes source)
  rw [ofScanner_eq_outcome]
  refine ⟨?_, ?_⟩
  · have hstatements := (tokens_sublist hcut).length_le
    rw [List.length_map] at hstatements
    have hwords : (words (.ofBytes source)).length ≤ source.length :=
      (lexed_words (.ofBytes source)).length_le
    exact Nat.lt_of_le_of_lt (Nat.le_trans hstatements hwords) h
  · rw [reportOf, Report.of, List.forall_mem_map]
    intro d hd
    have htarget := (targets_sublist hcut).subset (List.mem_map_of_mem hd)
    obtain ⟨t, ht, heq⟩ := List.mem_map.1 htarget
    have hspan : d.span = t.span := by
      cases d with
      | unexpectedToken | invalidInteger => exact (congrArg Prod.snd heq).symm
    obtain ⟨hstart, hstop⟩ := span_le (List.mem_of_mem_tail ht)
    rw [← hspan] at hstart hstop
    exact ⟨Nat.lt_of_le_of_lt hstart h, Nat.lt_of_le_of_lt hstop h⟩

end Offsets

section Arguments
variable {path : String}

theorem ofArguments_check (hne : path ≠ "") (hdash : path.toList.head? ≠ some '-') :
    Command.ofArguments? ["check", path] = some (.file (.check false) path) ∧
      Command.ofArguments? ["check", path, "--json"] = some (.file (.check true) path) := by
  have hpath : isOption path = false := by simp [isOption, hdash]
  have hjson : isOption "--json" = true := by decide
  constructor
  · simp [Command.ofArguments?, check?, sorted?, sort, path?, hpath, hne]
  · simp [Command.ofArguments?, check?, sorted?, sort, path?, hpath, hjson, hne]

theorem ofArguments_tokens (hne : path ≠ "") (hdash : path.toList.head? ≠ some '-') :
    Command.ofArguments? ["tokens", path] = some (.file .tokens path) := by
  have hpath : isOption path = false := by simp [isOption, hdash]
  simp [Command.ofArguments?, tokens?, sorted?, sort, path?, hpath, hne]

theorem onFile_text (action : Action) {content : Bytes} {text : String}
    (h : decode? content = some text) :
    action.onFile path (.ok content) = action.run path text := by
  have htext : sourceText (.ok content) = .ok text := by
    rw [sourceText]
    simp [bind, Except.bind, h]
  rw [Action.onFile, htext]

theorem run_asked {s : Surroundings} {arguments : List String} {action : Action} {content : Bytes}
    (h : Command.ofArguments? arguments = some (.file action path))
    (hread : s.files.read path = .ok content) :
    CommandLine.run arguments s = action.onFile path (.ok content) := by
  simp only [CommandLine.run, h, Command.run, hread]

theorem run_check {s : Surroundings} {content : Bytes} {text : String} (hne : path ≠ "")
    (hdash : path.toList.head? ≠ some '-') (hread : s.files.read path = .ok content)
    (htext : decode? content = some text) :
    let r := reportOf path (.ofText text)
    CommandLine.run ["check", path] s = told r ∧
      CommandLine.run ["check", path, "--json"] s =
        .print (told r).status (JsonText.ofReport r ++ "\n") := by
  obtain ⟨hplain, hjson⟩ := ofArguments_check hne hdash
  constructor
  · rw [run_asked hplain hread, onFile_text _ htext]
    exact checkPlain_eq_told path (.ofText text)
  · rw [run_asked hjson hread, onFile_text _ htext]
    exact checkJson_eq path (.ofText text)

end Arguments

theorem report_read_back (path : String) {text : String}
    (h : (ofString text).length < wordLimit) :
    let r := reportOf path (.ofText text)
    ∃ printed, decode? (ofString (JsonText.ofReport r ++ "\n")) = some printed ∧
      ofJson printed = .ok r :=
  ⟨_, decode?_eq_some.2 rfl, ofJson_ofReport_append (report_fits path h) "\n" (by decide)⟩

/-- A check without and with a report ends with the same status. The report can be read back from
what is printed, and says which lines the check prints without it. Offsets are 64-bit words, which
no file in memory outgrows. -/
theorem plain_check_told_by_report (path : String) (s : Surroundings) (content : Bytes)
    (text : String) (hne : path ≠ "") (hdash : path.toList.head? ≠ some '-')
    (hread : s.files.read path = .ok content) (htext : decode? content = some text) :
    let p := Parse.ofText text
    let r := reportOf path p
    let plain := CommandLine.run ["check", path] s
    let json := CommandLine.run ["check", path, "--json"] s
    plain.status = (if p.diagnostics = [] then 0 else 1) ∧ json.status = plain.status ∧
      json.stderr = [] ∧ json.stdout = ofString (JsonText.ofReport r ++ "\n") ∧
      (content.length < wordLimit →
        ∃ printed, decode? json.stdout = some printed ∧ ofJson printed = .ok r) ∧
      r.sourceFile = path ∧
      (r.notes = [] → plain.stderr = [] ∧ plain.stdout =
        ofString (path ++ ": " ++ toString r.statementCount ++ " statements, no errors\n")) ∧
      (r.notes ≠ [] → plain.stdout = [] ∧
        plain.stderr = ofString (String.join (r.notes.map (noteLine path)))) := by
  intro p r plain json
  obtain ⟨hplain, hjson⟩ : plain = told r ∧ json = .print (told r).status _ :=
    run_check hne hdash hread htext
  clear_value plain json
  subst hplain hjson
  refine ⟨told_status path p, rfl, rfl, rfl, fun hsize => ?_, rfl, fun hnotes => ?_,
    fun hnotes => ?_⟩
  · rw [← decode?_eq_some.1 htext] at hsize
    exact report_read_back path hsize
  · rw [told, if_pos hnotes]
    exact ⟨rfl, rfl⟩
  · rw [told, if_neg hnotes]
    exact ⟨rfl, rfl⟩

/-- The letter outside ASCII is passed over with the rest of the value. -/
def clean : String := "return \u00E9;"

def nameless : String := "let 5;\nlet x = 7;"

def folder : Surroundings where
  user := none
  username := none
  stdin := []
  files := (Tree.empty.add "clean.rl" (ofString clean)).add "src/nameless.rl" (ofString nameless)

theorem plain_check_told_by_report_folder :
    (folder.files.read "clean.rl" = .ok (ofString clean) ∧
      (CommandLine.run ["check", "clean.rl"] folder).stdout =
        ofString "clean.rl: 1 statements, no errors\n") ∧
    folder.files.read "src/nameless.rl" = .ok (ofString nameless) ∧
    (CommandLine.run ["check", "src/nameless.rl"] folder).stderr =
      ofString "src/nameless.rl:4..5: expected next token to be IDENT, got INT instead\n" ∧
    ∃ printed,
      decode? (CommandLine.run ["check", "src/nameless.rl", "--json"] folder).stdout =
        some printed ∧
      ofJson printed = .ok ⟨false, "src/nameless.rl", 1,
        [⟨"expected next token to be IDENT, got INT instead", 4, 5⟩]⟩ := by
  have hclean : folder.files.read "clean.rl" = .ok (ofString clean) := by decide +kernel
  have hnameless : folder.files.read "src/nameless.rl" = .ok (ofString nameless) := by
    decide +kernel
  have hgood : reportOf "clean.rl" (.ofText clean) = ⟨true, "clean.rl", 1, []⟩ := by cbv
  have hparse : Parse.ofText nameless =
      ⟨⟨[.binding ⟨.letWord, "let", ⟨7, 10⟩⟩ ⟨⟨.ident, "x", ⟨11, 12⟩⟩, "x"⟩ none]⟩,
        [.unexpectedToken .ident .int ⟨4, 5⟩]⟩ := by cbv
  have hbad : reportOf "src/nameless.rl" (.ofText nameless) = ⟨false, "src/nameless.rl", 1,
      [⟨"expected next token to be IDENT, got INT instead", 4, 5⟩]⟩ := by
    rw [hparse]
    decide +kernel
  have htold := plain_check_told_by_report "clean.rl" folder (ofString clean) clean (by decide)
    (by decide) hclean (decode?_eq_some.2 rfl)
  have htold' := plain_check_told_by_report "src/nameless.rl" folder (ofString nameless) nameless
    (by decide) (by decide) hnameless (decode?_eq_some.2 rfl)
  simp only [hgood] at htold
  simp only [hbad] at htold'
  obtain ⟨-, -, -, -, -, -, hnone, -⟩ := htold
  obtain ⟨-, -, -, -, hback, -, -, hsome⟩ := htold'
  exact ⟨⟨hclean, (hnone trivial).2.trans (by decide +kernel)⟩, hnameless,
    (hsome (by simp)).2.trans (by decide +kernel), hback (by decide +kernel)⟩

end LetReturn.CheckReports
