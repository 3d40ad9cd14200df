import LetReturn.Proofs.StrayRuns

set_option autoImplicit false

namespace LetReturn.WholeTexts
open Utf8 Tokens Scanning Diagnostics Programs Parsing ReadLoop
open Segments Lookahead Relocation Shifting Concatenation Characters LoopRuns LineAnswers
open Rendering StrayRuns

/-- The texts of the complete lines of an output. -/
def spoken (output : Bytes) : List Bytes := ((lines output).filter isComplete).map List.dropLast

/-- The texts that stand behind a mark at the beginning of a complete line. -/
def behind (mark output : Bytes) : List Bytes := (spoken output).filterMap (·.dropPrefix? mark)

def messages (output : Bytes) : List Bytes := behind [0x09] output

def echoes (output : Bytes) : List Bytes := behind (ofString ">> ") output

section Outputs
variable {texts : List Bytes} {rest : Bytes}

theorem spoken_texts (h : ∀ text ∈ texts, 0x0A ∉ text) (hne : rest ≠ []) (hrest : 0x0A ∉ rest) :
    spoken (texts.flatMap (· ++ [0x0A]) ++ rest) = texts := by
  have hlines := (lined_texts h (.unfinished hne hrest)).lines_eq
  have hcomplete : ∀ l ∈ texts.map (· ++ [0x0A]), isComplete l = true := by
    simp [isComplete]
  have hopen : isComplete rest = false := isComplete_of_not_mem hrest
  rw [spoken, hlines, List.filter_append, List.filter_eq_self.2 hcomplete,
    List.filter_cons_of_neg (by simp [hopen]), List.filter_nil, List.append_nil, List.map_map]
  simp [Function.comp_def]

def answerLines (p : Parse) : List Bytes :=
  if p.diagnostics = [] then [ofString prompt ++ ofString p.program.text]
  else (ofString prompt ++ ofString "parser errors:") ::
    p.errors.map fun message => 0x09 :: ofString message

theorem answerLines_bytes (p : Parse) :
    (answerLines p).flatMap (· ++ [0x0A]) = ofString prompt ++ ofString (shown p) := by
  have hfeed : ofString "\n" = [0x0A] := by decide
  have htab : ofString "\t" = [0x09] := by decide
  have hheading : ofString "parser errors:\n" = ofString "parser errors:" ++ [0x0A] := by decide
  unfold answerLines shown
  split_ifs with hclean
  · simp [ofString_append, hfeed]
  · simp [ofString_append, ofString_join, hfeed, htab, hheading, Parse.errors, List.flatMap_map,
      Function.comp_def]

theorem answerLines_inline (sc : Scanner) :
    ∀ text ∈ answerLines (Parse.ofScanner sc), 0x0A ∉ text := by
  have hprompt : 0x0A ∉ ofString prompt := by decide
  have hheading : 0x0A ∉ ofString "parser errors:" := by decide
  have hprogram : 0x0A ∉ ofString (Parse.ofScanner sc).program.text :=
    fun hmem => (inline_program (kept_of_parse sc) _ hmem).2 rfl
  have herrors : ∀ message ∈ (Parse.ofScanner sc).errors, 0x0A ∉ ofString message :=
    fun message hmessage hmem => (errors_of_parse sc message hmessage _ hmem).2 rfl
  unfold answerLines
  split_ifs
  · simp [hprompt, hprogram]
  · simpa [hprompt, hheading] using herrors

theorem spoken_transcript (input : Bytes) : spoken (transcript input) =
    (lines input).flatMap fun l => answerLines (Parse.ofScanner (scanner l)) := by
  have hshown : ∀ l, ofString prompt ++ shownFor l =
      (answerLines (Parse.ofScanner (scanner l))).flatMap (· ++ [0x0A]) := by
    intro l
    rw [← respond_bytes, respond, answer_bytes, answerLines_bytes]
  have hbytes : transcript input =
      ((lines input).flatMap fun l => answerLines (Parse.ofScanner (scanner l))).flatMap
        (· ++ [0x0A]) ++ ofString prompt := by
    -- The last prompt has no answer; each other one is taken together with the answer behind it.
    rw [transcript_eq, prompts_append, List.flatMap_assoc]
    simp only [hshown]
  have hinline : ∀ text ∈ (lines input).flatMap fun l => answerLines (Parse.ofScanner (scanner l)),
      0x0A ∉ text := by
    rw [List.forall_mem_flatMap]
    exact fun l _ => answerLines_inline (scanner l)
  rw [hbytes, spoken_texts hinline (by decide) (by decide)]

theorem messages_answer (p : Parse) :
    (answerLines p).filterMap (·.dropPrefix? [0x09]) = p.errors.map ofString := by
  have hprompt : ofString prompt = [0x3E, 0x3E, 0x20] := by decide
  unfold answerLines
  split_ifs with hclean
  · simp [hprompt, List.dropPrefix?, Parse.errors, hclean]
  · simp [hprompt, List.dropPrefix?, List.filterMap_map, Function.comp_def]

theorem messages_transcript (input : Bytes) : messages (transcript input) =
    (lines input).flatMap fun l => (Parse.ofScanner (scanner l)).errors.map ofString := by
  rw [messages, behind, spoken_transcript, List.filterMap_flatMap]
  simp only [messages_answer]

theorem echoes_transcript {input : Bytes}
    (h : ∀ l ∈ lines input, (Parse.ofScanner (scanner l)).diagnostics = []) :
    echoes (transcript input) =
      (lines input).map fun l => ofString (Parse.ofScanner (scanner l)).program.text := by
  have hanswer : ∀ l ∈ lines input, (answerLines (Parse.ofScanner (scanner l))).filterMap
      (·.dropPrefix? (ofString prompt)) =
        [ofString (Parse.ofScanner (scanner l)).program.text] := by
    intro l hl
    rw [answerLines, if_pos (h l hl)]
    simp [List.dropPrefix?_append_of_beq]
  rw [echoes, behind, spoken_transcript, List.filterMap_flatMap, List.map_eq_flatMap]
  exact List.flatMap_congr hanswer

end Outputs

section Texts

theorem seen_append {a : Bytes} (ha : EndsStatement a) (b : Bytes) :
    seen (Parse.ofScanner (.ofBytes (a ++ b))) =
      ((seen (Parse.ofScanner (.ofBytes a))).1 ++ (seen (Parse.ofScanner (.ofBytes b))).1,
        (seen (Parse.ofScanner (.ofBytes a))).2 ++ (seen (Parse.ofScanner (.ofBytes b))).2) := by
  rw [ofBytes_append ha]
  simp only [seen, followedBy, Parse.errors, List.map_append, List.map_map, Function.comp_def,
    text_shift, message_shift]

theorem seen_lines {input : Bytes} {ls : List Bytes} (h : Lined input ls)
    (hends : ∀ l ∈ ls, EndsStatement l) :
    seen (Parse.ofScanner (.ofBytes input)) =
      (ls.flatMap fun l => (seen (Parse.ofScanner (scanner l))).1,
        ls.flatMap fun l => (seen (Parse.ofScanner (scanner l))).2) := by
  induction h with
  | none =>
    have hnothing : seen (Parse.ofScanner (.ofBytes [])) = ([], []) := by decide +kernel
    exact hnothing
  | @unfinished l =>
    rw [List.flatMap_singleton, List.flatMap_singleton, seen_line l]
  | @line l rest ls _ _ ih =>
    rw [List.forall_mem_cons] at hends
    rw [List.append_cons, seen_append hends.1, ih hends.2, List.flatMap_cons, List.flatMap_cons,
      seen_line]

end Texts

/-- Where every line of a text ends a statement, the messages that the read loop shows for the lines
are those of the whole text. If there are none, it shows a program for each line, and these are put
together the program of the whole text. -/
theorem lines_agree_with_whole (text : String)
    (h : ∀ l ∈ lines (ofString text), EndsStatement l) :
    messages (transcript (ofString text)) = (Parse.ofText text).errors.map ofString ∧
    ((Parse.ofText text).errors = [] →
      (echoes (transcript (ofString text))).length = (lines (ofString text)).length ∧
      (echoes (transcript (ofString text))).flatten =
        ofString (Parse.ofText text).program.text) := by
  have hseen : seen (Parse.ofText text) = _ := seen_lines (lined_lines (ofString text)) h
  have htexts := congrArg Prod.fst hseen
  have herrors := congrArg Prod.snd hseen
  simp only [seen] at htexts herrors
  refine ⟨?_, fun hclean => ?_⟩
  · rw [messages_transcript, herrors, List.map_flatMap]
  · have hlines : ∀ l ∈ lines (ofString text), (Parse.ofScanner (scanner l)).diagnostics = [] := by
      rw [hclean, eq_comm, List.flatMap_eq_nil_iff] at herrors
      exact fun l hl => List.map_eq_nil_iff.1 (herrors l hl)
    rw [echoes_transcript hlines, List.length_map]
    refine ⟨rfl, ?_⟩
    rw [Program.text, htexts, ofString_join, List.flatMap_assoc, ← List.flatMap_def]
    simp only [Program.text, ofString_join]

def mistaken : String := "let \u00E9 = 5;\n \t\nlet 5; return;\nlet y 6; "

def faultless : String := "let x = \u00E9 let;\n\nreturn 5; let y = x;"

theorem lines_agree_with_whole_mistaken :
    ((∀ l ∈ lines (ofString mistaken), EndsStatement l) ∧
      messages (transcript (ofString mistaken)) = (Parse.ofText mistaken).errors.map ofString ∧
      (Parse.ofText mistaken).errors.length = 3) ∧
    (∀ l ∈ lines (ofString faultless), EndsStatement l) ∧
      (Parse.ofText faultless).errors = [] ∧
      (echoes (transcript (ofString faultless))).flatten =
        ofString "let x = ;return ;let y = ;" := by
  have hmistaken : ∀ l ∈ lines (ofString mistaken), EndsStatement l := by decide +kernel
  have hfaultless : ∀ l ∈ lines (ofString faultless), EndsStatement l := by decide +kernel
  have hclean : (Parse.ofText faultless).errors = [] := by decide +kernel
  have htext : (Parse.ofText faultless).program.text = "let x = ;return ;let y = ;" := by
    decide +kernel
  have hechoes := ((lines_agree_with_whole faultless hfaultless).2 hclean).2
  rw [htext] at hechoes
  exact ⟨⟨hmistaken, (lines_agree_with_whole mistaken hmistaken).1, by decide +kernel⟩,
    hfaultless, hclean, hechoes⟩

end LetReturn.WholeTexts
