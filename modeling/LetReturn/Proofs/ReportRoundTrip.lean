import LetReturn.JsonText
import LetReturn.Proofs.ReportTexts

set_option autoImplicit false

namespace LetReturn.ReportRoundTrip
open JsonReading JsonStrings JsonNumbers JsonRecords ReportReading Reports
open JsonGrammar JsonScalars JsonValues TypedValues RecordReading ReportTexts

section Strings

/-- Only a control character without a letter of its own is written by its number. -/
def piece (c : Char) : Piece :=
  if c.toNat < 0x20 ∧ c ∉ letters.map Prod.snd then .unit c.toNat else .char c

def spell (text : String) : List Piece := text.toList.map piece

theorem codeUnit_control {c : Char} (hc : c.toNat < 0x20) (rest : List Char) :
    CodeUnit c.toNat ('0' :: '0' :: Nat.digitChar (c.toNat / 16) ::
      Nat.digitChar (c.toNat % 16) :: rest) rest := by
  have hhigh : Hex (Nat.digitChar (c.toNat / 16)) (c.toNat / 16) := ⟨by omega, .inl rfl⟩
  have hlow : Hex (Nat.digitChar (c.toNat % 16)) (c.toNat % 16) := ⟨by omega, .inl rfl⟩
  have hvalue : ((0 * 16 + 0) * 16 + c.toNat / 16) * 16 + c.toNat % 16 = c.toNat := by omega
  have hzero : Hex '0' 0 := by decide
  have hunit : CodeUnit (((0 * 16 + 0) * 16 + c.toNat / 16) * 16 + c.toNat % 16) _ rest :=
    .mk hzero hzero hhigh hlow
  rwa [hvalue] at hunit

theorem pieces_escape (c : Char) {ps : List Piece} {text rest : List Char}
    (h : Pieces ps text rest) : Pieces (piece c :: ps) (JsonText.escape c ++ text) rest := by
  unfold JsonText.escape
  split
  · exact .letter (by decide) h
  · exact .letter (by decide) h
  · exact .letter (by decide) h
  · exact .letter (by decide) h
  · exact .letter (by decide) h
  · exact .letter (by decide) h
  · exact .letter (by decide) h
  · rename_i hquote hslash hb hf hn hr ht
    split_ifs with hc
    · have hp : piece c = .unit c.toNat := by
        apply if_pos
        refine ⟨hc, ?_⟩
        simp only [letters, List.map_cons, List.map_nil, List.mem_cons, List.not_mem_nil, or_false]
        rintro (h | h | rfl | h | h | h | h | h)
        · exact hquote h
        · exact hslash h
        · exact absurd hc (by decide)
        · exact hb h
        · exact hf h
        · exact hn h
        · exact hr h
        · exact ht h
      rw [hp]
      exact .unit (codeUnit_control hc text) h
    · have hp : piece c = .char c := if_neg fun h => hc h.1
      rw [hp]
      exact .raw hquote hslash (Nat.not_lt.1 hc) h

theorem pieces_spell (text : String) (rest : List Char) :
    Pieces (spell text) (text.toList.flatMap JsonText.escape ++ '"' :: rest) rest := by
  unfold spell
  induction text.toList with
  | nil => exact .close
  | cons c cs ih =>
    rw [List.flatMap_cons, List.append_assoc]
    exact pieces_escape c ih

theorem chars?_piece (c : Char) (ps : List Piece) :
    chars? (piece c :: ps) = (chars? ps).map (c :: ·) := by
  unfold piece
  split_ifs with hc
  · have hlow : ¬ Low c.toNat := fun h => by
      have hle := h.1
      omega
    have hhigh : ¬ High c.toNat := fun h => by
      have hle := h.1
      omega
    rw [chars?_unit ps hlow hhigh, Char.ofNat_toNat]
  · rw [chars?]

theorem chars?_spell (text : String) : chars? (spell text) = some text.toList := by
  unfold spell
  induction text.toList with
  | nil => rfl
  | cons c cs ih => rw [List.map_cons, chars?_piece, ih, Option.map_some]

end Strings

def textValue (text : String) : Json := .string (spell text)

def countValue (n : ℕ) : Json := .number ⟨false, Nat.toDigits 10 n, none, none⟩

def noteValue (n : Note) : Json :=
  .object [(spell "message", textValue n.message), (spell "start", countValue n.start),
    (spell "end", countValue n.stop)]

def reportValue (r : Report) : Json :=
  .object [(spell "success", .flag r.success), (spell "source_file", textValue r.sourceFile),
    (spell "statement_count", countValue r.statementCount),
    (spell "diagnostics", .list (r.notes.map noteValue))]

section Scalars

theorem written_flag (b : Bool) (rest : List Char) :
    Written (.value (.flag b)) ((JsonText.flag b).toList ++ rest) rest := by
  cases b with
  | true => exact .yes
  | false => exact .no

theorem quote_toList (text : String) (rest : List Char) : (JsonText.quote text).toList ++ rest =
    '"' :: (text.toList.flatMap JsonText.escape ++ '"' :: rest) := by
  simp [JsonText.quote]

theorem written_text (text : String) (rest : List Char) :
    Written (.value (textValue text)) ((JsonText.quote text).toList ++ rest) rest := by
  rw [quote_toList]
  exact .string (pieces_spell text rest)

theorem toDigits_of_zero {n : ℕ} (h : (Nat.toDigits 10 n).head? = some '0') :
    Nat.toDigits 10 n = ['0'] := by
  induction n using Nat.strongRecOn with
  | ind n ih =>
    by_cases hn : n < 10
    · rw [Nat.toDigits_of_lt_base hn] at h ⊢
      simpa using h
    · rw [Nat.toDigits_of_base_le (by decide) (by omega)] at h
      have hhead : (Nat.toDigits 10 (n / 10)).head? = some '0' := by
        rwa [List.head?_append_of_ne_nil _ Nat.toDigits_ne_nil] at h
      have hzero := ih (n / 10) (by omega) hhead
      have hvalue := Nat.ofDigitChars_ten_toDigits (n := n / 10)
      rw [hzero] at hvalue
      have hpos : Nat.ofDigitChars 10 ['0'] 0 = 0 := rfl
      omega

theorem written_count (n : ℕ) (rest : List Char) :
    Written (.value (countValue n)) ((toString n).toList ++ rest) rest := by
  have hdigits : Digits (Nat.toDigits 10 n) ((toString n).toList ++ rest) rest := by
    refine ⟨Nat.toDigits_ne_nil, fun c hc => ?_, ?_⟩
    · exact Nat.isDigit_of_mem_toDigits (by decide) (by decide) hc
    · rw [Nat.toString_eq_repr, Nat.toList_repr]
  exact .number (.mk .absent ⟨hdigits, toDigits_of_zero⟩ .absent .absent)

end Scalars

section Layout
variable {v : Json} {text behind rest : List Char}

def broken (ls : List String) : List Char := ls.flatMap fun l => '\n' :: l.toList

theorem broken_append (ls ls' : List String) : broken (ls ++ ls') = broken ls ++ broken ls' := by
  simp [broken]

theorem intercalate_toList (l : String) (ls : List String) :
    ("\n".intercalate (l :: ls)).toList = l.toList ++ broken ls := by
  induction ls generalizing l with
  | nil => simp [broken]
  | cons l' ls ih =>
    rw [String.intercalate_cons_cons, String.toList_append, ih]
    simp [broken]

theorem blanks_append {gap : List Char} (hg : gap.all isBlank = true) (rest : List Char) :
    Blanks (gap ++ rest) rest := by
  induction gap with
  | nil => exact .none
  | cons c gap ih =>
    rw [List.all_cons, Bool.and_eq_true] at hg
    exact .cons ((isBlank_iff_blank c).1 hg.1) (ih hg.2)

def line (indent key : String) (text : List Char) : List Char :=
  '\n' :: (indent.toList ++ ((JsonText.quote key).toList ++ (':' :: ' ' :: text)))

theorem broken_member (indent key value : String) (ls : List String) (text : List Char) :
    broken ((indent ++ JsonText.member key value) :: ls) ++ text =
      line indent key (value.toList ++ (broken ls ++ text)) := by
  simp [broken, line, JsonText.member]

theorem broken_member_comma (indent key value : String) (ls : List String) (text : List Char) :
    broken ((indent ++ JsonText.member key value ++ ",") :: ls) ++ text =
      line indent key (value.toList ++ (',' :: (broken ls ++ text))) := by
  simp [broken, line, JsonText.member]

theorem written_line {indent : String} (hi : indent.toList.all isBlank = true) (key : String)
    (hv : Written (.value v) text behind) (hb : Blanks behind rest) :
    Written (.member (spell key, v)) (line indent key text) rest := by
  have hfront : Blanks (line indent key text)
      ((JsonText.quote key).toList ++ (':' :: ' ' :: text)) :=
    .cons (by decide) (blanks_append hi _)
  rw [quote_toList] at hfront
  exact .member hfront (pieces_spell key _) .none
    (.element (.cons (by decide) .none) hv hb)

theorem written_note (n : Note) (hb : Blanks text ('}' :: rest)) :
    Written (.value (noteValue n)) ('{' :: (broken (JsonText.noteLines n) ++ text)) rest := by
  rw [JsonText.noteLines, broken_member_comma, broken_member_comma, broken_member]
  apply Written.object
  apply Written.moreMembers (written_line (by decide) "message" (written_text n.message _) .none)
  apply Written.moreMembers (written_line (by decide) "start" (written_count n.start _) .none)
  exact .lastMember (written_line (by decide) "end" (written_count n.stop _) hb)

theorem broken_note (n : Note) (close : String) (ls : List String) (text : List Char) :
    broken ("    \x7b" :: JsonText.noteLines n ++ close :: ls) ++ text =
      '\n' :: ("    ".toList ++ ('{' :: (broken (JsonText.noteLines n) ++
        ('\n' :: (close.toList ++ (broken ls ++ text)))))) := by
  simp [broken]

theorem written_notes (n : Note) (ns : List Note) (hb : Blanks behind rest) :
    Written (.elements ((n :: ns).map noteValue))
      (broken (JsonText.notesLines (n :: ns)) ++ behind) rest := by
  have hindent : ∀ text : List Char, Blanks ('\n' :: ("    ".toList ++ text)) text :=
    fun text => .cons (by decide) (blanks_append (by decide) text)
  induction ns generalizing n with
  | nil =>
    rw [JsonText.notesLines, broken_note]
    exact .lastElement (.element (hindent _) (written_note n (hindent _)) hb)
  | cons m ns ih =>
    rw [JsonText.notesLines, broken_note]
    · exact .moreElements (.element (hindent _) (written_note n (hindent _)) .none) (ih m)
    · exact List.cons_ne_nil m ns

theorem written_diagnostics (notes : List Note) (hb : Blanks behind rest) :
    Written (.member (spell "diagnostics", .list (notes.map noteValue)))
      (broken (JsonText.diagnosticsLines notes) ++ behind) rest := by
  cases notes with
  | nil =>
    rw [JsonText.diagnosticsLines, List.isEmpty_nil, if_pos rfl, broken_member]
    exact written_line (by decide) "diagnostics" (.emptyList .none) hb
  | cons n ns =>
    have hclose : Blanks (broken ["  ]"] ++ behind) (']' :: behind) :=
      blanks_append (show ['\n', ' ', ' '].all isBlank = true by decide) _
    rw [JsonText.diagnosticsLines, if_neg (by simp), List.cons_append, broken_member, broken_append,
      List.append_assoc]
    exact written_line (by decide) "diagnostics" (.list (written_notes n ns hclose)) hb

/-- Anything may stand behind the text of a report. -/
theorem written_report (r : Report) (rest : List Char) :
    Written (.value (reportValue r)) ((JsonText.ofReport r).toList ++ rest) rest := by
  have hclose : Blanks (broken ["\x7d"] ++ rest) ('}' :: rest) := .cons (by decide) .none
  have htext : (JsonText.ofReport r).toList = '{' :: (broken ((JsonText.lines r).tail)) := by
    rw [JsonText.ofReport, JsonText.lines, List.cons_append, intercalate_toList]
    rfl
  rw [htext, JsonText.lines, List.cons_append, List.cons_append, List.tail_cons, List.cons_append,
    List.cons_append, List.cons_append, broken_member_comma, broken_member_comma,
    broken_member_comma, broken_append, List.append_assoc]
  refine .object ?_
  apply Written.moreMembers (written_line (by decide) "success" (written_flag r.success _) .none)
  apply Written.moreMembers
    (written_line (by decide) "source_file" (written_text r.sourceFile _) .none)
  apply Written.moreMembers
    (written_line (by decide) "statement_count" (written_count r.statementCount _) .none)
  exact .lastMember (written_diagnostics r.notes hclose)

end Layout

section Meaning

theorem valuesUnder_spell_cons (key key' : String) (v : Json) (ms : List (List Piece × Json)) :
    valuesUnder key ((spell key', v) :: ms) =
      if key' = key then v :: valuesUnder key ms else valuesUnder key ms := by
  split_ifs with h
  · rw [← h, valuesUnder_cons_eq (chars?_spell key')]
  · rw [valuesUnder_cons_ne (chars?_spell key') h]

theorem isText_textValue (text : String) : IsText (textValue text) text :=
  ⟨spell text, rfl, chars?_spell text⟩

theorem isCount_countValue {n : ℕ} (h : n < wordLimit) : IsCount (countValue n) n :=
  ⟨_, rfl, Nat.ofDigitChars_ten_toDigits, h⟩

theorem isNote_noteValue {n : Note} (h : n.Fits) : IsNote (noteValue n) n := by
  refine ⟨_, _, _, .object ?_, isText_textValue n.message, isCount_countValue h.1,
    isCount_countValue h.2⟩
  simp [noteKeys, valuesUnder_spell_cons, valuesUnder_nil]

theorem isReport_reportValue {r : Report} (h : r.Fits) : IsReport (reportValue r) r := by
  refine ⟨.flag r.success, _, _, .list (r.notes.map noteValue), .object ?_, rfl,
    isText_textValue r.sourceFile, isCount_countValue h.1, r.notes.map noteValue, rfl, ?_⟩
  · simp [reportKeys, valuesUnder_spell_cons, valuesUnder_nil]
  · rw [List.forall₂_map_left_iff, List.forall₂_same]
    exact fun n hn => isNote_noteValue (h.2 n hn)

theorem paired_text (text : String) : Paired (textValue text) :=
  .string (by simp [chars?_spell])

theorem paired_note (n : Note) : Paired (noteValue n) := by
  apply Paired.object
  · simp [chars?_spell]
  · simpa using ⟨paired_text n.message, Paired.number _, Paired.number _⟩

theorem paired_report (r : Report) : Paired (reportValue r) := by
  apply Paired.object
  · simp [chars?_spell]
  · simp only [List.forall_mem_cons]
    refine ⟨.flag _, paired_text r.sourceFile, .number _, .list ?_, by simp⟩
    rw [List.forall_mem_map]
    exact fun n _ => paired_note n

end Meaning

theorem ofJson_ofReport_append {r : Report} (h : r.Fits) (gap : String)
    (hg : gap.toList.all isBlank = true) : ofJson (JsonText.ofReport r ++ gap) = .ok r := by
  have hblanks := blanks_append hg []
  rw [List.append_nil] at hblanks
  rw [ofJson, String.toList_append]
  exact whole_complete reads_report (.element .none (written_report r _) hblanks)
    (paired_report r) (isReport_reportValue h)

theorem ofJson_ofReport {r : Report} (h : r.Fits) : ofJson (JsonText.ofReport r) = .ok r := by
  have hread := ofJson_ofReport_append h "" (by decide)
  rwa [String.append_empty] at hread

/-- A report is read back from its text, so no two reports have the same text. -/
theorem ofReport_read_back (r : Report) (h : r.Fits) :
    ofJson (JsonText.ofReport r) = .ok r ∧
      ∀ r' : Report, r'.Fits → JsonText.ofReport r' = JsonText.ofReport r → r' = r := by
  refine ⟨ofJson_ofReport h, fun r' h' htext => ?_⟩
  have hread := ofJson_ofReport h'
  rw [htext, ofJson_ofReport h] at hread
  cases hread
  rfl

def escapes : Report where
  success := false
  sourceFile := "a\"b\\c\t\x01\x7fé.lr"
  statementCount := 1
  notes := [⟨"line\nbreak", 0, 2 ^ 64 - 1⟩]

theorem ofReport_read_back_escapes :
    escapes.Fits ∧ ofJson (JsonText.ofReport escapes) = .ok escapes ∧
      ∀ r' : Report, r'.Fits → JsonText.ofReport r' = JsonText.ofReport escapes → r' = escapes := by
  have hfits : escapes.Fits := by
    refine ⟨by decide, ?_⟩
    simp only [escapes, List.forall_mem_cons]
    exact ⟨⟨by decide, by decide⟩, by simp⟩
  exact ⟨hfits, ofReport_read_back escapes hfits⟩

end LetReturn.ReportRoundTrip
