import LetReturn.Proofs.ReportRoundTrip
import Mathlib.Data.List.Basic
import Mathlib.Tactic.Common
import Mathlib.Tactic.SplitIfs

set_option autoImplicit false

namespace LetReturn.ReportLayout
open Reports JsonText
open JsonGrammar (Written)
open TypedValues (IsText)

def cut (text : String) : List String := (text.toList.splitOn '\n').map String.ofList

/-- No character is below the space. -/
def Clear (text : List Char) : Prop := ∀ c ∈ text, 0x20 ≤ c.toNat

instance : DecidablePred Clear := fun text => List.decidableBAll _ text

section Clear
variable {a b value : String}

theorem Clear.append (ha : Clear a.toList) (hb : Clear b.toList) : Clear (a ++ b).toList := by
  rw [Clear, String.toList_append, List.forall_mem_append]
  exact ⟨ha, hb⟩

theorem Clear.feed_not_mem {text : List Char} (h : Clear text) : '\n' ∉ text :=
  fun hfeed => absurd (h '\n' hfeed) (by decide)

theorem clear_escape (c : Char) : Clear (escape c) := by
  have hdigit : ∀ d < 16, 0x20 ≤ d.digitChar.toNat := by decide
  unfold escape
  split
  · decide
  · decide
  · decide
  · decide
  · decide
  · decide
  · decide
  · split_ifs with hc
    · have hnumber : Clear ['\\', 'u', '0', '0'] := by decide
      have hhigh := hdigit (c.toNat / 16) (by omega)
      have hlow := hdigit (c.toNat % 16) (by omega)
      exact List.forall_mem_append.2
        ⟨hnumber, List.forall_mem_cons.2 ⟨hhigh, List.forall_mem_singleton.2 hlow⟩⟩
    · exact List.forall_mem_singleton.2 (Nat.not_lt.1 hc)

theorem clear_quote (text : String) : Clear (quote text).toList := by
  rw [Clear, quote, String.toList_ofList, List.forall_mem_cons, List.forall_mem_append,
    List.forall_mem_flatMap, List.forall_mem_singleton]
  exact ⟨by decide, fun c _ => clear_escape c, by decide⟩

theorem clear_count (n : ℕ) : Clear (toString n).toList := by
  intro c hc
  rw [Nat.toString_eq_repr, Nat.toList_repr] at hc
  have hdigit := Nat.isDigit_of_mem_toDigits (by decide) (by decide) hc
  rw [Char.isDigit_iff_toNat] at hdigit
  exact Nat.le_trans (by decide) hdigit.1

theorem clear_flag (b : Bool) : Clear (flag b).toList := by
  cases b with
  | true => decide
  | false => decide

theorem clear_member (indent key : String) (hi : Clear indent.toList) (hv : Clear value.toList) :
    Clear (indent ++ member key value).toList :=
  hi.append (((clear_quote key).append (by decide)).append hv)

theorem clear_noteLines (n : Note) : ∀ l ∈ noteLines n, Clear l.toList := by
  have hcomma : Clear ",".toList := by decide
  simp only [noteLines, List.forall_mem_cons]
  refine ⟨?_, ?_, ?_, by simp⟩
  · exact (clear_member _ _ (by decide) (clear_quote n.message)).append hcomma
  · exact (clear_member _ _ (by decide) (clear_count n.start)).append hcomma
  · exact clear_member _ _ (by decide) (clear_count n.stop)

end Clear

section Notes
variable {notes : List Note}

/-- The line behind a note, given the notes that follow it. -/
def closing (rest : List Note) : String := if rest.isEmpty then "    \x7d" else "    \x7d,"

theorem notesLines_cons (n : Note) (rest : List Note) : notesLines (n :: rest) =
    "    \x7b" :: noteLines n ++ closing rest :: notesLines rest := by
  cases rest with
  | nil => rfl
  | cons m rest => rfl

theorem clear_notesLines (notes : List Note) : ∀ l ∈ notesLines notes, Clear l.toList := by
  induction notes with
  | nil => exact fun l hl => absurd hl List.not_mem_nil
  | cons n rest ih =>
    have hclosing : Clear (closing rest).toList := by
      unfold closing
      split_ifs
      · decide
      · decide
    rw [notesLines_cons, List.forall_mem_append, List.forall_mem_cons, List.forall_mem_cons]
    exact ⟨⟨by decide, clear_noteLines n⟩, hclosing, ih⟩

theorem length_notesLines (notes : List Note) : (notesLines notes).length = 5 * notes.length := by
  induction notes with
  | nil => rfl
  | cons n rest ih =>
    rw [notesLines_cons, List.length_append, List.length_cons, List.length_cons, ih,
      List.length_cons, noteLines]
    simp only [List.length_cons, List.length_nil]
    omega

/-- The members of a note are the second to fourth of its five lines. -/
theorem notesLines_getElem? {i j : ℕ} {n : Note} (h : notes[i]? = some n) (hj : j < 3) :
    (notesLines notes)[5 * i + j + 1]? = (noteLines n)[j]? := by
  induction notes generalizing i with
  | nil => simp at h
  | cons m rest ih =>
    rw [notesLines_cons]
    cases i with
    | zero =>
      obtain rfl : m = n := by simpa using h
      rw [Nat.mul_zero, Nat.zero_add, List.cons_append, List.getElem?_cons_succ]
      exact List.getElem?_append_left hj
    | succ i =>
      have hrest : rest[i]? = some n := by simpa using h
      -- The bracket, the three members and the closing line of the first note come before.
      have hindex : 5 * (i + 1) + j + 1 = (5 * i + j + 1) + 1 + 3 + 1 := by omega
      rw [hindex, List.cons_append, List.getElem?_cons_succ, ← ih hrest]
      exact List.getElem?_append_right (Nat.le_add_left 3 _)

end Notes

section Lines
variable {r : Report}

theorem clear_diagnosticsLines (notes : List Note) : ∀ l ∈ diagnosticsLines notes, Clear l.toList := by
  have hmember : ∀ value : String, Clear value.toList →
      Clear ("  " ++ member "diagnostics" value).toList :=
    fun value hv => clear_member _ _ (by decide) hv
  unfold diagnosticsLines
  split_ifs
  · exact List.forall_mem_singleton.2 (hmember "[]" (by decide))
  · rw [List.forall_mem_append, List.forall_mem_cons, List.forall_mem_singleton]
    exact ⟨⟨hmember "[" (by decide), clear_notesLines notes⟩, by decide⟩

theorem clear_lines (r : Report) : ∀ l ∈ lines r, Clear l.toList := by
  have hmember : ∀ key value : String, Clear value.toList →
      Clear ("  " ++ member key value ++ ",").toList :=
    fun key value hv => (clear_member _ _ (by decide) hv).append (by decide)
  rw [lines, List.forall_mem_append, List.forall_mem_cons, List.forall_mem_cons,
    List.forall_mem_cons, List.forall_mem_cons, List.forall_mem_singleton]
  exact ⟨⟨by decide, hmember _ _ (clear_flag r.success), hmember _ _ (clear_quote r.sourceFile),
    hmember _ _ (clear_count r.statementCount), clear_diagnosticsLines r.notes⟩, by decide⟩

theorem cut_ofReport (r : Report) : cut (ofReport r) = lines r := by
  have hfeeds : ∀ l ∈ (lines r).map String.toList, '\n' ∉ l :=
    List.forall_mem_map.2 fun l hl => (clear_lines r l hl).feed_not_mem
  have hne : (lines r).map String.toList ≠ [] := by simp [lines]
  have hfeed : "\n".toList = ['\n'] := by decide
  rw [cut, ofReport, String.toList_intercalate, hfeed, List.splitOn_intercalate '\n' hfeeds hne,
    List.map_map]
  simp [Function.comp_def]

theorem intercalate_clear {l : String} {ls : List String} (h : ∀ l' ∈ l :: ls, Clear l'.toList) :
    ∀ c ∈ ("\n".intercalate (l :: ls)).toList, 0x20 ≤ c.toNat ∨ c = '\n' := by
  induction ls generalizing l with
  | nil =>
    rw [String.intercalate_singleton]
    exact fun c hc => .inl (h l List.mem_cons_self c hc)
  | cons l' ls ih =>
    have hfeed : "\n".toList = ['\n'] := by decide
    rw [List.forall_mem_cons] at h
    rw [String.intercalate_cons_cons, String.toList_append, String.toList_append, hfeed,
      List.forall_mem_append, List.forall_mem_append, List.forall_mem_singleton]
    exact ⟨⟨fun c hc => .inl (h.1 c hc), .inr rfl⟩, ih h.2⟩

theorem ofReport_clear (r : Report) :
    ∀ c ∈ (ofReport r).toList, 0x20 ≤ c.toNat ∨ c = '\n' :=
  intercalate_clear (clear_lines r)

theorem length_lines (r : Report) :
    (lines r).length = if r.notes = [] then 6 else 5 * r.notes.length + 7 := by
  rw [lines, diagnosticsLines]
  simp only [List.isEmpty_iff]
  split_ifs
  · rfl
  · simp [length_notesLines]

theorem lines_getElem? {i j : ℕ} {n : Note} (h : r.notes[i]? = some n) (hj : j < 3) :
    (lines r)[6 + 5 * i + j]? = (noteLines n)[j]? := by
  obtain ⟨hi, -⟩ := List.getElem?_eq_some_iff.1 h
  have hne : ¬ r.notes.isEmpty = true := by
    rw [List.isEmpty_iff_length_eq_zero]
    omega
  have hlt : 5 * i + j + 1 < (notesLines r.notes).length := by
    rw [length_notesLines]
    omega
  have hindex : 6 + 5 * i + j = (5 * i + j + 1) + 1 + 4 := by omega
  rw [hindex, lines, diagnosticsLines, if_neg hne]
  simp only [List.cons_append, List.append_assoc, List.getElem?_cons_succ]
  rw [List.getElem?_append_left hlt]
  exact notesLines_getElem? h hj

end Lines

section Members

theorem member_eq {indent key front : String} (h : indent ++ (quote key ++ ": ") = front)
    (value : String) : indent ++ member key value = front ++ value := by
  rw [← h, member, String.append_assoc, String.append_assoc, String.append_assoc]

theorem lines_eq (r : Report) : lines r =
    ["\x7b", "  \"success\": " ++ flag r.success ++ ",",
      "  \"source_file\": " ++ quote r.sourceFile ++ ",",
      "  \"statement_count\": " ++ toString r.statementCount ++ ","] ++
      (diagnosticsLines r.notes ++ ["\x7d"]) := by
  rw [← member_eq (show "  " ++ (quote "success" ++ ": ") = "  \"success\": " by decide),
    ← member_eq (show "  " ++ (quote "source_file" ++ ": ") = "  \"source_file\": " by decide),
    ← member_eq
      (show "  " ++ (quote "statement_count" ++ ": ") = "  \"statement_count\": " by decide)]
  rfl

theorem noteLines_eq (n : Note) : noteLines n =
    ["      \"message\": " ++ quote n.message ++ ",",
      "      \"start\": " ++ toString n.start ++ ",",
      "      \"end\": " ++ toString n.stop] := by
  rw [← member_eq (show "      " ++ (quote "message" ++ ": ") = "      \"message\": " by decide),
    ← member_eq (show "      " ++ (quote "start" ++ ": ") = "      \"start\": " by decide),
    ← member_eq (show "      " ++ (quote "end" ++ ": ") = "      \"end\": " by decide)]
  rfl

end Members

/-- Whatever its strings are, the text of a report has no character below the space but the line
feeds of its layout. How many lines there are and which member is on which of them depends on the
number of notes alone. A text is quoted as JSON has it. -/
theorem ofReport_layout (r : Report) :
    let ls := cut (ofReport r)
    (∀ c ∈ (ofReport r).toList, 0x20 ≤ c.toNat ∨ c = '\n') ∧
    ls.length = (if r.notes = [] then 6 else 5 * r.notes.length + 7) ∧
    (∀ text : String, ∃ v, Written (.value v) (quote text).toList [] ∧ IsText v text) ∧
    ls[1]? = some ("  \"success\": " ++ (if r.success then "true" else "false") ++ ",") ∧
    ls[2]? = some ("  \"source_file\": " ++ quote r.sourceFile ++ ",") ∧
    ls[3]? = some ("  \"statement_count\": " ++ toString r.statementCount ++ ",") ∧
    ∀ (i : ℕ) (n : Note), r.notes[i]? = some n →
      ls[6 + 5 * i]? = some ("      \"message\": " ++ quote n.message ++ ",") ∧
      ls[7 + 5 * i]? = some ("      \"start\": " ++ toString n.start ++ ",") ∧
      ls[8 + 5 * i]? = some ("      \"end\": " ++ toString n.stop) := by
  intro ls
  have hls : ls = lines r := cut_ofReport r
  refine ⟨ofReport_clear r, ?_, fun text => ?_, ?_, ?_, ?_, fun i n hn => ?_⟩
  · rw [hls, length_lines]
  · have hwritten := ReportRoundTrip.written_text text []
    rw [List.append_nil] at hwritten
    exact ⟨_, hwritten, ReportRoundTrip.isText_textValue text⟩
  · rw [hls, lines_eq]
    rfl
  · rw [hls, lines_eq]
    rfl
  · rw [hls, lines_eq]
    rfl
  · have hlines : ∀ j < 3, ls[6 + j + 5 * i]? = (noteLines n)[j]? := by
      intro j hj
      rw [hls, Nat.add_right_comm, lines_getElem? hn hj]
    rw [noteLines_eq] at hlines
    exact ⟨hlines 0 (by decide), hlines 1 (by decide), hlines 2 (by decide)⟩

def forged : Report where
  success := false
  sourceFile := "a.lr\",\n  \"success\": true"
  statementCount := 2
  notes := [⟨"\x7d,\n", 0, 4⟩, ⟨"\x00\x1f\\\"\r", 7, 9⟩]

theorem ofReport_layout_forged :
    (cut (ofReport forged)).length = 17 ∧
    (cut (ofReport forged))[1]? = some "  \"success\": false," ∧
    (cut (ofReport forged))[2]? =
      some "  \"source_file\": \"a.lr\\\",\\n  \\\"success\\\": true\"," ∧
    (forged.notes[1]? = some ⟨"\x00\x1f\\\"\r", 7, 9⟩ ∧
      (cut (ofReport forged))[11]? =
        some "      \"message\": \"\\u0000\\u001f\\\\\\\"\\r\"," ∧
      (cut (ofReport forged))[12]? = some "      \"start\": 7," ∧
      (cut (ofReport forged))[13]? = some "      \"end\": 9") ∧
    ('\n' ∈ (ofReport forged).toList ∧ (0x20 ≤ '\n'.toNat ∨ '\n' = '\n')) ∧
    '\x1f' ∉ (ofReport forged).toList := by
  have hnote : forged.notes[1]? = some ⟨"\x00\x1f\\\"\r", 7, 9⟩ := rfl
  have hfeed : '\n' ∈ (ofReport forged).toList := by
    rw [ofReport, lines_eq, List.cons_append, List.cons_append, String.intercalate_cons_cons,
      String.toList_append, String.toList_append]
    exact List.mem_append_left _ (List.mem_append_right _ (by decide))
  obtain ⟨hclear, hlength, -, hsuccess, hfile, -, hnotes⟩ := ofReport_layout forged
  obtain ⟨hmessage, hstart, hend⟩ := hnotes 1 _ hnote
  refine ⟨hlength, hsuccess, ?_, ⟨hnote, ?_, hstart, hend⟩, ⟨hfeed, hclear _ hfeed⟩, fun hcontrol => ?_⟩
  · rw [hfile]
    decide +kernel
  · rw [hmessage]
    decide +kernel
  · exact absurd (hclear _ hcontrol) (by decide)

end LetReturn.ReportLayout
