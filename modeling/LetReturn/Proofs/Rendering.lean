import LetReturn.Proofs.LineAnswers
import LetReturn.Proofs.Respacing

set_option autoImplicit false

namespace LetReturn.Rendering
open Utf8 Tokens Scanning Diagnostics Programs Journals Parsing ReadLoop
open Lexemes Lexing Segments Lookahead Concatenation Respacing Characters LoopRuns LineAnswers

/-- A run of letters that is no keyword. -/
def IsName (text : String) : Prop :=
  text ≠ "" ∧ (∀ c ∈ text.toList, c.isAlpha = true ∨ c = '_') ∧ text ∉ ["fn", "let", "return"]

def IsNumber (text : String) : Prop := text ≠ "" ∧ ∀ c ∈ text.toList, c.isDigit = true

def IsValue : Expression → Prop
  | .ident name => IsName name.value
  | .int number => IsNumber number.token.literal

def Spelled : Statement → Prop
  | .binding word name value => word.literal = "let" ∧ IsName name.value ∧ ∀ e ∈ value, IsValue e
  | .returning word value => word.literal = "return" ∧ ∀ e ∈ value, IsValue e
  | .bare _ _ => False

/-- The second statement is the first one, wherever it stands, without the value. -/
inductive Reread : Statement → Statement → Prop where
  | binding {word word' : Token} {name name' : Identifier} {value : Option Expression}
      (hw : word'.literal = word.literal) (hn : name'.value = name.value) :
      Reread (.binding word name value) (.binding word' name' none)
  | returning {word word' : Token} {value : Option Expression}
      (hw : word'.literal = word.literal) : Reread (.returning word value) (.returning word' none)

section Words
variable {text : String} {rest : List UInt8}

theorem ofWord_eq_iff (word : String) (kind : Kind) : Kind.ofWord word = kind ↔
    (word, kind) ∈ [("fn", Kind.fnWord), ("let", Kind.letWord), ("return", Kind.returnWord)] ∨
      kind = .ident ∧ word ∉ ["fn", "let", "return"] := by
  unfold Kind.ofWord
  split_ifs <;> simp_all [eq_comm]

theorem IsName.ascii (h : IsName text) : ∀ c ∈ text.toList, c.toNat < 0x80 := by
  intro c hc
  rcases h.2.1 c hc with hletter | rfl
  · simp only [Char.isAlpha, Char.isUpper, Char.isLower, Bool.or_eq_true, Bool.and_eq_true,
      decide_eq_true_eq] at hletter
    rcases hletter with hletter | hletter
    · exact Nat.lt_of_le_of_lt (UInt32.le_iff_toNat_le.1 hletter.2) (by decide)
    · exact Nat.lt_of_le_of_lt (UInt32.le_iff_toNat_le.1 hletter.2) (by decide)
  · decide

theorem IsNumber.ascii (h : IsNumber text) : ∀ c ∈ text.toList, c.toNat < 0x80 := by
  intro c hc
  have hdigit := h.2 c hc
  simp only [Char.isDigit, Bool.and_eq_true, decide_eq_true_eq] at hdigit
  exact Nat.lt_of_le_of_lt (UInt32.le_iff_toNat_le.1 hdigit.2) (by decide)

theorem literal_ofString (h : ∀ c ∈ text.toList, c.toNat < 0x80) :
    literal (ofString text) = text := by
  rw [literal, map_ofString h, String.ofList_toList]

theorem IsName.literal_eq (h : IsName text) : literal (ofString text) = text :=
  literal_ofString h.ascii

theorem IsNumber.literal_eq (h : IsNumber text) : literal (ofString text) = text :=
  literal_ofString h.ascii

theorem IsName.letters (h : IsName text) : ∀ b ∈ ofString text, Letter b := by
  intro b hb
  rw [← isLetter_iff, isLetter, Bool.or_eq_true, beq_iff_eq]
  exact h.2.1 _ (mem_of_mem_ofString h.ascii hb)

theorem IsNumber.digits (h : IsNumber text) : ∀ b ∈ ofString text, Digit b := by
  intro b hb
  rw [← isDigit_iff]
  exact h.2 _ (mem_of_mem_ofString h.ascii hb)

theorem IsName.lexeme (h : IsName text) (hr : ∀ b ∈ rest.head?, ¬ Letter b) :
    Lexeme .ident (ofString text) rest := by
  have hkind : wordKind (ofString text) = .ident := by
    rw [← ofWord_literal, h.literal_eq]
    exact (ofWord_eq_iff text .ident).2 (.inr ⟨rfl, h.2.2⟩)
  rw [← hkind]
  exact .word (ofString_ne_nil h.1) h.letters hr

theorem forall_head {P : UInt8 → Prop} {b : UInt8} (h : P b) (rest : List UInt8) :
    ∀ a ∈ (b :: rest).head?, P a := by
  rintro _ ⟨⟩
  exact h

theorem lexeme_keyword {word : String} (hne : ofString word ≠ [])
    (hw : (ofString word).all isLetter = true) (hr : ∀ b ∈ rest.head?, ¬ Letter b) :
    Lexeme (wordKind (ofString word)) (ofString word) rest := by
  refine .word hne ?_ hr
  intro b hb
  exact (isLetter_iff b).1 (List.all_eq_true.1 hw b hb)

theorem not_mem_value {value : Option Expression} (h : ∀ e ∈ value, IsValue e) :
    0x3B ∉ ofString (Statement.valueText value) := by
  intro hmark
  cases value with
  | none => cases hmark
  | some e =>
    have hvalue := h e rfl
    cases e with
    | ident name => exact absurd (IsName.letters hvalue _ hmark) (by decide)
    | int number => exact absurd (IsNumber.digits hvalue _ hmark) (by decide)

end Words

section Statements

theorem blank_nil : ∀ b ∈ ([] : List UInt8), Blank b := by simp

theorem lexed_front {n : ℕ} {piece rest : List UInt8} {kind : Kind} {ts : List Token}
    (hp : Lexeme kind piece rest) (tail : Lexed (n + piece.length) rest ts) :
    Lexed n (piece ++ rest) (⟨kind, literal piece, ⟨n, n + piece.length⟩⟩ :: ts) :=
  .piece blank_nil hp tail

theorem lexed_spaced {n : ℕ} {piece rest : List UInt8} {kind : Kind} {ts : List Token}
    (hp : Lexeme kind piece rest) (tail : Lexed (n + 1 + piece.length) rest ts) :
    Lexed n (0x20 :: (piece ++ rest))
      (⟨kind, literal piece, ⟨n + 1, n + 1 + piece.length⟩⟩ :: ts) := by
  have hgap : ∀ b ∈ ([0x20] : List UInt8), Blank b := by simp [Blank]
  exact .piece hgap hp tail

theorem passed_reads {value : List UInt8} (h : 0x3B ∉ value) (n : ℕ) :
    ∃ ts, Lexed n (value ++ [0x3B]) ts ∧ Value ts [] := by
  obtain ⟨ts, hts⟩ := exists_lexed n value
  induction hts with
  | blanks hg => exact ⟨_, .piece hg (.symbol (by decide)) (.blanks blank_nil), .closed rfl⟩
  | @piece n gap piece rest kind ts hg hp _ ih =>
    simp only [List.mem_append, not_or] at h
    have hkind : kind ≠ .semicolon := by
      rintro rfl
      exact h.2.1 (Lexeme.semicolon_mem hp)
    obtain ⟨us, hlexed, hv⟩ := ih h.2.2
    rw [List.append_assoc, List.append_assoc]
    exact ⟨_, .piece hg (Lexeme.before_semicolon hp) hlexed, .pass hkind hv⟩

theorem binding_bytes {word : Token} {name : Identifier} {value : Option Expression}
    (hw : word.literal = "let") : ofString (Statement.binding word name value).text =
      ofString "let" ++ 0x20 :: (ofString name.value ++ 0x20 :: ([0x3D] ++
        0x20 :: (ofString (Statement.valueText value) ++ [0x3B]))) := by
  have hsign : ofString " = " = [0x20, 0x3D, 0x20] := by decide
  have hspace : ofString " " = [0x20] := by decide
  have hmark : ofString ";" = [0x3B] := by decide
  simp only [Statement.text, hw, ofString_append, hsign, hspace, hmark, List.append_assoc,
    List.cons_append, List.nil_append]

theorem returning_bytes {word : Token} {value : Option Expression} (hw : word.literal = "return") :
    ofString (Statement.returning word value).text =
      ofString "return" ++ 0x20 :: (ofString (Statement.valueText value) ++ [0x3B]) := by
  have hspace : ofString " " = [0x20] := by decide
  have hmark : ofString ";" = [0x3B] := by decide
  simp only [Statement.text, hw, ofString_append, hspace, hmark, List.append_assoc,
    List.cons_append, List.nil_append]

theorem cut_binding {word name sign : Token} {ts : List Token} (hw : word.kind = .letWord)
    (hn : name.kind = .ident) (hs : sign.kind = .assign) (hv : Value ts []) (last : Token) :
    Cut last (word :: name :: sign :: ts)
      [⟨word :: name :: sign :: ts, .kept (.binding word ⟨name, name.literal⟩ none)⟩] := by
  have hcut := Cut.binding hw hn hs hv (.done : Cut last [] [])
  rwa [List.append_nil] at hcut

theorem cut_returning {word : Token} {ts : List Token} (hw : word.kind = .returnWord)
    (hv : Value ts []) (last : Token) :
    Cut last (word :: ts) [⟨word :: ts, .kept (.returning word none)⟩] := by
  have hcut := Cut.returning hw hv (.done : Cut last [] [])
  rwa [List.append_nil] at hcut

def letAt (n : ℕ) (name : String) : Statement :=
  .binding ⟨.letWord, "let", ⟨n, n + 3⟩⟩
    ⟨⟨.ident, name, ⟨n + 4, n + 4 + (ofString name).length⟩⟩, name⟩ none

def returnAt (n : ℕ) : Statement := .returning ⟨.returnWord, "return", ⟨n, n + 6⟩⟩ none

theorem binding_reads {name : String} (hname : IsName name) {value : List UInt8}
    (hvalue : 0x3B ∉ value) (hhead : value.head? ≠ some 0x3D) (n : ℕ) : ∃ ts,
      Lexed n (ofString "let" ++ 0x20 :: (ofString name ++ 0x20 :: ([0x3D] ++ (value ++ [0x3B]))))
          ts ∧
        ∀ last, Cut last ts [⟨ts, .kept (letAt n name)⟩] := by
  have hkind : wordKind (ofString "let") = .letWord := by decide
  have hliteral : literal (ofString "let") = "let" := by decide
  have hsign : (value ++ [0x3B]).head? ≠ some 0x3D := by
    cases value with
    | nil => decide
    | cons => exact hhead
  obtain ⟨ts, hts, hv⟩ := passed_reads hvalue
    (n + (ofString "let").length + 1 + (ofString name).length + 1 + 1)
  have hassign := lexed_spaced (.assign hsign) hts
  have hnamed := lexed_spaced (hname.lexeme (forall_head (by decide) _)) hassign
  have hlexed := lexed_front (lexeme_keyword (by decide) (by decide) (forall_head (by decide) _))
    hnamed
  rw [hkind, hliteral, hname.literal_eq] at hlexed
  exact ⟨_, hlexed, cut_binding rfl rfl rfl hv⟩

theorem returning_reads {value : List UInt8} (hvalue : 0x3B ∉ value)
    (hhead : ∀ b ∈ value.head?, ¬ Letter b) (n : ℕ) : ∃ ts,
      Lexed n (ofString "return" ++ (value ++ [0x3B])) ts ∧
        ∀ last, Cut last ts [⟨ts, .kept (returnAt n)⟩] := by
  have hkind : wordKind (ofString "return") = .returnWord := by decide
  have hliteral : literal (ofString "return") = "return" := by decide
  have hword : ∀ b ∈ (value ++ [0x3B]).head?, ¬ Letter b := by
    cases value with
    | nil => exact forall_head (by decide) []
    | cons => exact hhead
  obtain ⟨ts, hts, hv⟩ := passed_reads hvalue (n + (ofString "return").length)
  have hlexed := lexed_front (lexeme_keyword (by decide) (by decide) hword) hts
  rw [hkind, hliteral] at hlexed
  exact ⟨_, hlexed, cut_returning rfl hv⟩

/-- One statement is read from its text: its tokens are one segment, which keeps it. -/
theorem statement_reads {s : Statement} (h : Spelled s) (n : ℕ) : ∃ ts seg s',
    Lexed n (ofString s.text) ts ∧ (∀ last, Cut last ts [seg]) ∧ seg.decision = .kept s' ∧
      Reread s s' := by
  have hpassed : ∀ {value : Option Expression}, (∀ e ∈ value, IsValue e) →
      0x3B ∉ 0x20 :: ofString (Statement.valueText value) :=
    fun hvalue => List.not_mem_cons_of_ne_of_not_mem (by decide) (not_mem_value hvalue)
  cases s with
  | binding word name value =>
    obtain ⟨hw, hname, hvalue⟩ := h
    obtain ⟨ts, hlexed, hcut⟩ := binding_reads hname (hpassed hvalue) (by simp) n
    rw [binding_bytes hw]
    exact ⟨ts, _, _, hlexed, hcut, rfl, .binding hw.symm rfl⟩
  | returning word value =>
    obtain ⟨hw, hvalue⟩ := h
    obtain ⟨ts, hlexed, hcut⟩ := returning_reads (hpassed hvalue) (forall_head (by decide) _) n
    rw [returning_bytes hw]
    exact ⟨ts, _, _, hlexed, hcut, rfl, .returning hw.symm⟩
  | bare => cases h

theorem text_endsStatement {s : Statement} (h : Spelled s) : EndsStatement (ofString s.text) := by
  have hmark : ofString ";" = [0x3B] := by decide
  cases s with
  | binding | returning =>
    rw [Statement.text, ofString_append, hmark]
    exact endsStatement_semicolon _
  | bare => cases h

end Statements

section Texts

theorem program_reads {ss : List Statement} (h : ∀ s ∈ ss, Spelled s) {gap : List UInt8}
    (hg : ∀ b ∈ gap, Blank b) (n : ℕ) : ∃ ts segs ss',
      Lexed n (ofString (Program.mk ss).text ++ gap) ts ∧ (∀ last, Cut last ts segs) ∧
        segs.map Segment.decision = ss'.map .kept ∧ List.Forall₂ Reread ss ss' := by
  induction ss generalizing n with
  | nil => exact ⟨[], [], [], .blanks hg, fun last => .done, rfl, .nil⟩
  | cons s ss ih =>
    rw [List.forall_mem_cons] at h
    obtain ⟨ts, seg, s', hlexed, hcut, hkept, hs⟩ := statement_reads h.1 n
    obtain ⟨us, segs, ss', hrest, hcuts, hdecided, hss⟩ := ih h.2 (n + (ofString s.text).length)
    have hends := text_endsStatement h.1
    refine ⟨ts ++ us, seg :: segs, s' :: ss', ?_, fun last => ?_, ?_, .cons hs hss⟩
    · have hall := Lexed.append hlexed hends hrest
      rwa [← List.append_assoc, Program.text, ← ofString_join_cons] at hall
    · exact Cut.append (hcut last) (Lexed.closed hlexed hends) (hcuts last)
    · rw [List.map_cons, hkept, hdecided, List.map_cons]

theorem outcome_kept {segs : List Segment} {ss : List Statement}
    (h : segs.map Segment.decision = ss.map .kept) : outcome segs = ⟨⟨ss⟩, []⟩ := by
  have hstatements : (ss.map Event.kept).filterMap Event.statement? = ss := by
    rw [List.filterMap_map]
    exact List.filterMap_some
  have hdiagnostics : (ss.map Event.kept).filterMap Event.diagnostic? = [] := by
    rw [List.filterMap_map]
    simp [Event.diagnostic?]
  rw [outcome, statements_eq, diagnostics_eq, h, hstatements, hdiagnostics]

theorem parse_text {p : Program} (h : ∀ s ∈ p.statements, Spelled s) {gap : List UInt8}
    (hg : ∀ b ∈ gap, Blank b) : ∃ p',
      Parse.ofScanner (.ofBytes (ofString p.text ++ gap)) = ⟨p', []⟩ ∧
        List.Forall₂ Reread p.statements p'.statements := by
  obtain ⟨ts, segs, ss', hlexed, hcut, hdecided, hss⟩ := program_reads h hg 0
  refine ⟨⟨ss'⟩, ?_, hss⟩
  have hwords : words (.ofBytes (ofString p.text ++ gap)) = ts := hlexed.words_eq
  rw [ofScanner_eq_outcome, hwords, (hcut _).segments_eq, outcome_kept hdecided]

end Texts

section Kept

/-- A spelled statement without a value. -/
def Kept : Statement → Prop
  | .binding word name value => word.literal = "let" ∧ IsName name.value ∧ value = none
  | .returning word value => word.literal = "return" ∧ value = none
  | .bare _ _ => False

theorem Kept.spelled {s : Statement} (h : Kept s) : Spelled s := by
  cases s with
  | binding =>
    obtain ⟨hw, hname, rfl⟩ := h
    exact ⟨hw, hname, by simp⟩
  | returning =>
    obtain ⟨hw, rfl⟩ := h
    exact ⟨hw, by simp⟩
  | bare => cases h

theorem Reread.text_eq {s s' : Statement} (hr : Reread s s') (h : Kept s) : s'.text = s.text := by
  cases hr with
  | binding hw hn =>
    obtain ⟨-, -, rfl⟩ := h
    simp only [Statement.text, hw, hn]
  | returning hw =>
    obtain ⟨-, rfl⟩ := h
    simp only [Statement.text, hw]

theorem isName_of_lexeme {piece rest : List UInt8} (h : Lexeme .ident piece rest) :
    IsName (literal piece) := by
  obtain ⟨hne, hletters, hword⟩ := h.of_word (by simp)
  refine ⟨?_, ?_, ?_⟩
  · intro hempty
    rw [literal_eq_iff] at hempty
    exact hne (List.map_eq_nil_iff.1 hempty)
  · rw [literal, String.toList_ofList, List.forall_mem_map]
    intro b hb
    have hletter := (isLetter_iff b).2 (hletters b hb)
    simpa [isLetter] using hletter
  · simpa using (ofWord_eq_iff _ _).1 hword

theorem kept_of_cut {last : Token} {ts : List Token} {segs : List Segment} (h : Cut last ts segs)
    (ht : ∀ t ∈ ts, ∃ piece rest, Lexeme t.kind piece rest ∧ t.literal = literal piece) :
    ∀ seg ∈ segs, ∀ s, seg.decision = .kept s → Kept s := by
  induction h with
  | done => simp
  | binding hw hn _ _ _ ih =>
    simp only [List.forall_mem_cons, List.forall_mem_append] at ht ⊢
    obtain ⟨⟨p, r, hword, hwl⟩, ⟨q, r', hname, hnl⟩, -, -, hrest⟩ := ht
    refine ⟨?_, ih hrest⟩
    rintro _ ⟨⟩
    rw [hw] at hword
    rw [hn] at hname
    refine ⟨?_, ?_, rfl⟩
    · rw [hwl]
      simpa using (ofWord_eq_iff _ _).1 (hword.of_word (by simp)).2.2
    · rw [hnl]
      exact isName_of_lexeme hname
  | returning hw _ _ ih =>
    simp only [List.forall_mem_cons, List.forall_mem_append] at ht ⊢
    obtain ⟨⟨p, r, hword, hwl⟩, -, hrest⟩ := ht
    refine ⟨?_, ih hrest⟩
    rintro _ ⟨⟩
    rw [hw] at hword
    refine ⟨?_, rfl⟩
    rw [hwl]
    simpa using (ofWord_eq_iff _ _).1 (hword.of_word (by simp)).2.2
  | nameless | other =>
    rename_i ih
    rw [List.forall_mem_cons] at ht ⊢
    refine ⟨?_, ih ht.2⟩
    rintro _ ⟨⟩
  | signless =>
    rename_i ih
    rw [List.forall_mem_cons, List.forall_mem_cons] at ht
    rw [List.forall_mem_cons]
    refine ⟨?_, ih ht.2.2⟩
    rintro _ ⟨⟩

theorem kept_of_parse (sc : Scanner) : ∀ s ∈ (Parse.ofScanner sc).program.statements, Kept s := by
  rw [ofScanner_eq_outcome]
  intro s hs
  simp only [outcome, statements_eq, List.mem_filterMap, List.mem_map] at hs
  obtain ⟨_, ⟨seg, hseg, rfl⟩, hs⟩ := hs
  have hkept : seg.decision = .kept s := by
    cases hd : seg.decision with
    | kept s' =>
      rw [hd] at hs
      cases hs
      rfl
    | pulled | ignored | dropped =>
      rw [hd] at hs
      cases hs
  exact kept_of_cut (cut_segments sc) (lexed_words sc).lexeme_of_mem seg hseg s hkept

theorem text_of_reread {ss ss' : List Statement} (hr : List.Forall₂ Reread ss ss')
    (h : ∀ s ∈ ss, Kept s) : (Program.mk ss').text = (Program.mk ss).text := by
  induction hr with
  | nil => rfl
  | cons hs _ ih =>
    rw [List.forall_mem_cons] at h
    have htail := ih h.2
    simp only [Program.text, List.map_cons, String.join_cons] at htail ⊢
    rw [htail, hs.text_eq h.1]

end Kept

section Echo

/-- An ASCII byte that ends no line. -/
def Inline (b : UInt8) : Prop := b < 0x80 ∧ b ≠ 0x0A

instance : DecidablePred Inline := fun _ => inferInstanceAs (Decidable (_ ∧ _))

theorem Letter.inline {b : UInt8} (h : Letter b) : Inline b := by
  refine ⟨h.ascii, ?_⟩
  rintro rfl
  exact absurd h (by decide)

theorem inline_ofString {text : String} (h : ∀ c ∈ text.toList, c.toNat < 0x80 ∧ c ≠ '\n') :
    ∀ b ∈ ofString text, Inline b := by
  have hascii : ∀ c ∈ text.toList, c.toNat < 0x80 := fun c hc => (h c hc).1
  intro b hb
  refine ⟨ofString_ascii hascii b hb, ?_⟩
  rintro rfl
  exact (h _ (mem_of_mem_ofString hascii hb)).2 rfl

theorem inline_statement {s : Statement} (h : Kept s) : ∀ b ∈ ofString s.text, Inline b := by
  have hnone : ofString (Statement.valueText none) = [] := rfl
  cases s with
  | binding word name value =>
    obtain ⟨hw, hname, rfl⟩ := h
    have hword : ofString "let" = [0x6C, 0x65, 0x74] := by decide
    have hbytes : ∀ b ∈ ofString name.value, Inline b :=
      fun b hb => Letter.inline (hname.letters b hb)
    rw [binding_bytes hw, hnone, hword]
    simp only [List.forall_mem_append, List.forall_mem_cons]
    exact ⟨by simp [Inline], by decide, hbytes, by simp [Inline]⟩
  | returning word value =>
    obtain ⟨hw, rfl⟩ := h
    have hword : ofString "return" = [0x72, 0x65, 0x74, 0x75, 0x72, 0x6E] := by decide
    rw [returning_bytes hw, hnone, hword]
    simp [Inline]
  | bare => cases h

theorem inline_program {ss : List Statement} (h : ∀ s ∈ ss, Kept s) :
    ∀ b ∈ ofString (Program.mk ss).text, Inline b := by
  induction ss with
  | nil => intro b hb; cases hb
  | cons s ss ih =>
    rw [List.forall_mem_cons] at h
    rw [Program.text, List.map_cons, ofString_join_cons, List.forall_mem_append]
    exact ⟨inline_statement h.1, ih h.2⟩

theorem scanner_ascii {line : Bytes} (h : ∀ b ∈ line, b < 0x80) :
    scanner line = .ofBytes line := by
  rw [scanner, decodeLossy_ascii h, encode_ascii h]

theorem run_line {line : Bytes} {answer : String} (hl : 0x0A ∉ line)
    (ha : respond (line ++ [0x0A]) = [answer, "\n"]) :
    (run ⟨line ++ [0x0A], false⟩ none).segments =
      [ofString prompt, ofString (answer ++ "\n" ++ prompt), []] := by
  have hlines : lines (line ++ [0x0A]) = [line ++ [0x0A]] := by
    rw [lines_complete hl, lines_nil]
  have hshown : shownFor (line ++ [0x0A]) = ofString (answer ++ "\n") := by
    rw [← respond_bytes, ha, ofString_append, List.flatMap_cons, List.flatMap_singleton]
  rw [(run_segments _).1, hlines, List.map_singleton, hshown, ← ofString_append]
  rfl

theorem respond_kept {p : Program} (h : ∀ s ∈ p.statements, Kept s) :
    respond (ofString p.text ++ [0x0A]) = [p.text, "\n"] := by
  have hascii : ∀ b ∈ ofString p.text ++ [0x0A], b < 0x80 := by
    rw [List.forall_mem_append]
    exact ⟨fun b hb => (inline_program h b hb).1, by simp⟩
  obtain ⟨p', hp', hsame⟩ := parse_text (fun s hs => (h s hs).spelled)
    (show ∀ b ∈ ([0x0A] : List UInt8), Blank b by simp [Blank])
  have htext : p'.text = p.text := text_of_reread hsame h
  rw [respond, scanner_ascii hascii, hp', answer, List.isEmpty_nil, if_pos rfl, htext]

end Echo

/-- A spelled program is read from its text without its values. What is read from any source has a
text that is read and shown as it is. -/
theorem text_read_back :
    (∀ p : Program, (∀ s ∈ p.statements, Spelled s) →
      (Parse.ofText p.text).diagnostics = [] ∧
        List.Forall₂ Reread p.statements (Parse.ofText p.text).program.statements) ∧
    ∀ source : String,
      let p := (Parse.ofText source).program
      (Parse.ofText p.text).diagnostics = [] ∧ (Parse.ofText p.text).program.text = p.text ∧
        (run ⟨ofString (p.text ++ "\n"), false⟩ none).segments =
          [ofString ">> ", ofString (p.text ++ "\n" ++ ">> "), []] := by
  have hread : ∀ p : Program, (∀ s ∈ p.statements, Spelled s) →
      ∃ p', Parse.ofText p.text = ⟨p', []⟩ ∧ List.Forall₂ Reread p.statements p'.statements := by
    intro p hp
    have htext := parse_text hp blank_nil
    rwa [List.append_nil] at htext
  refine ⟨?_, ?_⟩
  · intro p hp
    obtain ⟨p', hp', hsame⟩ := hread p hp
    rw [hp']
    exact ⟨rfl, hsame⟩
  · intro source p
    have hkept : ∀ s ∈ p.statements, Kept s := kept_of_parse (.ofText source)
    have hspelled : ∀ s ∈ p.statements, Spelled s := fun s hs => (hkept s hs).spelled
    obtain ⟨p', hp', hsame⟩ := hread p hspelled
    rw [hp']
    refine ⟨rfl, text_of_reread hsame hkept, ?_⟩
    rw [ofString_append]
    exact run_line (fun hmem => (inline_program hkept _ hmem).2 rfl) (respond_kept hkept)

def nearKeywords : Program where
  statements :=
    [.binding ⟨.letWord, "let", ⟨0, 3⟩⟩ ⟨⟨.ident, "y", ⟨4, 5⟩⟩, "return_"⟩
        (some (.int ⟨⟨.int, "007", ⟨0, 0⟩⟩, 7⟩)),
      .returning ⟨.ident, "return", ⟨0, 0⟩⟩ (some (.ident ⟨⟨.ident, "x", ⟨0, 0⟩⟩, "letfn"⟩)),
      .returning ⟨.returnWord, "return", ⟨0, 0⟩⟩ none]

theorem text_read_back_near_keywords : (∀ s ∈ nearKeywords.statements, Spelled s) ∧
    (Parse.ofText nearKeywords.text).diagnostics = [] ∧
      List.Forall₂ Reread nearKeywords.statements
        (Parse.ofText nearKeywords.text).program.statements := by
  have hspelled : ∀ s ∈ nearKeywords.statements, Spelled s := by
    simp [nearKeywords, Spelled, IsValue, IsName, IsNumber]
  exact ⟨hspelled, text_read_back.1 nearKeywords hspelled⟩

end LetReturn.Rendering
