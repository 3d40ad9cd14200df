import LetReturn.Proofs.Shifting
import Mathlib.Data.List.Basic

set_option autoImplicit false

namespace LetReturn.Concatenation
open Tokens Scanning Diagnostics Programs Journals Parsing
open Lexemes Lexing Segments Lookahead Shifting

/-- The last byte that is not blank, if there is one, is a semicolon. -/
def EndsStatement (source : List UInt8) : Prop :=
  ∀ b ∈ (source.filter fun b => ¬ Blank b).getLast?, b = 0x3B

instance : DecidablePred EndsStatement := fun _ => Option.decidableForallMem _

/-- The last token, if there is one, is a semicolon. -/
def Closed (ts : List Token) : Prop := ∀ t ∈ ts.getLast?, t.kind = .semicolon

theorem filter_blanks {gap : List UInt8} (hg : ∀ b ∈ gap, Blank b) :
    (gap.filter fun b => ¬ Blank b) = [] := by
  rw [List.filter_eq_nil_iff]
  intro b hb
  simpa using hg b hb

theorem filter_piece {kind : Kind} {piece rest : List UInt8} (hp : Lexeme kind piece rest) :
    (piece.filter fun b => ¬ Blank b) = piece := by
  rw [List.filter_eq_self]
  intro b hb
  simpa using hp.not_blank b hb

theorem Lexeme.congr {kind : Kind} {piece rest rest' : List UInt8} (h : Lexeme kind piece rest)
    (hr : rest'.head? = rest.head?) : Lexeme kind piece rest' := by
  cases h with
  | word hne hp hw => exact .word hne hp (hr ▸ hw)
  | number hne hp hd => exact .number hne hp (hr ▸ hd)
  | eq => exact .eq
  | notEq => exact .notEq
  | assign he => exact .assign (hr ▸ he)
  | bang he => exact .bang (hr ▸ he)
  | symbol h => exact .symbol h
  | stray h => exact .stray h

/-- A lexeme that ends with a semicolon is just that, whatever stands behind it. -/
theorem Lexeme.of_semicolon {kind : Kind} {piece rest : List UInt8} (h : Lexeme kind piece rest)
    (hlast : 0x3B ∈ piece.getLast?) :
    kind = .semicolon ∧ ∀ rest', Lexeme kind piece rest' := by
  have hmem := List.mem_of_getLast? hlast
  have hsemi : Symbol 0x3B .semicolon := by decide
  cases h with
  | word _ hp _ => exact absurd (hp _ hmem) (by decide)
  | number _ hp _ => exact absurd (hp _ hmem) (by decide)
  | eq | notEq | assign | bang => exact absurd hmem (by decide)
  | symbol h =>
    obtain rfl := List.mem_singleton.1 hmem
    have hkind := (ofSymbol?_eq_some_iff (by decide) (by decide) kind).2 h
    exact ⟨(Option.some.inj hkind).symm, fun _ => .symbol h⟩
  | stray h =>
    obtain rfl := List.mem_singleton.1 hmem
    obtain ⟨-, -, -, -, -, hs⟩ := h
    exact absurd hsemi (hs .semicolon)

/-- What ends a source ends what stands behind its first lexeme, or else that lexeme. -/
theorem EndsStatement.behind {gap piece rest : List UInt8} {kind : Kind}
    (h : EndsStatement (gap ++ (piece ++ rest))) (hg : ∀ b ∈ gap, Blank b)
    (hp : Lexeme kind piece rest) :
    EndsStatement rest ∧ ((∀ b ∈ rest, Blank b) → 0x3B ∈ piece.getLast?) := by
  simp only [EndsStatement, List.filter_append, filter_blanks hg, filter_piece hp,
    List.nil_append] at h ⊢
  constructor
  · intro b hb
    exact h b (List.mem_getLast?_append_of_mem_getLast? hb)
  · intro hr
    rw [filter_blanks hr, List.append_nil] at h
    have hlast := List.getLast?_eq_some_getLast hp.ne_nil
    rw [hlast, ← h _ hlast]
    rfl

theorem Lexeme.append {kind : Kind} {piece rest : List UInt8} (h : Lexeme kind piece rest)
    (hlast : rest = [] → 0x3B ∈ piece.getLast?) (more : List UInt8) :
    Lexeme kind piece (rest ++ more) := by
  cases rest with
  | nil => exact (Lexeme.of_semicolon h (hlast rfl)).2 more
  | cons b rest => exact Lexeme.congr h rfl

theorem Lexed.behind_blanks {n : ℕ} {gap source : List UInt8} {ts : List Token}
    (h : Lexed (n + gap.length) source ts) (hg : ∀ b ∈ gap, Blank b) :
    Lexed n (gap ++ source) ts := by
  have happend : ∀ gap' : List UInt8, (∀ b ∈ gap', Blank b) → ∀ b ∈ gap ++ gap', Blank b := by
    intro gap' hg' b hb
    exact (List.mem_append.1 hb).elim (hg b) (hg' b)
  cases h with
  | blanks hg' => exact .blanks (happend _ hg')
  | @piece _ gap' piece rest kind ts hg' hp tail =>
    have hlen : n + gap.length + gap'.length = n + (gap ++ gap').length := by
      rw [List.length_append, Nat.add_assoc]
    rw [hlen] at tail ⊢
    rw [← List.append_assoc]
    exact .piece (happend gap' hg') hp tail

theorem Lexed.append {n : ℕ} {a b : List UInt8} {ts us : List Token} (h : Lexed n a ts)
    (ha : EndsStatement a) (hb : Lexed (n + a.length) b us) : Lexed n (a ++ b) (ts ++ us) := by
  induction h with
  | blanks hg => exact Lexed.behind_blanks hb hg
  | @piece n gap piece rest kind ts hg hp _ ih =>
    obtain ⟨hrest, hlast⟩ := ha.behind hg hp
    -- Behind the last lexeme `b` comes into sight, but that lexeme is a semicolon.
    have hp' : Lexeme kind piece (rest ++ b) := Lexeme.append hp (fun h => hlast (by simp [h])) b
    have hlen : n + (gap ++ (piece ++ rest)).length =
        n + gap.length + piece.length + rest.length := by
      simp only [List.length_append]
      omega
    rw [hlen] at hb
    rw [List.append_assoc, List.append_assoc]
    exact .piece hg hp' (ih hrest hb)

theorem Lexed.closed {n : ℕ} {source : List UInt8} {ts : List Token} (h : Lexed n source ts)
    (hs : EndsStatement source) : Closed ts := by
  induction h with
  | blanks => simp [Closed]
  | @piece n gap piece rest kind ts hg hp tail ih =>
    obtain ⟨hrest, hlast⟩ := hs.behind hg hp
    cases tail with
    | blanks hr =>
      intro t ht
      obtain rfl := Option.some.inj ht
      exact (Lexeme.of_semicolon hp (hlast hr)).1
    | piece => exact ih hrest

theorem words_append {a : List UInt8} (ha : EndsStatement a) (b : List UInt8) :
    words ⟨0, a ++ b⟩ = words ⟨0, a⟩ ++ (words ⟨0, b⟩).map (Token.shift a.length) := by
  rw [← words_shift]
  exact (Lexed.append (lexed_words ⟨0, a⟩) ha (lexed_words ⟨0 + a.length, b⟩)).words_eq

theorem Closed.of_append {us : List Token} (ts : List Token) (h : Closed (ts ++ us)) :
    Closed us := by
  intro t ht
  exact h t (List.mem_getLast?_append_of_mem_getLast? ht)

theorem Value.append {t : Token} {value rest : List Token} (h : Value value rest)
    (ht : t.kind ≠ .semicolon) (hc : Closed (t :: (value ++ rest))) (more : List Token) :
    Value value (rest ++ more) := by
  induction h generalizing t with
  | closed hm => exact .closed hm
  | unclosed => exact absurd (hc t rfl) ht
  | pass ht' _ ih => exact .pass ht' (ih ht' (hc.of_append [t]))

theorem Closed.headD_append {t : Token} {ts : List Token} (h : Closed (t :: ts))
    (ht : t.kind ≠ .semicolon) (us : List Token) (last last' : Token) :
    (ts ++ us).headD last' = ts.headD last := by
  cases ts with
  | nil => exact absurd (h t rfl) ht
  | cons => rfl

theorem Cut.append {last last' : Token} {ts us : List Token} {segs segs' : List Segment}
    (h : Cut last ts segs) (hc : Closed ts) (h' : Cut last' us segs') :
    Cut last' (ts ++ us) (segs ++ segs') := by
  induction h with
  | done => exact h'
  | @binding word name sign value rest segs hw hn hs hv _ ih =>
    have hsign : sign.kind ≠ .semicolon := by simp [hs]
    have hvalue := Value.append hv hsign (hc.of_append [word, name]) us
    have htail := ih (hc.of_append (word :: name :: sign :: value))
    simp only [List.cons_append, List.append_assoc]
    exact .binding hw hn hs hvalue htail
  | @returning word value rest segs hw hv _ ih =>
    have hword : word.kind ≠ .semicolon := by simp [hw]
    have hvalue := Value.append hv hword hc us
    have htail := ih (hc.of_append (word :: value))
    simp only [List.cons_append, List.append_assoc]
    exact .returning hw hvalue htail
  | @nameless word rest segs hw hn _ ih =>
    have hword : word.kind ≠ .semicolon := by simp [hw]
    rw [← hc.headD_append hword us last last'] at hn ⊢
    exact .nameless hw hn (ih (hc.of_append [word]))
  | @signless word name rest segs hw hn hs _ ih =>
    have hname : name.kind ≠ .semicolon := by simp [hn]
    rw [← (hc.of_append [word]).headD_append hname us last last'] at hs ⊢
    exact .signless hw hn hs (ih (hc.of_append [word, name]))
  | @other word rest segs hl hr _ ih =>
    exact .other hl hr (ih (hc.of_append [word]))

theorem segments_append {a : List UInt8} (ha : EndsStatement a) (b : List UInt8) :
    segments (ending ⟨0, a ++ b⟩) (words ⟨0, a ++ b⟩) =
      segments (ending ⟨0, a⟩) (words ⟨0, a⟩) ++
        (segments (ending ⟨0, b⟩) (words ⟨0, b⟩)).map (Segment.shift a.length) := by
  have hclosed := Lexed.closed (lexed_words ⟨0, a⟩) ha
  have hshift := Cut.shift (cut_segments ⟨0, b⟩) a.length
  have hending : ending ⟨0, a ++ b⟩ = (ending ⟨0, b⟩).shift a.length := by
    rw [← ending_shift]
    simp [ending]
  rw [words_append ha, hending]
  exact (Cut.append (cut_segments ⟨0, a⟩) hclosed hshift).segments_eq

theorem outcome_append (segs segs' : List Segment) :
    outcome (segs ++ segs') =
      ⟨⟨(outcome segs).program.statements ++ (outcome segs').program.statements⟩,
        (outcome segs).diagnostics ++ (outcome segs').diagnostics⟩ := by
  simp only [outcome, statements_eq, diagnostics_eq, List.map_append, List.filterMap_append]

/-- One parse and then another one, moved by as many bytes as stand before it. -/
def followedBy (first : Parse) (n : ℕ) (second : Parse) : Parse :=
  ⟨⟨first.program.statements ++ second.program.statements.map (Statement.shift n)⟩,
    first.diagnostics ++ second.diagnostics.map (Diagnostic.shift n)⟩

theorem ofBytes_append {a : List UInt8} (ha : EndsStatement a) (b : List UInt8) :
    Parse.ofScanner (.ofBytes (a ++ b)) =
      followedBy (Parse.ofScanner (.ofBytes a)) a.length (Parse.ofScanner (.ofBytes b)) := by
  have houtcome : ∀ source : List UInt8, Parse.ofScanner (.ofBytes source) = _ :=
    fun source => ofScanner_eq_outcome ⟨0, source⟩
  rw [houtcome (a ++ b), segments_append ha, outcome_append, outcome_shift, houtcome a, houtcome b]
  rfl

theorem endsStatement_semicolon (source : List UInt8) : EndsStatement (source ++ [0x3B]) := by
  intro b hb
  rw [List.filter_append, List.filter_cons_of_pos (by decide), List.filter_nil,
    List.getLast?_concat] at hb
  exact (Option.mem_some_iff.1 hb).symm

/-- Behind a text that is blank or ends with a semicolon, a text is parsed as it is alone, only with
its spans moved. -/
theorem parse_append (a b : String) (ha : EndsStatement (Utf8.ofString a)) :
    (Parse.ofText (a ++ b)).program.statements =
        (Parse.ofText a).program.statements ++
          (Parse.ofText b).program.statements.map (Statement.shift (Utf8.ofString a).length) ∧
      (Parse.ofText (a ++ b)).diagnostics =
        (Parse.ofText a).diagnostics ++
          (Parse.ofText b).diagnostics.map (Diagnostic.shift (Utf8.ofString a).length) := by
  have hparse : Parse.ofText (a ++ b) =
      followedBy (.ofText a) (Utf8.ofString a).length (.ofText b) := by
    rw [Parse.ofText, Scanner.ofText, Utf8.ofString_append]
    exact ofBytes_append ha (Utf8.ofString b)
  rw [hparse]
  exact ⟨rfl, rfl⟩

theorem parse_append_after_mistakes :
    EndsStatement (Utf8.ofString "let x 5; let ;\n") ∧
      (Parse.ofText ("let x 5; let ;\n" ++ "let y = 1;")).program.statements =
        [.binding ⟨.letWord, "let", ⟨15, 18⟩⟩ ⟨⟨.ident, "y", ⟨19, 20⟩⟩, "y"⟩ none] ∧
      (Parse.ofText ("let x 5; let ;\n" ++ "let y = 1;")).diagnostics =
        [.unexpectedToken .assign .int ⟨6, 7⟩, .unexpectedToken .ident .semicolon ⟨13, 14⟩] := by
  have happend := parse_append "let x 5; let ;\n" "let y = 1;" (by decide)
  refine ⟨by decide, happend.1.trans ?_, happend.2.trans ?_⟩
  · cbv
  · cbv

end LetReturn.Concatenation
