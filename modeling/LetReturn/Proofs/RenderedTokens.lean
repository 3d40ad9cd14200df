import LetReturn.Proofs.Rendering
import LetReturn.Proofs.Respacing

set_option autoImplicit false

namespace LetReturn.RenderedTokens
open Utf8 Tokens Scanning Programs Lexemes Lexing Respacing Rendering Characters

/-- The words and the values are spelled as in a source; a value may stand alone. -/
def WellFormed : Statement → Prop
  | .bare _ value => IsValue value
  | .binding word name value => Spelled (.binding word name value)
  | .returning word value => Spelled (.returning word value)

def valueWord : Expression → Kind × String
  | .ident name => (.ident, name.value)
  | .int number => (.int, number.token.literal)

/-- The kinds and literals that a statement is written with. -/
def statementWords : Statement → List (Kind × String)
  | .binding _ name value =>
    [(.letWord, "let"), (.ident, name.value), (.assign, "=")] ++ (value.map valueWord).toList ++
      [(.semicolon, ";")]
  | .returning _ value =>
    (.returnWord, "return") :: (value.map valueWord).toList ++ [(.semicolon, ";")]
  | .bare _ value => [valueWord value]

/-- Written side by side, the end of the first statement and the beginning of the second one are a
single token. -/
inductive RunsInto : Statement → Statement → Prop where
  | binding {t word : Token} {x name : Identifier} {value : Option Expression} :
      RunsInto (.bare t (.ident x)) (.binding word name value)
  | returning {t word : Token} {x : Identifier} {value : Option Expression} :
      RunsInto (.bare t (.ident x)) (.returning word value)
  | name {t t' : Token} {x x' : Identifier} : RunsInto (.bare t (.ident x)) (.bare t' (.ident x'))
  | number {t t' : Token} {x x' : IntegerLiteral} :
      RunsInto (.bare t (.int x)) (.bare t' (.int x'))

section Layouts
variable {s s' : Statement} {e : Expression}

def valueLayout (e : Expression) : Spaced := ⟨(valueWord e).1, ofString (valueWord e).2, []⟩

def closing : Spaced := ⟨.semicolon, [0x3B], []⟩

/-- The lexemes of a statement with the blanks that it is written with. -/
def layout : Statement → List Spaced
  | .binding _ name value =>
    [⟨.letWord, ofString "let", [0x20]⟩, ⟨.ident, ofString name.value, [0x20]⟩,
      ⟨.assign, [0x3D], [0x20]⟩] ++ (value.map valueLayout).toList ++ [closing]
  | .returning _ value =>
    ⟨.returnWord, ofString "return", [0x20]⟩ :: (value.map valueLayout).toList ++ [closing]
  | .bare _ value => [valueLayout value]

def opens : Statement → Kind
  | .binding _ _ _ => .letWord
  | .returning _ _ => .returnWord
  | .bare _ value => (valueWord value).1

def closes : Statement → Kind
  | .binding _ _ _ | .returning _ _ => .semicolon
  | .bare _ value => (valueWord value).1

theorem not_glues_semicolon (kind : Kind) : ¬ Glues .semicolon kind := by
  simp [Glues, IsWord]

theorem glues_ident_iff (kind : Kind) : Glues .ident kind ↔ IsWord kind := by
  simp [Glues, show IsWord .ident by decide]

theorem glues_int_iff (kind : Kind) : Glues .int kind ↔ kind = .int := by
  simp [Glues, show ¬ IsWord .int by decide]

theorem glues_iff : Glues (closes s) (opens s') ↔ RunsInto s s' := by
  constructor
  · intro h
    cases s with
    | binding | returning => exact absurd h (not_glues_semicolon _)
    | bare t e =>
      cases e with
      | ident x =>
        have hword : IsWord (opens s') := (glues_ident_iff _).1 h
        cases s' with
        | binding => exact .binding
        | returning => exact .returning
        | bare t' e' =>
          cases e' with
          | ident => exact .name
          | int => exact absurd hword (show ¬ IsWord .int by decide)
      | int x =>
        have hint : opens s' = .int := (glues_int_iff _).1 h
        cases s' with
        | binding | returning => cases hint
        | bare t' e' =>
          cases e' with
          | ident => cases hint
          | int => exact .number
  · intro h
    cases h with
    | binding | returning | name => exact (glues_ident_iff _).2 (by simp [IsWord, opens, valueWord])
    | number => exact (glues_int_iff _).2 rfl

instance (s s' : Statement) : Decidable (RunsInto s s') := decidable_of_iff _ glues_iff

theorem valueLayout_word (h : IsValue e) : (valueLayout e).word = valueWord e := by
  cases e with
  | ident name => exact Prod.ext rfl (IsName.literal_eq h)
  | int number => exact Prod.ext rfl (IsNumber.literal_eq h)

theorem valueLayout_lexeme (h : IsValue e) :
    Lexeme (valueLayout e).kind (valueLayout e).piece [] := by
  cases e with
  | ident name => exact IsName.lexeme h (by simp)
  | int number => exact .number (ofString_ne_nil h.1) (IsNumber.digits h) (by simp)

theorem valueLayout_bytes (e : Expression) : (valueLayout e).bytes = ofString e.text := by
  cases e with
  | ident | int => exact List.append_nil _

theorem layout_words (h : WellFormed s) : (layout s).map Spaced.word = statementWords s := by
  have hclosing : closing.word = (.semicolon, ";") := by decide
  have hvalue : ∀ value : Option Expression, (∀ e ∈ value, IsValue e) →
      (value.map valueLayout).toList.map Spaced.word = (value.map valueWord).toList := by
    intro value hv
    cases value with
    | none => rfl
    | some e => exact congrArg (fun w => [w]) (valueLayout_word (hv e rfl))
  cases s with
  | binding word name value =>
    have hlet : literal (ofString "let") = "let" := by decide
    have hsign : literal [0x3D] = "=" := by decide
    have hname : literal (ofString name.value) = name.value := IsName.literal_eq h.2.1
    simp only [layout, List.map_append, List.map_cons, List.map_nil, hvalue value h.2.2, hclosing]
    simp only [Spaced.word, hlet, hname, hsign, statementWords]
  | returning word value =>
    have hreturn : literal (ofString "return") = "return" := by decide
    simp only [layout, List.map_append, List.map_cons, List.map_nil, hvalue value h.2, hclosing]
    simp only [Spaced.word, hreturn, statementWords]
  | bare t e => exact congrArg (fun w => [w]) (valueLayout_word h)

theorem layout_bytes (h : WellFormed s) : (layout s).flatMap Spaced.bytes = ofString s.text := by
  have hvalue : ∀ value : Option Expression,
      (value.map valueLayout).toList.flatMap Spaced.bytes =
        ofString (Statement.valueText value) := by
    intro value
    cases value with
    | none => rfl
    | some e => exact (List.flatMap_singleton ..).trans (valueLayout_bytes e)
  cases s with
  | binding word name value =>
    rw [binding_bytes h.1]
    simp only [layout, List.flatMap_append, List.flatMap_cons, List.flatMap_nil, hvalue value]
    simp only [Spaced.bytes, closing, List.append_assoc, List.cons_append, List.nil_append]
  | returning word value =>
    rw [returning_bytes h.1]
    simp only [layout, List.flatMap_append, List.flatMap_cons, List.flatMap_nil, hvalue value]
    simp only [Spaced.bytes, closing, List.append_assoc, List.cons_append, List.nil_append]
  | bare t e => exact (List.flatMap_singleton ..).trans (valueLayout_bytes e)

theorem loose_nil : Loose [] := fun _ hx => nomatch hx

theorem loose_cons {kind : Kind} {piece gap : List UInt8} {xs : List Spaced}
    (hp : Lexeme kind piece []) (hg : ∀ b ∈ gap, Blank b) (hxs : Loose xs) :
    Loose (⟨kind, piece, gap⟩ :: xs) :=
  List.forall_mem_cons.2 ⟨⟨hp, hg⟩, hxs⟩

theorem loose_append {xs ys : List Spaced} (hxs : Loose xs) (hys : Loose ys) : Loose (xs ++ ys) :=
  List.forall_mem_append.2 ⟨hxs, hys⟩

theorem layout_loose (h : WellFormed s) : Loose (layout s) := by
  have hspace : ∀ b ∈ ([0x20] : List UInt8), Blank b := by simp [Blank]
  have hclosing : Loose [closing] := loose_cons (.symbol (by decide)) blank_nil loose_nil
  have hbare : ∀ e, IsValue e → Loose [valueLayout e] :=
    fun e he => loose_cons (valueLayout_lexeme he) blank_nil loose_nil
  have hvalue : ∀ value : Option Expression, (∀ e ∈ value, IsValue e) →
      Loose (value.map valueLayout).toList := by
    intro value hv
    cases value with
    | none => exact loose_nil
    | some e => exact hbare e (hv e rfl)
  have hword : ∀ (word : String) (kind : Kind), ofString word ≠ [] →
      (ofString word).all isLetter = true → wordKind (ofString word) = kind →
        Lexeme kind (ofString word) [] := by
    rintro word _ hne hw rfl
    exact lexeme_keyword hne hw (by simp)
  cases s with
  | binding word name value =>
    have hlet := hword "let" .letWord (by decide) (by decide) (by decide)
    have hname : Lexeme .ident (ofString name.value) [] := h.2.1.lexeme (by simp)
    have hsign : Lexeme .assign [0x3D] [] := .assign (by simp)
    apply loose_append _ hclosing
    apply loose_append _ (hvalue value h.2.2)
    exact loose_cons hlet hspace (loose_cons hname hspace (loose_cons hsign hspace loose_nil))
  | returning word value =>
    have hreturn := hword "return" .returnWord (by decide) (by decide) (by decide)
    exact loose_cons hreturn hspace (loose_append (hvalue value h.2) hclosing)
  | bare t e => exact hbare e h

/-- Within a statement only a value has no blank behind it, and there stands the semicolon. -/
theorem layout_apart (s : Statement) : Apart (layout s) := by
  have hvalue : ∀ value : Option Expression,
      Apart ((value.map valueLayout).toList ++ [closing]) := by
    intro value
    cases value with
    | none => exact .singleton _
    | some e =>
      refine .cons_cons (fun _ hglues => ?_) (.singleton _)
      cases e with
      | ident => exact absurd ((glues_ident_iff _).1 hglues) (show ¬ IsWord .semicolon by decide)
      | int => exact absurd ((glues_int_iff _).1 hglues) (show Kind.semicolon ≠ .int by decide)
  have hspaced : ∀ {x : Spaced} {xs : List Spaced}, x.gap ≠ [] → Apart xs → Apart (x :: xs) :=
    fun hgap hxs => hxs.cons fun y _ hnil => absurd hnil hgap
  cases s with
  | binding word name value =>
    exact hspaced (by simp) (hspaced (by simp) (hspaced (by simp) (hvalue value)))
  | returning word value => exact hspaced (by simp) (hvalue value)
  | bare t e => exact .singleton _

theorem head_layout (s : Statement) : ∃ x xs, layout s = x :: xs ∧ x.kind = opens s := by
  cases s with
  | binding | returning | bare => exact ⟨_, _, rfl, rfl⟩

theorem last_layout (s : Statement) :
    ∃ xs x, layout s = xs ++ [x] ∧ x.kind = closes s ∧ x.gap = [] := by
  cases s with
  | binding | returning => exact ⟨_, closing, rfl, rfl, rfl⟩
  | bare t e => exact ⟨[], valueLayout e, rfl, rfl, rfl⟩

theorem apart_layouts_iff (ss : List Statement) :
    Apart (ss.flatMap layout) ↔ ss.IsChain fun s s' => ¬ RunsInto s s' := by
  have hne : [] ∉ ss.map layout := by
    intro hmem
    rcases List.mem_map.1 hmem with ⟨s, -, hs⟩
    rcases head_layout s with ⟨x, xs, hx, -⟩
    simp [hx] at hs
  have hmeet : ∀ s s' : Statement,
      (∀ x ∈ (layout s).getLast?, ∀ y ∈ (layout s').head?, x.gap = [] → ¬ Glues x.kind y.kind) ↔
        ¬ RunsInto s s' := by
    intro s s'
    rcases last_layout s with ⟨xs, x, hlast, hcloses, hgap⟩
    rcases head_layout s' with ⟨y, ys, hhead, hopens⟩
    rw [← glues_iff, ← hcloses, ← hopens, hlast, hhead, List.getLast?_concat, List.head?_cons]
    simp [hgap]
  rw [Apart, List.flatMap_def, List.isChain_flatten hne, List.isChain_map, and_iff_right]
  · simp only [hmeet]
  · exact List.forall_mem_map.2 fun s _ => layout_apart s

end Layouts

section Texts

theorem text_bytes {ss : List Statement} (h : ∀ s ∈ ss, WellFormed s) :
    ofString (Program.mk ss).text = (ss.flatMap layout).flatMap Spaced.bytes := by
  rw [Program.text, ofString_join, List.flatMap_map, List.flatMap_assoc]
  exact List.flatMap_congr fun s hs => (layout_bytes (h s hs)).symm

end Texts

/-- A text of well-formed statements has the tokens of the statements, one statement behind the
other, exactly if none of them runs into the next one. -/
theorem text_words_iff (p : Program) (h : ∀ s ∈ p.statements, WellFormed s) :
    (Scanner.ofText p.text).tokens.1.map Token.word =
        p.statements.flatMap statementWords ++ [(.eof, "")] ↔
      p.statements.IsChain fun s s' => ¬ RunsInto s s' := by
  have hloose : Loose (p.statements.flatMap layout) := by
    intro x hx
    rcases List.mem_flatMap.1 hx with ⟨s, hs, hx⟩
    exact layout_loose (h s hs) x hx
  have hwords : (p.statements.flatMap layout).map Spaced.word =
      p.statements.flatMap statementWords := by
    rw [List.map_flatMap]
    exact List.flatMap_congr fun s hs => layout_words (h s hs)
  have hsource : Scanner.ofText p.text =
      ⟨0, [] ++ (p.statements.flatMap layout).flatMap Spaced.bytes⟩ :=
    congrArg Scanner.ofBytes (text_bytes h)
  rw [tokens_eq_words, List.map_append, List.map_singleton, ← apart_layouts_iff, ← hwords, hsource,
    ← lexed_same_words_iff hloose (n := 0) blank_nil]
  exact List.append_left_inj _

def named (text : String) : Expression := .ident ⟨⟨.ident, text, ⟨0, 0⟩⟩, text⟩

def leadingZeros : Expression := .int ⟨⟨.int, "007", ⟨0, 0⟩⟩, 7⟩

def mixed : Program where
  statements :=
    [.bare ⟨.ident, "lets", ⟨0, 0⟩⟩ (named "lets"), .bare ⟨.int, "007", ⟨0, 0⟩⟩ leadingZeros,
      .binding ⟨.letWord, "let", ⟨0, 0⟩⟩ ⟨⟨.ident, "y", ⟨0, 0⟩⟩, "y"⟩ (some leadingZeros),
      .bare ⟨.ident, "x", ⟨0, 0⟩⟩ (named "x")]

def merged : Program where
  statements := mixed.statements ++ [.returning ⟨.returnWord, "return", ⟨0, 0⟩⟩ none]

theorem text_words_iff_mixed :
    (∀ s ∈ mixed.statements, WellFormed s) ∧ mixed.text = "lets007let y = 007;x" ∧
    (Scanner.ofText mixed.text).tokens.1.map Token.word =
      [(.ident, "lets"), (.int, "007"), (.letWord, "let"), (.ident, "y"), (.assign, "="),
        (.int, "007"), (.semicolon, ";"), (.ident, "x"), (.eof, "")] ∧
    (∀ s ∈ merged.statements, WellFormed s) ∧ merged.text = "lets007let y = 007;xreturn ;" ∧
    (Scanner.ofText merged.text).tokens.1.map Token.word ≠
      merged.statements.flatMap statementWords ++ [(.eof, "")] := by
  have hmixed : ∀ s ∈ mixed.statements, WellFormed s := by
    simp [mixed, WellFormed, Spelled, IsValue, IsName, IsNumber, named, leadingZeros]
  have hmerged : ∀ s ∈ merged.statements, WellFormed s := by
    refine List.forall_mem_append.2 ⟨hmixed, ?_⟩
    simp [WellFormed, Spelled]
  refine ⟨hmixed, by decide +kernel, (text_words_iff mixed hmixed).2 (by decide), hmerged,
    by decide +kernel, fun h => ?_⟩
  exact absurd ((text_words_iff merged hmerged).1 h) (by decide)

end LetReturn.RenderedTokens
