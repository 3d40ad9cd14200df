import LetReturn.Proofs.Concatenation
import LetReturn.Proofs.Tiling

set_option autoImplicit false

/-!
# Respacing

The blanks between two tokens may be changed to any other blanks, but they may not be taken away
where the second token would become part of the first. `Glues` tells which kinds of token these
are: a lexeme absorbs the first byte of the next one exactly if they glue (`absorbs_iff_glues`).
-/
namespace LetReturn.Respacing
open Tokens Scanning Programs Parsing
open Lexemes Lexing Tiling Relocation Concatenation

def IsWord (kind : Kind) : Prop := kind ∈ [.ident, .fnWord, .letWord, .returnWord]

/-- Tokens of these kinds cannot stand side by side without a blank. -/
def Glues (a b : Kind) : Prop :=
  IsWord a ∧ IsWord b ∨ a = .int ∧ b = .int ∨
    (a = .assign ∨ a = .bang) ∧ (b = .assign ∨ b = .eq)

instance : DecidablePred IsWord := fun _ => inferInstanceAs (Decidable (_ ∈ _))

instance (a b : Kind) : Decidable (Glues a b) := inferInstanceAs (Decidable (_ ∨ _))

/-- The bytes that become part of a lexeme of the kind when they stand directly behind it. -/
def Absorbs : Kind → UInt8 → Prop
  | .ident, b | .fnWord, b | .letWord, b | .returnWord, b => Letter b
  | .int, b => Digit b
  | .assign, b | .bang, b => b = 0x3D
  | _, _ => False

section Lexemes
variable {kind kind' : Kind} {piece rest : List UInt8} {b : UInt8}

theorem isWord_wordKind (run : List UInt8) : IsWord (wordKind run) := by
  unfold wordKind
  split_ifs <;> simp [IsWord]

theorem absorbs_of_isWord (h : IsWord kind) : Absorbs kind b ↔ Letter b := by
  simp only [IsWord, List.mem_cons, List.not_mem_nil, or_false] at h
  rcases h with rfl | rfl | rfl | rfl <;> rfl

theorem Symbol.plain (h : Symbol b kind) :
    ¬ IsWord kind ∧ kind ≠ .int ∧ kind ≠ .assign ∧ kind ≠ .bang ∧ kind ≠ .eq := by
  simp only [Lexemes.Symbol, symbols, List.mem_cons, Prod.mk.injEq, List.not_mem_nil, or_false] at h
  rcases h with h | h | h | h | h | h | h | h | h | h | h | h <;> simp [h.2, IsWord]

theorem Absorbs.cases (h : Absorbs kind b) : IsWord kind ∧ Letter b ∨ kind = .int ∧ Digit b ∨
    (kind = .assign ∨ kind = .bang) ∧ b = 0x3D := by
  cases kind <;> simp_all [Absorbs, IsWord]

theorem Absorbs.not_blank (h : Absorbs kind b) : ¬ Blank b := by
  obtain ⟨-, hl⟩ | ⟨-, hd⟩ | ⟨-, rfl⟩ := h.cases
  · exact hl.not_blank
  · exact hd.not_blank
  · decide

theorem not_absorbs (hl : ¬ Letter b) (hd : ¬ Digit b) (he : b ≠ 0x3D) : ¬ Absorbs kind b := by
  intro h
  obtain ⟨-, h⟩ | ⟨-, h⟩ | ⟨-, h⟩ := h.cases
  · exact hl h
  · exact hd h
  · exact he h

theorem lexeme_iff : Lexeme kind piece rest ↔
    Lexeme kind piece [] ∧ ∀ b ∈ rest.head?, ¬ Absorbs kind b := by
  constructor
  · intro h
    cases h with
    | word hne hp hr =>
      refine ⟨.word hne hp (by simp), fun b hb => ?_⟩
      rw [absorbs_of_isWord (isWord_wordKind piece)]
      exact hr b hb
    | number hne hp hr => exact ⟨.number hne hp (by simp), hr⟩
    | eq => exact ⟨.eq, fun b _ => id⟩
    | notEq => exact ⟨.notEq, fun b _ => id⟩
    | assign hr => exact ⟨.assign (by simp), fun b hb he => hr (he ▸ hb)⟩
    | bang hr => exact ⟨.bang (by simp), fun b hb he => hr (he ▸ hb)⟩
    | symbol hs =>
      refine ⟨.symbol hs, fun b _ ha => ?_⟩
      obtain ⟨hw, hi, he, hb, -⟩ := Symbol.plain hs
      obtain ⟨hk, -⟩ | ⟨hk, -⟩ | ⟨hk | hk, -⟩ := ha.cases
      · exact hw hk
      · exact hi hk
      · exact he hk
      · exact hb hk
    | stray hs => exact ⟨.stray hs, fun b _ => id⟩
  · rintro ⟨h, hr⟩
    cases h with
    | word hne hp _ =>
      refine .word hne hp fun b hb => ?_
      rw [← absorbs_of_isWord (isWord_wordKind piece)]
      exact hr b hb
    | number hne hp _ => exact .number hne hp hr
    | eq => exact .eq
    | notEq => exact .notEq
    | assign _ => exact .assign fun he => hr _ he rfl
    | bang _ => exact .bang fun he => hr _ he rfl
    | symbol hs => exact .symbol hs
    | stray hs => exact .stray hs

theorem Lexeme.before_semicolon (h : Lexeme kind piece rest) :
    Lexeme kind piece (rest ++ [0x3B]) := by
  obtain ⟨hloose, hrest⟩ := lexeme_iff.1 h
  refine lexeme_iff.2 ⟨hloose, fun b hb => ?_⟩
  cases rest with
  | nil =>
    obtain rfl := Option.some.inj hb
    exact not_absorbs (by decide) (by decide) (by decide)
  | cons c rest => exact hrest b hb

theorem Lexeme.semicolon_mem (h : Lexeme .semicolon piece rest) : 0x3B ∈ piece := by
  generalize hkind : Kind.semicolon = kind at h
  cases h with
  | word => exact absurd (hkind ▸ isWord_wordKind piece) (by decide)
  | number | eq | notEq | assign | bang | stray => cases hkind
  | @symbol b _ _ h =>
    obtain rfl := hkind
    have hmark : Char.ofUInt8 b = ';' := by simpa [Lexemes.Symbol, symbols] using h
    have hb : b = 0x3B := (ofUInt8_inj b 0x3B).1 hmark
    exact List.mem_singleton.2 hb.symm

theorem Lexeme.head_class (h : Lexeme kind piece rest) (hb : b ∈ piece.head?) :
    (Letter b ↔ IsWord kind) ∧ (Digit b ↔ kind = .int) ∧
      (b = 0x3D ↔ kind = .assign ∨ kind = .eq) := by
  have hmem := List.mem_of_mem_head? hb
  cases h with
  | word _ hp _ =>
    have hl := hp b hmem
    have hw := isWord_wordKind piece
    refine ⟨iff_of_true hl hw, iff_of_false (fun hd => hd.not_letter hl) ?_, iff_of_false ?_ ?_⟩
    · exact fun hk => absurd (hk ▸ hw) (by decide)
    · rintro rfl
      exact absurd hl (by decide)
    · rintro (hk | hk) <;> exact absurd (hk ▸ hw) (by decide)
  | number _ hp _ =>
    have hd := hp b hmem
    refine ⟨iff_of_false hd.not_letter (by decide), iff_of_true hd rfl, iff_of_false ?_ (by decide)⟩
    rintro rfl
    exact absurd hd (by decide)
  | eq | notEq | assign | bang =>
    cases hb
    decide
  | symbol hs =>
    obtain rfl := List.mem_singleton.1 hmem
    obtain ⟨-, hl, hd, he, -⟩ := hs.apart
    obtain ⟨hw, hi, ha, -, hq⟩ := Symbol.plain hs
    exact ⟨iff_of_false hl hw, iff_of_false hd hi, iff_of_false he (not_or.2 ⟨ha, hq⟩)⟩
  | stray hs =>
    obtain rfl := List.mem_singleton.1 hmem
    obtain ⟨-, hl, hd, he, -⟩ := hs
    exact ⟨iff_of_false hl (by decide), iff_of_false hd (by decide), iff_of_false he (by decide)⟩

theorem absorbs_iff_glues (h : Lexeme kind' piece rest) (hb : b ∈ piece.head?) :
    Absorbs kind b ↔ Glues kind kind' := by
  obtain ⟨hl, hd, he⟩ := Lexeme.head_class h hb
  rw [Glues, ← hl, ← hd, ← he]
  constructor
  · exact Absorbs.cases
  · rintro (⟨hk, hb⟩ | ⟨rfl, hb⟩ | ⟨rfl | rfl, hb⟩)
    · exact (absorbs_of_isWord hk).2 hb
    · exact hb
    · exact hb
    · exact hb

end Lexemes

/-- A lexeme and the blanks behind it. -/
structure Spaced where
  kind : Kind
  piece : List UInt8
  gap : List UInt8
  deriving DecidableEq, Repr

def Spaced.bytes (x : Spaced) : List UInt8 := x.piece ++ x.gap

def Spaced.word (x : Spaced) : Kind × String := (x.kind, literal x.piece)

/-- Each lexeme is one wherever nothing follows it, and nothing but blanks stands behind it. -/
def Loose (xs : List Spaced) : Prop :=
  ∀ x ∈ xs, Lexeme x.kind x.piece [] ∧ ∀ b ∈ x.gap, Blank b

def Apart (xs : List Spaced) : Prop := xs.IsChain fun x y => x.gap = [] → ¬ Glues x.kind y.kind

section Rows
variable {x : Spaced} {xs : List Spaced}

/-- What stands behind a lexeme leaves it alone exactly if it does not glue with the next one. -/
theorem not_absorbs_iff (hx : ∀ b ∈ x.gap, Blank b) (hxs : Loose xs) :
    (∀ b ∈ (x.gap ++ xs.flatMap Spaced.bytes).head?, ¬ Absorbs x.kind b) ↔
      ∀ y ∈ xs.head?, x.gap = [] → ¬ Glues x.kind y.kind := by
  cases hgap : x.gap with
  | cons b gap =>
    rw [hgap] at hx
    have hb := hx b List.mem_cons_self
    simp only [List.cons_append, List.head?_cons, Option.mem_some_iff, forall_eq']
    exact iff_of_true (fun ha => ha.not_blank hb) (by simp)
  | nil =>
    cases xs with
    | nil => simp
    | cons y ys =>
      have hy := (hxs y List.mem_cons_self).1
      obtain ⟨b, more, hpiece⟩ := List.exists_cons_of_ne_nil hy.ne_nil
      have hb : b ∈ y.piece.head? := by
        rw [hpiece]
        rfl
      simp only [List.nil_append, List.flatMap_cons, Spaced.bytes, hpiece, List.cons_append,
        List.head?_cons, Option.mem_some_iff, forall_eq', true_imp_iff]
      rw [absorbs_iff_glues hy hb]

theorem isChain_cons_iff (x : Spaced) (xs : List Spaced) :
    Apart (x :: xs) ↔ (∀ y ∈ xs.head?, x.gap = [] → ¬ Glues x.kind y.kind) ∧ Apart xs :=
  List.isChain_cons

theorem exists_lexed_of_apart (h : Loose xs) (ha : Apart xs) {n : ℕ} {front : List UInt8}
    (hf : ∀ b ∈ front, Blank b) :
    ∃ ts, Lexed n (front ++ xs.flatMap Spaced.bytes) ts ∧
      ts.map Token.word = xs.map Spaced.word := by
  induction xs generalizing n front with
  | nil =>
    rw [List.flatMap_nil, List.append_nil]
    exact ⟨[], .blanks hf, rfl⟩
  | cons x xs ih =>
    obtain ⟨⟨hlexeme, hgap⟩, hrest⟩ := List.forall_mem_cons.1 h
    obtain ⟨hnext, htail⟩ := (isChain_cons_iff x xs).1 ha
    obtain ⟨ts, hts, hwords⟩ := ih hrest htail hgap
    have hp := lexeme_iff.2 ⟨hlexeme, (not_absorbs_iff hgap hrest).2 hnext⟩
    rw [List.flatMap_cons, Spaced.bytes, List.append_assoc]
    refine ⟨_, .piece hf hp hts, ?_⟩
    rw [List.map_cons, hwords]
    rfl

theorem blanks_unique {front front' rest rest' : List UInt8} (hf : ∀ b ∈ front, Blank b)
    (hf' : ∀ b ∈ front', Blank b) (hr : ∀ b ∈ rest.head?, ¬ Blank b)
    (hr' : ∀ b ∈ rest'.head?, ¬ Blank b) (h : front ++ rest = front' ++ rest') :
    front = front' ∧ rest = rest' := by
  have hfront : front = front' := by
    rw [← takeWhile_run isBlank_iff hf hr, h, takeWhile_run isBlank_iff hf' hr']
  subst hfront
  exact ⟨rfl, List.append_cancel_left h⟩

theorem apart_of_lexed (h : Loose xs) {n : ℕ} {front : List UInt8} {ts : List Token}
    (hf : ∀ b ∈ front, Blank b) (hts : Lexed n (front ++ xs.flatMap Spaced.bytes) ts)
    (hwords : ts.map Token.word = xs.map Spaced.word) : Apart xs := by
  induction xs generalizing n front ts with
  | nil => exact .nil
  | cons x xs ih =>
    obtain ⟨⟨hlexeme, hgap⟩, hrest⟩ := List.forall_mem_cons.1 h
    rw [List.flatMap_cons, Spaced.bytes, List.append_assoc] at hts
    generalize hsource : front ++ (x.piece ++ (x.gap ++ xs.flatMap Spaced.bytes)) = source at hts
    cases hts with
    | blanks => simp at hwords
    | @piece _ gap piece rest kind ts hg hp tail =>
      obtain ⟨hword, hlater⟩ := List.cons.inj hwords
      obtain ⟨rfl, hliteral⟩ := Prod.mk.inj hword
      obtain rfl := literal_inj hliteral
      obtain ⟨b, more, hpiece⟩ := List.exists_cons_of_ne_nil hp.ne_nil
      have hhead : ∀ rest, ∀ a ∈ (x.piece ++ rest).head?, ¬ Blank a := by
        intro rest a ha
        refine hp.not_blank a (List.mem_of_mem_head? ?_)
        rwa [hpiece] at ha ⊢
      have hbehind := (blanks_unique hf hg (hhead _) (hhead _) hsource).2
      rw [← List.append_cancel_left hbehind] at hp tail
      exact (isChain_cons_iff x xs).2
        ⟨(not_absorbs_iff hgap hrest).1 (lexeme_iff.1 hp).2, ih hrest hgap tail hlater⟩

theorem lexed_same_words_iff (h : Loose xs) {n : ℕ} {front : List UInt8}
    (hf : ∀ b ∈ front, Blank b) :
    (words ⟨n, front ++ xs.flatMap Spaced.bytes⟩).map Token.word = xs.map Spaced.word ↔
      Apart xs := by
  constructor
  · exact apart_of_lexed h hf (lexed_words ⟨n, front ++ xs.flatMap Spaced.bytes⟩)
  · intro ha
    obtain ⟨ts, hts, hwords⟩ := exists_lexed_of_apart h ha (n := n) hf
    rw [hts.words_eq, hwords]

end Rows

/-- The tokens of a source, each followed by one of the gaps. -/
def spaced (source : List UInt8) (gaps : List (List UInt8)) : List (Token × List UInt8) :=
  (words (.ofBytes source)).zip gaps

/-- The bytes of the tokens with other blanks in front, between them and behind. -/
def respaced (source front : List UInt8) (gaps : List (List UInt8)) : List UInt8 :=
  front ++ (spaced source gaps).flatMap fun x => slice source x.1.span ++ x.2

def toSpaced (source : List UInt8) (x : Token × List UInt8) : Spaced :=
  ⟨x.1.kind, slice source x.1.span, x.2⟩

theorem lexeme_slice {source : List UInt8} {t : Token} (ht : t ∈ words (.ofBytes source)) :
    Lexeme t.kind (slice source t.span) [] := by
  obtain ⟨rest, hp⟩ := exists_lexeme_slice ht
  exact (lexeme_iff.1 hp).1

/-- The blanks of a source may be changed as long as no blank is lost between two tokens that
glue; then nothing else that is made of the source changes either. -/
theorem respaced_same_words_iff (source front : List UInt8) (gaps : List (List UInt8))
    (hlength : gaps.length = (words (.ofBytes source)).length) (hfront : ∀ b ∈ front, Blank b)
    (hgaps : ∀ gap ∈ gaps, ∀ b ∈ gap, Blank b) :
    let whole := Scanner.ofBytes source
    let other := Scanner.ofBytes (respaced source front gaps)
    (SameWords other whole ↔
        (spaced source gaps).IsChain fun x y => x.2 = [] → ¬ Glues x.1.kind y.1.kind) ∧
      (SameWords other whole →
        (Parse.ofScanner other).program.statements.map Statement.unplaced =
            (Parse.ofScanner whole).program.statements.map Statement.unplaced ∧
          (Parse.ofScanner other).errors = (Parse.ofScanner whole).errors) := by
  intro whole other
  refine ⟨?_, parse_same_words⟩
  have hfst : (spaced source gaps).map Prod.fst = words whole :=
    List.map_fst_zip (Nat.le_of_eq hlength.symm)
  have hmem : ∀ x ∈ spaced source gaps, x.1 ∈ words whole ∧ x.2 ∈ gaps :=
    fun x hx => List.of_mem_zip hx
  have hloose : Loose ((spaced source gaps).map (toSpaced source)) := by
    rw [Loose, List.forall_mem_map]
    intro x hx
    exact ⟨lexeme_slice (hmem x hx).1, hgaps x.2 (hmem x hx).2⟩
  have hwords : ((spaced source gaps).map (toSpaced source)).map Spaced.word =
      (words whole).map Token.word := by
    rw [← hfst, List.map_map, List.map_map]
    refine List.map_congr_left fun x hx => ?_
    rw [Function.comp_apply, Function.comp_apply, Token.word,
      (words_tiled source).spelled x.1 (hmem x hx).1]
    rfl
  have hbytes : respaced source front gaps =
      front ++ ((spaced source gaps).map (toSpaced source)).flatMap Spaced.bytes := by
    rw [respaced, List.flatMap_map]
    rfl
  have hother : other = ⟨0, _⟩ := congrArg Scanner.ofBytes hbytes
  rw [sameWords_iff, ← hwords, hother, lexed_same_words_iff hloose hfront, Apart,
    List.isChain_map]
  rfl

def signs : List UInt8 := Utf8.ofString "let x = ==1;"

def tightGaps : List (List UInt8) := [[0x20], [], [], [], [], []]

def looseGaps : List (List UInt8) := [[0x0A, 0x20], [], [0x09], [], [], [0x0D]]

theorem respaced_same_words_iff_signs :
    looseGaps.length = (words (.ofBytes signs)).length ∧
      respaced signs [0x20] looseGaps = Utf8.ofString " let\n x=\t==1;\r" ∧
      SameWords (.ofBytes (respaced signs [0x20] looseGaps)) (.ofBytes signs) ∧
      (Parse.ofScanner (.ofBytes (respaced signs [0x20] looseGaps))).errors =
        (Parse.ofScanner (.ofBytes signs)).errors ∧
      tightGaps.length = (words (.ofBytes signs)).length ∧
      respaced signs [] tightGaps = Utf8.ofString "let x===1;" ∧
      ¬ SameWords (.ofBytes (respaced signs [] tightGaps)) (.ofBytes signs) := by
  have hcount : (words (.ofBytes signs)).length = 6 := by cbv
  have hloose := respaced_same_words_iff signs [0x20] looseGaps hcount.symm
    (by simp [Blank]) (by simp [looseGaps, Blank])
  have htight := respaced_same_words_iff signs [] tightGaps hcount.symm (by simp)
    (by simp [tightGaps, Blank])
  have hsame := hloose.1.2 (by decide +kernel)
  refine ⟨hcount.symm, by decide +kernel, hsame, (hloose.2 hsame).2, hcount.symm,
    by decide +kernel, fun h => ?_⟩
  exact absurd (htight.1.1 h) (by decide +kernel)

end LetReturn.Respacing
