import LetReturn.Scanning
import Mathlib

set_option autoImplicit false

namespace LetReturn.Lexemes
open Tokens Scanning

def Blank (b : UInt8) : Prop := b = 0x20 ∨ b = 0x09 ∨ b = 0x0A ∨ b = 0x0D

def Letter (b : UInt8) : Prop := (0x41 ≤ b ∧ b ≤ 0x5A) ∨ (0x61 ≤ b ∧ b ≤ 0x7A) ∨ b = 0x5F

def Digit (b : UInt8) : Prop := 0x30 ≤ b ∧ b ≤ 0x39

/-- The twelve bytes that are a token whatever stands behind them. -/
def symbols : List (Char × Kind) :=
  [('+', .plus), ('-', .minus), ('*', .asterisk), ('/', .slash), ('<', .lt), ('>', .gt),
    (',', .comma), (';', .semicolon), ('(', .lparen), (')', .rparen), ('{', .lbrace),
    ('}', .rbrace)]

def Symbol (b : UInt8) (kind : Kind) : Prop := (Char.ofUInt8 b, kind) ∈ symbols

/-- A byte that belongs to no other class; `=` and `!` are 0x3D and 0x21. -/
def Stray (b : UInt8) : Prop :=
  ¬ Blank b ∧ ¬ Letter b ∧ ¬ Digit b ∧ b ≠ 0x3D ∧ b ≠ 0x21 ∧ ∀ kind, ¬ Symbol b kind

def wordKind (run : List UInt8) : Kind :=
  if run = Utf8.ofString "fn" then .fnWord
  else if run = Utf8.ofString "let" then .letWord
  else if run = Utf8.ofString "return" then .returnWord
  else .ident

/-- The bytes `piece`, directly followed by `rest`, are one token of the kind. -/
inductive Lexeme : Kind → List UInt8 → List UInt8 → Prop where
  | word {piece rest : List UInt8} (hne : piece ≠ []) (hp : ∀ b ∈ piece, Letter b)
      (hr : ∀ b ∈ rest.head?, ¬ Letter b) : Lexeme (wordKind piece) piece rest
  | number {piece rest : List UInt8} (hne : piece ≠ []) (hp : ∀ b ∈ piece, Digit b)
      (hr : ∀ b ∈ rest.head?, ¬ Digit b) : Lexeme .int piece rest
  | eq {rest : List UInt8} : Lexeme .eq [0x3D, 0x3D] rest
  | notEq {rest : List UInt8} : Lexeme .notEq [0x21, 0x3D] rest
  | assign {rest : List UInt8} (hr : rest.head? ≠ some 0x3D) : Lexeme .assign [0x3D] rest
  | bang {rest : List UInt8} (hr : rest.head? ≠ some 0x3D) : Lexeme .bang [0x21] rest
  | symbol {b : UInt8} {kind : Kind} {rest : List UInt8} (h : Symbol b kind) : Lexeme kind [b] rest
  | stray {b : UInt8} {rest : List UInt8} (h : Stray b) : Lexeme .illegal [b] rest

instance : DecidablePred Blank := fun _ => inferInstanceAs (Decidable (_ ∨ _))

instance : DecidablePred Letter := fun _ => inferInstanceAs (Decidable (_ ∨ _))

instance : DecidablePred Digit := fun _ => inferInstanceAs (Decidable (_ ∧ _))

instance (b : UInt8) (kind : Kind) : Decidable (Symbol b kind) :=
  inferInstanceAs (Decidable (_ ∈ _))

theorem stray_iff (b : UInt8) : Stray b ↔ ¬ Blank b ∧ ¬ Letter b ∧ ¬ Digit b ∧ b ≠ 0x3D ∧
    b ≠ 0x21 ∧ Char.ofUInt8 b ∉ symbols.map Prod.fst := by
  simp [Stray, Symbol]

instance : DecidablePred Stray := fun b => decidable_of_iff' _ (stray_iff b)

theorem isBlank_iff (b : UInt8) : isBlank b = true ↔ Blank b := by
  simp [isBlank, Blank, or_assoc]

theorem isLetter_iff (b : UInt8) : isLetter b = true ↔ Letter b := by
  have h5F : b.toUInt32 = 0x5F ↔ b = 0x5F := by
    rw [← UInt32.toNat_inj, ← UInt8.toNat_inj]
    simp
  simp only [isLetter, Letter, Char.isAlpha, Char.isUpper, Char.isLower, Char.ofUInt8]
  simp [UInt8.le_iff_toNat_le, UInt32.le_iff_toNat_le, Char.ext_iff, h5F, or_assoc]

theorem isDigit_iff (b : UInt8) : isDigit b = true ↔ Digit b := by
  simp [isDigit, Digit, Char.isDigit, Char.ofUInt8, UInt8.le_iff_toNat_le, UInt32.le_iff_toNat_le]

theorem toUInt8_ofUInt8 (b : UInt8) : (Char.ofUInt8 b).toUInt8 = b := by
  simp [Char.ofUInt8, Char.toUInt8]

theorem ofUInt8_inj (a b : UInt8) : Char.ofUInt8 a = Char.ofUInt8 b ↔ a = b := by
  constructor
  · intro h
    rw [← toUInt8_ofUInt8 a, h, toUInt8_ofUInt8]
  · rintro rfl
    rfl

theorem literal_eq_iff (run : List UInt8) (word : String) :
    literal run = word ↔ run.map Char.ofUInt8 = word.toList := by
  rw [literal, ← String.toList_inj, String.toList_ofList]

theorem ofWord_literal (run : List UInt8) : Kind.ofWord (literal run) = wordKind run := by
  have h : ∀ word : String, (Utf8.ofString word).map Char.ofUInt8 = word.toList →
      (literal run = word ↔ run = Utf8.ofString word) := by
    intro word hw
    rw [literal_eq_iff, ← hw]
    exact List.map_inj_right fun a b => (ofUInt8_inj a b).1
  simp only [Kind.ofWord, wordKind, h "fn" (by decide), h "let" (by decide), h "return" (by decide)]

theorem Letter.not_blank {b : UInt8} (h : Letter b) : ¬ Blank b := by
  rintro (rfl | rfl | rfl | rfl) <;> revert h <;> decide

theorem Letter.ascii {b : UInt8} (h : Letter b) : b < 0x80 := by
  simp only [Letter, UInt8.le_iff_toNat_le, UInt8.lt_iff_toNat_lt, ← UInt8.toNat_inj] at *
  simp only [UInt8.reduceToNat] at *
  omega

theorem Blank.ascii {b : UInt8} (h : Blank b) : b < 0x80 := by
  rcases h with rfl | rfl | rfl | rfl <;> decide

theorem Digit.not_blank {b : UInt8} (h : Digit b) : ¬ Blank b := by
  rintro (rfl | rfl | rfl | rfl) <;> revert h <;> decide

theorem Digit.not_letter {b : UInt8} (h : Digit b) : ¬ Letter b := by
  simp only [Digit, Letter, UInt8.le_iff_toNat_le, ← UInt8.toNat_inj] at *
  simp only [UInt8.reduceToNat] at *
  omega

theorem Symbol.of_forall {P : UInt8 → Prop} (hP : ∀ e ∈ symbols, P e.1.toUInt8) {b : UInt8}
    {kind : Kind} (h : Symbol b kind) : P b :=
  toUInt8_ofUInt8 b ▸ hP _ h

theorem Symbol.apart {b : UInt8} {kind : Kind} (h : Symbol b kind) :
    ¬ Blank b ∧ ¬ Letter b ∧ ¬ Digit b ∧ b ≠ 0x3D ∧ b ≠ 0x21 :=
  h.of_forall (P := fun b => ¬ Blank b ∧ ¬ Letter b ∧ ¬ Digit b ∧ b ≠ 0x3D ∧ b ≠ 0x21) (by decide)

theorem stray_of_high {b : UInt8} (h : b = 0 ∨ 0x80 ≤ b) : Stray b := by
  have hsym : ∀ kind, ¬ Symbol b kind := by
    intro kind hs
    have hlow : b ≠ 0 ∧ b < 0x80 := hs.of_forall (P := fun b => b ≠ 0 ∧ b < 0x80) (by decide)
    obtain h | h := h
    · exact hlow.1 h
    · exact UInt8.not_le.2 hlow.2 h
  simp only [Stray, Blank, Letter, Digit, UInt8.le_iff_toNat_le, ← UInt8.toNat_inj, ne_eq] at h ⊢
  simp only [UInt8.reduceToNat] at h ⊢
  refine ⟨by omega, by omega, by omega, by omega, by omega, hsym⟩

theorem ofSymbol?_eq_some_iff {b : UInt8} (he : b ≠ 0x3D) (hb : b ≠ 0x21) (kind : Kind) :
    Kind.ofSymbol? b = some kind ↔ Symbol b kind := by
  have he' : Char.ofUInt8 b ≠ '=' := fun h => he ((ofUInt8_inj b 0x3D).1 h)
  have hb' : Char.ofUInt8 b ≠ '!' := fun h => hb ((ofUInt8_inj b 0x21).1 h)
  unfold Kind.ofSymbol? Symbol symbols
  generalize Char.ofUInt8 b = c at he' hb'
  split <;> simp_all [eq_comm]

section Runs
variable {p : UInt8 → Bool} {P : UInt8 → Prop}

theorem takeWhile_run (hp : ∀ b, p b = true ↔ P b) {run rest : List UInt8}
    (hrun : ∀ b ∈ run, P b) (hrest : ∀ b ∈ rest.head?, ¬ P b) :
    (run ++ rest).takeWhile p = run := by
  simp only [← hp] at hrun hrest
  rw [List.takeWhile_append_of_pos hrun]
  cases rest with
  | nil => simp
  | cons b rest => simp [hrest b rfl]

theorem take_takeWhile (p : UInt8 → Bool) (bytes : List UInt8) :
    bytes.take (bytes.takeWhile p).length = bytes.takeWhile p :=
  (List.prefix_iff_eq_take.1 (List.takeWhile_prefix p)).symm

theorem drop_takeWhile (p : UInt8 → Bool) (bytes : List UInt8) :
    bytes.drop (bytes.takeWhile p).length = bytes.dropWhile p := by
  calc
    _ = (bytes.takeWhile p ++ bytes.dropWhile p).drop (bytes.takeWhile p).length := by
      rw [List.takeWhile_append_dropWhile]
    _ = bytes.dropWhile p := List.drop_left

theorem not_head_dropWhile (hp : ∀ b, p b = true ↔ P b) (bytes : List UInt8) :
    ∀ b ∈ (bytes.dropWhile p).head?, ¬ P b := by
  intro b hb
  have h := List.head?_dropWhile_not p bytes
  rw [hb] at h
  simpa [← hp] using h

theorem mem_takeWhile (hp : ∀ b, p b = true ↔ P b) (bytes : List UInt8) :
    ∀ b ∈ bytes.takeWhile p, P b := by
  intro b hb
  exact (hp b).1 (List.mem_takeWhile_imp hb)

end Runs

theorem front_word {b : UInt8} {rest : List UInt8} (h : Letter b) :
    front b rest = (wordKind (b :: rest.takeWhile isLetter), (rest.takeWhile isLetter).length) := by
  simp [front, (isLetter_iff b).2 h, ofWord_literal]

theorem front_number {b : UInt8} {rest : List UInt8} (hl : ¬ Letter b) (hd : Digit b) :
    front b rest = (.int, (rest.takeWhile isDigit).length) := by
  rw [← isLetter_iff] at hl
  simp [front, hl, (isDigit_iff b).2 hd]

theorem front_sign {b : UInt8} {rest : List UInt8} (hl : ¬ Letter b) (hd : ¬ Digit b) :
    front b rest =
      if b = 0x3D ∧ rest.head? = some 0x3D then (.eq, 1)
      else if b = 0x21 ∧ rest.head? = some 0x3D then (.notEq, 1)
      else ((Kind.ofSymbol? b).getD .illegal, 0) := by
  rw [← isLetter_iff] at hl
  rw [← isDigit_iff] at hd
  have he : ∀ a : UInt8, Char.ofUInt8 a = '=' ↔ a = 0x3D := fun a => ofUInt8_inj a 0x3D
  have hb : ∀ a : UInt8, Char.ofUInt8 a = '!' ↔ a = 0x21 := fun a => ofUInt8_inj a 0x21
  unfold front
  rw [if_neg hl, if_neg hd]
  split
  · simp_all
  · simp_all
  · rename_i h1 h2
    rw [if_neg, if_neg]
    · rintro ⟨rfl, hr⟩
      exact h2 rfl (by rw [hr]; rfl)
    · rintro ⟨rfl, hr⟩
      exact h1 rfl (by rw [hr]; rfl)

theorem front_stray {b : UInt8} {rest : List UInt8} (h : Stray b) :
    front b rest = (.illegal, 0) := by
  obtain ⟨-, hl, hd, he, hb, hs⟩ := h
  have hn : Kind.ofSymbol? b = none := by
    rw [Option.eq_none_iff_forall_ne_some]
    exact fun kind hk => hs kind ((ofSymbol?_eq_some_iff he hb kind).1 hk)
  rw [front_sign hl hd, if_neg (fun h => he h.1), if_neg (fun h => hb h.1), hn]
  rfl

theorem front_symbol {b : UInt8} {kind : Kind} {rest : List UInt8} (h : Symbol b kind) :
    front b rest = (kind, 0) := by
  obtain ⟨-, hl, hd, he, hb⟩ := h.apart
  rw [front_sign hl hd, if_neg (fun h => he h.1), if_neg (fun h => hb h.1),
    (ofSymbol?_eq_some_iff he hb kind).2 h]
  rfl

theorem lexeme_front_sign {b : UInt8} (h : b = 0x3D ∨ b = 0x21) (rest : List UInt8) :
    Lexeme (front b rest).1 (b :: rest.take (front b rest).2) (rest.drop (front b rest).2) := by
  by_cases hr : rest.head? = some 0x3D
  · obtain ⟨after, rfl⟩ := List.head?_eq_some_iff.1 hr
    obtain rfl | rfl := h
    · rw [front_sign (by decide) (by decide)]
      exact .eq
    · rw [front_sign (by decide) (by decide)]
      exact .notEq
  · obtain rfl | rfl := h
    · rw [front_sign (by decide) (by decide), if_neg (fun h => hr h.2), if_neg (by simp)]
      exact .assign hr
    · rw [front_sign (by decide) (by decide), if_neg (by simp), if_neg (fun h => hr h.2)]
      exact .bang hr

theorem lexeme_front {b : UInt8} (rest : List UInt8) (h : ¬ Blank b) :
    Lexeme (front b rest).1 (b :: rest.take (front b rest).2) (rest.drop (front b rest).2) := by
  by_cases hl : Letter b
  · rw [front_word hl]
    simp only [take_takeWhile, drop_takeWhile]
    refine .word (by simp) ?_ (not_head_dropWhile isLetter_iff rest)
    rw [List.forall_mem_cons]
    exact ⟨hl, mem_takeWhile isLetter_iff rest⟩
  by_cases hd : Digit b
  · rw [front_number hl hd]
    simp only [take_takeWhile, drop_takeWhile]
    refine .number (by simp) ?_ (not_head_dropWhile isDigit_iff rest)
    rw [List.forall_mem_cons]
    exact ⟨hd, mem_takeWhile isDigit_iff rest⟩
  by_cases hs : ∃ kind, Symbol b kind
  · obtain ⟨kind, hs⟩ := hs
    rw [front_symbol hs]
    exact .symbol hs
  by_cases hsign : b = 0x3D ∨ b = 0x21
  · exact lexeme_front_sign hsign rest
  · rw [not_or] at hsign
    have hstray : Stray b := ⟨h, hl, hd, hsign.1, hsign.2, not_exists.1 hs⟩
    rw [front_stray hstray]
    exact .stray hstray

theorem Lexeme.front_eq {kind : Kind} {piece rest : List UInt8} (h : Lexeme kind piece rest) :
    ∃ b more, piece = b :: more ∧ ¬ Blank b ∧ front b (more ++ rest) = (kind, more.length) := by
  cases h with
  | word hne hp hr =>
    obtain ⟨b, more, rfl⟩ := List.exists_cons_of_ne_nil hne
    obtain ⟨hb, hmore⟩ := List.forall_mem_cons.1 hp
    refine ⟨b, more, rfl, hb.not_blank, ?_⟩
    rw [front_word hb, takeWhile_run isLetter_iff hmore hr]
  | number hne hp hr =>
    obtain ⟨b, more, rfl⟩ := List.exists_cons_of_ne_nil hne
    obtain ⟨hb, hmore⟩ := List.forall_mem_cons.1 hp
    refine ⟨b, more, rfl, hb.not_blank, ?_⟩
    rw [front_number hb.not_letter hb, takeWhile_run isDigit_iff hmore hr]
  | eq => exact ⟨0x3D, [0x3D], rfl, by decide, by rw [front_sign (by decide) (by decide)]; rfl⟩
  | notEq => exact ⟨0x21, [0x3D], rfl, by decide, by rw [front_sign (by decide) (by decide)]; rfl⟩
  | assign hr =>
    refine ⟨0x3D, [], rfl, by decide, ?_⟩
    rw [front_sign (by decide) (by decide), List.nil_append, if_neg (fun h => hr h.2),
      if_neg (by simp)]
    rfl
  | bang hr =>
    refine ⟨0x21, [], rfl, by decide, ?_⟩
    rw [front_sign (by decide) (by decide), if_neg (by simp), if_neg (fun h => hr h.2)]
    rfl
  | symbol h => exact ⟨_, [], rfl, h.apart.1, front_symbol h⟩
  | stray h => exact ⟨_, [], rfl, h.1, front_stray h⟩

theorem Lexeme.ne_nil {kind : Kind} {piece rest : List UInt8} (h : Lexeme kind piece rest) :
    piece ≠ [] := by
  obtain ⟨b, more, rfl, -, -⟩ := h.front_eq
  exact List.cons_ne_nil b more

theorem Lexeme.not_blank {kind : Kind} {piece rest : List UInt8} (h : Lexeme kind piece rest) :
    ∀ b ∈ piece, ¬ Blank b := by
  cases h with
  | word _ hp _ => exact fun b hb => (hp b hb).not_blank
  | number _ hp _ => exact fun b hb => (hp b hb).not_blank
  | eq | notEq | assign | bang => simp [Blank]
  | symbol h => exact fun b hb => List.mem_singleton.1 hb ▸ h.apart.1
  | stray h => exact fun b hb => List.mem_singleton.1 hb ▸ h.1

theorem Lexeme.kind_ne_eof {kind : Kind} {piece rest : List UInt8} (h : Lexeme kind piece rest) :
    kind ≠ .eof := by
  obtain ⟨b, more, -, -, hf⟩ := h.front_eq
  have hk := Scanner.front_kind_ne_eof b (more ++ rest)
  rwa [hf] at hk

theorem Lexeme.of_word {kind : Kind} {piece rest : List UInt8} (h : Lexeme kind piece rest)
    (hk : kind = .ident ∨ kind = .letWord ∨ kind = .returnWord) :
    piece ≠ [] ∧ (∀ b ∈ piece, Letter b) ∧ Kind.ofWord (literal piece) = kind := by
  cases h with
  | word hne hp _ => exact ⟨hne, hp, ofWord_literal piece⟩
  | symbol hs =>
    rcases hk with rfl | rfl | rfl <;> simp [Symbol, symbols] at hs
  | number | eq | notEq | assign | bang | stray => simp at hk

theorem Lexeme.of_number {kind : Kind} {piece rest : List UInt8} (h : Lexeme kind piece rest)
    (hk : kind = .int) : piece ≠ [] ∧ ∀ b ∈ piece, Digit b := by
  cases h with
  | number hne hp _ => exact ⟨hne, hp⟩
  | word =>
    unfold wordKind at hk
    split_ifs at hk
  | symbol hs =>
    subst hk
    simp [Symbol, symbols] at hs
  | eq | notEq | assign | bang | stray => cases hk

end LetReturn.Lexemes
