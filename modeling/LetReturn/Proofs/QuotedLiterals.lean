import LetReturn.JsonStrings
import LetReturn.Programs
import Mathlib.Data.List.Basic
import Mathlib.Tactic.Common
import Mathlib.Tactic.SplitIfs

set_option autoImplicit false

namespace LetReturn.QuotedLiterals
open Tokens Diagnostics Programs Quoting
open JsonStrings (hexValue?)

def IsControl (c : Char) : Prop := c.toNat ≤ 0x1F ∨ (0x7F ≤ c.toNat ∧ c.toNat ≤ 0x9F)

def letters : List (Char × Char) :=
  [('"', '"'), ('\\', '\\'), ('0', '\x00'), ('t', '\t'), ('n', '\n'), ('r', '\r')]

/-- The characters that a text stands for up to its closing quote, and what is behind that quote.
All other quotes, and all backslashes, are parts of escapes. -/
inductive Quoted : List Char → List Char → List Char → Prop where
  | close {rest : List Char} : Quoted [] ('"' :: rest) rest
  | raw {c : Char} {chars text rest : List Char} (hq : c ≠ '"') (hb : c ≠ '\\')
      (tail : Quoted chars text rest) : Quoted (c :: chars) (c :: text) rest
  | letter {l c : Char} {chars text rest : List Char} (hl : (l, c) ∈ letters)
      (tail : Quoted chars text rest) : Quoted (c :: chars) ('\\' :: l :: text) rest
  | number {c : Char} {chars text rest : List Char} (tail : Quoted chars text rest) :
      Quoted (c :: chars)
        ('\\' :: 'u' :: '{' :: (Nat.toDigits 16 c.toNat ++ '}' :: text)) rest

/-- How much of an escape has been read. -/
inductive Stage where
  | plain | backslash | mark
  | digits (n : ℕ)

def read : Stage → List Char → Option (List Char × List Char)
  | _, [] => none
  | .plain, c :: text =>
    if c = '"' then some ([], text)
    else if c = '\\' then read .backslash text
    else (read .plain text).map (Prod.map (c :: ·) id)
  | .backslash, l :: text =>
    if l = 'u' then read .mark text
    else (letters.lookup l).bind fun c => (read .plain text).map (Prod.map (c :: ·) id)
  | .mark, c :: text => if c = '{' then read (.digits 0) text else none
  | .digits n, c :: text =>
    if c = '}' then (read .plain text).map (Prod.map (Char.ofNat n :: ·) id)
    else (hexValue? c).bind fun d => read (.digits (16 * n + d)) text

/-- The literal that the message of an integer error is about. -/
def literal? (message : String) : Option String :=
  (message.toList.dropPrefix? "could not parse \"".toList).bind fun text =>
    (read .plain text).bind fun quoted =>
      if quoted.2 = " as integer".toList then some (String.ofList quoted.1) else none

section Reading
variable {chars text rest : List Char}

theorem read_digit {d : ℕ} (hd : d < 16) (n : ℕ) (text : List Char) :
    read (.digits n) (d.digitChar :: text) = read (.digits (16 * n + d)) text := by
  have hvalue : ∀ d < 16, d.digitChar ≠ '}' ∧ hexValue? d.digitChar = some d := by decide
  obtain ⟨hclose, hhex⟩ := hvalue d hd
  rw [read, if_neg hclose, hhex, Option.bind_some]

theorem read_toDigits (n : ℕ) (text : List Char) :
    read (.digits 0) (Nat.toDigits 16 n ++ text) = read (.digits n) text := by
  induction n using Nat.strongRecOn generalizing text with
  | ind n ih =>
    -- The last digit is the one that is read last, and the digits before it are those of `n / 16`.
    by_cases hn : n < 16
    · rw [Nat.toDigits_of_lt_base hn, List.singleton_append, read_digit hn, Nat.mul_zero,
        Nat.zero_add]
    · have hdigit : n % 16 < 16 := Nat.mod_lt n (by decide)
      rw [Nat.toDigits_of_base_le (by decide) (Nat.not_lt.1 hn), List.append_assoc,
        ih (n / 16) (by omega), List.singleton_append, read_digit hdigit, Nat.div_add_mod]

theorem lookup_letters {l c : Char} (h : (l, c) ∈ letters) :
    l ≠ 'u' ∧ letters.lookup l = some c := by
  have hall : ∀ p ∈ letters, p.1 ≠ 'u' ∧ letters.lookup p.1 = some p.2 := by decide
  exact hall (l, c) h

theorem Quoted.read_eq (h : Quoted chars text rest) : read .plain text = some (chars, rest) := by
  induction h with
  | close => rfl
  | raw hq hb _ ih =>
    rw [read, if_neg hq, if_neg hb, ih]
    rfl
  | letter hl _ ih =>
    obtain ⟨hu, hlookup⟩ := lookup_letters hl
    rw [read, if_neg (by decide), if_pos rfl, read, if_neg hu, hlookup, Option.bind_some, ih]
    rfl
  | number _ ih =>
    rw [read, if_neg (by decide), if_pos rfl, read, if_pos rfl, read, if_pos rfl, read_toDigits,
      read, if_pos rfl, ih, Char.ofNat_toNat]
    rfl

theorem Quoted.iff_eq (h : Quoted chars text rest) (chars' rest' : List Char) :
    Quoted chars' text rest' ↔ chars' = chars ∧ rest' = rest := by
  constructor
  · intro h'
    have hread := h'.read_eq
    rw [h.read_eq, Option.some_inj, Prod.mk.injEq] at hread
    exact ⟨hread.1.symm, hread.2.symm⟩
  · rintro ⟨rfl, rfl⟩
    exact h

end Reading

section Writing
variable {chars text rest : List Char}

theorem quoted_escape (c : Char) (h : Quoted chars text rest) :
    Quoted (c :: chars) (escape c ++ text) rest := by
  unfold escape
  split
  · exact .letter (by decide) h
  · exact .letter (by decide) h
  · exact .letter (by decide) h
  · exact .letter (by decide) h
  · exact .letter (by decide) h
  · exact .letter (by decide) h
  · rename_i hquote hslash _ _ _ _
    split_ifs
    · rw [codePoint, List.cons_append, List.cons_append, List.cons_append, List.append_assoc]
      exact .number h
    · exact .raw hquote hslash h

theorem quoted_escapes (text : String) (rest : List Char) :
    Quoted text.toList (text.toList.flatMap escape ++ '"' :: rest) rest := by
  induction text.toList with
  | nil => exact .close
  | cons c cs ih =>
    rw [List.flatMap_cons, List.append_assoc]
    exact quoted_escape c ih

end Writing

section Controls

def Shown (text : List Char) : Prop := ∀ c ∈ text, isHidden c = false

/-- The characters of ASCII from the space to the tilde. -/
def isPlain (c : Char) : Bool := 0x20 ≤ c.toNat && c.toNat ≤ 0x7E

theorem isHidden_of_isPlain {c : Char} (h : isPlain c = true) : isHidden c = false := by
  have hapart : ∀ range ∈ Quoting.hidden, range.2 < 0x20 ∨ 0x7E < range.1 := by decide +kernel
  simp only [isPlain, Bool.and_eq_true, decide_eq_true_eq] at h
  rw [isHidden, List.any_eq_false]
  intro range hrange
  have hbeside := hapart range hrange
  simp only [Bool.and_eq_true, decide_eq_true_eq]
  omega

theorem shown_of_plain {text : List Char} (h : text.all isPlain = true) : Shown text :=
  fun c hc => isHidden_of_isPlain (List.all_eq_true.1 h c hc)

theorem isHidden_of_isControl {c : Char} (h : IsControl c) : isHidden c = true := by
  rw [isHidden, List.any_eq_true]
  obtain hlow | ⟨hlow, hhigh⟩ := h
  · exact ⟨(0x0000, 0x001F), by decide, by simpa using hlow⟩
  · refine ⟨(0x007F, 0x00A0), by decide, ?_⟩
    rw [Bool.and_eq_true, decide_eq_true_iff, decide_eq_true_iff]
    exact ⟨hlow, by omega⟩

theorem Shown.not_isControl {text : List Char} (h : Shown text) : ∀ c ∈ text, ¬ IsControl c := by
  intro c hc hcontrol
  have hshown := h c hc
  rw [isHidden_of_isControl hcontrol] at hshown
  cases hshown

theorem shown_toDigits (n : ℕ) : Shown (Nat.toDigits 16 n) := by
  have hplain : ∀ d < 16, isPlain d.digitChar = true := by decide
  induction n using Nat.strongRecOn with
  | ind n ih =>
    by_cases hn : n < 16
    · rw [Nat.toDigits_of_lt_base hn]
      exact List.forall_mem_singleton.2 (isHidden_of_isPlain (hplain n hn))
    · have hlast := isHidden_of_isPlain (hplain (n % 16) (Nat.mod_lt n (by decide)))
      rw [Nat.toDigits_of_base_le (by decide) (Nat.not_lt.1 hn)]
      exact List.forall_mem_append.2 ⟨ih (n / 16) (by omega), List.forall_mem_singleton.2 hlast⟩

theorem shown_codePoint (c : Char) : Shown (codePoint c) := by
  have hfront : Shown ['\\', 'u', '{'] := shown_of_plain rfl
  have hbrace : Shown ['}'] := shown_of_plain rfl
  have hdigits : Shown (Nat.toDigits 16 c.toNat ++ ['}']) :=
    List.forall_mem_append.2 ⟨shown_toDigits c.toNat, hbrace⟩
  exact List.forall_mem_append.2 ⟨hfront, hdigits⟩

theorem shown_escape (c : Char) : Shown (escape c) := by
  unfold escape
  split
  · exact shown_of_plain rfl
  · exact shown_of_plain rfl
  · exact shown_of_plain rfl
  · exact shown_of_plain rfl
  · exact shown_of_plain rfl
  · exact shown_of_plain rfl
  · split_ifs with hhidden
    · exact shown_codePoint c
    · exact List.forall_mem_singleton.2 (Bool.not_eq_true _ ▸ hhidden)

theorem shown_quote (text : String) : Shown (quote text).toList := by
  have hmark : isHidden '"' = false := isHidden_of_isPlain rfl
  rw [Shown, quote, String.toList_ofList, List.forall_mem_cons, List.forall_mem_append,
    List.forall_mem_flatMap, List.forall_mem_singleton]
  exact ⟨hmark, fun c _ => shown_escape c, hmark⟩

end Controls

section Messages
variable (literal : String) (span : Span)

theorem message_eq : (Diagnostic.invalidInteger literal span).message =
    "could not parse " ++ quote literal ++ " as integer" := rfl

theorem shown_message : Shown (Diagnostic.invalidInteger literal span).message.toList := by
  have hfront : Shown "could not parse ".toList := shown_of_plain rfl
  have hend : Shown " as integer".toList := shown_of_plain rfl
  rw [message_eq, String.toList_append, String.toList_append]
  exact List.forall_mem_append.2 ⟨List.forall_mem_append.2 ⟨hfront, shown_quote literal⟩, hend⟩

def quotation : List Char := literal.toList.flatMap escape ++ '"' :: " as integer".toList

theorem message_toList : (Diagnostic.invalidInteger literal span).message.toList =
    "could not parse \"".toList ++ quotation literal := by
  rw [message_eq]
  simp [quote, quotation]

theorem quoted_quotation : Quoted literal.toList (quotation literal) " as integer".toList :=
  quoted_escapes literal _

theorem literal?_message :
    literal? (Diagnostic.invalidInteger literal span).message = some literal := by
  have htext := List.dropPrefix?_append_of_beq (quotation literal)
    (BEq.refl "could not parse \"".toList)
  have hbehind : (literal.toList, " as integer".toList).2 = " as integer".toList := rfl
  rw [literal?, message_toList, htext, Option.bind_some, (quoted_quotation literal).read_eq,
    Option.bind_some, if_pos hbehind, String.ofList_toList]

end Messages

/-- No message of an integer error has a control character, what it has in quotes can be read in one
way only, and this gives its literal. So the messages of two literals are not the same. -/
theorem literal_read_back (literal : String) (span : Span) :
    let message := (Diagnostic.invalidInteger literal span).message
    (∀ c ∈ message.toList, ¬ IsControl c) ∧
    (∃ text, message.toList = "could not parse \"".toList ++ text ∧
      ∀ chars rest, Quoted chars text rest ↔
        chars = literal.toList ∧ rest = " as integer".toList) ∧
    literal? message = some literal ∧
    ∀ (literal' : String) (span' : Span),
      (Diagnostic.invalidInteger literal' span').message = message ↔ literal' = literal := by
  intro message
  refine ⟨(shown_message literal span).not_isControl, ?_, literal?_message literal span,
    fun literal' span' => ?_⟩
  · exact ⟨quotation literal, message_toList literal span, (quoted_quotation literal).iff_eq⟩
  · constructor
    · intro hsame
      have hread := literal?_message literal' span'
      rw [hsame, literal?_message literal span] at hread
      exact (Option.some.inj hread).symm
    · rintro rfl
      rfl

def lookalike : String := "\\u\x7b7f\x7d\"\x7f\n"

theorem literal_read_back_lookalike :
    let message := (Diagnostic.invalidInteger lookalike ⟨0, 9⟩).message
    message = "could not parse \"\\\\u\x7b7f\x7d\\\"\\u\x7b7f\x7d\\n\" as integer" ∧
    ('}' ∈ message.toList ∧ ¬ IsControl '}') ∧ literal? message = some lookalike ∧
    (Diagnostic.invalidInteger "\x7f\"\x7f\n" ⟨0, 9⟩).message ≠ message := by
  obtain ⟨hcontrols, -, hread, hsame⟩ := literal_read_back lookalike ⟨0, 9⟩
  have hbrace : '}' ∈ (Diagnostic.invalidInteger lookalike ⟨0, 9⟩).message.toList := by
    decide +kernel
  refine ⟨by decide +kernel, ⟨hbrace, hcontrols _ hbrace⟩, hread, fun h => ?_⟩
  exact absurd ((hsame _ _).1 h) (by decide)

end LetReturn.QuotedLiterals
