import LetReturn.JsonStrings
import LetReturn.Proofs.JsonGrammar
import Mathlib.Data.List.TakeWhile
import Mathlib.Tactic.IntervalCases
import Mathlib.Tactic.SplitIfs

set_option autoImplicit false

namespace LetReturn.JsonScalars
open JsonReading JsonStrings JsonNumbers JsonGrammar

section Blanks
variable {c : Char} {text behind rest : List Char}

theorem isBlank_iff_blank (c : Char) : isBlank c = true ↔ Blank c := by
  simp [isBlank, Blank, or_assoc]

theorem skipBlanks_of_not_blank (hc : ¬ Blank c) (text : List Char) :
    skipBlanks (c :: text) = c :: text := by
  rw [← isBlank_iff_blank] at hc
  simp [skipBlanks, hc]

theorem blanks_skipBlanks (text : List Char) : Blanks text (skipBlanks text) := by
  induction text with
  | nil => exact .none
  | cons c text ih =>
    by_cases hc : isBlank c = true
    · have hs : skipBlanks (c :: text) = skipBlanks text := by simp [skipBlanks, hc]
      rw [hs]
      exact .cons ((isBlank_iff_blank c).1 hc) ih
    · rw [skipBlanks_of_not_blank (by rwa [← isBlank_iff_blank])]
      exact .none

theorem Blanks.skip_eq (h : Blanks text rest) : skipBlanks text = skipBlanks rest := by
  induction h with
  | none => rfl
  | @cons c text rest hc _ ih =>
    rw [← ih]
    simp [skipBlanks, (isBlank_iff_blank c).2 hc]

theorem Blanks.skip_cons (h : Blanks text (c :: rest)) (hc : ¬ Blank c) :
    skipBlanks text = c :: rest := by
  rw [Blanks.skip_eq h, skipBlanks_of_not_blank hc]

theorem Blanks.trans (h : Blanks text behind) (h' : Blanks behind rest) : Blanks text rest := by
  induction h with
  | none => exact h'
  | cons hc _ ih => exact .cons hc (ih h')

theorem mark_sound {expected : Char} (h : mark expected text = .ok rest) :
    Blanks text (expected :: rest) := by
  have hs := blanks_skipBlanks text
  unfold mark at h
  split at h
  · cases h
  · rename_i c more he
    split at h
    · rename_i hc
      cases h
      rw [he, hc] at hs
      exact hs
    · cases h

theorem Blanks.mark_eq {expected : Char} (h : Blanks text (expected :: rest))
    (hc : ¬ Blank expected) : mark expected text = .ok rest := by
  simp [mark, Blanks.skip_cons h hc]

end Blanks

section Strings
variable {text rest : List Char}

theorem hexValue?_eq_some_iff (c : Char) (d : ℕ) : hexValue? c = some d ↔ Hex c d := by
  constructor
  · intro h
    have hrange : (48 ≤ c.toNat ∧ c.toNat ≤ 57) ∨ (97 ≤ c.toNat ∧ c.toNat ≤ 102) ∨
        (65 ≤ c.toNat ∧ c.toNat ≤ 70) := by
      unfold hexValue? at h
      simp only [Char.le_def, UInt32.le_iff_toNat_le] at h
      split_ifs at h with h1 h2 h3
      · exact .inl h1
      · exact .inr (.inl h2)
      · exact .inr (.inr h3)
    revert h
    rw [← Char.ofNat_toNat c]
    generalize c.toNat = n at hrange ⊢
    rcases hrange with h | h | h
    all_goals
      obtain ⟨hl, hu⟩ := h
      interval_cases n <;> (intro h; cases h; decide)
  · rintro ⟨hd, rfl | rfl⟩
    · interval_cases d <;> decide
    · interval_cases d <;> decide

theorem lettered?_eq_some_iff (l c : Char) : lettered? l = some c ↔ (l, c) ∈ letters := by
  unfold lettered? letters
  split <;> simp_all [eq_comm]

theorem lettered?_u : lettered? 'u' = none := rfl

theorem codeUnit_eq_ok (n : ℕ) : codeUnit text = .ok (n, rest) ↔ CodeUnit n text rest := by
  constructor
  · intro h
    unfold codeUnit at h
    split at h
    · split at h
      · rename_i ha hb hc hd
        cases h
        rw [hexValue?_eq_some_iff] at ha hb hc hd
        exact .mk ha hb hc hd
      · cases h
    · cases h
  · rintro ⟨ha, hb, hc, hd⟩
    rw [← hexValue?_eq_some_iff] at ha hb hc hd
    simp [codeUnit, ha, hb, hc, hd]

theorem exactly_eq_ok {expected : Char} :
    exactly expected text = .ok rest ↔ text = expected :: rest := by
  cases text with
  | nil => simp [exactly]
  | cons c text =>
    by_cases hc : c = expected
    · simp [exactly, hc]
    · simp [exactly, hc]

theorem passEscape_sound {behind : List Char} (h : passEscape text = .ok behind) :
    ∃ p, ∀ {ps rest}, Pieces ps behind rest → Pieces (p :: ps) ('\\' :: text) rest := by
  unfold passEscape at h
  split at h
  · cases h
  · split at h
    · rename_i c hl
      cases h
      exact ⟨.char c, .letter ((lettered?_eq_some_iff _ c).1 hl)⟩
    · split at h
      · rename_i hu
        obtain ⟨⟨n, _⟩, hn, rfl⟩ := map_eq_ok.1 h
        rw [hu]
        exact ⟨.unit n, .unit ((codeUnit_eq_ok n).1 hn)⟩
      · cases h

theorem passString_sound (h : passString text = .ok rest) : ∃ s, Pieces s text rest := by
  fun_induction passString text with
  | case1 => cases h
  | case2 more =>
    cases h
    exact ⟨[], .close⟩
  | case3 => cases h
  | case4 more behind he ih =>
    obtain ⟨p, hp⟩ := passEscape_sound he
    obtain ⟨s, hs⟩ := ih h
    exact ⟨p :: s, hp hs⟩
  | case5 => cases h
  | case6 c more hq hb hc ih =>
    obtain ⟨s, hs⟩ := ih h
    exact ⟨.char c :: s, .raw hq hb (Nat.not_lt.1 hc) hs⟩

theorem passString_escape {behind : List Char} (h : passEscape text = .ok behind) :
    passString ('\\' :: text) = passString behind := by
  rw [passString]
  split
  · rename_i he
    rw [h] at he
    cases he
  · rename_i he
    rw [h] at he
    cases he
    rfl

theorem Pieces.passString_eq {s : List Piece} (h : Pieces s text rest) :
    passString text = .ok rest := by
  induction h with
  | close => rw [passString]
  | raw hq hb hc _ ih =>
    rw [passString]
    · rw [if_neg (Nat.not_lt.2 hc), ih]
    · exact hq
    · exact hb
  | @letter l c ps text rest hl _ ih =>
    have he : passEscape (l :: text) = .ok text := by
      simp only [passEscape, (lettered?_eq_some_iff l c).2 hl]
    rw [passString_escape he, ih]
  | @unit n ps text behind rest hu _ ih =>
    have he : passEscape ('u' :: text) = .ok behind := by
      simp [passEscape, lettered?_u, (codeUnit_eq_ok n).2 hu, Except.map]
    rw [passString_escape he, ih]

theorem isLowSurrogate_iff (n : ℕ) : isLowSurrogate n = true ↔ Low n := by
  simp only [isLowSurrogate, Bool.and_eq_true, decide_eq_true_eq, Low]
  omega

theorem isHighSurrogate_iff (n : ℕ) : isHighSurrogate n = true ↔ High n := by
  simp only [isHighSurrogate, Bool.and_eq_true, decide_eq_true_eq, High]
  omega

theorem ofPair_eq (high low : ℕ) : ofPair high low = joined high low := by
  exact congrArg Char.ofNat (by omega)

theorem chars?_unit {n : ℕ} (ps : List Piece) (hlow : ¬ Low n) (hhigh : ¬ High n) :
    chars? (.unit n :: ps) = (chars? ps).map (Char.ofNat n :: ·) := by
  cases ps with
  | nil => simp [chars?, hlow, hhigh]
  | cons p ps => cases p <;> simp [chars?, hlow, hhigh]

theorem numbered_sound {c : Char} {behind : List Char} (h : numbered text = .ok (c, behind)) :
    ∃ s, ∀ {ps rest}, Pieces ps behind rest → Pieces (s ++ ps) ('\\' :: 'u' :: text) rest ∧
      chars? (s ++ ps) = (chars? ps).map (c :: ·) := by
  unfold numbered at h
  obtain ⟨⟨n, r1⟩, hn, h⟩ := bind_eq_ok.1 h
  rw [codeUnit_eq_ok] at hn
  simp only [isLowSurrogate_iff, isHighSurrogate_iff] at h
  split_ifs at h with hlow hhigh
  · obtain ⟨r2, hslash, hbehind⟩ := bind_eq_ok.1 h
    obtain ⟨r3, hu, hbehind⟩ := bind_eq_ok.1 hbehind
    obtain ⟨⟨m, r4⟩, hm, hpair⟩ := bind_eq_ok.1 hbehind
    rw [codeUnit_eq_ok] at hm
    rw [exactly_eq_ok] at hslash hu
    rw [hslash, hu] at hn
    simp only at hpair
    split_ifs at hpair with hlow'
    simp only [Except.ok.injEq, Prod.mk.injEq] at hpair
    obtain ⟨rfl, rfl⟩ := hpair
    refine ⟨[.unit n, .unit m], fun hp => ⟨.unit hn (.unit hm hp), ?_⟩⟩
    simp [chars?, hlow, hhigh, hlow', ofPair_eq]
  · simp only [Except.ok.injEq, Prod.mk.injEq] at h
    obtain ⟨rfl, rfl⟩ := h
    exact ⟨[.unit n], fun {ps _} hp => ⟨.unit hn hp, chars?_unit ps hlow hhigh⟩⟩

/-- What is read behind a backslash is one piece, or the two halves of a pair. -/
theorem escape_sound {c : Char} {behind : List Char} (h : escape text = .ok (c, behind)) :
    ∃ s, ∀ {ps rest}, Pieces ps behind rest → Pieces (s ++ ps) ('\\' :: text) rest ∧
      chars? (s ++ ps) = (chars? ps).map (c :: ·) := by
  unfold escape at h
  split at h
  · cases h
  · split at h
    · rename_i hl
      cases h
      exact ⟨[.char c], fun hp => ⟨.letter ((lettered?_eq_some_iff _ c).1 hl) hp, rfl⟩⟩
    · split at h
      · rename_i hu
        subst hu
        exact numbered_sound h
      · cases h

theorem stringTail_sound {cs : List Char} (h : stringTail text = .ok (cs, rest)) :
    ∃ s, Pieces s text rest ∧ chars? s = some cs := by
  fun_induction stringTail text generalizing cs rest with
  | case1 => cases h
  | case2 more =>
    cases h
    exact ⟨[], .close, rfl⟩
  | case3 => cases h
  | case4 more c behind he ih =>
    obtain ⟨⟨tail, r⟩, ht, hr⟩ := map_eq_ok.1 h
    cases hr
    obtain ⟨s, hs⟩ := escape_sound he
    obtain ⟨ps, hps, hcs⟩ := ih ht
    obtain ⟨hwritten, hchars⟩ := hs hps
    exact ⟨s ++ ps, hwritten, by rw [hchars, hcs]; rfl⟩
  | case5 => cases h
  | case6 c more hq hb hc ih =>
    obtain ⟨⟨tail, r⟩, ht, hr⟩ := map_eq_ok.1 h
    cases hr
    obtain ⟨ps, hps, hcs⟩ := ih ht
    exact ⟨.char c :: ps, .raw hq hb (Nat.not_lt.1 hc) hps, by rw [chars?, hcs]; rfl⟩

theorem stringTail_backslash (text : List Char) :
    stringTail ('\\' :: text) = escape text >>= fun front =>
      (stringTail front.2).map fun tail => (front.1 :: tail.1, tail.2) := by
  rw [stringTail]
  split <;> simp_all [bind, Except.bind]

theorem stringTail_escape {c : Char} {cs behind : List Char}
    (h : escape text = .ok (c, behind)) (ht : stringTail behind = .ok (cs, rest)) :
    stringTail ('\\' :: text) = .ok (c :: cs, rest) := by
  rw [stringTail_backslash, h]
  simp [bind, Except.bind, ht, Except.map]

theorem escape_unit {n : ℕ} {behind : List Char} (hu : CodeUnit n text behind)
    (hlow : ¬ Low n) (hhigh : ¬ High n) :
    escape ('u' :: text) = .ok (Char.ofNat n, behind) := by
  simp [escape, lettered?_u, numbered, (codeUnit_eq_ok n).2 hu, isLowSurrogate_iff,
    isHighSurrogate_iff, hlow, hhigh, bind, Except.bind]

theorem escape_pair {n m : ℕ} {more behind : List Char}
    (hn : CodeUnit n text ('\\' :: 'u' :: more)) (hm : CodeUnit m more behind)
    (hhigh : High n) (hlow : Low m) :
    escape ('u' :: text) = .ok (joined n m, behind) := by
  have hnot : ¬ Low n := fun h => absurd h.1 (Nat.not_le.2 hhigh.2)
  simp [escape, lettered?_u, numbered, (codeUnit_eq_ok n).2 hn, (codeUnit_eq_ok m).2 hm,
    isLowSurrogate_iff, isHighSurrogate_iff, ofPair_eq, hnot, hhigh, hlow, exactly, bind,
    Except.bind]

theorem Pieces.stringTail_eq {s : List Piece} {cs : List Char} (h : Pieces s text rest)
    (hs : chars? s = some cs) : stringTail text = .ok (cs, rest) := by
  fun_induction chars? s generalizing text cs with
  | case1 =>
    cases hs
    cases h
    rw [stringTail]
  | case2 c ps ih =>
    obtain ⟨tail, ht, rfl⟩ := Option.map_eq_some_iff.1 hs
    cases h with
    | raw hq hb hc hp =>
      rw [stringTail]
      · rw [if_neg (Nat.not_lt.2 hc), ih hp ht]
        rfl
      · exact hq
      · exact hb
    | @letter l _ _ more _ hl hp =>
      have he : escape (l :: more) = .ok (c, more) := by
        simp only [escape, (lettered?_eq_some_iff l c).2 hl]
      exact stringTail_escape he (ih hp ht)
  | case3 => cases hs
  | case4 n hlow hhigh m ps hpair ih =>
    obtain ⟨tail, ht, rfl⟩ := Option.map_eq_some_iff.1 hs
    cases h with
    | unit hn hp =>
      cases hp with
      | unit hm hp => exact stringTail_escape (escape_pair hn hm hhigh hpair) (ih hp ht)
  | case5 => cases hs
  | case6 => cases hs
  | case7 n ps hlow hhigh ih =>
    obtain ⟨tail, ht, rfl⟩ := Option.map_eq_some_iff.1 hs
    cases h with
    | unit hn hp => exact stringTail_escape (escape_unit hn hlow hhigh) (ih hp ht)

end Strings

section Numbers
variable {early : Fault} {ds text behind rest : List Char}

/-- No digit, point or exponent in front. -/
def Bounded (rest : List Char) : Prop :=
  ∀ c ∈ rest.head?, c.isDigit = false ∧ c ≠ '.' ∧ c ≠ 'e' ∧ c ≠ 'E'

theorem bounded_cons {c : Char} (h : c.isDigit = false ∧ c ≠ '.' ∧ c ≠ 'e' ∧ c ≠ 'E')
    (rest : List Char) : Bounded (c :: rest) := by
  rintro _ ⟨⟩
  exact h

theorem Blank.bounded {c : Char} (h : Blank c) (rest : List Char) : Bounded (c :: rest) := by
  apply bounded_cons
  rcases h with rfl | rfl | rfl | rfl <;> decide

theorem Blanks.bounded (h : Blanks text rest) (hr : Bounded rest) : Bounded text := by
  cases h with
  | none => exact hr
  | cons hc _ => exact Blank.bounded hc _

theorem someDigits_sound (h : someDigits early text = .ok (ds, rest)) : Digits ds text rest := by
  unfold someDigits at h
  split at h
  · cases h
  · rename_i c more
    split at h
    · rename_i hc
      cases h
      refine ⟨by simp [hc], fun d hd => List.mem_takeWhile_imp hd, ?_⟩
      rw [List.takeWhile_append_dropWhile]
    · cases h

theorem Digits.someDigits_eq (h : Digits ds text rest)
    (hr : ∀ c ∈ rest.head?, c.isDigit = false) : someDigits early text = .ok (ds, rest) := by
  obtain ⟨hne, hd, rfl⟩ := h
  obtain ⟨d, ds, rfl⟩ := List.exists_cons_of_ne_nil hne
  have htake : (d :: ds ++ rest).takeWhile Char.isDigit = d :: ds := by
    rw [List.takeWhile_append_of_pos hd]
    cases rest with
    | nil => simp
    | cons c rest => simp [hr c rfl]
  have hdrop : (d :: ds ++ rest).dropWhile Char.isDigit = rest := by
    have hsplit := List.takeWhile_append_dropWhile (p := Char.isDigit) (l := d :: ds ++ rest)
    rw [htake] at hsplit
    exact List.append_cancel_left hsplit
  have hfirst := hd d List.mem_cons_self
  rw [List.cons_append] at htake hdrop ⊢
  simp only [someDigits, hfirst, ↓reduceIte, htake, hdrop]

theorem wholePart_sound (h : wholePart early text = .ok (ds, rest)) : Whole ds text rest := by
  unfold wholePart at h
  obtain ⟨⟨digits, r⟩, hd, hz⟩ := bind_eq_ok.1 h
  simp only at hz
  split_ifs at hz with hzero
  cases hz
  refine ⟨someDigits_sound hd, fun hhead => ?_⟩
  have hone : ds.length = 1 := by
    by_contra hne
    exact hzero ⟨hhead, hne⟩
  obtain ⟨d, rfl⟩ := List.length_eq_one_iff.1 hone
  cases hhead
  rfl

theorem Whole.wholePart_eq (h : Whole ds text rest)
    (hr : ∀ c ∈ rest.head?, c.isDigit = false) : wholePart early text = .ok (ds, rest) := by
  have hz : ¬ (ds.head? = some '0' ∧ ds.length ≠ 1) := by
    rintro ⟨hhead, hlen⟩
    rw [h.2 hhead] at hlen
    exact hlen rfl
  simp [wholePart, Digits.someDigits_eq h.1 hr, bind, Except.bind, hz]

theorem fractionPart_sound {f : Option (List Char)}
    (h : fractionPart early text = .ok (f, rest)) : Fraction f text rest := by
  unfold fractionPart at h
  split at h
  · obtain ⟨⟨digits, r⟩, hd, he⟩ := map_eq_ok.1 h
    cases he
    exact .present (someDigits_sound hd)
  · cases h
    exact .absent

theorem Fraction.fractionPart_eq {f : Option (List Char)} (h : Fraction f text rest)
    (hr : ∀ c ∈ rest.head?, c.isDigit = false ∧ c ≠ '.') :
    fractionPart early text = .ok (f, rest) := by
  cases h with
  | absent =>
    unfold fractionPart
    split
    · exact absurd rfl (hr '.' rfl).2
    · rfl
  | present hd =>
    simp [fractionPart, Digits.someDigits_eq hd (fun c hc => (hr c hc).1), Except.map]

theorem sign_sound (text : List Char) : Sign (sign text).1 text (sign text).2 := by
  unfold sign
  split
  · exact .plus
  · exact .minus
  · exact .absent

theorem Sign.sign_eq {negative : Bool} (h : Sign negative text behind)
    (hd : Digits ds behind rest) : sign text = (negative, behind) := by
  cases h with
  | plus | minus => rfl
  | absent =>
    obtain ⟨hne, hd, rfl⟩ := hd
    obtain ⟨d, ds, rfl⟩ := List.exists_cons_of_ne_nil hne
    have hfirst := hd d List.mem_cons_self
    rw [List.cons_append]
    unfold sign
    split
    · rename_i he
      cases he
      cases hfirst
    · rename_i he
      cases he
      cases hfirst
    · rfl

theorem exponentPart_sound {e : Option (Bool × List Char)}
    (h : exponentPart early text = .ok (e, rest)) : Exponent e text rest := by
  unfold exponentPart at h
  split at h
  · cases h
    exact .absent
  · rename_i c more
    split at h
    · rename_i hc
      obtain ⟨⟨digits, r⟩, hd, he⟩ := map_eq_ok.1 h
      cases he
      exact .present hc (sign_sound more) (someDigits_sound hd)
    · cases h
      exact .absent

theorem Exponent.exponentPart_eq {e : Option (Bool × List Char)} (h : Exponent e text rest)
    (hr : Bounded rest) : exponentPart early text = .ok (e, rest) := by
  cases h with
  | absent =>
    cases text with
    | nil => rfl
    | cons c text =>
      obtain ⟨-, -, he, hE⟩ := hr c rfl
      simp [exponentPart, he, hE]
  | present he hs hd =>
    simp [exponentPart, he, Sign.sign_eq hs hd, Digits.someDigits_eq hd (fun c hc => (hr c hc).1),
      Except.map]

theorem minus_sound (text : List Char) : Minus (minus text).1 text (minus text).2 := by
  unfold minus
  split
  · exact .present
  · exact .absent

theorem Minus.minus_eq {negative : Bool} (h : Minus negative text behind)
    (hw : Whole ds behind rest) : minus text = (negative, behind) := by
  cases h with
  | present => rfl
  | absent =>
    obtain ⟨⟨hne, hd, rfl⟩, -⟩ := hw
    obtain ⟨d, ds, rfl⟩ := List.exists_cons_of_ne_nil hne
    have hfirst := hd d List.mem_cons_self
    rw [List.cons_append]
    unfold minus
    split
    · rename_i he
      cases he
      cases hfirst
    · rfl

theorem numeral_sound {n : Numeral} (h : numeral early text = .ok (n, rest)) :
    Number n text rest := by
  unfold numeral at h
  obtain ⟨⟨digits, r1⟩, hw, h⟩ := bind_eq_ok.1 h
  obtain ⟨⟨f, r2⟩, hf, h⟩ := bind_eq_ok.1 h
  obtain ⟨⟨e, r3⟩, he, h⟩ := bind_eq_ok.1 h
  cases h
  exact .mk (minus_sound text) (wholePart_sound hw) (fractionPart_sound hf) (exponentPart_sound he)

theorem Number.numeral_eq {n : Numeral} (h : Number n text rest) (hr : Bounded rest) :
    numeral early text = .ok (n, rest) := by
  cases h with
  | @mk negative ds f e text t1 t2 t3 rest hm hw hf he =>
    have h3 : ∀ c ∈ t3.head?, c.isDigit = false ∧ c ≠ '.' := by
      cases he with
      | absent => exact fun c hc => ⟨(hr c hc).1, (hr c hc).2.1⟩
      | present hexp _ _ =>
        rintro _ ⟨⟩
        rcases hexp with rfl | rfl <;> decide
    have h2 : ∀ c ∈ t2.head?, c.isDigit = false := by
      cases hf with
      | absent => exact fun c hc => (h3 c hc).1
      | present _ =>
        rintro _ ⟨⟩
        rfl
    simp [numeral, Minus.minus_eq hm hw, Whole.wholePart_eq hw h2, Fraction.fractionPart_eq hf h3,
      Exponent.exponentPart_eq he hr, bind, Except.bind]

end Numbers

end LetReturn.JsonScalars
