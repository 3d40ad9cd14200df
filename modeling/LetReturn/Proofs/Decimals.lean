import LetReturn.Programs
import LetReturn.Proofs.Lexing

set_option autoImplicit false

namespace LetReturn.Decimals
open Tokens Scanning Diagnostics Programs Integers Lexemes Lexing

def digit (c : Char) : ℕ := c.toNat - '0'.toNat

/-- A digit counts for as many tens as there are digits behind it. -/
def value : List Char → ℕ
  | [] => 0
  | d :: ds => digit d * 10 ^ ds.length + value ds

def Digits (ds : List Char) : Prop := ds ≠ [] ∧ ∀ d ∈ ds, '0' ≤ d ∧ d ≤ '9'

/-- The number that digits with at most one sign before them denote. -/
inductive Denotes : List Char → ℤ → Prop where
  | unsigned {ds : List Char} (h : Digits ds) : Denotes ds (value ds)
  | plus {ds : List Char} (h : Digits ds) : Denotes ('+' :: ds) (value ds)
  | minus {ds : List Char} (h : Digits ds) : Denotes ('-' :: ds) (-value ds)

def InRange (n : ℤ) : Prop := -2 ^ 63 ≤ n ∧ n ≤ 2 ^ 63 - 1

instance : DecidablePred InRange := fun _ => inferInstanceAs (Decidable (_ ∧ _))

section Reading
variable {ds text : List Char}

theorem natural_eq_value (ds : List Char) : natural ds = value ds := by
  unfold natural
  induction ds with
  | nil => rfl
  | cons d ds ih =>
    rw [Nat.ofDigitChars_cons, Nat.ofDigitChars_eq_ofDigitChars_zero, ih, Nat.mul_zero,
      Nat.zero_add, Nat.mul_comm]
    rfl

theorem isDigit_iff_range (c : Char) : c.isDigit = true ↔ '0' ≤ c ∧ c ≤ '9' := by
  simp [Char.isDigit, Char.le_def]

theorem all_isDigit_iff (ds : List Char) :
    ds.all Char.isDigit = true ↔ ∀ d ∈ ds, '0' ≤ d ∧ d ≤ '9' := by
  simp only [List.all_eq_true, isDigit_iff_range]

theorem unsigned?_eq_some (n : ℕ) : unsigned? ds = some n ↔ Digits ds ∧ value ds = n := by
  have hdigits : (ds.isEmpty || !ds.all Char.isDigit) = true ↔ ¬ Digits ds := by
    rw [Bool.or_eq_true, List.isEmpty_iff, Bool.not_eq_true', ← Bool.not_eq_true, all_isDigit_iff,
      Digits, not_and_or, not_not]
  unfold unsigned?
  by_cases h : Digits ds
  · rw [if_neg (mt hdigits.1 (not_not.2 h)), Option.some_inj, natural_eq_value]
    exact (and_iff_right h).symm
  · rw [if_pos (hdigits.2 h)]
    exact iff_of_false nofun fun hn => h hn.1

theorem Digits.ne_sign {c : Char} (h : Digits (c :: ds)) : c ≠ '+' ∧ c ≠ '-' := by
  have hc := (h.2 c List.mem_cons_self).1
  constructor
  · rintro rfl
    exact absurd hc (by decide)
  · rintro rfl
    exact absurd hc (by decide)

theorem signed?_eq_some (n : ℤ) : signed? text = some n ↔ Denotes text n := by
  constructor
  · intro h
    unfold signed? at h
    split at h
    all_goals
      obtain ⟨m, hm, rfl⟩ := Option.map_eq_some_iff.1 h
      obtain ⟨hd, rfl⟩ := (unsigned?_eq_some m).1 hm
    · exact .plus hd
    · exact .minus hd
    · exact .unsigned hd
  · intro h
    cases h with
    | plus hd | minus hd => simp [signed?, (unsigned?_eq_some _).2 ⟨hd, rfl⟩]
    | unsigned hd =>
      unfold signed?
      split
      · exact absurd rfl hd.ne_sign.1
      · exact absurd rfl hd.ne_sign.2
      · rw [(unsigned?_eq_some _).2 ⟨hd, rfl⟩]
        rfl

theorem int64?_eq_some {text : String} (v : Int64) :
    int64? text = some v ↔ Denotes text.toList v.toInt := by
  rw [← signed?_eq_some]
  constructor
  · exact int64?_toInt
  · intro h
    unfold int64?
    rw [h]
    simp only
    rw [if_pos ⟨v.minValue_le_toInt, v.toInt_le⟩, Int64.ofInt_toInt]

theorem exists_int64?_iff (text : String) :
    (∃ v, int64? text = some v) ↔ ∃ n, Denotes text.toList n ∧ InRange n := by
  constructor
  · rintro ⟨v, hv⟩
    exact ⟨v.toInt, (int64?_eq_some v).1 hv, v.le_toInt, Int.le_sub_one_of_lt v.toInt_lt⟩
  · rintro ⟨n, hn, hword⟩
    have hvalue : (Int64.ofInt n).toInt = n :=
      Int64.toInt_ofInt_of_le hword.1 (Int.lt_of_le_sub_one hword.2)
    exact ⟨.ofInt n, (int64?_eq_some _).2 (hvalue.symm ▸ hn)⟩

end Reading

section Gathering
variable {ds : List Char} {sign : ℤ} {j k : ℕ}

def word? (n : ℤ) : Option ℤ := if InRange n then some n else none

/-- One more digit behind a number; with a minus the numbers go down. -/
def push? (sign n : ℤ) (d : Char) : Option ℤ := do
  let tens ← word? (n * 10)
  if d.isDigit then word? (tens + sign * digit d) else none

def gather? (sign : ℤ) (ds : List Char) : Option ℤ :=
  if ds = [] then none else ds.foldlM (push? sign) 0

def gathered? : List Char → Option ℤ
  | '+' :: ds => gather? 1 ds
  | '-' :: ds => gather? (-1) ds
  | ds => gather? 1 ds

theorem word?_eq_some {n m : ℤ} : word? n = some m ↔ n = m ∧ InRange m := by
  unfold word?
  split_ifs with h
  · rw [Option.some_inj]
    exact ⟨fun hm => ⟨hm, hm ▸ h⟩, And.left⟩
  · refine iff_of_false nofun ?_
    rintro ⟨rfl, hm⟩
    exact h hm

theorem InRange.of_le (hs : sign = 1 ∨ sign = -1) (h : InRange (sign * k)) (hj : j ≤ k) :
    InRange (sign * j) := by
  unfold InRange at *
  obtain rfl | rfl := hs
  · omega
  · omega

theorem push?_eq (hs : sign = 1 ∨ sign = -1) {d : Char} (hd : d.isDigit = true) (k : ℕ) :
    push? sign (sign * k) d = word? (sign * (k * 10 + digit d : ℕ)) := by
  have htens : sign * k * 10 = sign * (k * 10 : ℕ) := by
    push_cast
    ring
  have hsum : sign * (k * 10 : ℕ) + sign * digit d = sign * (k * 10 + digit d : ℕ) := by
    push_cast
    ring
  unfold push?
  rw [htens]
  by_cases h : InRange (sign * (k * 10 : ℕ))
  · simp only [word?, if_pos h, Option.bind_eq_bind, Option.bind_some, if_pos hd, hsum]
  · have hmore : ¬ InRange (sign * (k * 10 + digit d : ℕ)) :=
      fun hw => h (hw.of_le hs (Nat.le_add_right _ _))
    simp only [word?, if_neg h, if_neg hmore, Option.bind_eq_bind, Option.bind_none]

/-- What is gathered only moves away from zero, so a check on the way finds nothing that the value
of all digits does not show. -/
theorem foldlM_push? (hs : sign = 1 ∨ sign = -1) (hd : ∀ d ∈ ds, d.isDigit = true)
    (hk : InRange (sign * k)) : ds.foldlM (push? sign) (sign * k) =
      word? (sign * (k * 10 ^ ds.length + value ds : ℕ)) := by
  induction ds generalizing k with
  | nil => simp [value, word?, hk]
  | cons d ds ih =>
    rw [List.forall_mem_cons] at hd
    have hvalue : k * 10 ^ (d :: ds).length + value (d :: ds) =
        (k * 10 + digit d) * 10 ^ ds.length + value ds := by
      simp only [value, List.length_cons, pow_succ]
      ring
    rw [List.foldlM_cons, push?_eq hs hd.1, hvalue]
    by_cases h : InRange (sign * (k * 10 + digit d : ℕ))
    · simp only [word?, if_pos h, Option.bind_eq_bind, Option.bind_some]
      exact ih hd.2 h
    · have hle : k * 10 + digit d ≤ (k * 10 + digit d) * 10 ^ ds.length + value ds :=
        (Nat.le_mul_of_pos_right _ (Nat.pow_pos (by decide))).trans (Nat.le_add_right _ _)
      have hmore : ¬ InRange (sign * ((k * 10 + digit d) * 10 ^ ds.length + value ds : ℕ)) :=
        fun hw => h (hw.of_le hs hle)
      simp only [word?, if_neg h, if_neg hmore, Option.bind_eq_bind, Option.bind_none]

theorem isDigit_of_foldlM {n m : ℤ} (h : ds.foldlM (push? sign) n = some m) :
    ∀ d ∈ ds, d.isDigit = true := by
  induction ds generalizing n with
  | nil => simp
  | cons d ds ih =>
    rw [List.foldlM_cons] at h
    obtain ⟨p, hp, hrest⟩ := Option.bind_eq_some_iff.1 h
    refine List.forall_mem_cons.2 ⟨?_, ih hrest⟩
    by_contra hd
    simp [push?, hd] at hp

theorem gather?_eq_some (hs : sign = 1 ∨ sign = -1) (n : ℤ) :
    gather? sign ds = some n ↔ Digits ds ∧ n = sign * value ds ∧ InRange n := by
  have hzero : InRange (sign * (0 : ℕ)) := by
    rw [Nat.cast_zero, mul_zero]
    decide
  have hfold : (∀ d ∈ ds, d.isDigit = true) →
      (ds.foldlM (push? sign) 0 = some n ↔ n = sign * value ds ∧ InRange n) := by
    intro hd
    have hall := foldlM_push? hs hd hzero
    rw [Nat.cast_zero, mul_zero, Nat.zero_mul, Nat.zero_add] at hall
    rw [hall, word?_eq_some, eq_comm]
  unfold gather?
  split_ifs with hnil
  · exact iff_of_false nofun fun h => h.1.1 hnil
  · constructor
    · intro h
      have hd := isDigit_of_foldlM h
      exact ⟨⟨hnil, fun d hmem => (isDigit_iff_range d).1 (hd d hmem)⟩, (hfold hd).1 h⟩
    · rintro ⟨hdigits, h⟩
      exact (hfold fun d hmem => (isDigit_iff_range d).2 (hdigits.2 d hmem)).2 h

theorem gathered?_eq_some (text : List Char) (n : ℤ) :
    gathered? text = some n ↔ Denotes text n ∧ InRange n := by
  constructor
  · intro h
    unfold gathered? at h
    split at h
    · obtain ⟨hd, rfl, hn⟩ := (gather?_eq_some (.inl rfl) n).1 h
      rw [one_mul] at hn ⊢
      exact ⟨.plus hd, hn⟩
    · obtain ⟨hd, rfl, hn⟩ := (gather?_eq_some (.inr rfl) n).1 h
      rw [neg_one_mul] at hn ⊢
      exact ⟨.minus hd, hn⟩
    · obtain ⟨hd, rfl, hn⟩ := (gather?_eq_some (.inl rfl) n).1 h
      rw [one_mul] at hn ⊢
      exact ⟨.unsigned hd, hn⟩
  · rintro ⟨h, hn⟩
    cases h with
    | plus hd => exact (gather?_eq_some (.inl rfl) _).2 ⟨hd, (one_mul _).symm, hn⟩
    | minus hd => exact (gather?_eq_some (.inr rfl) _).2 ⟨hd, (neg_one_mul _).symm, hn⟩
    | unsigned hd =>
      unfold gathered?
      split
      · exact absurd rfl hd.ne_sign.1
      · exact absurd rfl hd.ne_sign.2
      · exact (gather?_eq_some (.inl rfl) _).2 ⟨hd, (one_mul _).symm, hn⟩

theorem int64?_eq_gathered (text : String) :
    (int64? text).map Int64.toInt = gathered? text.toList := by
  ext n
  rw [Option.map_eq_some_iff, gathered?_eq_some]
  constructor
  · rintro ⟨v, hv, rfl⟩
    exact ⟨(int64?_eq_some v).1 hv, v.le_toInt, Int.le_sub_one_of_lt v.toInt_lt⟩
  · rintro ⟨hn, hword⟩
    obtain ⟨v, hv⟩ := (exists_int64?_iff text).2 ⟨n, hn, hword⟩
    refine ⟨v, hv, ?_⟩
    have hread := (signed?_eq_some n).2 hn
    rw [int64?_toInt hv] at hread
    exact Option.some.inj hread

end Gathering

section Tokens
variable {source : List UInt8} {t : Token}

theorem digits_toDigits (n : ℕ) : Digits (Nat.toDigits 10 n) := by
  refine ⟨Nat.toDigits_ne_nil, fun d hd => (isDigit_iff_range d).1 ?_⟩
  exact Nat.isDigit_of_mem_toDigits (by decide) (by decide) hd

theorem value_toDigits (n : ℕ) : value (Nat.toDigits 10 n) = n := by
  rw [← natural_eq_value]
  exact Nat.ofDigitChars_ten_toDigits

theorem denotes_toString (n : ℤ) : Denotes (toString n).toList n := by
  rw [Int.toString_eq_repr]
  cases n with
  | ofNat n =>
    have h := Denotes.unsigned (digits_toDigits n)
    rw [value_toDigits] at h
    rw [Int.repr, Nat.toList_repr]
    exact h
  | negSucc n =>
    have h := Denotes.minus (digits_toDigits (n + 1))
    rw [value_toDigits] at h
    rw [Int.repr, String.toList_append, Nat.toList_repr]
    exact h

theorem digits_of_int (ht : t ∈ (Scanner.ofBytes source).tokens.1) (hk : t.kind = .int) :
    Digits t.literal.toList := by
  rw [tokens_eq_words] at ht
  obtain ht | ht := List.mem_append.1 ht
  · obtain ⟨piece, rest, hp, hl⟩ := (lexed_words (.ofBytes source)).lexeme_of_mem t ht
    obtain ⟨hne, hdigits⟩ := hp.of_number hk
    rw [hl, literal, String.toList_ofList]
    refine ⟨mt List.map_eq_nil_iff.1 hne, List.forall_mem_map.2 fun b hb => ?_⟩
    exact (isDigit_iff_range _).1 ((isDigit_iff b).2 (hdigits b hb))
  · rw [List.mem_singleton.1 ht] at hk
    cases hk

theorem Denotes.eq_value {ds : List Char} {n : ℤ} (h : Denotes ds n) (hd : Digits ds) :
    n = value ds := by
  cases h with
  | unsigned => rfl
  | plus => exact absurd rfl hd.ne_sign.1
  | minus => exact absurd rfl hd.ne_sign.2

theorem exists_inRange_iff {ds : List Char} (hd : Digits ds) :
    (∃ n, Denotes ds n ∧ InRange n) ↔ value ds ≤ 2 ^ 63 - 1 := by
  constructor
  · rintro ⟨n, hn, hrange⟩
    rw [hn.eq_value hd] at hrange
    unfold InRange at hrange
    omega
  · intro hle
    refine ⟨value ds, .unsigned hd, ?_⟩
    unfold InRange
    omega

end Tokens

section Conversion
variable {t : Token}

theorem ofToken_eq_ok (number : IntegerLiteral) : IntegerLiteral.ofToken t = .ok number ↔
    number.token = t ∧ Denotes t.literal.toList number.value.toInt := by
  unfold IntegerLiteral.ofToken
  rw [← int64?_eq_some]
  obtain ⟨token, v⟩ := number
  cases hv : int64? t.literal with
  | some w =>
    simp only [Except.ok.injEq, IntegerLiteral.mk.injEq, Option.some_inj]
    exact ⟨fun h => ⟨h.1.symm, h.2⟩, fun h => ⟨h.1.symm, h.2⟩⟩
  | none => exact iff_of_false nofun (fun h => nomatch h.2)

theorem ofToken_eq_error (d : Diagnostic) : IntegerLiteral.ofToken t = .error d ↔
    d = .invalidInteger t.literal t.span ∧
      ¬ ∃ n, Denotes t.literal.toList n ∧ InRange n := by
  rw [← exists_int64?_iff]
  unfold IntegerLiteral.ofToken
  cases hv : int64? t.literal with
  | some w => exact iff_of_false nofun fun h => h.2 ⟨w, rfl⟩
  | none =>
    simp only [Except.error.injEq]
    exact ⟨fun h => ⟨h.symm, fun h => nomatch h⟩, fun h => h.1.symm⟩

theorem exists_ofToken_iff : (∃ number, IntegerLiteral.ofToken t = .ok number) ↔
    ∃ n, Denotes t.literal.toList n ∧ InRange n := by
  rw [← exists_int64?_iff]
  simp only [ofToken_eq_ok, ← int64?_eq_some]
  constructor
  · rintro ⟨number, -, hv⟩
    exact ⟨number.value, hv⟩
  · rintro ⟨v, hv⟩
    exact ⟨⟨t, v⟩, rfl, hv⟩

end Conversion

/-- A literal is converted to the number that it denotes, if this is one of 64 bits, and refused
otherwise. The text of each such number is converted to it, and a token of a source is refused only
if it is too large. -/
theorem ofToken_exact (t : Token) :
    ((∃ number, IntegerLiteral.ofToken t = .ok number) ↔
      ∃ n, Denotes t.literal.toList n ∧ -2 ^ 63 ≤ n ∧ n ≤ 2 ^ 63 - 1) ∧
    (∀ number, IntegerLiteral.ofToken t = .ok number ↔
      number.token = t ∧ Denotes t.literal.toList number.value.toInt) ∧
    (∀ number, IntegerLiteral.ofToken t = .ok number →
      (Expression.int number).text = t.literal) ∧
    (∀ d, IntegerLiteral.ofToken t = .error d ↔ d = .invalidInteger t.literal t.span ∧
      ¬ ∃ n, Denotes t.literal.toList n ∧ -2 ^ 63 ≤ n ∧ n ≤ 2 ^ 63 - 1) ∧
    (int64? t.literal).map Int64.toInt = gathered? t.literal.toList ∧
    (∀ v : Int64, t.literal = toString v.toInt → IntegerLiteral.ofToken t = .ok ⟨t, v⟩) ∧
    ∀ source : List UInt8, t ∈ (Scanner.ofBytes source).tokens.1 → t.kind = .int →
      Digits t.literal.toList ∧
        ((∃ d, IntegerLiteral.ofToken t = .error d) ↔ 2 ^ 63 - 1 < value t.literal.toList) := by
  refine ⟨exists_ofToken_iff, ofToken_eq_ok, fun number h => ?_, ofToken_eq_error,
    int64?_eq_gathered t.literal, fun v h => ?_, fun source ht hk => ?_⟩
  · rw [Expression.text, ((ofToken_eq_ok number).1 h).1]
  · refine (ofToken_eq_ok _).2 ⟨rfl, ?_⟩
    rw [h]
    exact denotes_toString v.toInt
  · have hd := digits_of_int ht hk
    refine ⟨hd, ?_⟩
    simp only [ofToken_eq_error, exists_inRange_iff hd, not_le]
    exact ⟨fun ⟨_, _, h⟩ => h, fun h => ⟨_, rfl, h⟩⟩

def past : Token := ⟨.int, "9223372036854775808", ⟨8, 27⟩⟩

theorem ofToken_exact_past :
    (past ∈ (Scanner.ofBytes (Utf8.ofString "return -9223372036854775808;")).tokens.1 ∧
      past.kind = .int ∧ ∃ d, IntegerLiteral.ofToken past = .error d) ∧
    "-" ++ past.literal = toString Int64.minValue.toInt ∧
      IntegerLiteral.ofToken { past with literal := "-" ++ past.literal } =
        .ok ⟨{ past with literal := "-" ++ past.literal }, Int64.minValue⟩ := by
  have hmem : past ∈
      (Scanner.ofBytes (Utf8.ofString "return -9223372036854775808;")).tokens.1 := by
    decide +kernel
  have hlarge : 2 ^ 63 - 1 < value past.literal.toList := by decide +kernel
  have hmin : "-" ++ past.literal = toString Int64.minValue.toInt := by decide +kernel
  obtain ⟨-, -, -, -, -, -, htokens⟩ := ofToken_exact past
  obtain ⟨-, -, -, -, -, hcanonical, -⟩ :=
    ofToken_exact { past with literal := "-" ++ past.literal }
  exact ⟨⟨hmem, rfl, (htokens _ hmem rfl).2.2 hlarge⟩, hmin, hcanonical _ hmin⟩

end LetReturn.Decimals
