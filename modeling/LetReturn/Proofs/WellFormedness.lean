import LetReturn.Proofs.Decoding

set_option autoImplicit false

namespace LetReturn.WellFormedness
open Utf8 Characters Decoding

/-- The first bytes of a form, how many bytes follow, and the least code point that needs them. -/
structure Form where
  low : ℕ
  high : ℕ
  follow : ℕ
  least : ℕ

def forms : List Form :=
  [⟨0x00, 0x7F, 0, 0⟩, ⟨0xC0, 0xDF, 1, 0x80⟩, ⟨0xE0, 0xEF, 2, 0x800⟩, ⟨0xF0, 0xF7, 3, 0x10000⟩]

/-- The bytes of one code point `n`, in the form that the first byte announces. -/
def Spells (n : ℕ) (b : UInt8) (tail : Bytes) : Prop :=
  ∃ form ∈ forms, form.low ≤ b.toNat ∧ b.toNat ≤ form.high ∧ tail.length = form.follow ∧
    (∀ x ∈ tail, 0x80 ≤ x ∧ x ≤ 0xBF) ∧ codePoint (b.toNat - form.low) tail = n ∧
      form.least ≤ n ∧ n ≤ 0x10FFFF ∧ ¬ (0xD800 ≤ n ∧ n ≤ 0xDFFF)

inductive WellFormed : Bytes → Prop where
  | nil : WellFormed []
  | cons {n : ℕ} {b : UInt8} {tail rest : Bytes} (h : Spells n b tail) (hr : WellFormed rest) :
      WellFormed (b :: (tail ++ rest))

section Forms
variable {n : ℕ} {b : UInt8} {tail : Bytes}

theorem Spells.cases (h : Spells n b tail) :
    (b.toNat < 0x80 ∧ tail = [] ∧ n = b.toNat) ∨
    (∃ t, tail = [t] ∧ (0x80 ≤ t.toNat ∧ t.toNat ≤ 0xBF) ∧
      0xC0 ≤ b.toNat ∧ b.toNat ≤ 0xDF ∧ 0x80 ≤ n ∧
      n = (b.toNat - 0xC0) * 64 + (t.toNat - 0x80)) ∨
    (∃ t u, tail = [t, u] ∧ (0x80 ≤ t.toNat ∧ t.toNat ≤ 0xBF) ∧
      (0x80 ≤ u.toNat ∧ u.toNat ≤ 0xBF) ∧ 0xE0 ≤ b.toNat ∧ b.toNat ≤ 0xEF ∧ 0x800 ≤ n ∧
      ¬ (0xD800 ≤ n ∧ n ≤ 0xDFFF) ∧
      n = ((b.toNat - 0xE0) * 64 + (t.toNat - 0x80)) * 64 + (u.toNat - 0x80)) ∨
    ∃ t u v, tail = [t, u, v] ∧ (0x80 ≤ t.toNat ∧ t.toNat ≤ 0xBF) ∧
      (0x80 ≤ u.toNat ∧ u.toNat ≤ 0xBF) ∧ (0x80 ≤ v.toNat ∧ v.toNat ≤ 0xBF) ∧
      0xF0 ≤ b.toNat ∧ b.toNat ≤ 0xF7 ∧ 0x10000 ≤ n ∧ n ≤ 0x10FFFF ∧
      n = (((b.toNat - 0xF0) * 64 + (t.toNat - 0x80)) * 64 + (u.toNat - 0x80)) * 64 +
        (v.toNat - 0x80) := by
  obtain ⟨form, hform, hlow, hhigh, hlen, htail, hn, hleast, hmax, hscalar⟩ := h
  simp only [forms, List.mem_cons, List.not_mem_nil, or_false] at hform
  simp only [UInt8.le_iff_toNat_le, UInt8.reduceToNat] at htail
  obtain rfl | rfl | rfl | rfl := hform
  · rw [List.length_eq_zero_iff] at hlen
    subst hlen
    exact .inl ⟨Nat.lt_succ_of_le hhigh, rfl, hn.symm⟩
  · obtain ⟨t, rfl⟩ := List.length_eq_one_iff.1 hlen
    exact .inr (.inl ⟨t, rfl, htail t (by simp), hlow, hhigh, hleast, hn.symm⟩)
  · obtain ⟨t, u, rfl⟩ := List.length_eq_two.1 hlen
    exact .inr (.inr (.inl ⟨t, u, rfl, htail t (by simp), htail u (by simp), hlow, hhigh, hleast,
      hscalar, hn.symm⟩))
  · obtain ⟨t, u, v, rfl⟩ := List.length_eq_three.1 hlen
    exact .inr (.inr (.inr ⟨t, u, v, rfl, htail t (by simp), htail u (by simp), htail v (by simp),
      hlow, hhigh, hleast, hmax, hn.symm⟩))

theorem Spells.isValidChar (h : Spells n b tail) : n.isValidChar := by
  obtain ⟨form, -, -, -, -, -, -, -, hmax, hscalar⟩ := h
  unfold Nat.isValidChar
  omega

theorem Spells.encodeChar_eq (h : Spells n b tail) :
    String.utf8EncodeChar (Char.ofNat n) = b :: tail := by
  have hvalue : (Char.ofNat n).val.toNat = n := by
    change (Char.ofNat n).toNat = n
    rw [Char.toNat_ofNat, if_pos h.isValidChar]
  have hb := b.toNat_lt
  rw [String.utf8EncodeChar, hvalue]
  obtain ⟨hlow, rfl, hn⟩ | ⟨t, rfl, ht, h⟩ | ⟨t, u, rfl, ht, hu, h⟩ | ⟨t, u, v, rfl, ht, hu, hv, h⟩ :=
    h.cases
  · rw [if_pos (by omega), hn, UInt8.ofNat_toNat]
  · rw [if_neg (by omega), if_pos (by omega)]
    simp only [List.cons.injEq, ← UInt8.toNat_inj, UInt8.toNat_ofNat', and_true]
    omega
  · rw [if_neg (by omega), if_neg (by omega), if_pos (by omega)]
    simp only [List.cons.injEq, ← UInt8.toNat_inj, UInt8.toNat_ofNat', and_true]
    omega
  · rw [if_neg (by omega), if_neg (by omega), if_neg (by omega)]
    simp only [List.cons.injEq, ← UInt8.toNat_inj, UInt8.toNat_ofNat', and_true]
    omega

theorem tail_cons (low high : UInt8) {t : UInt8} {m : ℕ} {more : Bytes}
    (h : Tail 0x80 0xBF m more) (hl : low.toNat ≤ t.toNat) (hh : t.toNat ≤ high.toNat) :
    Tail low high (m + 1) (t :: more) :=
  .byte (UInt8.le_iff_toNat_le.2 hl) (UInt8.le_iff_toNat_le.2 hh) h

/-- What a first byte allows for the second one leaves out the long forms, the surrogates and the
numbers that are too large, and nothing else. -/
theorem exists_lead (h : Spells n b tail) (hb : 0x80 ≤ b.toNat) :
    ∃ lead, lead? b = some lead ∧ Tail lead.low lead.high lead.follow tail ∧
      codePoint (b.toNat - lead.base) tail = n := by
  unfold lead?
  simp only [UInt8.le_iff_toNat_le, UInt8.lt_iff_toNat_lt, ← UInt8.toNat_inj, UInt8.reduceToNat]
  obtain ⟨hlow, -⟩ | ⟨t, rfl, ht, h⟩ | ⟨t, u, rfl, ht, hu, h⟩ | ⟨t, u, v, rfl, ht, hu, hv, h⟩ :=
    h.cases
  · exact absurd hlow (Nat.not_lt.2 hb)
  · rw [if_neg (by omega), if_pos (by omega)]
    exact ⟨_, rfl, tail_cons 0x80 0xBF .none ht.1 ht.2, h.2.2.2.symm⟩
  · have hmore : Tail 0x80 0xBF 1 [u] := tail_cons 0x80 0xBF .none hu.1 hu.2
    rw [if_neg (by omega), if_neg (by omega)]
    by_cases hE0 : b.toNat = 0xE0
    · have hlow : 0xA0 ≤ t.toNat := by omega
      rw [if_pos hE0]
      exact ⟨_, rfl, tail_cons 0xA0 0xBF hmore hlow ht.2, h.2.2.2.2.symm⟩
    by_cases hED : b.toNat = 0xED
    · have hhigh : t.toNat ≤ 0x9F := by omega
      rw [if_neg hE0, if_pos hED]
      exact ⟨_, rfl, tail_cons 0x80 0x9F hmore ht.1 hhigh, h.2.2.2.2.symm⟩
    · rw [if_neg hE0, if_neg hED, if_pos (by omega)]
      exact ⟨_, rfl, tail_cons 0x80 0xBF hmore ht.1 ht.2, h.2.2.2.2.symm⟩
  · have hmore : Tail 0x80 0xBF 2 [u, v] :=
      tail_cons 0x80 0xBF (tail_cons 0x80 0xBF .none hv.1 hv.2) hu.1 hu.2
    rw [if_neg (by omega), if_neg (by omega), if_neg (by omega), if_neg (by omega),
      if_neg (by omega)]
    by_cases hF0 : b.toNat = 0xF0
    · have hlow : 0x90 ≤ t.toNat := by omega
      rw [if_pos hF0]
      exact ⟨_, rfl, tail_cons 0x90 0xBF hmore hlow ht.2, h.2.2.2.2.symm⟩
    by_cases hF3 : b.toNat ≤ 0xF3
    · rw [if_neg hF0, if_pos hF3]
      exact ⟨_, rfl, tail_cons 0x80 0xBF hmore ht.1 ht.2, h.2.2.2.2.symm⟩
    · have hhigh : t.toNat ≤ 0x8F := by omega
      rw [if_neg hF0, if_neg hF3, if_pos (by omega)]
      exact ⟨_, rfl, tail_cons 0x80 0x8F hmore ht.1 hhigh, h.2.2.2.2.symm⟩

theorem Spells.front_eq (h : Spells n b tail) (rest : Bytes) :
    front b (tail ++ rest) = (Char.ofNat n, tail.length) := by
  by_cases hb : b.toNat < 0x80
  · obtain ⟨-, rfl, rfl⟩ | ⟨_, -, -, h⟩ | ⟨_, _, -, -, -, h⟩ | ⟨_, _, _, -, -, -, -, h⟩ := h.cases
    · rw [front_ascii (UInt8.lt_iff_toNat_lt.2 hb), ← toNat_ofUInt8, Char.ofNat_toNat,
        List.length_nil]
    all_goals omega
  · obtain ⟨lead, hlead, htail, hn⟩ := exists_lead h (Nat.not_lt.1 hb)
    have hcode : assemble (b.toNat - lead.base) tail = Char.ofNat n := congrArg Char.ofNat hn
    rw [front, if_neg (by rwa [UInt8.lt_iff_toNat_lt]), hlead]
    simp only [htail.trail_eq rest, htail.length_eq, ↓reduceIte, hcode]

theorem spells_encodeChar {c : Char} (h : String.utf8EncodeChar c = b :: tail) :
    Spells c.toNat b tail := by
  have hvalid : c.toNat < 0xD800 ∨ 0xDFFF < c.toNat ∧ c.toNat < 0x110000 := c.valid
  have hvalue : c.val.toNat = c.toNat := rfl
  rw [String.utf8EncodeChar, hvalue] at h
  split_ifs at h
  all_goals cases h
  · refine ⟨⟨0x00, 0x7F, 0, 0⟩, by simp [forms], ?_⟩
    simp [UInt8.le_iff_toNat_le, UInt8.toNat_ofNat', codePoint]
    omega
  · refine ⟨⟨0xC0, 0xDF, 1, 0x80⟩, by simp [forms], ?_⟩
    simp [UInt8.le_iff_toNat_le, UInt8.toNat_ofNat', codePoint]
    omega
  · refine ⟨⟨0xE0, 0xEF, 2, 0x800⟩, by simp [forms], ?_⟩
    simp [UInt8.le_iff_toNat_le, UInt8.toNat_ofNat', codePoint]
    omega
  · refine ⟨⟨0xF0, 0xF7, 3, 0x10000⟩, by simp [forms], ?_⟩
    simp [UInt8.le_iff_toNat_le, UInt8.toNat_ofNat', codePoint]
    omega

end Forms

section Texts
variable {bytes : Bytes}

theorem wellFormed_encode (text : List Char) : WellFormed (encode text) := by
  induction text with
  | nil => exact .nil
  | cons c text ih =>
    obtain ⟨b, tail, hc⟩ := List.exists_cons_of_ne_nil (encodeChar_ne_nil c)
    rw [encode_cons, hc]
    exact .cons (spells_encodeChar hc) ih

theorem WellFormed.exists_encode (h : WellFormed bytes) : ∃ text, encode text = bytes := by
  induction h with
  | nil => exact ⟨[], rfl⟩
  | cons hn _ ih =>
    obtain ⟨text, rfl⟩ := ih
    exact ⟨_ :: text, by rw [encode_cons, hn.encodeChar_eq, List.cons_append]⟩

theorem decodeLossy_encode (text : List Char) : decodeLossy (encode text) = text := by
  induction text with
  | nil => exact decodeLossy.eq_1
  | cons c text ih =>
    obtain ⟨b, tail, hc⟩ := List.exists_cons_of_ne_nil (encodeChar_ne_nil c)
    rw [encode_cons, hc, List.cons_append, decodeLossy, (spells_encodeChar hc).front_eq,
      Char.ofNat_toNat, List.drop_left, ih]

/-- Strict decoding takes what is well formed. -/
theorem exists_decode?_iff : (∃ text, decode? bytes = some text) ↔ WellFormed bytes := by
  constructor
  · rintro ⟨text, h⟩
    rw [← decode?_eq_some.1 h]
    exact wellFormed_encode text.toList
  · intro h
    obtain ⟨text, htext⟩ := h.exists_encode
    exact ⟨String.ofList text, decode?_eq_some.2 (by rw [ofString, String.toList_ofList, htext])⟩

/-- What is well formed, and nothing else, is left as it is by decoding with replacements. -/
theorem encode_decodeLossy_eq_iff : encode (decodeLossy bytes) = bytes ↔ WellFormed bytes := by
  constructor
  · intro h
    rw [← h]
    exact wellFormed_encode _
  · intro h
    obtain ⟨text, rfl⟩ := h.exists_encode
    rw [decodeLossy_encode]

end Texts

end LetReturn.WellFormedness
