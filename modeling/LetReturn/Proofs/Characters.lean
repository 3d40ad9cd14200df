import LetReturn.Utf8
import Mathlib

set_option autoImplicit false

namespace LetReturn.Characters
open Utf8

theorem high_ofNat {n : ℕ} (hl : 0x80 ≤ n) (hu : n < 256) : 0x80 ≤ UInt8.ofNat n := by
  simp only [UInt8.le_iff_toNat_le, UInt8.toNat_ofNat', UInt8.reduceToNat]
  omega

theorem toNat_ofUInt8 (b : UInt8) : (Char.ofUInt8 b).toNat = b.toNat := by
  simp [Char.ofUInt8, Char.toNat]

/-- A character is one ASCII byte, or has no ASCII byte. -/
theorem ascii_or_high (c : Char) :
    (∃ b : UInt8, b < 0x80 ∧ c = Char.ofUInt8 b ∧ String.utf8EncodeChar c = [b]) ∨
      ∀ b ∈ String.utf8EncodeChar c, 0x80 ≤ b := by
  unfold String.utf8EncodeChar
  by_cases h : c.val.toNat ≤ 0x7F
  · refine .inl ⟨UInt8.ofNat c.val.toNat, ?_, ?_, if_pos h⟩
    · simp only [UInt8.lt_iff_toNat_lt, UInt8.toNat_ofNat', UInt8.reduceToNat]
      omega
    · rw [Char.ext_iff, ← UInt32.toNat_inj]
      simp only [Char.ofUInt8, UInt8.toNat_toUInt32, UInt8.toNat_ofNat']
      omega
  · right
    simp only [h, ↓reduceIte]
    split_ifs
    all_goals
      intro b hb
      simp only [List.mem_cons, List.not_mem_nil, or_false] at hb
    · obtain rfl | rfl := hb <;> exact high_ofNat (by omega) (by omega)
    · obtain rfl | rfl | rfl := hb <;> exact high_ofNat (by omega) (by omega)
    · obtain rfl | rfl | rfl | rfl := hb <;> exact high_ofNat (by omega) (by omega)

theorem encodeChar_ne_nil (c : Char) : String.utf8EncodeChar c ≠ [] := by
  rw [← List.length_pos_iff, String.length_utf8EncodeChar]
  exact c.utf8Size_pos

theorem encode_cons (c : Char) (text : List Char) :
    encode (c :: text) = String.utf8EncodeChar c ++ encode text := by
  simp [encode]

theorem ofString_join_cons (text : String) (texts : List String) :
    ofString (String.join (text :: texts)) = ofString text ++ ofString (String.join texts) := by
  rw [String.join_cons, ofString_append]

theorem ofString_join (texts : List String) :
    ofString (String.join texts) = texts.flatMap ofString := by
  induction texts with
  | nil => rfl
  | cons text texts ih => rw [ofString_join_cons, ih, List.flatMap_cons]

theorem mem_of_mem_encode {b : UInt8} {text : List Char} (hb : b < 0x80) (h : b ∈ encode text) :
    Char.ofUInt8 b ∈ text := by
  obtain ⟨c, hc, hmem⟩ := List.mem_flatMap.1 h
  obtain ⟨a, -, rfl, ha⟩ | hhigh := ascii_or_high c
  · rw [ha, List.mem_singleton] at hmem
    rwa [hmem]
  · exact absurd hb (UInt8.not_lt.2 (hhigh b hmem))

theorem encodeChar_ascii {b : UInt8} (h : b < 0x80) :
    String.utf8EncodeChar (Char.ofUInt8 b) = [b] := by
  have hv : (Char.ofUInt8 b).val.toNat = b.toNat := toNat_ofUInt8 b
  simp only [UInt8.lt_iff_toNat_lt, UInt8.reduceToNat] at h
  rw [String.utf8EncodeChar, hv, if_pos (by omega), UInt8.ofNat_toNat]

theorem encode_ascii {run : Bytes} (h : ∀ b ∈ run, b < 0x80) :
    encode (run.map Char.ofUInt8) = run := by
  induction run with
  | nil => rfl
  | cons b run ih =>
    rw [List.map_cons, encode_cons, encodeChar_ascii (h b List.mem_cons_self),
      ih fun a ha => h a (List.mem_cons_of_mem b ha), List.singleton_append]

theorem ofUInt8_toUInt8 {c : Char} (h : c.toNat < 0x80) : Char.ofUInt8 c.toUInt8 = c := by
  rw [Char.ext_iff, ← UInt32.toNat_inj]
  change (c.val.toUInt8.toUInt32).toNat = c.val.toNat
  rw [UInt8.toNat_toUInt32, UInt32.toNat_toUInt8]
  exact Nat.mod_eq_of_lt (Nat.lt_trans h (by decide))

section Texts
variable {text : String}

theorem toUInt8_ascii (h : ∀ c ∈ text.toList, c.toNat < 0x80) :
    ∀ b ∈ text.toList.map Char.toUInt8, b < 0x80 := by
  rw [List.forall_mem_map]
  intro c hc
  have hlow := h c hc
  rw [UInt8.lt_iff_toNat_lt, Char.toUInt8, UInt32.toNat_toUInt8]
  exact Nat.lt_of_le_of_lt (Nat.mod_le _ _) hlow

theorem map_toUInt8 (h : ∀ c ∈ text.toList, c.toNat < 0x80) :
    (text.toList.map Char.toUInt8).map Char.ofUInt8 = text.toList := by
  rw [List.map_map]
  exact (List.map_congr_left fun c hc => ofUInt8_toUInt8 (h c hc)).trans (List.map_id' _)

theorem ofString_eq_map (h : ∀ c ∈ text.toList, c.toNat < 0x80) :
    ofString text = text.toList.map Char.toUInt8 := by
  have hbytes := encode_ascii (toUInt8_ascii h)
  rwa [map_toUInt8 h] at hbytes

theorem ofString_ascii (h : ∀ c ∈ text.toList, c.toNat < 0x80) : ∀ b ∈ ofString text, b < 0x80 := by
  rw [ofString_eq_map h]
  exact toUInt8_ascii h

theorem map_ofString (h : ∀ c ∈ text.toList, c.toNat < 0x80) :
    (ofString text).map Char.ofUInt8 = text.toList := by
  rw [ofString_eq_map h, map_toUInt8 h]

theorem mem_of_mem_ofString {b : UInt8} (h : ∀ c ∈ text.toList, c.toNat < 0x80)
    (hb : b ∈ ofString text) : Char.ofUInt8 b ∈ text.toList :=
  mem_of_mem_encode (ofString_ascii h b hb) hb

theorem ofString_ne_nil (h : text ≠ "") : ofString text ≠ [] := by
  intro hnil
  cases hcs : text.toList with
  | nil => exact h (String.toList_eq_nil_iff.1 hcs)
  | cons c cs =>
    rw [ofString, hcs, encode_cons] at hnil
    exact encodeChar_ne_nil c (List.append_eq_nil_iff.1 hnil).1

end Texts

theorem front_ascii {b : UInt8} (hb : b < 0x80) (rest : Bytes) :
    front b rest = (Char.ofUInt8 b, 0) :=
  if_pos hb

theorem decodeLossy_ascii {run : Bytes} (h : ∀ b ∈ run, b < 0x80) :
    decodeLossy run = run.map Char.ofUInt8 := by
  induction run with
  | nil => rw [decodeLossy, List.map_nil]
  | cons b run ih =>
    rw [List.forall_mem_cons] at h
    rw [decodeLossy, front_ascii h.1, List.drop_zero, ih h.2, List.map_cons]

theorem ascii_of_head {c : Char} {b : UInt8} {more : Bytes} (hb : b < 0x80)
    (h : String.utf8EncodeChar c = b :: more) : c = Char.ofUInt8 b ∧ more = [] := by
  obtain ⟨a, -, rfl, ha⟩ | hhigh := ascii_or_high c
  · rw [ha, List.cons.injEq] at h
    exact ⟨by rw [h.1], h.2.symm⟩
  · exact absurd hb (UInt8.not_lt.2 (hhigh b (by rw [h]; exact List.mem_cons_self)))

/-- ASCII bytes in front of an encoded text are its first characters. -/
theorem exists_suffix {run after : Bytes} {text : List Char} (hrun : ∀ b ∈ run, b < 0x80)
    (h : encode text = run ++ after) :
    ∃ rest, text = run.map Char.ofUInt8 ++ rest ∧ encode rest = after := by
  induction run generalizing text with
  | nil => exact ⟨text, rfl, h⟩
  | cons b run ih =>
    cases text with
    | nil => simp [encode] at h
    | cons c text =>
      obtain ⟨a, more, hc⟩ := List.exists_cons_of_ne_nil (encodeChar_ne_nil c)
      rw [encode_cons, hc, List.cons_append, List.cons_append, List.cons.injEq] at h
      obtain ⟨rfl, h⟩ := h
      obtain ⟨rfl, rfl⟩ := ascii_of_head (hrun a List.mem_cons_self) hc
      obtain ⟨rest, rfl, hrest⟩ := ih (fun x hx => hrun x (List.mem_cons_of_mem a hx)) h
      exact ⟨rest, rfl, hrest⟩

/-- ASCII bytes anywhere in an encoded text are characters of it. -/
theorem exists_split {before run after : Bytes} {text : List Char} (hne : run ≠ [])
    (hrun : ∀ b ∈ run, b < 0x80) (h : encode text = before ++ (run ++ after)) :
    ∃ front rest, text = front ++ (run.map Char.ofUInt8 ++ rest) ∧
      encode front = before ∧ encode rest = after := by
  induction text generalizing before with
  | nil => simp [encode, hne] at h
  | cons c text ih =>
    have hwhole := h
    rw [encode_cons, List.append_eq_append_iff] at h
    obtain ⟨mid, rfl, hmid⟩ | ⟨mid, hc, hmid⟩ := h
    · obtain ⟨front, rest, rfl, rfl, hrest⟩ := ih hmid
      exact ⟨c :: front, rest, rfl, encode_cons c front, hrest⟩
    cases before with
    | nil =>
      obtain ⟨rest, htext, hrest⟩ := exists_suffix hrun hwhole
      exact ⟨[], rest, htext, rfl, hrest⟩
    | cons a before =>
      cases mid with
      | nil =>
        obtain ⟨rest, rfl, hrest⟩ := exists_suffix hrun hmid.symm
        exact ⟨[c], rest, rfl, by rw [encode_cons, hc]; simp [encode], hrest⟩
      -- The run would begin inside the bytes of `c`, behind the first of them.
      | cons b mid =>
        have hb : b < 0x80 := by
          obtain ⟨x, run, rfl⟩ := List.exists_cons_of_ne_nil hne
          rw [List.cons_append, List.cons_append, List.cons.injEq] at hmid
          exact hmid.1 ▸ hrun x List.mem_cons_self
        obtain ⟨x, -, -, hx⟩ | hhigh := ascii_or_high c
        · simp [hx] at hc
        · exact absurd hb (UInt8.not_lt.2 (hhigh b (by simp [hc])))

theorem mem_toList {text : String} {b : UInt8} (hb : b < 0x80) (h : b ∈ ofString text) :
    Char.ofUInt8 b ∈ text.toList := by
  obtain ⟨before, after, hbytes⟩ := List.append_of_mem h
  obtain ⟨front, rest, htext, -⟩ := exists_split (List.cons_ne_nil b [])
    (List.forall_mem_singleton.2 hb) hbytes
  rw [htext]
  simp

theorem head_toList {text : String} {b : UInt8} (hb : b < 0x80) (h : b ∈ (ofString text).head?) :
    Char.ofUInt8 b ∈ text.toList.head? := by
  obtain ⟨after, hbytes⟩ := List.head?_eq_some_iff.1 h
  obtain ⟨rest, htext, -⟩ := exists_suffix (List.forall_mem_singleton.2 hb)
    (show encode text.toList = [b] ++ after from hbytes)
  rw [htext]
  rfl

end LetReturn.Characters
