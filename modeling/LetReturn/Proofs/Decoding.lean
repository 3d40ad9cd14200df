import LetReturn.Proofs.Characters

set_option autoImplicit false

namespace LetReturn.Decoding
open Utf8 Characters

/-- The `n` bytes that complete a character; the first of them has a range of its own. -/
inductive Tail : UInt8 → UInt8 → ℕ → Bytes → Prop where
  | none {low high : UInt8} : Tail low high 0 []
  | byte {low high b : UInt8} {n : ℕ} {more : Bytes} (hl : low ≤ b) (hh : b ≤ high)
      (h : Tail 0x80 0xBF n more) : Tail low high (n + 1) (b :: more)

section Trails
variable {low high : UInt8} {n : ℕ} {bytes : Bytes}

theorem trail_isPrefix (low high : UInt8) (n : ℕ) (bytes : Bytes) :
    trail low high n bytes <+: bytes := by
  induction n generalizing low high bytes with
  | zero => exact List.nil_prefix
  | succ n ih =>
    cases bytes with
    | nil => exact List.nil_prefix
    | cons b rest =>
      rw [trail]
      split_ifs
      · exact List.cons_prefix_cons.2 ⟨rfl, ih 0x80 0xBF rest⟩
      · exact List.nil_prefix

theorem trail_high (hlow : 0x80 ≤ low) : ∀ b ∈ trail low high n bytes, 0x80 ≤ b := by
  induction n generalizing low high bytes with
  | zero => simp [trail]
  | succ n ih =>
    cases bytes with
    | nil => simp [trail]
    | cons b rest =>
      rw [trail]
      split_ifs with hb
      · exact List.forall_mem_cons.2 ⟨UInt8.le_trans hlow hb.1, ih (UInt8.le_refl _)⟩
      · simp

theorem trail_append {x : UInt8} (hx : x < 0x80) (hlow : 0x80 ≤ low) (n : ℕ) (bytes rest : Bytes) :
    trail low high n (bytes ++ x :: rest) = trail low high n bytes := by
  induction n generalizing low high bytes with
  | zero => rw [trail.eq_def, trail.eq_def]
  | succ n ih =>
    cases bytes with
    | nil =>
      have hout : ¬ (low ≤ x ∧ x ≤ high) :=
        fun h => UInt8.not_lt.2 (UInt8.le_trans hlow h.1) hx
      rw [List.nil_append, trail, if_neg hout, trail.eq_def]
    | cons b bytes =>
      rw [List.cons_append, trail, trail, ih (UInt8.le_refl _)]

theorem tail_of_trail (h : (trail low high n bytes).length = n) :
    Tail low high n (trail low high n bytes) := by
  induction n generalizing low high bytes with
  | zero => exact .none
  | succ n ih =>
    cases bytes with
    | nil => cases h
    | cons b rest =>
      rw [trail] at h ⊢
      split_ifs at h ⊢ with hb
      exact .byte hb.1 hb.2 (ih (Nat.succ.inj h))

theorem Tail.length_eq {tail : Bytes} (h : Tail low high n tail) : tail.length = n := by
  induction h with
  | none => rfl
  | byte _ _ _ ih => rw [List.length_cons, ih]

theorem Tail.trail_eq {tail : Bytes} (h : Tail low high n tail) (rest : Bytes) :
    trail low high n (tail ++ rest) = tail := by
  induction h with
  | none => rw [trail.eq_def]
  | byte hl hh _ ih => rw [List.cons_append, trail, if_pos ⟨hl, hh⟩, ih]

end Trails

def codePoint (first : ℕ) (tail : Bytes) : ℕ :=
  tail.foldl (fun n b => n * 64 + (b.toNat - 0x80)) first

section Leads
variable {low high b : UInt8} {lead : Lead} {tail : Bytes}

theorem Tail.one (h : Tail low high 1 tail) : ∃ t, tail = [t] ∧ low ≤ t ∧ t ≤ high := by
  cases h with
  | byte hl hh h =>
    cases h
    exact ⟨_, rfl, hl, hh⟩

theorem Tail.two (h : Tail low high 2 tail) : ∃ t u, tail = [t, u] ∧ (low ≤ t ∧ t ≤ high) ∧
    0x80 ≤ u ∧ u ≤ 0xBF := by
  cases h with
  | byte hl hh h =>
    obtain ⟨u, rfl, hu⟩ := h.one
    exact ⟨_, u, rfl, ⟨hl, hh⟩, hu⟩

theorem Tail.three (h : Tail low high 3 tail) : ∃ t u v, tail = [t, u, v] ∧
    (low ≤ t ∧ t ≤ high) ∧ (0x80 ≤ u ∧ u ≤ 0xBF) ∧ 0x80 ≤ v ∧ v ≤ 0xBF := by
  cases h with
  | byte hl hh h =>
    obtain ⟨u, v, rfl, hu, hv⟩ := h.two
    exact ⟨_, u, v, rfl, ⟨hl, hh⟩, hu, hv⟩

/-- The ranges of the byte behind the first one leave out what has a shorter form, the surrogates,
and what lies above the last character. -/
theorem lead?_cases (h : lead? b = some lead) :
    0x80 ≤ lead.low.toNat ∧ lead.high.toNat ≤ 0xBF ∧
    ((lead.follow = 1 ∧ lead.base = 0xC0 ∧ 0xC2 ≤ b.toNat ∧ b.toNat ≤ 0xDF) ∨
    (lead.follow = 2 ∧ lead.base = 0xE0 ∧ 0xE0 ≤ b.toNat ∧ b.toNat ≤ 0xEF ∧
      (b.toNat = 0xE0 → 0xA0 ≤ lead.low.toNat) ∧ (b.toNat = 0xED → lead.high.toNat ≤ 0x9F)) ∨
    (lead.follow = 3 ∧ lead.base = 0xF0 ∧ 0xF0 ≤ b.toNat ∧ b.toNat ≤ 0xF4 ∧
      (b.toNat = 0xF0 → 0x90 ≤ lead.low.toNat) ∧ (b.toNat = 0xF4 → lead.high.toNat ≤ 0x8F))) := by
  unfold lead? at h
  split_ifs at h <;> cases h
  all_goals
    simp only [UInt8.le_iff_toNat_le, UInt8.lt_iff_toNat_lt, ← UInt8.toNat_inj,
      UInt8.reduceToNat, true_and] at *
    omega

theorem lead?_low (h : lead? b = some lead) : 0x80 ≤ lead.low :=
  UInt8.le_iff_toNat_le.2 (lead?_cases h).1

theorem codePoint_scalar (hlead : lead? b = some lead)
    (htail : Tail lead.low lead.high lead.follow tail) :
    (codePoint (b.toNat - lead.base) tail).isValidChar ∧
      0x80 ≤ codePoint (b.toNat - lead.base) tail := by
  obtain ⟨hlow, hhigh, hb⟩ := lead?_cases hlead
  obtain ⟨hn, hbase, hb⟩ | ⟨hn, hbase, hb⟩ | ⟨hn, hbase, hb⟩ := hb
  · rw [hn] at htail
    obtain ⟨t, rfl, ht⟩ := htail.one
    simp only [UInt8.le_iff_toNat_le, codePoint, List.foldl, Nat.isValidChar] at *
    omega
  · rw [hn] at htail
    obtain ⟨t, u, rfl, ht, hu⟩ := htail.two
    simp only [UInt8.le_iff_toNat_le, UInt8.reduceToNat, codePoint, List.foldl,
      Nat.isValidChar] at *
    omega
  · rw [hn] at htail
    obtain ⟨t, u, v, rfl, ht, hu, hv⟩ := htail.three
    simp only [UInt8.le_iff_toNat_le, UInt8.reduceToNat, codePoint, List.foldl,
      Nat.isValidChar] at *
    omega

end Leads

section Fronts
variable {b : UInt8}

theorem encodeChar_high {c : Char} (h : 0x80 ≤ c.toNat) :
    ∀ x ∈ String.utf8EncodeChar c, 0x80 ≤ x := by
  obtain ⟨a, ha, rfl, -⟩ | hhigh := ascii_or_high c
  · rw [toNat_ofUInt8] at h
    exact absurd (UInt8.lt_iff_toNat_lt.1 ha) (Nat.not_lt.2 h)
  · exact hhigh

theorem front_high (hb : 0x80 ≤ b) (rest : Bytes) :
    (∀ x ∈ String.utf8EncodeChar (front b rest).1, 0x80 ≤ x) ∧
      ∀ x ∈ rest.take (front b rest).2, 0x80 ≤ x := by
  have hreplacement : ∀ x ∈ String.utf8EncodeChar replacement, 0x80 ≤ x :=
    encodeChar_high (by decide)
  unfold front
  rw [if_neg (UInt8.not_lt.2 hb)]
  cases hlead : lead? b with
  | none => exact ⟨hreplacement, by simp⟩
  | some lead =>
    have htaken : rest.take (trail lead.low lead.high lead.follow rest).length =
        trail lead.low lead.high lead.follow rest :=
      (List.prefix_iff_eq_take.1 (trail_isPrefix _ _ _ _)).symm
    have htail : ∀ x ∈ trail lead.low lead.high lead.follow rest, 0x80 ≤ x :=
      trail_high (lead?_low hlead)
    simp only
    split_ifs with hfull
    · refine ⟨encodeChar_high ?_, by rwa [htaken]⟩
      obtain ⟨hvalid, hlow⟩ := codePoint_scalar hlead (tail_of_trail hfull)
      rw [assemble, Char.toNat_ofNat]
      exact (if_pos hvalid).symm ▸ hlow
    · exact ⟨hreplacement, by rwa [htaken]⟩

end Fronts

/-- ASCII bytes are the same in both, and each run of other bytes stands for such a run. -/
inductive SameRuns : Bytes → Bytes → Prop where
  | nil : SameRuns [] []
  | ascii {b : UInt8} {bytes out : Bytes} (hb : b < 0x80) (tail : SameRuns bytes out) :
      SameRuns (b :: bytes) (b :: out)
  | run {run run' bytes out : Bytes} (hne : run ≠ []) (hne' : run' ≠ [])
      (hrun : ∀ b ∈ run, 0x80 ≤ b) (hrun' : ∀ b ∈ run', 0x80 ≤ b)
      (hnext : ∀ b ∈ bytes.head?, b < 0x80) (hnext' : ∀ b ∈ out.head?, b < 0x80)
      (tail : SameRuns bytes out) : SameRuns (run ++ bytes) (run' ++ out)

section Runs
variable {run run' bytes out : Bytes}

theorem SameRuns.append (h : SameRuns bytes out) (hne : run ≠ []) (hne' : run' ≠ [])
    (hrun : ∀ b ∈ run, 0x80 ≤ b) (hrun' : ∀ b ∈ run', 0x80 ≤ b) :
    SameRuns (run ++ bytes) (run' ++ out) := by
  cases h with
  | nil => exact .run hne hne' hrun hrun' (by simp) (by simp) .nil
  | ascii hb tail =>
    exact .run hne hne' hrun hrun' (by simpa using hb) (by simpa using hb) (.ascii hb tail)
  | run _ _ hmore hmore' hnext hnext' tail =>
    rw [← List.append_assoc, ← List.append_assoc]
    refine .run ?_ ?_ ?_ ?_ hnext hnext' tail
    · exact List.append_ne_nil_of_left_ne_nil hne _
    · exact List.append_ne_nil_of_left_ne_nil hne' _
    · exact List.forall_mem_append.2 ⟨hrun, hmore⟩
    · exact List.forall_mem_append.2 ⟨hrun', hmore'⟩

/-- Nothing is decoded across the end of a run, and no run is lost or made. -/
theorem sameRuns_decodeLossy (bytes : Bytes) : SameRuns bytes (encode (decodeLossy bytes)) := by
  fun_induction decodeLossy bytes with
  | case1 => exact .nil
  | case2 b rest ih =>
    rw [encode_cons]
    by_cases hb : b < 0x80
    · rw [front_ascii hb, List.drop_zero] at ih
      rw [front_ascii hb, encodeChar_ascii hb, List.drop_zero, List.singleton_append]
      exact .ascii hb ih
    · obtain ⟨hchar, htaken⟩ := front_high (UInt8.not_lt.1 hb) rest
      have hrun := ih.append (List.cons_ne_nil b _) (encodeChar_ne_nil _)
        (List.forall_mem_cons.2 ⟨UInt8.not_lt.1 hb, htaken⟩) hchar
      rwa [List.cons_append, List.take_append_drop] at hrun

theorem front_append {b x : UInt8} (hx : x < 0x80) (bytes rest : Bytes) :
    front b (bytes ++ x :: rest) = front b bytes := by
  unfold front
  cases hlead : lead? b with
  | none => rfl
  | some lead => simp only [trail_append hx (lead?_low hlead)]

theorem front_le (b : UInt8) (rest : Bytes) : (front b rest).2 ≤ rest.length := by
  unfold front
  by_cases hb : b < 0x80
  · rw [if_pos hb]
    exact Nat.zero_le _
  rw [if_neg hb]
  cases lead? b with
  | none => exact Nat.zero_le _
  | some lead =>
    have hle := (trail_isPrefix lead.low lead.high lead.follow rest).length_le
    simp only
    split_ifs
    all_goals exact hle

theorem decodeLossy_append {x : UInt8} (hx : x < 0x80) (bytes rest : Bytes) :
    decodeLossy (bytes ++ x :: rest) = decodeLossy bytes ++ Char.ofUInt8 x :: decodeLossy rest := by
  fun_induction decodeLossy bytes with
  | case1 => rw [List.nil_append, decodeLossy, front_ascii hx, List.drop_zero, List.nil_append]
  | case2 b more ih =>
    rw [List.cons_append, decodeLossy, front_append hx,
      List.drop_append_of_le_length (front_le b more), ih, List.cons_append]

theorem SameRuns.filter_eq (h : SameRuns bytes out) :
    out.filter (· < 0x80) = bytes.filter (· < 0x80) := by
  have hhigh : ∀ {run : Bytes}, (∀ b ∈ run, 0x80 ≤ b) → run.filter (· < 0x80) = [] :=
    fun hrun => List.filter_eq_nil_iff.2 fun b hb =>
      by simpa using UInt8.not_lt.2 (hrun b hb)
  induction h with
  | nil => rfl
  | ascii hb _ ih => rw [List.filter_cons_of_pos (by simpa using hb), ih,
      List.filter_cons_of_pos (by simpa using hb)]
  | run _ _ hrun hrun' _ _ _ ih =>
    rw [List.filter_append, List.filter_append, hhigh hrun, hhigh hrun', ih]

end Runs

section Strict
variable {bytes : Bytes} {text : String}

theorem ofString_toByteArray (text : String) : (ofString text).toByteArray = text.toByteArray := by
  have hlist : (String.ofList text.toList).toByteArray = text.toList.utf8Encode :=
    String.toByteArray_ofList
  rw [String.ofList_toList] at hlist
  exact hlist.symm

theorem decode?_eq_some : decode? bytes = some text ↔ ofString text = bytes := by
  unfold decode? String.fromUTF8?
  constructor
  · intro h
    split_ifs at h with hvalid
    cases h
    have harray : (ofString (String.fromUTF8 _ hvalid)).toByteArray = bytes.toByteArray :=
      ofString_toByteArray _
    have hdata := congrArg ByteArray.data harray
    simpa using hdata
  · rintro rfl
    have hvalid : (ofString text).toByteArray.IsValidUTF8 := by
      rw [ofString_toByteArray]
      exact text.isValidUTF8
    rw [dif_pos hvalid, Option.some.injEq, ← String.toByteArray_inj]
    exact ofString_toByteArray text

theorem ofString_injective : Function.Injective ofString := by
  intro a b h
  have hdecode := congrArg decode? h
  rwa [decode?_eq_some.2 rfl, decode?_eq_some.2 rfl, Option.some.injEq] at hdecode

end Strict

end LetReturn.Decoding
