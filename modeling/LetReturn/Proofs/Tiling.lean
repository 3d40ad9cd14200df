import LetReturn.Proofs.Characters
import LetReturn.Proofs.Lexing
import Mathlib.Data.List.Forall2

set_option autoImplicit false

namespace LetReturn.Tiling
open Tokens Scanning Lexemes Lexing Characters

def slice (source : List UInt8) (s : Span) : List UInt8 :=
  (source.drop s.start).take (s.stop - s.start)

def Covers (s : Span) (i : ℕ) : Prop := s.start ≤ i ∧ i < s.stop

/-- The tokens tile what a source has from the offset `n` on. -/
structure Tiled (n : ℕ) (source : List UInt8) (ts : List Token) : Prop where
  bounds : ∀ t ∈ ts, n ≤ t.span.start ∧ t.span.start < t.span.stop ∧ t.span.stop ≤ source.length
  ordered : ts.Pairwise fun a b => a.span.stop ≤ b.span.start
  spelled : ∀ t ∈ ts, t.literal = literal (slice source t.span)
  blank_iff : ∀ (i : ℕ) (b : UInt8), n ≤ i → source[i]? = some b →
    (Blank b ↔ ∀ t ∈ ts, ¬ Covers t.span i)

theorem slice_between (front piece rest : List UInt8) :
    slice (front ++ (piece ++ rest)) ⟨front.length, front.length + piece.length⟩ = piece := by
  simp only [slice, List.drop_left, Nat.add_sub_cancel_left, List.take_left]

theorem mem_slice {source : List UInt8} {s : Span} {i : ℕ} {b : UInt8} (hi : Covers s i)
    (hb : source[i]? = some b) : b ∈ slice source s := by
  have hoffset : s.start + (i - s.start) = i := Nat.add_sub_cancel' hi.1
  have hlt : i - s.start < s.stop - s.start := by
    have hle := hi.1
    have hlt := hi.2
    omega
  refine List.mem_of_getElem? (i := i - s.start) ?_
  rw [slice, List.getElem?_take_of_lt hlt, List.getElem?_drop, hoffset, hb]

theorem tiled_blanks {front gap : List UInt8} (hg : ∀ b ∈ gap, Blank b) :
    Tiled front.length (front ++ gap) [] where
  bounds := by simp
  ordered := .nil
  spelled := by simp
  blank_iff := by
    intro i b hi hb
    rw [List.getElem?_append_right hi] at hb
    simp [hg b (List.mem_of_getElem? hb)]

theorem Tiled.piece {front gap piece rest : List UInt8} {kind : Kind} {ts : List Token}
    (hg : ∀ b ∈ gap, Blank b) (hp : Lexeme kind piece rest)
    (h : Tiled (front.length + gap.length + piece.length) (front ++ (gap ++ (piece ++ rest))) ts) :
    Tiled front.length (front ++ (gap ++ (piece ++ rest)))
      (⟨kind, literal piece, ⟨front.length + gap.length,
        front.length + gap.length + piece.length⟩⟩ :: ts) := by
  have hpos := List.length_pos_iff.2 hp.ne_nil
  refine ⟨?_, ?_, ?_, ?_⟩
  · intro t ht
    obtain rfl | ht := List.mem_cons.1 ht
    · simp only [List.length_append]
      omega
    · have hb := h.bounds t ht
      omega
  · refine List.pairwise_cons.2 ⟨fun t ht => ?_, h.ordered⟩
    exact (h.bounds t ht).1
  · intro t ht
    obtain rfl | ht := List.mem_cons.1 ht
    · have hs := slice_between (front ++ gap) piece rest
      rw [List.length_append, List.append_assoc] at hs
      rw [hs]
    · exact h.spelled t ht
  · intro i b hi hb
    rw [List.forall_mem_cons]
    rw [List.getElem?_append_right hi] at hb
    by_cases hgap : i - front.length < gap.length
    · rw [List.getElem?_append_left hgap] at hb
      refine iff_of_true (hg b (List.mem_of_getElem? hb)) ⟨?_, fun t ht => ?_⟩
      · simp only [Covers]
        omega
      · have hbounds := h.bounds t ht
        simp only [Covers]
        omega
    rw [List.getElem?_append_right (by omega)] at hb
    by_cases hpiece : i - front.length - gap.length < piece.length
    · rw [List.getElem?_append_left hpiece] at hb
      refine iff_of_false (hp.not_blank b (List.mem_of_getElem? hb)) fun hn => hn.1 ?_
      simp only [Covers]
      omega
    · rw [h.blank_iff i b (by omega) (by
        rw [List.getElem?_append_right hi, List.getElem?_append_right (by omega), hb])]
      refine (and_iff_right ?_).symm
      simp only [Covers]
      omega

theorem Lexed.tiled {n : ℕ} {source : List UInt8} {ts : List Token} (h : Lexed n source ts) :
    ∀ front, front.length = n → Tiled n (front ++ source) ts := by
  -- Spans count from the beginning, so what was read before stays in front of the source.
  induction h with
  | blanks hg =>
    rintro front rfl
    exact tiled_blanks hg
  | @piece n gap piece rest kind ts hg hp tail ih =>
    rintro front rfl
    have hrest := ih (front ++ gap ++ piece) (by simp only [List.length_append])
    simp only [List.append_assoc] at hrest
    exact .piece hg hp hrest

theorem words_tiled (source : List UInt8) : Tiled 0 source (words (.ofBytes source)) :=
  Lexed.tiled (lexed_words (.ofBytes source)) [] rfl

/-- Write the literal of a token over the bytes of its span. -/
def paint (canvas : List UInt8) (t : Token) : List UInt8 :=
  canvas.take t.span.start ++ t.literal.toList.map Char.toUInt8 ++ canvas.drop t.span.stop

/-- As long as the source, and the same where the source is blank. -/
def SameBlanks (source canvas : List UInt8) : Prop :=
  List.Forall₂ (fun b c => Blank b → c = b) source canvas

theorem bytes_literal (piece : List UInt8) :
    (literal piece).toList.map Char.toUInt8 = piece := by
  simp [literal, Function.comp_def, toUInt8_ofUInt8]

theorem literal_inj {a b : List UInt8} (h : literal a = literal b) : a = b := by
  rw [← bytes_literal a, h, bytes_literal]

theorem exists_lexeme_slice {source : List UInt8} {t : Token} (ht : t ∈ words (.ofBytes source)) :
    ∃ rest, Lexeme t.kind (slice source t.span) rest := by
  obtain ⟨piece, rest, hp, hliteral⟩ := (lexed_words (.ofBytes source)).lexeme_of_mem t ht
  rw [(words_tiled source).spelled t ht] at hliteral
  rw [literal_inj hliteral]
  exact ⟨rest, hp⟩

theorem sameBlanks_blanks {gap canvas : List UInt8} (hg : ∀ b ∈ gap, Blank b)
    (h : SameBlanks gap canvas) : canvas = gap := by
  induction h with
  | nil => rfl
  | cons hb _ ih =>
    rw [hb (hg _ List.mem_cons_self), ih fun b hb => hg b (List.mem_cons_of_mem _ hb)]

theorem sameBlanks_append {first second canvas : List UInt8}
    (h : SameBlanks (first ++ second) canvas) :
    ∃ old rest, canvas = old ++ rest ∧ SameBlanks first old ∧ SameBlanks second rest := by
  have hf := List.forall₂_take first.length h
  have hs := List.forall₂_drop first.length h
  rw [List.take_left] at hf
  rw [List.drop_left] at hs
  exact ⟨_, _, (List.take_append_drop first.length canvas).symm, hf, hs⟩

theorem paint_piece (front old rest piece : List UInt8) (kind : Kind)
    (h : old.length = piece.length) :
    paint (front ++ (old ++ rest))
      ⟨kind, literal piece, ⟨front.length, front.length + piece.length⟩⟩ =
      front ++ (piece ++ rest) := by
  have hd : (front ++ (old ++ rest)).drop (front.length + piece.length) = rest := by
    rw [← List.append_assoc, ← h, ← List.length_append, List.drop_left]
  simp only [paint, bytes_literal, List.take_left, hd, List.append_assoc]

theorem Lexed.paint_eq {n : ℕ} {source : List UInt8} {ts : List Token} (h : Lexed n source ts) :
    ∀ front canvas, front.length = n → SameBlanks source canvas →
      ts.foldl paint (front ++ canvas) = front ++ source := by
  induction h with
  | blanks hg =>
    intro front canvas _ hc
    rw [List.foldl_nil, sameBlanks_blanks hg hc]
  | @piece n gap piece rest kind ts hg hp tail ih =>
    rintro front canvas rfl hc
    obtain ⟨old, behind, rfl, hgap, hc⟩ := sameBlanks_append hc
    obtain ⟨under, after, rfl, hpiece, hrest⟩ := sameBlanks_append hc
    rw [sameBlanks_blanks hg hgap, List.foldl_cons]
    have hpaint := paint_piece (front ++ gap) under after piece kind hpiece.length_eq.symm
    have hlater := ih (front ++ gap ++ piece) after (by simp only [List.length_append]) hrest
    simp only [List.append_assoc, List.length_append] at hpaint hlater
    rw [hpaint, hlater]

theorem paint_words {source canvas : List UInt8} (h : SameBlanks source canvas) :
    (words (.ofBytes source)).foldl paint canvas = source :=
  Lexed.paint_eq (lexed_words (.ofBytes source)) [] canvas rfl h

theorem slice_split {source : List UInt8} {s : Span} (h : s.start ≤ s.stop) :
    source.take s.start ++ (slice source s ++ source.drop s.stop) = source := by
  have hd : source.drop s.stop = (source.drop s.start).drop (s.stop - s.start) := by
    rw [List.drop_drop, Nat.add_sub_cancel' h]
  rw [slice, hd, List.take_append_drop, List.take_append_drop]

theorem slice_length {source : List UInt8} {s : Span} (h : s.stop ≤ source.length) :
    (slice source s).length = s.stop - s.start := by
  rw [slice, List.length_take, List.length_drop]
  omega

theorem exists_text_split {text : String} {t : Token}
    (ht : t ∈ words (.ofText text)) (ha : ∀ b ∈ slice (Utf8.ofString text) t.span, b < 0x80) :
    ∃ before after, text = before ++ t.literal ++ after ∧
      (Utf8.ofString before).length = t.span.start ∧
      (Utf8.ofString (before ++ t.literal)).length = t.span.stop := by
  have htiled := words_tiled (Utf8.ofString text)
  obtain ⟨-, hlt, hle⟩ := htiled.bounds t ht
  have hlen := slice_length hle
  have hne : slice (Utf8.ofString text) t.span ≠ [] := by
    rw [← List.length_pos_iff]
    omega
  obtain ⟨front, rest, htext, hfront, -⟩ := exists_split hne ha (slice_split hlt.le).symm
  have hliteral : t.literal.toList = (slice (Utf8.ofString text) t.span).map Char.ofUInt8 := by
    rw [htiled.spelled t ht, literal, String.toList_ofList]
  have hstart : (Utf8.ofString (String.ofList front)).length = t.span.start := by
    rw [Utf8.ofString, String.toList_ofList, hfront]
    exact List.length_take_of_le (hlt.le.trans hle)
  have hbytes : (Utf8.ofString t.literal).length = t.span.stop - t.span.start := by
    rw [Utf8.ofString, hliteral, encode_ascii ha, hlen]
  refine ⟨String.ofList front, String.ofList rest, ?_, hstart, ?_⟩
  · rw [← String.toList_inj]
    simp [htext, hliteral]
  · rw [Utf8.ofString_append, List.length_append, hstart, hbytes]
    omega

/-- Nothing of a source is lost in its tokens. -/
theorem tokens_tile_source (source : List UInt8) :
    ∃ ts : List Token,
      (Scanner.ofBytes source).tokens.1 = ts ++ [⟨.eof, "", ⟨source.length, source.length⟩⟩] ∧
      (∀ t ∈ ts, t.kind ≠ .eof ∧ t.span.start < t.span.stop ∧ t.span.stop ≤ source.length) ∧
      (Scanner.ofBytes source).tokens.1.Pairwise (fun a b => a.span.stop ≤ b.span.start) ∧
      (∀ t ∈ ts, t.literal.length = t.span.stop - t.span.start ∧
        t.literal.toList.map Char.toNat = (slice source t.span).map UInt8.toNat) ∧
      (∀ (i : ℕ) (b : UInt8), source[i]? = some b → (Blank b ↔ ∀ t ∈ ts, ¬ Covers t.span i)) ∧
      (∀ canvas : List UInt8, SameBlanks source canvas → ts.foldl paint canvas = source) ∧
      ∀ text : String, source = Utf8.ofString text →
        ∀ t ∈ ts, (∀ b ∈ slice source t.span, b < 0x80) → ∃ before after,
          text = before ++ t.literal ++ after ∧ (Utf8.ofString before).length = t.span.start ∧
            (Utf8.ofString (before ++ t.literal)).length = t.span.stop := by
  have htiled := words_tiled source
  have hkind := (lexed_words (.ofBytes source)).kind_ne_eof
  have htokens : (Scanner.ofBytes source).tokens.1 =
      words (.ofBytes source) ++ [⟨.eof, "", ⟨source.length, source.length⟩⟩] := by
    rw [tokens_eq_words]
    simp [ending, Scanner.ofBytes, Token.eof]
  refine ⟨words (.ofBytes source), htokens, ?_, ?_, ?_, ?_, fun canvas => paint_words, ?_⟩
  · exact fun t ht => ⟨hkind t ht, (htiled.bounds t ht).2⟩
  · rw [htokens, List.pairwise_append]
    refine ⟨htiled.ordered, List.pairwise_singleton _ _, fun a ha b hb => ?_⟩
    rw [List.mem_singleton.1 hb]
    exact (htiled.bounds a ha).2.2
  · intro t ht
    have htoNat : ∀ b, (Char.ofUInt8 b).toNat = b.toNat := by simp [Char.ofUInt8, Char.toNat]
    rw [htiled.spelled t ht, literal, String.length_ofList, List.length_map, String.toList_ofList,
      List.map_map, slice_length (htiled.bounds t ht).2.2]
    exact ⟨rfl, List.map_congr_left fun b _ => htoNat b⟩
  · exact fun i b => htiled.blank_iff i b (Nat.zero_le i)
  · rintro text rfl t ht ha
    exact exists_text_split ht ha

end LetReturn.Tiling
