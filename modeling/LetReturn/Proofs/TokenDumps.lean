import LetReturn.Proofs.CheckReports
import LetReturn.Proofs.Concatenation
import LetReturn.Proofs.LineAnswers
import LetReturn.Proofs.Relocation
import LetReturn.Proofs.WellFormedness

set_option autoImplicit false

namespace LetReturn.TokenDumps
open Utf8 Tokens Scanning Parsing FileTree CommandLine ReadLoop
open Lexemes Lexing Tiling Relocation Concatenation Characters Decoding LoopRuns LineAnswers
open CheckReports WellFormedness

/-- A line of a dump, cut at its first space and without its line feed. -/
def row (line : Bytes) : String × String :=
  let text := decodeLossy line.dropLast
  (String.ofList (text.takeWhile (· ≠ ' ')), String.ofList ((text.dropWhile (· ≠ ' ')).drop 1))

def rows (dump : Bytes) : List (String × String) := (lines dump).map row

/-- The characters of the literals in a dump, each as one byte. -/
def written (dump : Bytes) : Bytes := (rows dump).flatMap fun r => r.2.toList.map Char.toUInt8

section Names

theorem name_unspaced (kind : Kind) : ∀ c ∈ kind.name.toList, c ≠ ' ' ∧ c ≠ '\n' := by
  cases kind <;> simp [Kind.name]

end Names

section Words
variable {n : ℕ} {source : Bytes} {ts : List Token}

theorem literal_chars (h : Lexed n source ts) :
    ∀ t ∈ ts, ∀ c ∈ t.literal.toList, c ≠ ' ' ∧ c ≠ '\n' ∧ c.toNat < 256 := by
  intro t ht c hc
  obtain ⟨piece, rest, hp, hliteral⟩ := h.lexeme_of_mem t ht
  rw [hliteral, literal, String.toList_ofList] at hc
  obtain ⟨b, hb, rfl⟩ := List.mem_map.1 hc
  have hblank := hp.not_blank b hb
  refine ⟨?_, ?_, ?_⟩
  · rintro heq
    exact hblank (.inl ((ofUInt8_inj b 0x20).1 heq))
  · rintro heq
    exact hblank (.inr (.inr (.inl ((ofUInt8_inj b 0x0A).1 heq))))
  · rw [toNat_ofUInt8]
    exact b.toNat_lt

end Words

section Rows
variable {ts : List Token}

def lineText (t : Token) : String := t.kind.name ++ " " ++ t.literal

theorem lineText_toList (t : Token) :
    (lineText t).toList = t.kind.name.toList ++ ' ' :: t.literal.toList := by
  simp [lineText]

theorem tokenLine_bytes (t : Token) : ofString (tokenLine t) = ofString (lineText t) ++ [0x0A] := by
  have hfeed : ofString "\n" = [0x0A] := by decide
  rw [tokenLine, ofString_append, hfeed]
  rfl

theorem row_lineText (t : Token) :
    row (ofString (lineText t) ++ [0x0A]) = (t.kind.name, t.literal) := by
  have hspace : ∀ c ∈ t.kind.name.toList, decide (c ≠ ' ') = true :=
    fun c hc => decide_eq_true (name_unspaced t.kind c hc).1
  rw [row, List.dropLast_concat, ofString, decodeLossy_encode, lineText_toList]
  simp only [List.takeWhile_append_of_pos hspace, List.dropWhile_append_of_pos hspace]
  simp

theorem feed_not_mem_lineText {t : Token} (h : ∀ c ∈ t.literal.toList, c ≠ '\n') :
    0x0A ∉ ofString (lineText t) := by
  intro hmem
  have hfeed : '\n' ∈ (lineText t).toList := mem_of_mem_encode (by decide) hmem
  rw [lineText_toList, List.mem_append, List.mem_cons] at hfeed
  obtain hname | hspace | hliteral := hfeed
  · exact (name_unspaced t.kind _ hname).2 rfl
  · exact absurd hspace (by decide)
  · exact h _ hliteral rfl

theorem lined_dump (h : ∀ t ∈ ts, ∀ c ∈ t.literal.toList, c ≠ '\n') :
    Lined (ofString (String.join (ts.map tokenLine)))
      (ts.map fun t => ofString (lineText t) ++ [0x0A]) := by
  have htexts : ∀ text ∈ ts.map fun t => ofString (lineText t), 0x0A ∉ text := by
    rw [List.forall_mem_map]
    exact fun t ht => feed_not_mem_lineText (h t ht)
  have hlined := lined_texts htexts .none
  rw [List.append_nil, List.append_nil, List.map_map, List.flatMap_map] at hlined
  rw [ofString_join, List.flatMap_map]
  simp only [tokenLine_bytes]
  exact hlined

theorem rows_dump (h : ∀ t ∈ ts, ∀ c ∈ t.literal.toList, c ≠ '\n') :
    rows (ofString (String.join (ts.map tokenLine))) =
      ts.map fun t => (t.kind.name, t.literal) := by
  rw [rows, (lined_dump h).lines_eq, List.map_map]
  exact List.map_congr_left fun t _ => row_lineText t

end Rows

section Sources

theorem ending_literal (s : Scanner) : (Lexing.ending s).literal = "" := rfl

theorem tokens_chars (source : Bytes) : ∀ t ∈ (Scanner.ofBytes source).tokens.1,
    ∀ c ∈ t.literal.toList, c ≠ ' ' ∧ c ≠ '\n' ∧ c.toNat < 256 := by
  rw [tokens_eq_words, List.forall_mem_append]
  refine ⟨literal_chars (lexed_words (.ofBytes source)), ?_⟩
  rw [List.forall_mem_singleton, ending_literal]
  simp

theorem rows_tokens (source : Bytes) :
    rows (ofString (String.join ((Scanner.ofBytes source).tokens.1.map tokenLine))) =
      (Scanner.ofBytes source).tokens.1.map fun t => (t.kind.name, t.literal) :=
  rows_dump fun t ht c hc => (tokens_chars source t ht c hc).2.1

end Sources

end LetReturn.TokenDumps
