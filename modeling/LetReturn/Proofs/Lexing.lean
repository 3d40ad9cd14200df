import LetReturn.Proofs.Lexemes

set_option autoImplicit false

namespace LetReturn.Lexing
open Tokens Scanning Lexemes

/-- The bytes `source`, the first of which has the offset `n`, are the tokens one after another,
with blanks before, between and behind them. -/
inductive Lexed : ℕ → List UInt8 → List Token → Prop where
  | blanks {n : ℕ} {gap : List UInt8} (hg : ∀ b ∈ gap, Blank b) : Lexed n gap []
  | piece {n : ℕ} {gap piece rest : List UInt8} {kind : Kind} {ts : List Token}
      (hg : ∀ b ∈ gap, Blank b) (hp : Lexeme kind piece rest)
      (tail : Lexed (n + gap.length + piece.length) rest ts) :
      Lexed n (gap ++ (piece ++ rest))
        (⟨kind, literal piece, ⟨n + gap.length, n + gap.length + piece.length⟩⟩ :: ts)

/-- The end of the input, as seen from a scanner anywhere in it. -/
def ending (s : Scanner) : Token :=
  .eof ⟨s.offset + s.unread.length, s.offset + s.unread.length⟩

theorem skipBlanks_gap {n : ℕ} {gap rest : List UInt8} (hg : ∀ b ∈ gap, Blank b)
    (hr : ∀ b ∈ rest.head?, ¬ Blank b) :
    Scanner.skipBlanks ⟨n, gap ++ rest⟩ = ⟨n + gap.length, rest⟩ := by
  have hrun : (gap ++ rest).takeWhile isBlank = gap := takeWhile_run isBlank_iff hg hr
  simp only [Scanner.skipBlanks, Scanner.skip, hrun, List.drop_left]

theorem next_blanks {s : Scanner} (h : ∀ b ∈ s.unread, Blank b) :
    s.next = (ending s, ⟨s.offset + s.unread.length, []⟩) := by
  have hs : s.skipBlanks = ⟨s.offset + s.unread.length, []⟩ := by
    have hgap : Scanner.skipBlanks ⟨s.offset, s.unread ++ []⟩ = _ := skipBlanks_gap h (by simp)
    rwa [List.append_nil] at hgap
  simp only [Scanner.next, hs]
  rfl

theorem next_cons {s : Scanner} {n : ℕ} {b : UInt8} {rest : List UInt8}
    (h : s.skipBlanks = ⟨n, b :: rest⟩) : s.next =
      (⟨(front b rest).1, literal (b :: rest.take (front b rest).2),
          ⟨n, n + ((front b rest).2 + 1)⟩⟩,
        ⟨n + ((front b rest).2 + 1), rest.drop (front b rest).2⟩) := by
  simp only [Scanner.next, h]
  rfl

theorem next_lexeme {n : ℕ} {gap piece rest : List UInt8} {kind : Kind}
    (hg : ∀ b ∈ gap, Blank b) (hp : Lexeme kind piece rest) :
    Scanner.next ⟨n, gap ++ (piece ++ rest)⟩ =
      (⟨kind, literal piece, ⟨n + gap.length, n + gap.length + piece.length⟩⟩,
        ⟨n + gap.length + piece.length, rest⟩) := by
  obtain ⟨b, more, rfl, hb, hf⟩ := hp.front_eq
  have hs : Scanner.skipBlanks ⟨n, gap ++ (b :: more ++ rest)⟩ =
      ⟨n + gap.length, b :: (more ++ rest)⟩ := skipBlanks_gap hg (by simpa using hb)
  rw [next_cons hs, hf]
  simp only [List.take_left, List.drop_left]
  rfl

theorem blanks_or_lexeme (source : List UInt8) :
    (∀ b ∈ source, Blank b) ∨ ∃ gap kind piece rest, source = gap ++ (piece ++ rest) ∧
      (∀ b ∈ gap, Blank b) ∧ Lexeme kind piece rest := by
  have hgap := mem_takeWhile isBlank_iff source
  have hsplit : source.takeWhile isBlank ++ source.dropWhile isBlank = source :=
    List.takeWhile_append_dropWhile
  cases hr : source.dropWhile isBlank with
  | nil =>
    rw [hr, List.append_nil] at hsplit
    exact .inl (hsplit ▸ hgap)
  | cons b rest =>
    have hb : ¬ Blank b := not_head_dropWhile isBlank_iff source b (by rw [hr]; rfl)
    refine .inr ⟨_, _, _, _, ?_, hgap, lexeme_front rest hb⟩
    rw [List.cons_append, List.take_append_drop, ← hr, hsplit]

theorem exists_lexed (n : ℕ) (source : List UInt8) : ∃ ts, Lexed n source ts := by
  obtain hb | ⟨gap, kind, piece, rest, hs, hg, hp⟩ := blanks_or_lexeme source
  · exact ⟨[], .blanks hb⟩
  · have hlt : rest.length < source.length := by
      have hpos := List.length_pos_iff.2 hp.ne_nil
      simp only [hs, List.length_append]
      omega
    obtain ⟨ts, tail⟩ := exists_lexed (n + gap.length + piece.length) rest
    rw [hs]
    exact ⟨_, .piece hg hp tail⟩
termination_by source.length

theorem Lexed.tokens_eq {n : ℕ} {source : List UInt8} {ts : List Token} (h : Lexed n source ts) :
    Scanner.tokens ⟨n, source⟩ =
      (ts ++ [ending ⟨n, source⟩], ⟨n + source.length, []⟩) := by
  induction h with
  | @blanks n gap hg =>
    have hs := next_blanks (s := ⟨n, gap⟩) hg
    rw [Scanner.tokens]
    simp [hs, ending, Token.eof]
  | @piece n gap piece rest kind ts hg hp tail ih =>
    have hs := next_lexeme (n := n) hg hp
    have hlen : n + gap.length + piece.length + rest.length =
        n + (gap ++ (piece ++ rest)).length := by
      simp only [List.length_append]
      omega
    rw [Scanner.tokens]
    simp only [hs, hp.kind_ne_eof, ↓reduceDIte, ih, ending, hlen, List.cons_append]

/-- The tokens before the end of the input. -/
def words (s : Scanner) : List Token := s.tokens.1.dropLast

theorem Lexed.words_eq {n : ℕ} {source : List UInt8} {ts : List Token} (h : Lexed n source ts) :
    words ⟨n, source⟩ = ts := by
  rw [words, h.tokens_eq, List.dropLast_concat]

theorem lexed_words (s : Scanner) : Lexed s.offset s.unread (words s) := by
  obtain ⟨ts, h⟩ := exists_lexed s.offset s.unread
  rwa [← h.words_eq] at h

theorem tokens_eq_words (s : Scanner) :
    s.tokens = (words s ++ [ending s], ⟨s.offset + s.unread.length, []⟩) :=
  (lexed_words s).tokens_eq

theorem Lexed.kind_ne_eof {n : ℕ} {source : List UInt8} {ts : List Token}
    (h : Lexed n source ts) : ∀ t ∈ ts, t.kind ≠ .eof := by
  induction h with
  | blanks => simp
  | piece _ hp _ ih =>
    intro t ht
    obtain rfl | ht := List.mem_cons.1 ht
    · exact hp.kind_ne_eof
    · exact ih t ht

theorem Lexed.lexeme_of_mem {n : ℕ} {source : List UInt8} {ts : List Token}
    (h : Lexed n source ts) :
    ∀ t ∈ ts, ∃ piece rest, Lexeme t.kind piece rest ∧ t.literal = literal piece := by
  induction h with
  | blanks => simp
  | piece _ hp _ ih =>
    rw [List.forall_mem_cons]
    exact ⟨⟨_, _, hp, rfl⟩, ih⟩

theorem Lexed.length_le {n : ℕ} {source : List UInt8} {ts : List Token}
    (h : Lexed n source ts) : ts.length ≤ source.length := by
  induction h with
  | blanks => exact Nat.zero_le _
  | piece _ hp _ ih =>
    have hpos := List.length_pos_iff.2 hp.ne_nil
    simp only [List.length_append, List.length_cons]
    omega

/-- All that one step of a scanner can do. -/
theorem next_cases (s : Scanner) :
    (words s = [] ∧ s.next = (ending s, ⟨s.offset + s.unread.length, []⟩)) ∨
      (s.next.1.kind ≠ .eof ∧ words s = s.next.1 :: words s.next.2 ∧
        ending s.next.2 = ending s) := by
  obtain ⟨n, source⟩ := s
  obtain hb | ⟨gap, kind, piece, rest, rfl, hg, hp⟩ := blanks_or_lexeme source
  · exact .inl ⟨(Lexed.blanks hb).words_eq, next_blanks hb⟩
  · have hnext := next_lexeme (n := n) hg hp
    have htail := lexed_words ⟨n + gap.length + piece.length, rest⟩
    refine .inr ⟨?_, ?_, ?_⟩
    · rw [hnext]
      exact hp.kind_ne_eof
    · rw [hnext]
      exact (Lexed.piece hg hp htail).words_eq
    · rw [hnext]
      simp only [ending, List.length_append, Nat.add_assoc]

/-- The tokens of a source are its one cut into lexemes, followed by the end of the input. -/
theorem tokens_unique_cut (source : List UInt8) :
    (∀ b, b = 0 ∨ 0x80 ≤ b → Stray b) ∧
    ∃ ts : List Token,
      (Scanner.ofBytes source).tokens.1 = ts ++ [⟨.eof, "", ⟨source.length, source.length⟩⟩] ∧
      (∀ t ∈ ts, t.kind ≠ .eof) ∧ Lexed 0 source ts ∧ ∀ ts', Lexed 0 source ts' → ts' = ts := by
  have hlexed := lexed_words (.ofBytes source)
  refine ⟨fun b => stray_of_high, words (.ofBytes source), ?_, hlexed.kind_ne_eof, hlexed, ?_⟩
  · rw [tokens_eq_words]
    simp [ending, Token.eof, Scanner.ofBytes]
  · exact fun ts' h => h.words_eq.symm

example : (Scanner.ofText "let1!==").tokens.1.map Token.kind =
    [.letWord, .int, .notEq, .assign, .eof] := by
  cbv

end LetReturn.Lexing
