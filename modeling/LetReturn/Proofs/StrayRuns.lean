import LetReturn.Proofs.Decoding
import LetReturn.Proofs.LineAnswers
import LetReturn.Proofs.Rendering
import LetReturn.Proofs.Respacing

set_option autoImplicit false

/-!
# Runs of stray bytes

All that the read loop shows of a run of stray bytes is that there is one. To scan a source in
which each run is a single byte gives one illegal token for each run of them (`Lexed.condensed`),
and a parse of these tokens keeps the same statements and has the same messages (`Cut.condensed`).
Decoding, which may replace some of the bytes, leaves the runs where they are
(`outline_of_sameRuns`).
-/
namespace LetReturn.StrayRuns
open Utf8 Tokens Scanning Diagnostics Programs Journals Parsing ReadLoop
open Lexemes Lexing Respacing Segments Lookahead Concatenation Characters Decoding LoopRuns
open LineAnswers Rendering

section Outlines
variable {b c : UInt8} {run rest source : List UInt8}

/-- One mark in front, also where there was one before. -/
def mark (xs : List (Option UInt8)) : List (Option UInt8) :=
  if xs.head? = some none then xs else none :: xs

/-- A source with a single mark for each run of stray bytes. -/
def outline : List UInt8 → List (Option UInt8)
  | [] => []
  | b :: rest => if Stray b then mark (outline rest) else some b :: outline rest

/-- A source with a zero byte for each run of stray bytes. -/
def plain (source : List UInt8) : List UInt8 := (outline source).map (·.getD 0)

theorem plain_eq {a b : List UInt8} (h : outline a = outline b) : plain a = plain b := by
  rw [plain, plain, h]

theorem mark_mark (xs : List (Option UInt8)) : mark (mark xs) = mark xs := by
  by_cases h : xs.head? = some none <;> simp [mark, h]

theorem mark_append_some (xs ys : List (Option UInt8)) (b : UInt8) :
    mark (xs ++ some b :: ys) = mark xs ++ some b :: ys := by
  cases xs with
  | nil => simp [mark]
  | cons x xs => by_cases hx : x = none <;> simp [mark, hx]

theorem mem_mark {xs : List (Option UInt8)} : some b ∈ mark xs ↔ some b ∈ xs := by
  by_cases h : xs.head? = some none <;> simp [mark, h]

theorem outline_run (hne : run ≠ []) (hrun : ∀ b ∈ run, Stray b) (rest : List UInt8) :
    outline (run ++ rest) = mark (outline rest) := by
  induction run with
  | nil => exact absurd rfl hne
  | cons b run ih =>
    rw [List.forall_mem_cons] at hrun
    rw [List.cons_append, outline, if_pos hrun.1]
    cases run with
    | nil => rfl
    | cons c run => rw [ih (List.cons_ne_nil c run) hrun.2, mark_mark]

theorem outline_append_cons (hb : ¬ Stray b) (front rest : List UInt8) :
    outline (front ++ b :: rest) = outline front ++ some b :: outline rest := by
  induction front with
  | nil => exact if_neg hb
  | cons a front ih =>
    rw [List.cons_append, outline, outline, ih]
    split_ifs
    · exact mark_append_some _ _ b
    · rfl

theorem plain_append_cons (hb : ¬ Stray b) (front rest : List UInt8) :
    plain (front ++ b :: rest) = plain front ++ b :: plain rest := by
  rw [plain, outline_append_cons hb, List.map_append]
  rfl

theorem plain_cons (hb : ¬ Stray b) (rest : List UInt8) : plain (b :: rest) = b :: plain rest :=
  plain_append_cons hb [] rest

theorem plain_append_of_not_stray {piece : List UInt8} (h : ∀ b ∈ piece, ¬ Stray b)
    (rest : List UInt8) : plain (piece ++ rest) = piece ++ plain rest := by
  induction piece with
  | nil => rfl
  | cons b piece ih =>
    rw [List.forall_mem_cons] at h
    rw [List.cons_append, plain_cons h.1, ih h.2, List.cons_append]

theorem plain_stray_stray (hb : Stray b) (hc : Stray c) (rest : List UInt8) :
    plain (b :: c :: rest) = plain (c :: rest) := by
  rw [plain, plain, outline, if_pos hb, outline, if_pos hc, mark_mark]

theorem plain_stray (hb : Stray b) (hrest : ∀ c ∈ rest.head?, ¬ Stray c) :
    plain (b :: rest) = 0 :: plain rest := by
  have hmark : mark (outline rest) = none :: outline rest := by
    refine if_neg ?_
    cases rest with
    | nil => simp [outline]
    | cons c rest => simp [outline, hrest c rfl]
  rw [plain, outline, if_pos hb, hmark]
  rfl

theorem mem_outline (h : some b ∈ outline source) : b ∈ source ∧ ¬ Stray b := by
  induction source with
  | nil => cases h
  | cons a rest ih =>
    have hrest : some b ∈ outline rest → b ∈ a :: rest ∧ ¬ Stray b :=
      fun h => (ih h).imp_left (List.mem_cons_of_mem a)
    rw [outline] at h
    split_ifs at h with ha
    · exact hrest (mem_mark.1 h)
    · obtain h | h := List.mem_cons.1 h
      · cases h
        exact ⟨List.mem_cons_self, ha⟩
      · exact hrest h

theorem mem_plain (h : b ∈ plain source) : b = 0 ∨ b ∈ source ∧ ¬ Stray b := by
  obtain ⟨x, hx, rfl⟩ := List.mem_map.1 h
  cases x with
  | none => exact .inl rfl
  | some b => exact .inr (mem_outline hx)

theorem head_plain (h : b ∈ (plain source).head?) : b = 0 ∨ b ∈ source.head? := by
  cases source with
  | nil => cases h
  | cons a rest =>
    by_cases ha : Stray a
    · left
      rw [plain, outline, if_pos ha, mark] at h
      split_ifs at h with hmark
      · rw [List.head?_map, hmark] at h
        exact (Option.mem_some_iff.1 h).symm
      · exact (Option.mem_some_iff.1 h).symm
    · right
      rwa [plain_cons ha] at h

end Outlines

section Tokens
variable {t u last last' : Token} {ts us : List Token}

/-- The second list has one illegal token, or more, where the first one has a run of them; all
other tokens are the same, though they may stand elsewhere. -/
inductive Condensed : List Token → List Token → Prop where
  | nil : Condensed [] []
  | keep {t u : Token} {ts us : List Token} (hkind : t.kind = u.kind)
      (hliteral : t.kind ≠ .illegal → t.literal = u.literal) (tail : Condensed ts us) :
      Condensed (t :: ts) (u :: us)
  | merge {t u : Token} {ts us : List Token} (ht : t.kind = .illegal) (hu : u.kind = .illegal)
      (tail : Condensed ts (u :: us)) : Condensed (t :: ts) (u :: us)

theorem Condensed.head_kind (h : Condensed ts us) (hlast : last.kind = last'.kind) :
    (ts.headD last).kind = (us.headD last').kind := by
  cases h with
  | nil => exact hlast
  | keep hkind => exact hkind
  | merge ht hu => exact ht.trans hu.symm

theorem Condensed.legal (h : Condensed (t :: ts) us) (ht : t.kind ≠ .illegal) :
    ∃ u us', us = u :: us' ∧ t.kind = u.kind ∧ t.literal = u.literal ∧ Condensed ts us' := by
  cases h with
  | keep hkind hliteral tail => exact ⟨_, _, rfl, hkind, hliteral ht, tail⟩
  | merge h => exact absurd h ht

theorem Value.condensed {value rest : List Token} (h : Value value rest)
    (hc : Condensed (value ++ rest) us) : ∃ value' rest', us = value' ++ rest' ∧
      Value value' rest' ∧ Condensed rest rest' := by
  induction h generalizing us with
  | closed hm =>
    obtain ⟨u, us', rfl, hkind, -, hc⟩ := hc.legal (by simp [hm])
    exact ⟨[u], us', rfl, .closed (hkind ▸ hm), hc⟩
  | unclosed =>
    cases hc
    exact ⟨[], [], rfl, .unclosed, .nil⟩
  | pass ht _ ih =>
    cases hc with
    | keep hkind _ hc =>
      obtain ⟨value', rest', rfl, hv, hc⟩ := ih hc
      exact ⟨_ :: value', rest', rfl, .pass (hkind ▸ ht) hv, hc⟩
    | merge _ _ hc => exact ih hc

/-- What can be seen of a parse: the texts of its statements and its messages. -/
def seen (p : Parse) : List String × List String :=
  (p.program.statements.map Statement.text, p.errors)

theorem seen_kept {segs segs' : List Segment} {s s' : Statement} (hs : s.text = s'.text)
    (h : seen (outcome segs) = seen (outcome segs')) :
    seen (outcome (⟨ts, .kept s⟩ :: segs)) = seen (outcome (⟨us, .kept s'⟩ :: segs')) :=
  congrArg₂ (fun text p => (text :: Prod.fst p, Prod.snd p)) hs h

theorem seen_dropped {segs segs' : List Segment} (expected : Kind) (ht : t.kind = u.kind)
    (h : seen (outcome segs) = seen (outcome segs')) :
    seen (outcome (⟨ts, .dropped (unexpected expected t)⟩ :: segs)) =
      seen (outcome (⟨us, .dropped (unexpected expected u)⟩ :: segs')) := by
  have hmessage : (unexpected expected t).message = (unexpected expected u).message := by
    unfold unexpected Diagnostic.message
    rw [ht]
  exact congrArg₂ (fun message p => (Prod.fst p, message :: Prod.snd p)) hmessage h

/-- A run of illegal tokens is seen by a parse as one of them is. -/
theorem Cut.condensed {segs : List Segment} (h : Cut last ts segs) (hlast : last.kind = last'.kind)
    (hc : Condensed ts us) :
    ∃ segs', Cut last' us segs' ∧ seen (outcome segs) = seen (outcome segs') := by
  induction h generalizing us with
  | done =>
    cases hc
    exact ⟨[], .done, rfl⟩
  | @binding word name sign value rest segs hw hn hs hv _ ih =>
    obtain ⟨word', _, rfl, hwk, hwl, hc⟩ := hc.legal (by simp [hw])
    obtain ⟨name', _, rfl, hnk, hnl, hc⟩ := hc.legal (by simp [hn])
    obtain ⟨sign', _, rfl, hsk, -, hc⟩ := hc.legal (by simp [hs])
    obtain ⟨value', rest', rfl, hv', hc⟩ := Value.condensed hv hc
    obtain ⟨segs', hcut, hseen⟩ := ih hc
    refine ⟨_, .binding (hwk ▸ hw) (hnk ▸ hn) (hsk ▸ hs) hv' hcut, seen_kept ?_ hseen⟩
    simp only [Statement.text, hwl, hnl]
  | @returning word value rest segs hw hv _ ih =>
    obtain ⟨word', _, rfl, hwk, hwl, hc⟩ := hc.legal (by simp [hw])
    obtain ⟨value', rest', rfl, hv', hc⟩ := Value.condensed hv hc
    obtain ⟨segs', hcut, hseen⟩ := ih hc
    refine ⟨_, .returning (hwk ▸ hw) hv' hcut, seen_kept ?_ hseen⟩
    simp only [Statement.text, hwl]
  | @nameless word rest segs hw hn _ ih =>
    obtain ⟨word', us', rfl, hwk, -, hc⟩ := hc.legal (by simp [hw])
    obtain ⟨segs', hcut, hseen⟩ := ih hc
    have hhead := hc.head_kind hlast
    refine ⟨_, .nameless (hwk ▸ hw) (hhead ▸ hn) hcut, ?_⟩
    exact seen_dropped .ident hhead hseen
  | @signless word name rest segs hw hn hs _ ih =>
    obtain ⟨word', _, rfl, hwk, -, hc⟩ := hc.legal (by simp [hw])
    obtain ⟨name', us', rfl, hnk, -, hc⟩ := hc.legal (by simp [hn])
    obtain ⟨segs', hcut, hseen⟩ := ih hc
    have hhead := hc.head_kind hlast
    refine ⟨_, .signless (hwk ▸ hw) (hnk ▸ hn) (hhead ▸ hs) hcut, ?_⟩
    exact seen_dropped .assign hhead hseen
  | @other word rest segs hl hr _ ih =>
    cases hc with
    | keep hkind _ hc =>
      obtain ⟨segs', hcut, hseen⟩ := ih hc
      exact ⟨_, .other (hkind ▸ hl) (hkind ▸ hr) hcut, hseen⟩
    -- The token leaves nothing to see, and the run goes on behind it.
    | merge _ _ hc => exact ih hc

end Tokens

section Sources
variable {source rest : List UInt8} {ts : List Token} {b : UInt8}

theorem lexeme_legal_or_stray {kind : Kind} {piece : List UInt8} (h : Lexeme kind piece rest) :
    (kind ≠ .illegal ∧ ∀ b ∈ piece, ¬ Stray b) ∨ kind = .illegal ∧ ∃ b, piece = [b] ∧ Stray b := by
  cases h with
  | word _ hp _ =>
    have hw := isWord_wordKind piece
    exact .inl ⟨fun hk => absurd (hk ▸ hw) (by decide), fun b hb hs => hs.2.1 (hp b hb)⟩
  | number _ hp _ => exact .inl ⟨by decide, fun b hb hs => hs.2.2.1 (hp b hb)⟩
  | eq | notEq | assign | bang => exact .inl ⟨by decide, by simp [Stray]⟩
  | symbol hs =>
    refine .inl ⟨?_, fun b hb hstray => ?_⟩
    · rintro rfl
      simp [Lexemes.Symbol, symbols] at hs
    · obtain rfl := List.mem_singleton.1 hb
      exact hstray.2.2.2.2.2 _ hs
  | stray hs => exact .inr ⟨rfl, _, rfl, hs⟩

theorem head_illegal {n : ℕ} (h : Lexed n (b :: rest) ts) (hb : Stray b) :
    ∃ t ts', ts = t :: ts' ∧ t.kind = .illegal := by
  have hs : Scanner.skipBlanks ⟨n, b :: rest⟩ = ⟨n, b :: rest⟩ :=
    skipBlanks_gap blank_nil (by simpa using hb.1)
  have hkind : (Scanner.next ⟨n, b :: rest⟩).1.kind = .illegal := by
    rw [next_cons hs, front_stray hb]
  rw [← h.words_eq, words_of_ne_eof (by simp [hkind])]
  exact ⟨_, _, rfl, hkind⟩

theorem lexeme_plain {kind : Kind} {piece : List UInt8} (h : Lexeme kind piece rest) :
    Lexeme kind piece (plain rest) := by
  obtain ⟨hloose, hrest⟩ := lexeme_iff.1 h
  refine lexeme_iff.2 ⟨hloose, fun b hb => ?_⟩
  obtain rfl | hb := head_plain hb
  · exact not_absorbs (by decide) (by decide) (by decide)
  · exact hrest b hb

theorem Lexed.condensed {n : ℕ} (h : Lexed n source ts) (m : ℕ) :
    ∃ us, Lexed m (plain source) us ∧ Condensed ts us := by
  have hblank : ∀ {gap : List UInt8}, (∀ b ∈ gap, Blank b) → ∀ b ∈ gap, ¬ Stray b :=
    fun hg b hb hs => hs.1 (hg b hb)
  induction h generalizing m with
  | @blanks n gap hg =>
    have hgap := plain_append_of_not_stray (hblank hg) []
    rw [List.append_nil] at hgap
    rw [hgap]
    exact ⟨[], .blanks (by simpa [plain, outline] using hg), .nil⟩
  | @piece n gap piece rest kind ts hg hp tail ih =>
    rw [plain_append_of_not_stray (hblank hg)]
    obtain ⟨-, hlegal⟩ | ⟨rfl, b, rfl, hb⟩ := lexeme_legal_or_stray hp
    · obtain ⟨us, hlexed, hc⟩ := ih (m + gap.length + piece.length)
      rw [plain_append_of_not_stray hlegal]
      exact ⟨_, .piece hg (lexeme_plain hp) hlexed, .keep rfl (fun _ => rfl) hc⟩
    by_cases hrest : ∃ c rest', rest = c :: rest' ∧ Stray c
    -- The run goes on: its token is the one that the rest of the run has.
    · obtain ⟨c, rest', rfl, hc⟩ := hrest
      obtain ⟨us, hlexed, hcond⟩ := ih (m + gap.length)
      obtain ⟨t, ts', rfl, ht⟩ := head_illegal tail hc
      rw [List.singleton_append, plain_stray_stray hb hc]
      refine ⟨us, Lexed.behind_blanks hlexed hg, ?_⟩
      cases hcond with
      | keep hkind hliteral htail =>
        exact .merge rfl (hkind ▸ ht) (.keep hkind hliteral htail)
      | merge _ hu htail => exact .merge rfl hu (.merge ht hu htail)
    · obtain ⟨us, hlexed, hcond⟩ := ih (m + gap.length + 1)
      have hhead : ∀ c ∈ rest.head?, ¬ Stray c := by
        intro c hc hs
        obtain ⟨rest', rfl⟩ := List.head?_eq_some_iff.1 hc
        exact hrest ⟨c, rest', rfl, hs⟩
      have hzero : Lexeme .illegal [0] (plain rest) := .stray (stray_of_high (.inl rfl))
      rw [List.singleton_append, plain_stray hb hhead]
      exact ⟨_, .piece hg hzero hlexed, .keep rfl (fun h => absurd rfl h) hcond⟩

theorem seen_plain (source : List UInt8) :
    seen (Parse.ofScanner (.ofBytes (plain source))) = seen (Parse.ofScanner (.ofBytes source)) := by
  obtain ⟨us, hlexed, hcond⟩ := Lexed.condensed (lexed_words (.ofBytes source)) 0
  have hwords : words (.ofBytes (plain source)) = us := hlexed.words_eq
  have hending : (ending (.ofBytes source)).kind = (ending (.ofBytes (plain source))).kind := rfl
  obtain ⟨segs, hcut, hseen⟩ := Cut.condensed (cut_segments (.ofBytes source)) hending hcond
  rw [ofScanner_eq_outcome, ofScanner_eq_outcome, hwords, hcut.segments_eq, hseen]

end Sources

section Answers

theorem answer_of_seen {p q : Parse} (h : seen p = seen q) : answer p = answer q := by
  obtain ⟨htexts, herrors⟩ := Prod.mk.inj h
  have hempty : p.diagnostics.isEmpty = q.diagnostics.isEmpty := by
    simpa [Parse.errors] using congrArg List.isEmpty herrors
  rw [answer, answer, hempty, Program.text, Program.text, htexts, herrors]

theorem outline_of_sameRuns {bytes out : Bytes} (h : SameRuns bytes out) :
    outline out = outline bytes := by
  have hstray : ∀ {run : Bytes}, (∀ b ∈ run, 0x80 ≤ b) → ∀ b ∈ run, Stray b :=
    fun hrun b hb => stray_of_high (.inr (hrun b hb))
  induction h with
  | nil => rfl
  | ascii _ _ ih => rw [outline, outline, ih]
  | run hne hne' hrun hrun' _ _ _ ih =>
    rw [outline_run hne' (hstray hrun'), ih, ← outline_run hne (hstray hrun)]

/-- To decode a line changes nothing that is seen of it. -/
theorem seen_line (line : Bytes) :
    seen (Parse.ofScanner (scanner line)) = seen (Parse.ofScanner (.ofBytes line)) := by
  have hplain : plain (encode (decodeLossy line)) = plain line :=
    plain_eq (outline_of_sameRuns (sameRuns_decodeLossy line))
  rw [scanner, ← seen_plain, hplain, seen_plain]

theorem respond_plain (line : Bytes) : respond (plain line) = respond line := by
  have hseen : seen (Parse.ofScanner (scanner (plain line))) =
      seen (Parse.ofScanner (scanner line)) := by
    rw [seen_line, seen_plain, seen_line]
  exact answer_of_seen hseen

end Answers

section Runs
variable {input : Bytes} {ls : List Bytes}

theorem outline_ne_nil (h : input ≠ []) : outline input ≠ [] := by
  cases input with
  | nil => exact absurd rfl h
  | cons b rest =>
    rw [outline, mark]
    split_ifs with _ hmark
    · exact fun hnil => by simp [hnil] at hmark
    · exact List.cons_ne_nil _ _
    · exact List.cons_ne_nil _ _

theorem lineFeed_not_mem_plain {l : Bytes} (hl : 0x0A ∉ l) : 0x0A ∉ plain l := by
  intro h
  obtain h | h := mem_plain h
  · exact absurd h (by decide)
  · exact hl h.1

theorem plain_complete (l : Bytes) : plain (l ++ [0x0A]) = plain l ++ [0x0A] :=
  plain_append_cons (by decide) l []

theorem lined_plain (h : Lined input ls) : Lined (plain input) (ls.map plain) := by
  induction h with
  | none => exact .none
  | unfinished hne hl =>
    exact .unfinished (mt List.map_eq_nil_iff.1 (outline_ne_nil hne)) (lineFeed_not_mem_plain hl)
  | line hl _ ih =>
    rw [plain_append_cons (by decide), List.map_cons, plain_complete]
    exact .line (lineFeed_not_mem_plain hl) ih

theorem isComplete_plain (h : Lined input ls) : ∀ l ∈ ls, isComplete (plain l) = isComplete l := by
  induction h with
  | none => simp
  | unfinished _ hl =>
    rw [List.forall_mem_singleton, isComplete_of_not_mem (lineFeed_not_mem_plain hl),
      isComplete_of_not_mem hl]
  | line _ _ ih =>
    rw [List.forall_mem_cons, plain_complete, isComplete_append, isComplete_append]
    exact ⟨rfl, ih⟩

theorem lines_plain (input : Bytes) (fails : Bool) :
    (Input.mk (plain input) fails).lines = (Input.mk input fails).lines.map plain := by
  have hlines := lined_lines input
  have hall : lines (plain input) = (lines input).map plain := (lined_plain hlines).lines_eq
  cases fails with
  | false => exact hall
  | true =>
    have hcomplete : ∀ l ∈ lines input, (isComplete ∘ plain) l = isComplete l :=
      isComplete_plain hlines
    have hfiltered : (lines (plain input)).filter isComplete =
        ((lines input).filter isComplete).map plain := by
      rw [hall, List.filter_map, List.filter_congr hcomplete]
    exact hfiltered

theorem script_plain (ls : List Bytes) : script (ls.map plain) = script ls := by
  induction ls with
  | nil => rfl
  | cons l ls ih => rw [List.map_cons, script, script, respond_plain, ih]

theorem run_plain (input : Bytes) (fails : Bool) (limit : Option ℕ) :
    (run ⟨plain input, fails⟩ limit).segments = (run ⟨input, fails⟩ limit).segments ∧
      (run ⟨plain input, fails⟩ limit).ending = (run ⟨input, fails⟩ limit).ending := by
  have hrun := run_eq_ending ⟨plain input, fails⟩ limit
  rw [lines_plain, script_plain] at hrun
  exact Prod.mk.inj (hrun.trans (run_eq_ending ⟨input, fails⟩ limit).symm)

end Runs

section Ascii

theorem name_inline (kind : Kind) : ∀ b ∈ ofString kind.name, Inline b := by
  apply inline_ofString
  cases kind <;> simp [Kind.name]

theorem message_inline (expected : Kind) (t : Token) :
    ∀ b ∈ ofString (unexpected expected t).message, Inline b := by
  unfold unexpected Diagnostic.message
  simp only [ofString_append, List.forall_mem_append]
  exact ⟨⟨⟨⟨inline_ofString (by simp), name_inline expected⟩, inline_ofString (by simp)⟩,
    name_inline t.kind⟩, inline_ofString (by simp)⟩

theorem errors_inline {last : Token} {ts : List Token} {segs : List Segment}
    (h : Cut last ts segs) :
    ∀ message ∈ (outcome segs).errors, ∀ b ∈ ofString message, Inline b := by
  induction h with
  | done => exact fun _ h => nomatch h
  | nameless _ _ _ ih => exact List.forall_mem_cons.2 ⟨message_inline .ident _, ih⟩
  | signless _ _ _ _ ih => exact List.forall_mem_cons.2 ⟨message_inline .assign _, ih⟩
  | binding _ _ _ _ _ ih => exact ih
  | returning _ _ _ ih => exact ih
  | other _ _ _ ih => exact ih

theorem errors_of_parse (sc : Scanner) :
    ∀ message ∈ (Parse.ofScanner sc).errors, ∀ b ∈ ofString message, Inline b := by
  rw [ofScanner_eq_outcome]
  exact errors_inline (cut_segments sc)

theorem respond_ascii (line : Bytes) :
    ∀ piece ∈ respond line, ∀ b ∈ ofString piece, b < 0x80 := by
  have hfeed : ∀ b ∈ ofString "\n", b < 0x80 := ofString_ascii (by simp)
  unfold respond answer
  split_ifs with hempty
  · have hkept := kept_of_parse (scanner line)
    simp only [List.forall_mem_cons]
    exact ⟨fun b hb => (inline_program hkept b hb).1, hfeed, by simp⟩
  · have herrors := errors_of_parse (scanner line)
    rw [List.forall_mem_cons, List.forall_mem_map]
    refine ⟨ofString_ascii (by simp), fun message hmessage => ?_⟩
    simp only [ofString_append, List.forall_mem_append]
    exact ⟨⟨ofString_ascii (by simp), fun b hb => (herrors message hmessage b hb).1⟩, hfeed⟩

theorem output_ascii (ls : List Bytes) : ∀ b ∈ output (script ls), b < 0x80 := by
  have hprompt : ∀ b ∈ ofString prompt, b < 0x80 := ofString_ascii (by simp [prompt])
  have hwrites : ∀ pieces : List String, output (pieces.map .write) = pieces.flatMap ofString := by
    intro pieces
    rw [output, List.flatMap_map]
    rfl
  induction ls with
  | nil => exact hprompt
  | cons l ls ih =>
    rw [script, output_cons, output_cons, output, List.flatMap_append, ← output, ← output, hwrites]
    simp only [List.forall_mem_append, List.forall_mem_flatMap]
    exact ⟨hprompt, by simp [Act.bytes], respond_ascii l, ih⟩

theorem run_ascii (input : Input) (limit : Option ℕ) :
    ∀ b ∈ (run input limit).segments.flatten, b < 0x80 := by
  by_cases hroom : ∀ n ∈ limit, (output (script input.lines)).length ≤ n
  · rw [(run_with_room hroom).1]
    exact output_ascii _
  · push Not at hroom
    obtain ⟨n, hn, hlt⟩ := hroom
    rw [(run_without_room hn hlt).1]
    exact fun b hb => output_ascii _ b (List.mem_of_mem_take hb)

end Ascii

/-- Inputs that differ only in what their runs of stray bytes are make the loop do the same,
whatever fails. All that it writes is ASCII. -/
theorem stray_runs_alike :
    (∀ b : UInt8, 0x80 ≤ b → Stray b) ∧
    (∀ a b : Bytes, outline a = outline b → ∀ (fails : Bool) (limit : Option ℕ),
      (run ⟨a, fails⟩ limit).segments = (run ⟨b, fails⟩ limit).segments ∧
        (run ⟨a, fails⟩ limit).ending = (run ⟨b, fails⟩ limit).ending) ∧
    ∀ (input : Input) (limit : Option ℕ), ∀ b ∈ (run input limit).segments.flatten, b < 0x80 := by
  refine ⟨fun b hb => stray_of_high (.inr hb), fun a b hab fails limit => ?_, run_ascii⟩
  have hplain : plain a = plain b := plain_eq hab
  obtain ⟨hsegments, hending⟩ := run_plain a fails limit
  obtain ⟨hsegments', hending'⟩ := run_plain b fails limit
  rw [hplain] at hsegments hending
  exact ⟨hsegments.symm.trans hsegments', hending.symm.trans hending'⟩

def torn : Bytes :=
  ofString "let " ++ [0xFF, 0xFE] ++ ofString " = 5;\nlet x = " ++ [0xE2, 0x82] ++ ofString ";"

def whole : Bytes := ofString "let \u00E9 = 5;\nlet x = #?$;"

theorem stray_runs_alike_torn : (0x80 ≤ (0xFF : UInt8) ∧ Stray 0xFF) ∧
    (outline torn = outline whole ∧
      (run ⟨torn, true⟩ (some 40)).segments = (run ⟨whole, true⟩ (some 40)).segments ∧
        (run ⟨torn, true⟩ (some 40)).ending = (run ⟨whole, true⟩ (some 40)).ending) ∧
    0x3E ∈ (run ⟨torn, false⟩ none).segments.flatten ∧ (0x3E : UInt8) < 0x80 := by
  have hhigh : 0x80 ≤ (0xFF : UInt8) := by decide
  have houtline : outline torn = outline whole := by decide +kernel
  have hprompt : 0x3E ∈ (run ⟨torn, false⟩ none).segments.flatten := by
    rw [← transcript, transcript_eq]
    exact List.mem_append_left _ (by decide +kernel)
  exact ⟨⟨hhigh, stray_runs_alike.1 0xFF hhigh⟩,
    ⟨houtline, stray_runs_alike.2.1 torn whole houtline true (some 40)⟩,
    hprompt, stray_runs_alike.2.2 ⟨torn, false⟩ none 0x3E hprompt⟩

end LetReturn.StrayRuns
