import LetReturn.Proofs.Lookahead
import LetReturn.Proofs.Tiling

set_option autoImplicit false

namespace LetReturn.Attribution
open Tokens Scanning Diagnostics Programs Journals Parsing
open Lexemes Lexing Tiling Characters Segments Lookahead

/-- The first range begins earlier than the second, and ends before the second begins. -/
def Before (a b : Span) : Prop := a.start < b.start ∧ a.stop ≤ b.start

/-- The offset is that of a character, or of the end. -/
def IsBoundary (text : String) (n : ℕ) : Prop :=
  ∃ before after, text = before ++ after ∧ (Utf8.ofString before).length = n

/-- The diagnostic belongs to the `let` token `word`: behind it stands a token that is no name, or
a name and a token that is no `=`. -/
inductive Blames (ts : List Token) (word : Token) : Diagnostic → Prop where
  | nameless {t : Token} (hw : word.kind = .letWord) (ht : t.kind ≠ .ident)
      (hts : [word, t] <:+: ts) : Blames ts word (.unexpectedToken .ident t.kind t.span)
  | signless {name t : Token} (hw : word.kind = .letWord) (hn : name.kind = .ident)
      (ht : t.kind ≠ .assign) (hts : [word, name, t] <:+: ts) :
      Blames ts word (.unexpectedToken .assign t.kind t.span)

def target : Diagnostic → Option Kind × Span
  | .unexpectedToken _ got span => (some got, span)
  | .invalidInteger _ span => (none, span)

section Cuts
variable {last : Token} {ts rest : List Token} {segs : List Segment}

theorem Blames.mono {us : List Token} {word : Token} {d : Diagnostic} (h : Blames ts word d)
    (hts : ts <:+: us) : Blames us word d := by
  cases h with
  | nameless hw ht h => exact .nameless hw ht (h.trans hts)
  | signless hw hn ht h => exact .signless hw hn ht (h.trans hts)

theorem append_last (rest : List Token) (last : Token) :
    rest ++ [last] = rest.headD last :: (rest ++ [last]).tail := by
  cases rest <;> rfl

theorem targets_sublist (h : Cut last ts segs) :
    ((outcome segs).diagnostics.map target).Sublist
      ((ts ++ [last]).tail.map fun t => (some t.kind, t.span)) := by
  have hbehind : ∀ (word : Token) (more rest : List Token),
      (rest ++ [last]).tail.Sublist (word :: (more ++ rest) ++ [last]).tail := by
    intro word more rest
    rw [List.cons_append, List.tail_cons, List.append_assoc]
    exact (List.tail_sublist _).trans (List.sublist_append_right more _)
  induction h with
  | done => exact .slnil
  | @binding word name sign value rest _ _ _ _ _ _ ih =>
    exact ih.trans ((hbehind word (name :: sign :: value) rest).map _)
  | @returning word value rest _ _ _ _ ih => exact ih.trans ((hbehind word value rest).map _)
  | @nameless word rest _ _ _ _ ih =>
    rw [List.cons_append, List.tail_cons, append_last rest last]
    exact ih.cons_cons _
  | @signless word name rest _ _ _ _ _ ih =>
    rw [List.cons_append, List.tail_cons, List.cons_append, append_last rest last]
    exact (ih.cons_cons _).cons _
  | @other word rest _ _ _ _ ih => exact ih.trans ((hbehind word [] rest).map _)

theorem tokens_sublist (h : Cut last ts segs) :
    ((outcome segs).program.statements.map Statement.token).Sublist ts := by
  induction h with
  | done => exact .slnil
  | @binding word name sign value rest _ _ _ _ _ _ ih =>
    exact (ih.trans (List.sublist_append_right (name :: sign :: value) rest)).cons_cons word
  | @returning word value rest _ _ _ _ ih =>
    exact (ih.trans (List.sublist_append_right value rest)).cons_cons word
  | nameless _ _ _ ih => exact ih.cons _
  | signless _ _ _ _ ih => exact (ih.cons _).cons _
  | other _ _ _ ih => exact ih.cons _

theorem names_follow (h : Cut last ts segs) {head : Token} {x : Identifier}
    {v : Option Expression} (hs : .binding head x v ∈ (outcome segs).program.statements) :
    head.kind = .letWord ∧ [head, x.token] <:+: ts := by
  induction h with
  | done => cases hs
  | @binding word name sign value rest segs hw _ _ _ _ ih =>
    obtain heq | hs := List.mem_cons.1 hs
    · cases heq
      exact ⟨hw, (List.prefix_append [head, name] _).isInfix⟩
    · obtain ⟨hl, hts⟩ := ih hs
      exact ⟨hl, hts.trans (List.suffix_append (word :: name :: sign :: value) rest).isInfix⟩
  | @returning word value rest segs _ _ _ ih =>
    obtain heq | hs := List.mem_cons.1 hs
    · cases heq
    · obtain ⟨hl, hts⟩ := ih hs
      exact ⟨hl, hts.trans (List.suffix_append (word :: value) rest).isInfix⟩
  | @nameless word rest segs _ _ _ ih =>
    obtain ⟨hl, hts⟩ := ih hs
    exact ⟨hl, hts.trans (List.suffix_cons word rest).isInfix⟩
  | @signless word name rest segs _ _ _ _ ih =>
    obtain ⟨hl, hts⟩ := ih hs
    exact ⟨hl, hts.trans (List.suffix_append [word, name] rest).isInfix⟩
  | @other word rest segs _ _ _ ih =>
    obtain ⟨hl, hts⟩ := ih hs
    exact ⟨hl, hts.trans (List.suffix_cons word rest).isInfix⟩

/-- The diagnostics belong to some of the tokens, in order, and a statement has none of them as
its head. -/
def Attributed (last : Token) (ts : List Token) (p : Parse) : Prop :=
  ∃ heads : List Token, heads.Sublist ts ∧
    List.Forall₂ (Blames (ts ++ [last])) heads p.diagnostics ∧
      ∀ s ∈ p.program.statements, s.token ∉ heads

theorem blames_behind (word : Token) (more : List Token) {heads : List Token}
    {ds : List Diagnostic} (h : List.Forall₂ (Blames (rest ++ [last])) heads ds) :
    List.Forall₂ (Blames (word :: (more ++ rest) ++ [last])) heads ds := by
  refine h.imp fun head d hd => hd.mono ?_
  rw [← List.cons_append, List.append_assoc]
  exact (List.suffix_append (word :: more) _).isInfix

theorem attributed_kept {word : Token} (more : List Token) {p : Parse} {s : Statement}
    (hs : s.token = word) (hword : word ∉ rest) (h : Attributed last rest p) :
    Attributed last (word :: (more ++ rest)) ⟨⟨s :: p.program.statements⟩, p.diagnostics⟩ := by
  obtain ⟨heads, hsub, hblames, hkept⟩ := h
  refine ⟨heads, (hsub.trans (List.sublist_append_right more rest)).cons word,
    blames_behind word more hblames, ?_⟩
  rw [List.forall_mem_cons]
  exact ⟨fun hmem => hword (hsub.subset (hs ▸ hmem)), hkept⟩

theorem attributed_dropped {word : Token} (more : List Token) {p : Parse} {d : Diagnostic}
    (hd : Blames (word :: (more ++ rest) ++ [last]) word d) (hword : word ∉ rest)
    (hrest : (p.program.statements.map Statement.token).Sublist rest)
    (h : Attributed last rest p) :
    Attributed last (word :: (more ++ rest)) ⟨p.program, d :: p.diagnostics⟩ := by
  obtain ⟨heads, hsub, hblames, hkept⟩ := h
  refine ⟨word :: heads, (hsub.trans (List.sublist_append_right more rest)).cons_cons word,
    .cons hd (blames_behind word more hblames), fun s hs => ?_⟩
  have hmem := hrest.subset (List.mem_map_of_mem hs)
  rw [List.mem_cons, not_or]
  exact ⟨fun he => hword (he ▸ hmem), hkept s hs⟩

theorem attributed (h : Cut last ts segs) (hts : ts.Nodup) : Attributed last ts (outcome segs) := by
  have hfront : ∀ {word : Token} (more : List Token) {rest : List Token},
      (word :: (more ++ rest)).Nodup → word ∉ rest ∧ rest.Nodup := by
    intro word more rest hts
    obtain ⟨hword, hts⟩ := List.nodup_cons.1 hts
    exact ⟨fun h => hword (List.mem_append_right more h), (List.nodup_append.1 hts).2.1⟩
  induction h with
  | done => exact ⟨[], .slnil, .nil, by simp [outcome, statements]⟩
  | @binding word name sign value rest segs _ _ _ _ _ ih =>
    obtain ⟨hword, hrest⟩ := hfront (name :: sign :: value) hts
    exact attributed_kept (s := .binding word ⟨name, name.literal⟩ none) (name :: sign :: value) rfl
      hword (ih hrest)
  | @returning word value rest segs _ _ _ ih =>
    obtain ⟨hword, hrest⟩ := hfront value hts
    exact attributed_kept (s := .returning word none) value rfl hword (ih hrest)
  | @nameless word rest segs hw hn tail ih =>
    obtain ⟨hword, hrest⟩ := hfront [] hts
    refine attributed_dropped [] (.nameless hw hn ?_) hword (tokens_sublist tail) (ih hrest)
    rw [List.nil_append, List.cons_append, append_last rest last]
    exact (List.prefix_append [word, rest.headD last] _).isInfix
  | @signless word name rest segs hw hn hs tail ih =>
    obtain ⟨hword, hrest⟩ := hfront [name] hts
    refine attributed_dropped [name] (.signless hw hn hs ?_) hword (tokens_sublist tail)
      (ih hrest)
    rw [List.singleton_append, List.cons_append, List.cons_append, append_last rest last]
    exact (List.prefix_append [word, name, rest.headD last] _).isInfix
  | @other word rest segs _ _ tail ih =>
    obtain ⟨hword, hrest⟩ := hfront [] hts
    obtain ⟨heads, hsub, hblames, hkept⟩ := ih hrest
    exact ⟨heads, hsub.cons word, blames_behind word [] hblames, hkept⟩

theorem exists_blames {heads : List Token} {ds : List Diagnostic}
    (h : List.Forall₂ (Blames ts) heads ds) {d : Diagnostic} (hd : d ∈ ds) :
    ∃ head, Blames ts head d := by
  induction h with
  | nil => cases hd
  | cons hb _ ih =>
    obtain rfl | hd := List.mem_cons.1 hd
    · exact ⟨_, hb⟩
    · exact ih hd

theorem pairwise_of_targets {ds : List Diagnostic} {targets : List (Option Kind × Span)}
    (h : (ds.map target).Sublist targets) (hbefore : targets.Pairwise fun a b => Before a.2 b.2) :
    ds.Pairwise fun d e => Before d.span e.span := by
  have hspan : ∀ d : Diagnostic, (target d).2 = d.span := by
    intro d
    cases d <;> rfl
  simpa only [List.pairwise_map, hspan] using hbefore.sublist h

theorem dropLast_sublist {α : Type} {xs ys : List α} (h : xs.Sublist ys) :
    xs.dropLast.Sublist ys.dropLast := by
  have hreverse := h.reverse.tail
  rwa [List.tail_reverse, List.tail_reverse, List.reverse_sublist] at hreverse

end Cuts

section Places
variable {source : List UInt8}

theorem tokens_before (source : List UInt8) :
    (Scanner.ofBytes source).tokens.1.Pairwise fun a b => Before a.span b.span := by
  have htiled := words_tiled source
  rw [tokens_eq_words, List.pairwise_append]
  refine ⟨?_, List.pairwise_singleton _ _, fun a ha b hb => ?_⟩
  · refine htiled.ordered.imp_of_mem fun ha _ hab => ?_
    have hbounds := htiled.bounds _ ha
    simp only [Before]
    omega
  · obtain rfl := List.mem_singleton.1 hb
    have hbounds := htiled.bounds a ha
    simp only [Before, ending, Token.eof, Scanner.ofBytes]
    omega

theorem isBoundary_of_ascii {text : String} {i : ℕ} {b : UInt8}
    (hi : (Utf8.ofString text)[i]? = some b) (hb : b < 0x80) : IsBoundary text (i + 1) := by
  obtain ⟨hlt, hget⟩ := List.getElem?_eq_some_iff.1 hi
  have hsplit : Utf8.ofString text = (Utf8.ofString text).take i ++
      ([b] ++ (Utf8.ofString text).drop (i + 1)) := by
    rw [List.singleton_append, ← hget, ← List.drop_eq_getElem_cons hlt, List.take_append_drop]
  have hascii : ∀ a ∈ [b], a < 0x80 := by simpa using hb
  obtain ⟨front, rest, htext, hfront, -⟩ := exists_split (by simp) hascii hsplit
  refine ⟨String.ofList (front ++ [b].map Char.ofUInt8), String.ofList rest, ?_, ?_⟩
  · rw [← String.toList_inj]
    simp [htext]
  · rw [Utf8.ofString, String.toList_ofList, Utf8.encode_append, hfront, encode_ascii hascii,
      List.length_append, List.length_take_of_le hlt.le, List.length_singleton]

theorem not_covers_between {ts : List Token} {word t u : Token} {i : ℕ}
    (h : ts.Pairwise fun a b => Before a.span b.span) (hts : [word, t] <:+: ts) (hu : u ∈ ts)
    (hword : word.span.start ≤ word.span.stop) (hlow : word.span.stop ≤ i)
    (hhigh : i < t.span.start) : ¬ Covers u.span i := by
  obtain ⟨front, behind, rfl⟩ := hts
  obtain ⟨hfront, -, hbehind⟩ := List.pairwise_append.1 h
  obtain ⟨-, -, hfront⟩ := List.pairwise_append.1 hfront
  simp only [List.mem_append, List.mem_cons, List.not_mem_nil, or_false] at hu hfront hbehind
  simp only [Covers, Before] at *
  rcases hu with (hu | rfl | rfl) | hu
  · have hle := hfront u hu word (.inl rfl)
    omega
  · omega
  · omega
  · have hle := hbehind t (.inr (.inr rfl)) u hu
    omega

/-- Directly in front of what follows a word stands an ASCII byte, a letter of the word or a
blank. -/
theorem exists_ascii_before {word t : Token}
    (hts : [word, t] <:+: (Scanner.ofBytes source).tokens.1)
    (hw : word.kind = .letWord ∨ word.kind = .ident) :
    ∃ i b, t.span.start = i + 1 ∧ source[i]? = some b ∧ b < 0x80 := by
  have hbefore := tokens_before source
  have hpair : Before word.span t.span := by
    have hboth := hbefore.sublist hts.sublist
    simpa using hboth
  have hmem : ∀ u ∈ (Scanner.ofBytes source).tokens.1,
      u ∈ words (.ofBytes source) ∨ u = ending (.ofBytes source) := by
    intro u hu
    rwa [tokens_eq_words, List.mem_append, List.mem_singleton] at hu
  have hword : word ∈ words (.ofBytes source) := by
    refine (hmem word (hts.subset (by simp))).resolve_right ?_
    rintro rfl
    simp [ending, Token.eof] at hw
  have htiled := words_tiled source
  obtain ⟨-, hlt, hle⟩ := htiled.bounds word hword
  have hend : t.span.start ≤ source.length := by
    obtain ht | rfl := hmem t (hts.subset (by simp))
    · have hbounds := htiled.bounds t ht
      omega
    · simp [ending, Token.eof, Scanner.ofBytes]
  obtain ⟨i, hi⟩ := Nat.exists_eq_succ_of_ne_zero (Nat.ne_zero_of_lt hpair.1)
  have hin : i < source.length := by omega
  refine ⟨i, source[i], hi, List.getElem?_eq_getElem hin, ?_⟩
  by_cases hcovered : i < word.span.stop
  · obtain ⟨rest, hlexeme⟩ := exists_lexeme_slice hword
    have hletters := (hlexeme.of_word (by tauto)).2.1
    have hin' : word.span.start ≤ i := Nat.lt_succ_iff.1 (hi ▸ hpair.1)
    exact (hletters _ (mem_slice ⟨hin', hcovered⟩ (List.getElem?_eq_getElem hin))).ascii
  · have huncovered : ∀ u ∈ words (.ofBytes source), ¬ Covers u.span i := by
      intro u hu
      refine not_covers_between hbefore hts ?_ hlt.le (by omega) (by omega)
      rw [tokens_eq_words]
      exact List.mem_append_left _ hu
    exact ((htiled.blank_iff i _ (Nat.zero_le i) (List.getElem?_eq_getElem hin)).2 huncovered).ascii

theorem isBoundary_of_word {text : String} {word t : Token}
    (hts : [word, t] <:+: (Scanner.ofText text).tokens.1)
    (hw : word.kind = .letWord ∨ word.kind = .ident) : IsBoundary text t.span.start := by
  obtain ⟨i, b, hi, hb, hascii⟩ := exists_ascii_before hts hw
  rw [hi]
  exact isBoundary_of_ascii hb hascii

theorem Blames.isBoundary {text : String} {head : Token} {d : Diagnostic}
    (h : Blames (Scanner.ofText text).tokens.1 head d) : IsBoundary text d.span.start := by
  cases h with
  | nameless hw ht hts => exact isBoundary_of_word hts (.inl hw)
  | @signless name t hw hn ht hts =>
    have hpair : [name, t] <:+: [head, name, t] := (List.suffix_cons head _).isInfix
    exact isBoundary_of_word (hpair.trans hts) (.inr hn)

end Places

/-- What the diagnostics and the statements of a parse are in the tokens of its source. -/
structure WellPlaced (source : String) (ts : List Token) (p : Parse) : Prop where
  /-- Each diagnostic belongs to a `let` of its own, which is not the head of a statement. -/
  blamed : ∃ heads : List Token, List.Forall₂ (Blames ts) heads p.diagnostics ∧
    heads.Pairwise (fun a b => Before a.span b.span) ∧
    ∀ s ∈ p.program.statements, s.token ∉ heads
  diagnostics_before : p.diagnostics.Pairwise fun d e => Before d.span e.span
  /-- Only the last diagnostic can point at the end of the input. -/
  ending_last : ∀ expected span, .unexpectedToken expected .eof span ∉ p.diagnostics.dropLast
  boundaries : ∀ d ∈ p.diagnostics, IsBoundary source d.span.start
  statement_tokens : (p.program.statements.map Statement.token).Sublist ts
  statements_before : p.program.statements.Pairwise fun s s' => Before s.token.span s'.token.span
  names : ∀ head name value, .binding head name value ∈ p.program.statements →
    head.kind = .letWord ∧ [head, name.token] <:+: ts

/-- Each diagnostic belongs to a `let` of its own. They come in the order of what they point at,
and so do the statements. -/
theorem diagnostics_attributed (source : String) :
    WellPlaced source (Scanner.ofText source).tokens.1 (Parse.ofText source) := by
  have hp : Parse.ofText source =
      outcome (segments (ending (.ofText source)) (words (.ofText source))) :=
    ofScanner_eq_outcome _
  have hcut := cut_segments (.ofText source)
  have hts : (Scanner.ofText source).tokens.1 =
      words (.ofText source) ++ [ending (.ofText source)] :=
    congrArg Prod.fst (tokens_eq_words (.ofText source))
  have hbefore : (Scanner.ofText source).tokens.1.Pairwise fun a b => Before a.span b.span :=
    tokens_before _
  have hprefix : (words (.ofText source)).Sublist (Scanner.ofText source).tokens.1 :=
    hts ▸ List.sublist_append_left _ _
  have hnodup : (Scanner.ofText source).tokens.1.Nodup := by
    refine hbefore.imp fun h heq => ?_
    subst heq
    exact Nat.lt_irrefl _ h.1
  obtain ⟨heads, hheads, hblames, hkept⟩ := attributed hcut (hnodup.sublist hprefix)
  have htargets := targets_sublist hcut
  have htokens := tokens_sublist hcut
  rw [← hp] at hblames hkept htargets htokens
  rw [← hts] at hblames htargets
  refine ⟨⟨heads, hblames, hbefore.sublist (hheads.trans hprefix), hkept⟩, ?_, ?_, ?_,
    htokens.trans hprefix, ?_, ?_⟩
  · refine pairwise_of_targets htargets ?_
    rw [List.pairwise_map]
    exact hbefore.sublist (List.tail_sublist _)
  · intro expected span hd
    have hmem := (dropLast_sublist htargets).subset
      (List.map_dropLast ▸ List.mem_map_of_mem (f := target) hd)
    rw [← List.map_dropLast, ← List.tail_dropLast, hts, List.dropLast_concat,
      List.mem_map] at hmem
    obtain ⟨t, ht, htarget⟩ := hmem
    refine (lexed_words (.ofText source)).kind_ne_eof t (List.mem_of_mem_tail ht) ?_
    exact Option.some.inj (Prod.mk.inj htarget).1
  · intro d hd
    obtain ⟨head, hblame⟩ := exists_blames hblames hd
    exact hblame.isBoundary
  · have hstatements := hbefore.sublist (htokens.trans hprefix)
    rwa [List.pairwise_map] at hstatements
  · intro head name value hs
    rw [hp] at hs
    obtain ⟨hl, hfollows⟩ := names_follow hcut hs
    exact ⟨hl, hfollows.trans (hts ▸ (List.prefix_append _ _).isInfix)⟩

end LetReturn.Attribution
