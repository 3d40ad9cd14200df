import LetReturn.Proofs.Lookahead
import LetReturn.Reports

set_option autoImplicit false

namespace LetReturn.Grammar
open Tokens Scanning Diagnostics Programs Journals Parsing Reports Lexing Segments Lookahead

/-- What a statement begins with: `let`, a name and `=`, or just `return`. -/
inductive Opening where
  | binding (word name sign : Token) (hw : word.kind = .letWord) (hn : name.kind = .ident)
      (hs : sign.kind = .assign)
  | returning (word : Token) (hw : word.kind = .returnWord)

namespace Opening

def tokens : Opening → List Token
  | binding word name sign _ _ _ => [word, name, sign]
  | returning word _ => [word]

def statement : Opening → Statement
  | binding word name _ _ _ _ => .binding word (.ofToken name) none
  | returning word _ => .returning word none

end Opening

/-- Any tokens but semicolons. -/
def Inner : Type := { ts : List Token // ∀ t ∈ ts, t.kind ≠ .semicolon }

inductive Sentence where
  | done
  | unfinished (opening : Opening) (value : Inner)
  | other (t : Token) (hl : t.kind ≠ .letWord) (hr : t.kind ≠ .returnWord) (rest : Sentence)
  | statement (opening : Opening) (value : Inner) (mark : Token) (hm : mark.kind = .semicolon)
      (rest : Sentence)

namespace Sentence

def tokens : Sentence → List Token
  | done => []
  | unfinished opening value => opening.tokens ++ value.val
  | other t _ _ rest => t :: rest.tokens
  | statement opening value mark _ rest => opening.tokens ++ (value.val ++ mark :: rest.tokens)

def openings : Sentence → List Opening
  | done => []
  | unfinished opening _ => [opening]
  | other _ _ _ rest => rest.openings
  | statement opening _ _ _ rest => opening :: rest.openings

def segments : Sentence → List Segment
  | done => []
  | unfinished opening value => [⟨opening.tokens ++ value.val, .kept opening.statement⟩]
  | other t _ _ rest => ⟨[t], .ignored t⟩ :: rest.segments
  | statement opening value mark _ rest =>
    ⟨opening.tokens ++ (value.val ++ [mark]), .kept opening.statement⟩ :: rest.segments

end Sentence

section Unique

theorem Opening.exists_head (o : Opening) : ∃ word more, o.tokens = word :: more ∧
    (word.kind = .letWord ∨ word.kind = .returnWord) := by
  cases o with
  | binding word name sign hw => exact ⟨word, [name, sign], rfl, .inl hw⟩
  | returning word hw => exact ⟨word, [], rfl, .inr hw⟩

theorem Opening.eq_of_append {o o' : Opening} {rest rest' : List Token}
    (h : o.tokens ++ rest = o'.tokens ++ rest') : o = o' ∧ rest = rest' := by
  cases o with
  | binding word name sign hw =>
    cases o' with
    | binding =>
      simp only [Opening.tokens, List.cons_append, List.nil_append, List.cons.injEq] at h
      obtain ⟨rfl, rfl, rfl, rfl⟩ := h
      exact ⟨rfl, rfl⟩
    | returning word' hw' =>
      obtain ⟨rfl, -⟩ := List.cons.inj h
      simp [hw] at hw'
  | returning word hw =>
    cases o' with
    | binding word' name' sign' hw' =>
      obtain ⟨rfl, -⟩ := List.cons.inj h
      simp [hw] at hw'
    | returning =>
      obtain ⟨rfl, rfl⟩ := List.cons.inj h
      exact ⟨rfl, rfl⟩

theorem Inner.value_append (v : Inner) {value rest : List Token} (h : Value value rest) :
    Value (v.val ++ value) rest := by
  obtain ⟨ts, hts⟩ := v
  induction ts with
  | nil => exact h
  | cons t ts ih =>
    rw [List.forall_mem_cons] at hts
    exact .pass hts.1 (ih hts.2)

theorem Inner.eq_of_append {v v' : Inner} {mark mark' : Token} {rest rest' : List Token}
    (hm : mark.kind = .semicolon) (hm' : mark'.kind = .semicolon)
    (h : v.val ++ mark :: rest = v'.val ++ mark' :: rest') :
    v = v' ∧ mark = mark' ∧ rest = rest' := by
  rw [← List.singleton_append, ← List.append_assoc, ← List.singleton_append (l := rest'),
    ← List.append_assoc] at h
  have hv := (v.value_append (.closed hm : Value [mark] rest)).throughSemicolon_eq
  rw [h, (v'.value_append (.closed hm' : Value [mark'] rest')).throughSemicolon_eq] at hv
  obtain ⟨hval, hmark⟩ := List.append_inj' hv rfl
  rw [hv] at h
  exact ⟨Subtype.ext hval.symm, (List.cons.inj hmark).1.symm, List.append_cancel_left h⟩

theorem Inner.ne_of_mark (v : Inner) {before rest : List Token} {mark : Token}
    (hm : mark.kind = .semicolon) : v.val ≠ before ++ mark :: rest := by
  intro h
  exact v.property mark (h ▸ List.mem_append_right before List.mem_cons_self) hm

theorem Opening.append_ne_nil (o : Opening) (rest : List Token) : o.tokens ++ rest ≠ [] := by
  obtain ⟨word, more, ho, -⟩ := o.exists_head
  simp [ho]

theorem Opening.append_ne_cons (o : Opening) (rest : List Token) {t : Token} {ts : List Token}
    (hl : t.kind ≠ .letWord) (hr : t.kind ≠ .returnWord) : o.tokens ++ rest ≠ t :: ts := by
  obtain ⟨word, more, ho, hword⟩ := o.exists_head
  intro h
  rw [ho] at h
  obtain ⟨rfl, -⟩ := List.cons.inj h
  exact hword.elim hl hr

theorem Sentence.eq_of_tokens_eq {d d' : Sentence} (h : d.tokens = d'.tokens) : d = d' := by
  induction d generalizing d' with
  | done =>
    cases d' with
    | done => rfl
    | unfinished o v => exact absurd h.symm (o.append_ne_nil _)
    | other => cases h
    | statement o => exact absurd h.symm (o.append_ne_nil _)
  | unfinished o v =>
    cases d' with
    | done => exact absurd h (o.append_ne_nil _)
    | unfinished =>
      obtain ⟨rfl, hv⟩ := Opening.eq_of_append h
      rw [Subtype.ext hv]
    | other t hl hr => exact absurd h (o.append_ne_cons _ hl hr)
    | statement o' v' mark hm =>
      obtain ⟨rfl, hv⟩ := Opening.eq_of_append h
      exact absurd hv (v.ne_of_mark hm)
  | other t hl hr rest ih =>
    cases d' with
    | done => cases h
    | unfinished o => exact absurd h.symm (o.append_ne_cons _ hl hr)
    | other =>
      obtain ⟨rfl, hrest⟩ := List.cons.inj h
      rw [ih hrest]
    | statement o => exact absurd h.symm (o.append_ne_cons _ hl hr)
  | statement o v mark hm rest ih =>
    cases d' with
    | done => exact absurd h (o.append_ne_nil _)
    | unfinished o' v' =>
      obtain ⟨rfl, hv⟩ := Opening.eq_of_append h
      exact absurd hv.symm (v'.ne_of_mark hm)
    | other t hl hr => exact absurd h (o.append_ne_cons _ hl hr)
    | statement o' v' mark' hm' =>
      obtain ⟨rfl, hv⟩ := Opening.eq_of_append h
      obtain ⟨rfl, rfl, hrest⟩ := Inner.eq_of_append hm hm' hv
      rw [ih hrest]

end Unique

section Parses
variable {last : Token}

theorem cut_opening (o : Opening) {value rest : List Token} {segs : List Segment}
    (hv : Value value rest) (tail : Cut last rest segs) :
    Cut last (o.tokens ++ (value ++ rest))
      (⟨o.tokens ++ value, .kept o.statement⟩ :: segs) := by
  cases o with
  | binding word name sign hw hn hs => exact .binding hw hn hs hv tail
  | returning word hw => exact .returning hw hv tail

theorem cut_sentence (d : Sentence) : Cut last d.tokens d.segments := by
  induction d with
  | done => exact .done
  | unfinished o v =>
    have hv := v.value_append .unclosed
    rw [List.append_nil] at hv
    have hcut := cut_opening o hv (.done : Cut last [] [])
    rwa [List.append_nil] at hcut
  | other t hl hr rest ih => exact .other hl hr ih
  | statement o v mark hm rest ih =>
    have hcut := cut_opening o (v.value_append (.closed hm)) ih
    rwa [List.append_assoc, List.singleton_append] at hcut

theorem outcome_segments (d : Sentence) :
    outcome d.segments = ⟨⟨d.openings.map Opening.statement⟩, []⟩ := by
  induction d with
  | done => rfl
  | unfinished => rfl
  | other t hl hr rest ih => exact ih
  | statement o v mark hm rest ih =>
    calc
      _ = (⟨⟨o.statement :: (outcome rest.segments).program.statements⟩,
          (outcome rest.segments).diagnostics⟩ : Parse) := rfl
      _ = _ := by rw [ih, Sentence.openings, List.map_cons]

/-- A value ends with its semicolon, or it has none and nothing follows. -/
theorem Value.cases {value rest : List Token} (h : Value value rest) :
    (∃ (v : Inner) (mark : Token), mark.kind = .semicolon ∧ value = v.val ++ [mark]) ∨
      ∃ v : Inner, value = v.val ∧ rest = [] := by
  induction h with
  | @closed mark rest hm => exact .inl ⟨⟨[], by simp⟩, mark, hm, rfl⟩
  | unclosed => exact .inr ⟨⟨[], by simp⟩, rfl, rfl⟩
  | @pass t value rest ht _ ih =>
    obtain ⟨v, mark, hm, rfl⟩ | ⟨v, rfl, rfl⟩ := ih
    · exact .inl ⟨⟨t :: v.val, List.forall_mem_cons.2 ⟨ht, v.property⟩⟩, mark, hm, rfl⟩
    · exact .inr ⟨⟨t :: v.val, List.forall_mem_cons.2 ⟨ht, v.property⟩⟩, rfl, rfl⟩

theorem exists_sentence_opening (o : Opening) {value rest : List Token} (hv : Value value rest)
    (h : ∃ d : Sentence, d.tokens = rest) :
    ∃ d : Sentence, d.tokens = o.tokens ++ (value ++ rest) := by
  obtain ⟨d, rfl⟩ := h
  obtain ⟨v, mark, hm, rfl⟩ | ⟨v, rfl, hrest⟩ := Value.cases hv
  · exact ⟨.statement o v mark hm d, by simp [Sentence.tokens]⟩
  · exact ⟨.unfinished o v, by simp [Sentence.tokens, hrest]⟩

theorem exists_sentence {ts : List Token} {segs : List Segment} (h : Cut last ts segs)
    (hclean : (outcome segs).diagnostics = []) : ∃ d : Sentence, d.tokens = ts := by
  induction h with
  | done => exact ⟨.done, rfl⟩
  | binding hw hn hs hv _ ih =>
    exact exists_sentence_opening (.binding _ _ _ hw hn hs) hv (ih hclean)
  | returning hw hv _ ih => exact exists_sentence_opening (.returning _ hw) hv (ih hclean)
  | nameless => cases hclean
  | signless => cases hclean
  | other hl hr _ ih =>
    obtain ⟨d, rfl⟩ := ih hclean
    exact ⟨.other _ hl hr d, rfl⟩

end Parses

/-- A source is parsed without a diagnostic exactly if its tokens are a sentence. They are one in
one way only, and its statements are those that the report counts. -/
theorem diagnostics_eq_nil_iff (source : String) :
    ((Parse.ofText source).diagnostics = [] ↔
        ∃ d : Sentence, d.tokens = words (.ofText source)) ∧
      (∀ d d' : Sentence, d.tokens = words (.ofText source) → d'.tokens = words (.ofText source) →
        d = d') ∧
      ∀ file : String,
        let p := Parse.ofText source
        let r := Report.of file p.program p.diagnostics
        (r.success = true ↔ ∃ d : Sentence, d.tokens = words (.ofText source)) ∧
          ∀ d : Sentence, d.tokens = words (.ofText source) →
            r.statementCount = d.openings.length := by
  have hp : Parse.ofText source =
      outcome (segments (ending (.ofText source)) (words (.ofText source))) :=
    ofScanner_eq_outcome _
  have hsentence : ∀ d : Sentence, d.tokens = words (.ofText source) →
      Parse.ofText source = ⟨⟨d.openings.map Opening.statement⟩, []⟩ := by
    intro d hd
    rw [hp, ← hd, (cut_sentence d).segments_eq, outcome_segments]
  have hiff : (Parse.ofText source).diagnostics = [] ↔
      ∃ d : Sentence, d.tokens = words (.ofText source) := by
    constructor
    · exact fun hclean => exists_sentence (cut_segments (.ofText source)) (hp ▸ hclean)
    · rintro ⟨d, hd⟩
      rw [hsentence d hd]
  refine ⟨hiff, fun d d' hd hd' => Sentence.eq_of_tokens_eq (hd.trans hd'.symm), ?_⟩
  intro file p r
  refine ⟨List.isEmpty_iff.trans hiff, fun d hd => ?_⟩
  have hcount : r.statementCount = (Parse.ofText source).program.statements.length := rfl
  rw [hcount, hsentence d hd, List.length_map]

end LetReturn.Grammar
