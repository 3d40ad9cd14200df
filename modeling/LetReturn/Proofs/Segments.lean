import LetReturn.Journals
import Mathlib.Algebra.GroupWithZero.Nat
import Mathlib.Tactic.Common

set_option autoImplicit false

/-!
# Segments

A token list is cut into segments, each with the one decision a parse takes about it. The cut is a
plain recursion over the list (`segments`), and no other one follows the rules of `Cut`
(`Cut.segments_eq`).
-/
namespace LetReturn.Segments
open Tokens Diagnostics Programs Journals

structure Segment where
  tokens : List Token
  decision : Event
  deriving DecidableEq, Repr

/-- The statements of the segments that are kept. -/
def statements : List Segment → List Statement
  | [] => []
  | ⟨_, .kept statement⟩ :: segs => statement :: statements segs
  | _ :: segs => statements segs

/-- The reasons of the segments that are dropped. -/
def diagnostics : List Segment → List Diagnostic
  | [] => []
  | ⟨_, .dropped reason⟩ :: segs => reason :: diagnostics segs
  | _ :: segs => diagnostics segs

theorem statements_eq (segs : List Segment) :
    statements segs = (segs.map Segment.decision).filterMap Event.statement? := by
  induction segs with
  | nil => rfl
  | cons seg segs ih =>
    obtain ⟨ts, decision⟩ := seg
    cases decision with
    | kept statement => exact congrArg (statement :: ·) ih
    | pulled | ignored | dropped => exact ih

theorem diagnostics_eq (segs : List Segment) :
    diagnostics segs = (segs.map Segment.decision).filterMap Event.diagnostic? := by
  induction segs with
  | nil => rfl
  | cons seg segs ih =>
    obtain ⟨ts, decision⟩ := seg
    cases decision with
    | dropped reason => exact congrArg (reason :: ·) ih
    | pulled | ignored | kept => exact ih

def unexpected (expected : Kind) (t : Token) : Diagnostic :=
  .unexpectedToken expected t.kind t.span

/-- Up to and including the first semicolon, or all of the tokens if there is none. -/
def throughSemicolon : List Token → List Token
  | [] => []
  | t :: rest => if t.kind = .semicolon then [t] else t :: throughSemicolon rest

/-- The segment that starts with a `let`. Behind the tokens `rest` stands the token `last`. -/
def bindingSegment (last word : Token) (rest : List Token) : Segment :=
  let name := rest.headD last
  let sign := rest.tail.headD last
  if name.kind = .ident then
    if sign.kind = .assign then
      ⟨word :: name :: sign :: throughSemicolon rest.tail.tail,
        .kept (.binding word ⟨name, name.literal⟩ none)⟩
    else ⟨[word, name], .dropped (unexpected .assign sign)⟩
  else ⟨[word], .dropped (unexpected .ident name)⟩

def firstSegment (last word : Token) (rest : List Token) : Segment :=
  match word.kind with
  | .letWord => bindingSegment last word rest
  | .returnWord => ⟨word :: throughSemicolon rest, .kept (.returning word none)⟩
  | _ => ⟨[word], .ignored word⟩

/-- All segments of the tokens before `last`, from left to right. -/
def segments (last : Token) : List Token → List Segment
  | [] => []
  | word :: rest =>
    let first := firstSegment last word rest
    first :: segments last (rest.drop (first.tokens.length - 1))
termination_by ts => ts.length
decreasing_by
  simp only [List.length_drop, List.length_cons]
  omega

/-- The tokens `value`, directly followed by `rest`, end with the first semicolon; they may lack it
only where nothing follows. -/
inductive Value : List Token → List Token → Prop where
  | closed {mark : Token} {rest : List Token} (hm : mark.kind = .semicolon) : Value [mark] rest
  | unclosed : Value [] []
  | pass {t : Token} {value rest : List Token} (ht : t.kind ≠ .semicolon)
      (tail : Value value rest) : Value (t :: value) rest

/-- The tokens before `last` are cut into the segments, one rule for each kind of segment. -/
inductive Cut (last : Token) : List Token → List Segment → Prop where
  | done : Cut last [] []
  | binding {word name sign : Token} {value rest : List Token} {segs : List Segment}
      (hw : word.kind = .letWord) (hn : name.kind = .ident) (hs : sign.kind = .assign)
      (hv : Value value rest) (tail : Cut last rest segs) :
      Cut last (word :: name :: sign :: (value ++ rest))
        (⟨word :: name :: sign :: value, .kept (.binding word ⟨name, name.literal⟩ none)⟩ :: segs)
  | returning {word : Token} {value rest : List Token} {segs : List Segment}
      (hw : word.kind = .returnWord) (hv : Value value rest) (tail : Cut last rest segs) :
      Cut last (word :: (value ++ rest))
        (⟨word :: value, .kept (.returning word none)⟩ :: segs)
  | nameless {word : Token} {rest : List Token} {segs : List Segment}
      (hw : word.kind = .letWord) (hn : (rest.headD last).kind ≠ .ident)
      (tail : Cut last rest segs) :
      Cut last (word :: rest)
        (⟨[word], .dropped (unexpected .ident (rest.headD last))⟩ :: segs)
  | signless {word name : Token} {rest : List Token} {segs : List Segment}
      (hw : word.kind = .letWord) (hn : name.kind = .ident)
      (hs : (rest.headD last).kind ≠ .assign) (tail : Cut last rest segs) :
      Cut last (word :: name :: rest)
        (⟨[word, name], .dropped (unexpected .assign (rest.headD last))⟩ :: segs)
  | other {word : Token} {rest : List Token} {segs : List Segment}
      (hl : word.kind ≠ .letWord) (hr : word.kind ≠ .returnWord) (tail : Cut last rest segs) :
      Cut last (word :: rest) (⟨[word], .ignored word⟩ :: segs)

theorem Value.throughSemicolon_eq {value rest : List Token} (h : Value value rest) :
    throughSemicolon (value ++ rest) = value := by
  induction h with
  | closed hm => rw [List.singleton_append, throughSemicolon, if_pos hm]
  | unclosed => rfl
  | pass ht _ ih => rw [List.cons_append, throughSemicolon, if_neg ht, ih]

theorem segments_cons {last word : Token} {more rest : List Token} {first : Segment}
    (h : firstSegment last word (more ++ rest) = first) (hf : first.tokens = word :: more) :
    segments last (word :: (more ++ rest)) = first :: segments last rest := by
  rw [segments, h, hf, List.length_cons, Nat.add_sub_cancel, List.drop_left]

theorem Cut.segments_eq {last : Token} {ts : List Token} {segs : List Segment}
    (h : Cut last ts segs) : segments last ts = segs := by
  induction h with
  | done => rw [segments]
  | @binding word name sign value rest segs hw hn hs hv _ ih =>
    have hf : firstSegment last word (name :: sign :: value ++ rest) =
        ⟨word :: name :: sign :: value, .kept (.binding word ⟨name, name.literal⟩ none)⟩ := by
      simp [firstSegment, bindingSegment, hw, hn, hs, hv.throughSemicolon_eq]
    rw [← ih]
    exact segments_cons hf rfl
  | @returning word value rest segs hw hv _ ih =>
    have hf : firstSegment last word (value ++ rest) =
        ⟨word :: value, .kept (.returning word none)⟩ := by
      simp [firstSegment, hw, hv.throughSemicolon_eq]
    rw [← ih]
    exact segments_cons hf rfl
  | @nameless word rest segs hw hn _ ih =>
    have hf : firstSegment last word ([] ++ rest) =
        ⟨[word], .dropped (unexpected .ident (rest.headD last))⟩ := by
      simp only [firstSegment, hw]
      exact if_neg hn
    rw [← ih]
    exact segments_cons hf rfl
  | @signless word name rest segs hw hn hs _ ih =>
    have hf : firstSegment last word ([name] ++ rest) =
        ⟨[word, name], .dropped (unexpected .assign (rest.headD last))⟩ := by
      simp only [firstSegment, hw]
      exact (if_pos hn).trans (if_neg hs)
    rw [← ih]
    exact segments_cons hf rfl
  | @other word rest segs hl hr _ ih =>
    have hf : firstSegment last word ([] ++ rest) = ⟨[word], .ignored word⟩ := by
      simp only [firstSegment]
    rw [← ih]
    exact segments_cons hf rfl

/-- No token is lost between two segments, and none is in two of them. -/
theorem Cut.flatMap_tokens {last : Token} {ts : List Token} {segs : List Segment}
    (h : Cut last ts segs) : segs.flatMap Segment.tokens = ts := by
  induction h with
  | done => rfl
  | binding | returning | nameless | signless | other =>
    rename_i ih
    simp [ih]

theorem Cut.decision_ne_pulled {last : Token} {ts : List Token} {segs : List Segment}
    (h : Cut last ts segs) : ∀ seg ∈ segs, ∀ t, seg.decision ≠ .pulled t := by
  induction h with
  | done => exact fun seg hseg => nomatch hseg
  | binding | returning | nameless | signless | other =>
    rename_i ih
    exact List.forall_mem_cons.2 ⟨fun t => nofun, ih⟩

section Extents
variable {last : Token} {ts : List Token} {seg : Segment} {segs : List Segment}

def isOpen (ts : List Token) : Bool := ts.all (·.kind != .semicolon)

/-- The tokens of a statement, and the end of the input where it takes the place of the
semicolon. -/
def extent (ts : List Token) : ℕ := ts.length + if isOpen ts then 1 else 0

namespace Segment

def isKept (seg : Segment) : Bool :=
  match seg.decision with
  | .kept _ => true
  | _ => false

def extent (seg : Segment) : ℕ :=
  if seg.isKept then Segments.extent seg.tokens else seg.tokens.length

theorem extent_kept (ts : List Token) (statement : Statement) :
    extent ⟨ts, .kept statement⟩ = Segments.extent ts := rfl

end Segment

/-- The last statement is ended by the end of the input. -/
def endsOpen (segs : List Segment) : Bool :=
  (segs.filter Segment.isKept).getLast?.any fun seg => isOpen seg.tokens

theorem extent_cons {t : Token} (ht : t.kind ≠ .semicolon) (ts : List Token) :
    extent (t :: ts) = extent ts + 1 := by
  simp only [extent, isOpen, List.length_cons, List.all_cons, bne_iff_ne.2 ht, Bool.true_and]
  exact Nat.add_right_comm ..

theorem Value.drop_extent {value rest : List Token} (h : Value value rest) :
    (value ++ rest).drop (extent value) = rest := by
  induction h with
  | closed hm => simp [extent, isOpen, hm]
  | unclosed => rfl
  | pass ht _ ih => rw [extent_cons ht, List.cons_append, List.drop_succ_cons, ih]

/-- A parse passes at least one token with a segment, and goes on with the tokens behind it. -/
theorem Cut.behind (h : Cut last ts (seg :: segs)) :
    0 < seg.extent ∧ Cut last (ts.drop seg.extent) segs := by
  cases h with
  | @binding word name sign value rest _ hw hn hs hv tail =>
    have hextent : extent (word :: name :: sign :: value) = extent value + 1 + 1 + 1 := by
      rw [extent_cons (by simp [hw]), extent_cons (by simp [hn]), extent_cons (by simp [hs])]
    rw [Segment.extent_kept, hextent, List.drop_succ_cons, List.drop_succ_cons,
      List.drop_succ_cons, hv.drop_extent]
    exact ⟨Nat.succ_pos _, tail⟩
  | @returning word value rest _ hw hv tail =>
    rw [Segment.extent_kept, extent_cons (by simp [hw]), List.drop_succ_cons, hv.drop_extent]
    exact ⟨Nat.succ_pos _, tail⟩
  | nameless _ _ tail => exact ⟨Nat.one_pos, tail⟩
  | signless _ _ _ tail => exact ⟨Nat.two_pos, tail⟩
  | other _ _ tail => exact ⟨Nat.one_pos, tail⟩

theorem Cut.extent_pos (h : Cut last ts segs) : ∀ seg ∈ segs, 0 < seg.extent := by
  induction segs generalizing ts with
  | nil => exact fun seg hseg => nomatch hseg
  | cons seg segs ih =>
    obtain ⟨hpos, tail⟩ := h.behind
    exact List.forall_mem_cons.2 ⟨hpos, ih tail⟩

theorem endsOpen_cons (h : seg.isKept = true → isOpen seg.tokens = false) :
    endsOpen (seg :: segs) = endsOpen segs := by
  unfold endsOpen
  by_cases hk : seg.isKept = true
  · rw [List.filter_cons_of_pos hk, List.getLast?_cons]
    cases (segs.filter Segment.isKept).getLast? with
    | none => exact h hk
    | some last => rfl
  · rw [List.filter_cons_of_neg hk]

theorem Value.rest_eq_nil {value rest : List Token} (h : Value value rest)
    (hopen : isOpen value = true) : rest = [] := by
  induction h with
  | closed hm => simp [isOpen, hm] at hopen
  | unclosed => rfl
  | pass _ _ ih =>
    rw [isOpen, List.all_cons, Bool.and_eq_true] at hopen
    exact ih hopen.2

theorem Cut.segs_eq_nil (h : Cut last ts (seg :: segs)) (hk : seg.isKept = true)
    (hopen : isOpen seg.tokens = true) : segs = [] := by
  have hdone : Cut last [] segs → segs = [] := fun hcut => by cases hcut; rfl
  cases h with
  | binding _ _ _ hv tail =>
    simp only [isOpen, List.all_cons, Bool.and_eq_true] at hopen
    exact hdone (hv.rest_eq_nil hopen.2.2.2 ▸ tail)
  | returning _ hv tail =>
    simp only [isOpen, List.all_cons, Bool.and_eq_true] at hopen
    exact hdone (hv.rest_eq_nil hopen.2 ▸ tail)
  | nameless | signless | other => cases hk

/-- A parse passes every token once, and the end of the input where it ends a statement. -/
theorem Cut.sum_extent (h : Cut last ts segs) :
    (segs.map Segment.extent).sum = ts.length + if endsOpen segs then 1 else 0 := by
  rw [← h.flatMap_tokens]
  induction segs generalizing ts with
  | nil => rfl
  | cons seg segs ih =>
    rw [List.map_cons, List.sum_cons, ih h.behind.2, List.flatMap_cons, List.length_append]
    by_cases hopen : seg.isKept = true ∧ isOpen seg.tokens = true
    · obtain rfl := h.segs_eq_nil hopen.1 hopen.2
      simp [Segment.extent, extent, endsOpen, hopen.1, hopen.2]
    · have hclosed : seg.isKept = true → isOpen seg.tokens = false :=
        fun hk => Bool.eq_false_iff.2 fun ho => hopen ⟨hk, ho⟩
      have hextent : seg.extent = seg.tokens.length := by
        rw [Segment.extent]
        split_ifs with hk
        · rw [extent, hclosed hk]
          rfl
        · rfl
      rw [hextent, endsOpen_cons hclosed, Nat.add_assoc]

end Extents

end LetReturn.Segments
