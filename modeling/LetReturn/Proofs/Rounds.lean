import LetReturn.ReadLoop
import Mathlib.Tactic.Common
import Mathlib.Tactic.SplitIfs

set_option autoImplicit false

namespace LetReturn.Rounds
open Utf8 Journals Parsing ReadLoop

structure Progress where
  sink : Sink
  log : List Record
  unread : List Bytes

abbrev Play : Type → Type := ExceptT Ending (StateM Progress)

/-- A console with a sink for its output. Its input ends or fails behind the lines. -/
def console (fails : Bool) : Console Play where
  write piece := fun p =>
    match p.sink.write piece with
    | .ok sink => (.ok (), { p with sink := sink })
    | .error full => (.error .writeFailed, { p with sink := full })
  flush := fun p => (.ok (), { p with sink := p.sink.flush })
  read := fun p =>
    match p.unread with
    | line :: rest => (.ok line, { p with unread := rest })
    | [] => if fails then (.error .readFailed, p) else (.ok [], p)
  log records := fun p => (.ok (), { p with log := p.log ++ records })

def rounds {m : Type → Type} [Monad m] (c : Console m) : ℕ → m Unit
  | 0 => return
  | n + 1 => do
    if ← c.round then rounds c n

def runOf : Except Ending Unit × Progress → Run
  | (.ok _, p) => ⟨p.sink.segments, .closed, p.log⟩
  | (.error ending, p) => ⟨p.sink.segments, ending, p.log⟩

variable {fails : Bool} {p : Progress}

theorem play_bind {α β : Type} (x : Play α) (f : α → Play β) (p : Progress) :
    (x >>= f) p = match x p with
      | (.ok a, q) => f a q
      | (.error ending, q) => (.error ending, q) := by
  have hbind : (x >>= f) p = ExceptT.bindCont f (x p).1 (x p).2 := rfl
  rw [hbind]
  obtain ⟨_ | a, q⟩ := x p <;> rfl

theorem console_writes (fails : Bool) (pieces : List String) (p : Progress) :
    (pieces.forM (console fails).write) p =
      match p.sink.writeAll pieces with
      | .ok sink => (.ok (), { p with sink := sink })
      | .error full => (.error .writeFailed, { p with sink := full }) := by
  induction pieces generalizing p with
  | nil => rfl
  | cons piece pieces ih =>
    have hfront : (piece :: pieces).forM (console fails).write =
        (console fails).write piece >>= fun _ => pieces.forM (console fails).write := rfl
    rw [hfront, play_bind, Sink.writeAll]
    simp only [console]
    cases p.sink.write piece with
    | error full => rfl
    | ok sink => exact ih { p with sink := sink }

theorem round_line {line : Bytes} {rest : List Bytes} {t : Sink}
    (hw : p.sink.write prompt = .ok t) (hp : p.unread = line :: rest) (hne : line ≠ []) :
    (console fails).round p =
      match t.flush.writeAll (respond line) with
      | .ok sink => (.ok true, ⟨sink, p.log ++ (journal (scanner line)).log, rest⟩)
      | .error full =>
        (.error .writeFailed, ⟨full, p.log ++ (journal (scanner line)).log, rest⟩) := by
  have hline : line.isEmpty = false := by simpa using hne
  have hwrites := console_writes fails (respond line)
    ⟨t.flush, p.log ++ (journal (scanner line)).log, rest⟩
  simp only [console] at hwrites
  simp only [Console.round, play_bind, console, hw, hp, hline, Bool.false_eq_true, ↓reduceIte,
    hwrites]
  cases t.flush.writeAll (respond line) <;> rfl

theorem round_last {t : Sink} (hw : p.sink.write prompt = .ok t) (hp : p.unread = []) :
    (console fails).round p =
      if fails then (.error .readFailed, ⟨t.flush, p.log, []⟩)
      else (.ok false, ⟨t.flush, p.log ++ [Record.inputClosed], []⟩) := by
  simp only [Console.round, play_bind, console, hw, hp]
  cases fails <;> rfl

theorem round_full {full : Sink} (hw : p.sink.write prompt = .error full) :
    (console fails).round p = (.error .writeFailed, { p with sink := full }) := by
  simp only [Console.round, play_bind, console, hw]

/-- All that a round can do: it fails, it finds no line, or it answers one and leaves the rest to
the loop. -/
theorem round_cases (fails : Bool) (hp : ∀ line ∈ p.unread, line ≠ []) :
    let whole := (loop fails p.sink p.unread).behind p.log
    (∃ ending q, (console fails).round p = (.error ending, q) ∧
      whole = ⟨q.sink.segments, ending, q.log⟩) ∨
    (∃ q, (console fails).round p = (.ok false, q) ∧ whole = ⟨q.sink.segments, .closed, q.log⟩) ∨
    ∃ line q, (console fails).round p = (.ok true, q) ∧ p.unread = line :: q.unread ∧
      whole = (loop fails q.sink q.unread).behind q.log := by
  intro whole
  cases hw : p.sink.write prompt with
  | error full =>
    refine .inl ⟨.writeFailed, _, round_full hw, ?_⟩
    cases hu : p.unread <;> simp [whole, hu, loop, hw, Run.behind]
  | ok t =>
    cases hu : p.unread with
    | nil =>
      have hround : (console fails).round p = _ := round_last hw hu
      cases fails with
      | true =>
        exact .inl ⟨.readFailed, _, hround, by simp [whole, hu, loop, hw, leave, Run.behind]⟩
      | false =>
        exact .inr (.inl ⟨_, hround, by simp [whole, hu, loop, hw, leave, Run.behind]⟩)
    | cons line rest =>
      have hround : (console fails).round p = _ := round_line hw hu (hp line (by simp [hu]))
      cases ha : t.flush.writeAll (respond line) with
      | error full =>
        rw [ha] at hround
        exact .inl ⟨.writeFailed, _, hround, by simp [whole, hu, loop, hw, ha, Run.behind]⟩
      | ok u =>
        rw [ha] at hround
        exact .inr (.inr ⟨line, _, hround, rfl, by simp [whole, hu, loop, hw, ha, Run.behind]⟩)

theorem loop_eq_rounds {n : ℕ} (fails : Bool) (hp : ∀ line ∈ p.unread, line ≠ [])
    (hn : p.unread.length < n) :
    (loop fails p.sink p.unread).behind p.log = runOf (rounds (console fails) n p) := by
  induction n generalizing p with
  | zero => exact absurd hn (Nat.not_lt_zero _)
  | succ n ih =>
    rw [rounds, play_bind]
    obtain ⟨ending, q, hround, hwhole⟩ | ⟨q, hround, hwhole⟩ | ⟨line, q, hround, hu, hwhole⟩ :=
      round_cases fails hp
    · rw [hwhole, hround]
      rfl
    · rw [hwhole, hround]
      rfl
    · rw [hu, List.forall_mem_cons] at hp
      rw [hu, List.length_cons] at hn
      rw [hwhole, hround]
      exact ih hp.2 (Nat.lt_of_succ_lt_succ hn)

theorem ne_nil_of_mem_lines {input line : Bytes} (h : line ∈ lines input) : line ≠ [] := by
  fun_induction lines input with
  | case1 => cases h
  | case2 b rest ih =>
    obtain rfl | h := List.mem_cons.1 h
    · unfold cutLine
      split <;> simp
    · exact ih h

/-- A run is as many rounds as there are lines, and a last one that finds none. -/
theorem run_eq_rounds (input : Input) (limit : Option ℕ) {n : ℕ} (hn : input.lines.length < n) :
    run input limit =
      runOf (rounds (console input.fails) n ⟨.empty limit, [], input.lines⟩) := by
  have hlines : ∀ line ∈ input.lines, line ≠ [] := by
    intro line hline
    unfold Input.lines at hline
    split_ifs at hline
    · exact ne_nil_of_mem_lines (List.mem_filter.1 hline).1
    · exact ne_nil_of_mem_lines hline
  exact loop_eq_rounds (p := ⟨.empty limit, [], input.lines⟩) input.fails hlines hn

end LetReturn.Rounds
