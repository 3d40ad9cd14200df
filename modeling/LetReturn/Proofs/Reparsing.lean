import LetReturn.Sessions
import Mathlib.Data.List.Basic
import Mathlib.Tactic.Common

set_option autoImplicit false

namespace LetReturn.Reparsing
open Tokens Scanning Diagnostics Programs Journals Parsing Reports Sessions

section Parsers

theorem parse_current (w : Window) : w.parse.2.current.kind = .eof := by
  fun_induction Window.parse w with
  | case1 w h => exact h
  | case2 w h front rest ih => exact ih

theorem parse_of_eof {w : Window} (h : w.current.kind = .eof) : w.parse = ([], w) := by
  rw [Window.parse]
  exact dif_pos h

theorem parse_parse (p : Parser) : p.parse.2.parse = (.empty, p.parse.2) := by
  have hrest : p.parse.2.window.parse = ([], p.parse.2.window) :=
    parse_of_eof (parse_current p.window)
  rw [Parser.parse, hrest]
  simp only [Journal.diagnostics, List.filterMap_nil, List.append_nil]
  rfl

end Parsers

section Answers
variable (p : Parse)

def recorded : ℕ → List Diagnostic
  | 0 => []
  | _ + 1 => p.diagnostics

/-- What a parse returns that comes after so many others. -/
def returned : ℕ → Program
  | 0 => p.program
  | _ + 1 => ⟨[]⟩

def latest : ℕ → Program
  | 0 => ⟨[]⟩
  | n + 1 => returned p n

/-- The answer to a step that comes after so many parses, if the first parse is `p`. -/
def answer (parses : ℕ) : ParseStep → Answer
  | .parse => .program (returned p parses)
  | .errors => .errors ((recorded p parses).map Diagnostic.message)
  | .diagnostics => .diagnostics (recorded p parses)
  | .report => .report {
      success := decide (recorded p parses = [])
      sourceFile := fileName
      statementCount := (latest p parses).statements.length
      notes := (recorded p parses).map fun d => ⟨d.message, d.span.start, d.span.stop⟩ }

end Answers

section Runs
variable (s : Scanner)

def parserAfter : ℕ → Parser
  | 0 => .ofScanner s
  | n + 1 => (parserAfter n).parse.2

theorem parserAfter_succ (n : ℕ) : parserAfter s (n + 1) = (Parser.ofScanner s).parse.2 := by
  induction n with
  | zero => rfl
  | succ n ih =>
    change (parserAfter s (n + 1)).parse.2 = _
    rw [ih, parse_parse]

theorem parse_parserAfter (n : ℕ) :
    (parserAfter s n).parse = (returned (.ofScanner s) n, parserAfter s (n + 1)) := by
  cases n with
  | zero => rfl
  | succ n =>
    rw [parserAfter_succ, parserAfter_succ, parse_parse]
    rfl

theorem diagnostics_parserAfter (n : ℕ) :
    (parserAfter s n).diagnostics = recorded (.ofScanner s) n := by
  cases n with
  | zero => rfl
  | succ n =>
    rw [parserAfter_succ]
    rfl

def sittingAfter (n : ℕ) : Sitting := ⟨parserAfter s n, latest (.ofScanner s) n⟩

theorem step_sittingAfter (n : ℕ) (step : ParseStep) :
    (sittingAfter s n).step step =
      (answer (.ofScanner s) n step, sittingAfter s (n + [step].count .parse)) := by
  have hdiagnostics := diagnostics_parserAfter s n
  cases step with
  | parse =>
    simp only [Sitting.step, sittingAfter, parse_parserAfter]
    rfl
  | errors =>
    simp only [Sitting.step, sittingAfter, Parser.errors, hdiagnostics]
    rfl
  | diagnostics =>
    simp only [Sitting.step, sittingAfter, hdiagnostics]
    rfl
  | report =>
    have hsuccess : ∀ ds : List Diagnostic, ds.isEmpty = decide (ds = []) := by
      intro ds
      cases ds <;> rfl
    simp only [Sitting.step, sittingAfter, hdiagnostics, Report.of, hsuccess]
    rfl

theorem run_sittingAfter (n : ℕ) (steps : List ParseStep) :
    (sittingAfter s n).run steps =
      (steps.mapIdx fun i step => answer (.ofScanner s) (n + (steps.take i).count .parse) step,
        sittingAfter s (n + steps.count .parse)) := by
  induction steps generalizing n with
  | nil => rfl
  | cons step steps ih =>
    have hcount : ∀ later : List ParseStep,
        n + [step].count .parse + later.count .parse = n + (step :: later).count .parse := by
      intro later
      rw [Nat.add_assoc, ← List.count_append, List.singleton_append]
    simp only [Sitting.run, step_sittingAfter, ih, hcount, List.mapIdx_cons, List.take_succ_cons,
      List.take_zero, List.count_nil, Nat.add_zero]

end Runs

section Reading
variable (x : Sitting)

theorem run_length (steps : List ParseStep) : (x.run steps).1.length = steps.length := by
  induction steps generalizing x with
  | nil => rfl
  | cons step steps ih => exact congrArg (· + 1) (ih (x.step step).2)

theorem run_append (front back : List ParseStep) :
    x.run (front ++ back) =
      ((x.run front).1 ++ ((x.run front).2.run back).1, ((x.run front).2.run back).2) := by
  induction front generalizing x with
  | nil => rfl
  | cons step front ih => simp only [List.cons_append, Sitting.run, ih]

theorem drop_run (front back : List ParseStep) :
    (x.run (front ++ back)).1.drop front.length = ((x.run front).2.run back).1 := by
  rw [run_append, ← run_length x front, List.drop_left]

theorem run_reading {reading : List ParseStep} (h : .parse ∉ reading) :
    (x.run reading).2 = x := by
  induction reading with
  | nil => rfl
  | cons step reading ih =>
    rw [List.mem_cons, not_or] at h
    have hstep : (x.step step).2 = x := by
      cases step with
      | parse => exact absurd rfl h.1
      | errors | diagnostics | report => rfl
    simp only [Sitting.run, hstep, ih h.2]

end Reading

/-- Wherever in its source a parser is made: each answer is decided by the first parse and by how
many parses there were before, and steps that only read can be left out without a change of any
answer behind them. -/
theorem run_answers (s : Scanner) :
    (∀ steps : List ParseStep, ((Sitting.ofScanner s).run steps).1 = steps.mapIdx fun i step =>
      answer (.ofScanner s) ((steps.take i).count .parse) step) ∧
    ∀ front reading back : List ParseStep, .parse ∉ reading →
      ((Sitting.ofScanner s).run (front ++ reading ++ back)).1.drop (front ++ reading).length =
        ((Sitting.ofScanner s).run (front ++ back)).1.drop front.length := by
  refine ⟨fun steps => ?_, fun front reading back h => ?_⟩
  · have hrun := run_sittingAfter s 0 steps
    simp only [Nat.zero_add] at hrun
    exact congrArg Prod.fst hrun
  · rw [drop_run, drop_run, run_append, run_reading _ h]

def unended : Scanner := .ofText "let x = 1; let"

theorem run_answers_unended :
    ParseStep.parse ∉ [ParseStep.errors, .report] ∧
    ((Sitting.ofScanner unended).run ([.parse] ++ [.errors, .report] ++ [.parse, .errors])).1.drop
      ([.parse] ++ [.errors, .report] : List ParseStep).length =
        ((Sitting.ofScanner unended).run ([.parse] ++ [.parse, .errors])).1.drop
          ([.parse] : List ParseStep).length ∧
    ((Sitting.ofScanner unended).run ([.parse] ++ [.parse, .errors])).1 =
      [.program ⟨[.binding ⟨.letWord, "let", ⟨0, 3⟩⟩ ⟨⟨.ident, "x", ⟨4, 5⟩⟩, "x"⟩ none]⟩,
        .program ⟨[]⟩, .errors ["expected next token to be IDENT, got EOF instead"]] := by
  have hreading : ParseStep.parse ∉ [ParseStep.errors, .report] := by decide
  exact ⟨hreading, (run_answers unended).2 [.parse] [.errors, .report] [.parse, .errors] hreading,
    by decide +kernel⟩

end LetReturn.Reparsing
