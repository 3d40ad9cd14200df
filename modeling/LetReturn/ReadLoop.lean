import LetReturn.Parsing

set_option autoImplicit false

/-!
# The read loop

Each line is parsed on its own: the answer is the program, or the messages if there are any. A
prompt stands before every line and before the end of the input, and is flushed. The input may fail
instead of ending; then a line that is not finished is lost. The output may take a limited number
of bytes; then it keeps what still fits of the piece that does not.
-/
namespace LetReturn.ReadLoop
open Utf8 Scanning Programs Journals Parsing

def prompt : String := ">> "

def cutLine : Bytes → Bytes × Bytes
  | [] => ([], [])
  | b :: rest =>
    if b = 0x0A then ([b], rest)
    else
      let tail := cutLine rest
      (b :: tail.1, tail.2)

theorem cutLine_append (input : Bytes) : (cutLine input).1 ++ (cutLine input).2 = input := by
  induction input with
  | nil => rfl
  | cons b rest ih =>
    by_cases h : b = 0x0A
    · simp [cutLine, h]
    · simp [cutLine, h, ih]

theorem cutLine_shorter (b : UInt8) (rest : Bytes) :
    (cutLine (b :: rest)).2.length < (b :: rest).length := by
  have h := congrArg List.length (cutLine_append rest)
  simp only [List.length_append] at h
  unfold cutLine
  split
  · simp
  · simp only [List.length_cons]
    omega

/-- The lines of an input, each with its line feed; a rest without one is the last line. -/
def lines (input : Bytes) : List Bytes :=
  match input with
  | [] => []
  | b :: rest => (cutLine (b :: rest)).1 :: lines (cutLine (b :: rest)).2
termination_by input.length
decreasing_by exact cutLine_shorter b rest

def isComplete (line : Bytes) : Bool := line.getLast? == some 0x0A

/-- An input that ends or fails behind its bytes. -/
structure Input where
  bytes : Bytes
  fails : Bool
  deriving DecidableEq, Repr

/-- The lines that can be read: before a failure only those that are complete. -/
def Input.lines (input : Input) : List Bytes :=
  let all := ReadLoop.lines input.bytes
  if input.fails then all.filter isComplete else all

/-- Bytes that are not UTF-8 are replaced before the line is scanned. -/
def scanner (line : Bytes) : Scanner := .ofBytes (encode (decodeLossy line))

def answer (p : Parse) : List String :=
  if p.diagnostics.isEmpty then [p.program.text, "\n"]
  else "parser errors:\n" :: p.errors.map fun message => "\t" ++ message ++ "\n"

def respond (line : Bytes) : List String := answer (.ofScanner (scanner line))

/-- What the loop asks of the world. A line that is read is empty only where the input is. -/
structure Console (m : Type → Type) where
  write : String → m Unit
  flush : m Unit
  read : m Bytes
  log : List Record → m Unit

def Console.round {m : Type → Type} [Monad m] (c : Console m) : m Bool := do
  c.write prompt
  c.flush
  let line ← c.read
  if line.isEmpty then
    c.log [Record.inputClosed]
    return false
  else
    c.log (journal (scanner line)).log
    (respond line).forM c.write
    return true

/-- An output with room for so many more bytes, or for any number. It keeps what was written before
each flush apart from what came later. -/
structure Sink where
  room : Option Nat
  flushed : List Bytes
  pending : Bytes
  deriving DecidableEq, Repr

namespace Sink

def empty (limit : Option Nat) : Sink := ⟨limit, [], []⟩

def flush (s : Sink) : Sink := { s with flushed := s.flushed ++ [s.pending], pending := [] }

def segments (s : Sink) : List Bytes := s.flushed ++ [s.pending]

/-- A piece that does not fit is written as far as there is room, and the write fails. -/
def write (s : Sink) (piece : String) : Except Sink Sink :=
  let bytes := ofString piece
  match s.room with
  | none => .ok { s with pending := s.pending ++ bytes }
  | some n =>
    if bytes.length ≤ n then
      .ok { s with room := some (n - bytes.length), pending := s.pending ++ bytes }
    else .error { s with room := some 0, pending := s.pending ++ bytes.take n }

def writeAll (s : Sink) : List String → Except Sink Sink
  | [] => .ok s
  | piece :: pieces =>
    match s.write piece with
    | .error full => .error full
    | .ok s => s.writeAll pieces

end Sink

inductive Ending where
  | closed | writeFailed | readFailed
  deriving DecidableEq, Repr

/-- The output of a run, cut at the flushes, how the run ended, and its log. -/
structure Run where
  segments : List Bytes
  ending : Ending
  log : List Record
  deriving DecidableEq, Repr

def Run.behind (log : List Record) (r : Run) : Run := { r with log := log ++ r.log }

def leave (fails : Bool) (s : Sink) : Run :=
  if fails then ⟨s.segments, .readFailed, []⟩
  else ⟨s.segments, .closed, [Record.inputClosed]⟩

def loop (fails : Bool) (s : Sink) : List Bytes → Run
  | [] =>
    match s.write prompt with
    | .error full => ⟨full.segments, .writeFailed, []⟩
    | .ok s => leave fails s.flush
  | line :: rest =>
    match s.write prompt with
    | .error full => ⟨full.segments, .writeFailed, []⟩
    | .ok s =>
      let log := (journal (scanner line)).log
      match s.flush.writeAll (respond line) with
      | .error full => ⟨full.segments, .writeFailed, log⟩
      | .ok s => (loop fails s rest).behind log

def run (input : Input) (limit : Option Nat) : Run :=
  loop input.fails (.empty limit) input.lines

/-- The whole output where nothing fails. -/
def transcript (input : Bytes) : Bytes := (run ⟨input, false⟩ none).segments.flatten

end LetReturn.ReadLoop
