import LetReturn.JsonRecords
import LetReturn.Reports

set_option autoImplicit false

namespace LetReturn.ReportReading
open JsonReading JsonRecords Reports

def place {σ α : Type} (reader : Reader α) (put : α → σ) : Reader σ where
  read text := (reader.read text).map fun front => (put front.1, front.2)
  shorter h := by
    obtain ⟨⟨value, rest⟩, hr, he⟩ := map_eq_ok.1 h
    cases he
    exact reader.shorter hr

structure NoteFields where
  message : Option String
  start : Option Nat
  stop : Option Nat
  deriving Repr

def noteShape : Shape NoteFields Note where
  start := ⟨none, none, none⟩
  fields :=
    [⟨"message", fun n => n.message.isSome, fun n => place string fun v => { n with message := some v }⟩,
     ⟨"start", fun n => n.start.isSome, fun n => place count fun v => { n with start := some v }⟩,
     ⟨"end", fun n => n.stop.isSome, fun n => place count fun v => { n with stop := some v }⟩]
  finish n := do return ⟨← n.message, ← n.start, ← n.stop⟩

structure ReportFields where
  success : Option Bool
  sourceFile : Option String
  statementCount : Option Nat
  notes : Option (List Note)
  deriving Repr

def reportShape : Shape ReportFields Report where
  start := ⟨none, none, none, none⟩
  fields :=
    [⟨"success", fun r => r.success.isSome,
        fun r => place flag fun v => { r with success := some v }⟩,
     ⟨"source_file", fun r => r.sourceFile.isSome,
        fun r => place string fun v => { r with sourceFile := some v }⟩,
     ⟨"statement_count", fun r => r.statementCount.isSome,
        fun r => place count fun v => { r with statementCount := some v }⟩,
     ⟨"diagnostics", fun r => r.notes.isSome,
        fun r => place (list (record noteShape)) fun v => { r with notes := some v }⟩]
  finish r := do return ⟨← r.success, ← r.sourceFile, ← r.statementCount, ← r.notes⟩

def ofJson (text : String) : Except Fault Report := whole (record reportShape) text.toList

end LetReturn.ReportReading
