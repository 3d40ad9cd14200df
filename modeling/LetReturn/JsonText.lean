import LetReturn.Reports

set_option autoImplicit false

namespace LetReturn.JsonText
open Reports

/-- Quotes, backslashes and the characters below the space are escaped; all others stand for
themselves. -/
def escape (c : Char) : List Char :=
  match c with
  | '"' => ['\\', '"']
  | '\\' => ['\\', '\\']
  | '\x08' => ['\\', 'b']
  | '\x0c' => ['\\', 'f']
  | '\n' => ['\\', 'n']
  | '\r' => ['\\', 'r']
  | '\t' => ['\\', 't']
  | c =>
    if c.toNat < 0x20 then
      ['\\', 'u', '0', '0', Nat.digitChar (c.toNat / 16), Nat.digitChar (c.toNat % 16)]
    else [c]

def quote (text : String) : String :=
  String.ofList ('"' :: (text.toList.flatMap escape ++ ['"']))

def flag (b : Bool) : String := if b then "true" else "false"

def member (key value : String) : String := quote key ++ ": " ++ value

def noteLines (n : Note) : List String :=
  ["      " ++ member "message" (quote n.message) ++ ",",
   "      " ++ member "start" (toString n.start) ++ ",",
   "      " ++ member "end" (toString n.stop)]

def notesLines : List Note → List String
  | [] => []
  | [n] => "    \x7b" :: noteLines n ++ ["    \x7d"]
  | n :: rest => "    \x7b" :: noteLines n ++ "    \x7d," :: notesLines rest

/-- The last member; a list without elements stays on the line. -/
def diagnosticsLines (notes : List Note) : List String :=
  if notes.isEmpty then ["  " ++ member "diagnostics" "[]"]
  else ("  " ++ member "diagnostics" "[") :: notesLines notes ++ ["  ]"]

def lines (r : Report) : List String :=
  "\x7b" ::
  ("  " ++ member "success" (flag r.success) ++ ",") ::
  ("  " ++ member "source_file" (quote r.sourceFile) ++ ",") ::
  ("  " ++ member "statement_count" (toString r.statementCount) ++ ",") ::
  diagnosticsLines r.notes ++ ["\x7d"]

def ofReport (r : Report) : String := "\n".intercalate (lines r)

end LetReturn.JsonText
