import LetReturn.FileTree
import LetReturn.JsonText
import LetReturn.ReadLoop

set_option autoImplicit false

namespace LetReturn.CommandLine
open Utf8 Tokens Scanning Diagnostics Parsing Reports FileTree

inductive Action where
  | check (json : Bool)
  | tokens
  deriving DecidableEq, Repr

inductive Command where
  | version
  | interact
  | file (action : Action) (path : String)
  deriving DecidableEq, Repr

/-- The arguments of a subcommand, sorted. Options are over once a double dash has been seen. -/
structure Sorted where
  positional : List String
  json : Nat
  literal : Bool
  deriving DecidableEq, Repr

def isOption (argument : String) : Bool :=
  argument.toList.head? = some '-' && argument != "-"

/-- The only option there is asks for a report. -/
def sort (s : Sorted) : List String → Option Sorted
  | [] => some s
  | argument :: rest =>
    if s.literal || !isOption argument then
      sort { s with positional := s.positional ++ [argument] } rest
    else if argument = "--" then sort { s with literal := true } rest
    else if argument = "--json" then sort { s with json := s.json + 1 } rest
    else none

def sorted? (arguments : List String) : Option Sorted := sort ⟨[], 0, false⟩ arguments

def path? : List String → Option String
  | [path] => if path = "" then none else some path
  | _ => none

def interact? (arguments : List String) : Option Command :=
  match sorted? arguments with
  | some ⟨[], 0, _⟩ => some .interact
  | _ => none

def check? (arguments : List String) : Option Command := do
  let s ← sorted? arguments
  if 1 < s.json then none
  else return .file (.check (s.json == 1)) (← path? s.positional)

def tokens? (arguments : List String) : Option Command := do
  let s ← sorted? arguments
  if 0 < s.json then none else return .file .tokens (← path? s.positional)

def asksVersion (argument : String) : Bool :=
  argument == "--version" || "-V".toList.isPrefixOf argument.toList

def Command.ofArguments? : List String → Option Command
  | [] => some .interact
  | first :: rest =>
    if first = "repl" then interact? rest
    else if first = "check" then check? rest
    else if first = "tokens" then tokens? rest
    else if first = "--" then if rest.isEmpty then some .interact else none
    else if asksVersion first then some .version
    else none

structure Outcome where
  status : Nat
  stdout : Bytes
  stderr : Bytes
  deriving DecidableEq, Repr

def Outcome.print (status : Nat) (text : String) : Outcome := ⟨status, ofString text, []⟩
def Outcome.complain (status : Nat) (text : String) : Outcome := ⟨status, [], ofString text⟩

def version : Outcome := .print 0 "ricci 0.1.0\n"

def usage : Outcome :=
  .complain 2 "usage: ricci [repl | check [--json] <file> | tokens <file>]\n"

/-- The name of the user is taken from the first of two settings that is there. -/
def greeting (user username : Option String) : String :=
  let name := (user.orElse fun _ => username).getD "friend"
  "Hello " ++ name ++ "! Welcome to the riccilang programming language!\n" ++
    "Start playing around with it by typing in commands.\n"

def unreadable (path : String) (failure : ReadFailure) : Outcome :=
  .complain 1 ("Error: reading " ++ path ++ ": " ++ failure.reason ++ "\n")

def diagnosticLine (path : String) (d : Diagnostic) : String :=
  path ++ ":" ++ toString d.span.start ++ ".." ++ toString d.span.stop ++ ": " ++ d.message ++ "\n"

def checkPlain (path : String) (p : Parse) : Outcome :=
  if p.diagnostics.isEmpty then
    .print 0 (path ++ ": " ++ toString p.program.statements.length ++ " statements, no errors\n")
  else .complain 1 (String.join (p.diagnostics.map (diagnosticLine path)))

def checkJson (path : String) (p : Parse) : Outcome :=
  let r := Report.of path p.program p.diagnostics
  .print (if r.success then 0 else 1) (JsonText.ofReport r ++ "\n")

def tokenLine (t : Token) : String := t.kind.name ++ " " ++ t.literal ++ "\n"

def dumpTokens (source : String) : Outcome :=
  .print 0 (String.join ((Scanner.ofText source).tokens.1.map tokenLine))

def Action.run (action : Action) (path : String) (source : String) : Outcome :=
  match action with
  | check false => checkPlain path (.ofText source)
  | check true => checkJson path (.ofText source)
  | tokens => dumpTokens source

def sourceText (content : Except ReadFailure Bytes) : Except ReadFailure String := do
  match decode? (← content) with
  | some text => .ok text
  | none => .error .notText

/-- The outcome for a file, given its content or the reason why there is none. -/
def Action.onFile (action : Action) (path : String) (content : Except ReadFailure Bytes) :
    Outcome :=
  match sourceText content with
  | .ok source => action.run path source
  | .error failure => unreadable path failure

structure Surroundings where
  user : Option String
  username : Option String
  stdin : Bytes
  files : Tree

def interact (s : Surroundings) : Outcome :=
  ⟨0, ofString (greeting s.user s.username) ++ ReadLoop.transcript s.stdin, []⟩

def Command.run (command : Command) (s : Surroundings) : Outcome :=
  match command with
  | version => CommandLine.version
  | interact => CommandLine.interact s
  | file action path => action.onFile path (s.files.read path)

def run (arguments : List String) (s : Surroundings) : Outcome :=
  match Command.ofArguments? arguments with
  | some command => command.run s
  | none => usage

end LetReturn.CommandLine
