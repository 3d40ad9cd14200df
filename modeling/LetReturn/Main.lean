import LetReturn.CommandLine

set_option autoImplicit false

namespace LetReturn.Main
open Utf8 FileTree CommandLine

def toArray (bytes : Bytes) : ByteArray := bytes.toByteArray

/-- The system gives its code with either sign. -/
def isDirectoryCode (code : UInt32) : Bool := code == 21 || code == 0 - 21

def failureOf : IO.Error → ReadFailure
  | .noFileOrDirectory _ _ _ => .absent
  | .inappropriateType _ code _ => if isDirectoryCode code then .isDirectory else .notDirectory
  | other => .other (toString other)

def readFile (path : String) : IO (Except ReadFailure Bytes) := do
  try return .ok (← IO.FS.readBinFile path).toList
  catch failure => return .error (failureOf failure)

def finish (o : Outcome) : IO UInt32 := do
  (← IO.getStdout).write (toArray o.stdout)
  (← IO.getStderr).write (toArray o.stderr)
  return UInt32.ofNat o.status

partial def readLine (input : IO.FS.Stream) (line : ByteArray) : IO ByteArray := do
  let next ← input.read 1
  if next.isEmpty then return line
  let line := line ++ next
  if next.toList = [0x0A] then return line
  readLine input line

/-- The log is not shown. -/
def console (input output : IO.FS.Stream) : ReadLoop.Console IO where
  write := output.putStr
  flush := output.flush
  read := return (← readLine input ByteArray.empty).toList
  log _ := return

partial def serve (c : ReadLoop.Console IO) : IO Unit := do
  if ← c.round then serve c

def run (command : Command) : IO UInt32 := do
  match command with
  | .version => finish CommandLine.version
  | .interact =>
    let output ← IO.getStdout
    output.putStr (greeting (← IO.getEnv "USER") (← IO.getEnv "USERNAME"))
    serve (console (← IO.getStdin) output)
    return 0
  | .file action path => finish (action.onFile path (← readFile path))

end LetReturn.Main

def main (arguments : List String) : IO UInt32 :=
  match LetReturn.CommandLine.Command.ofArguments? arguments with
  | some command => LetReturn.Main.run command
  | none => LetReturn.Main.finish LetReturn.CommandLine.usage
