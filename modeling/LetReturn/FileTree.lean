import LetReturn.Utf8

set_option autoImplicit false

namespace LetReturn.FileTree
open Utf8

inductive ReadFailure where
  | absent | notDirectory | isDirectory | notText
  | other (reason : String)
  deriving DecidableEq, Repr

def ReadFailure.reason : ReadFailure → String
  | absent => "No such file or directory (os error 2)"
  | notDirectory => "Not a directory (os error 20)"
  | isDirectory => "Is a directory (os error 21)"
  | notText => "stream did not contain valid UTF-8"
  | other reason => reason

def names : List Char → List (List Char)
  | [] => [[]]
  | c :: rest =>
    match names rest with
    | [] => [[c]]
    | first :: more => if c = '/' then [] :: first :: more else (c :: first) :: more

inductive Entry where
  | file (content : Bytes)
  | directory
  deriving DecidableEq, Repr

abbrev Path := List (List Char)

/-- Where a walk stands: below the working directory, or above it. -/
inductive Place where
  | below (path : Path)
  | above
  deriving DecidableEq, Repr

namespace Place

def isDots (name : List Char) : Bool := name == [] || name == ['.'] || name == ['.', '.']

/-- Nothing and one dot stay, two dots go up, and any other name goes down. -/
def follow : Place → List Char → Place
  | place, [] => place
  | place, ['.'] => place
  | above, _ => above
  | below path, ['.', '.'] => if path.isEmpty then above else below path.dropLast
  | below path, name => below (path ++ [name])

def way (place : Place) (passed : List Place) : List (List Char) → List Place
  | [] => place :: passed
  | name :: rest => way (place.follow name) (place :: passed) rest

def path? : Place → Option Path
  | below path => some path
  | above => none

end Place

/-- Entries with the paths that lead to them, the newest first. -/
structure Tree where
  entries : List (Path × Entry)
  deriving DecidableEq, Repr

namespace Tree

def empty : Tree := ⟨[]⟩

def put (t : Tree) (place : Place) (entry : Entry) : Tree :=
  match place.path? with
  | some path => ⟨(path, entry) :: t.entries⟩
  | none => t

/-- Add a file, or a directory if the name ends in a slash. All places on the way to it are
directories. -/
def add (t : Tree) (name : String) (content : Bytes) : Tree :=
  let entry := if name.toList.getLast? = some '/' then .directory else .file content
  match (Place.below []).way [] (names name.toList) with
  | [] => t
  | last :: passed => (passed.foldr (fun place t => t.put place .directory) t).put last entry

def entry? (t : Tree) (path : Path) : Option Entry :=
  if path.isEmpty then some .directory else (t.entries.find? (·.1 == path)).map (·.2)

def isDirectory (t : Tree) : Place → Bool
  | .below path => t.entry? path == some .directory
  | .above => true

def holds (t : Tree) : Place → Bool
  | .below path => (t.entry? path).isSome
  | .above => true

def enter (t : Tree) (place : Place) (name : List Char) : Except ReadFailure Place :=
  if place = .above ∧ !Place.isDots name then .error .absent
  else if t.holds (place.follow name) then .ok (place.follow name)
  else .error .absent

def walk (t : Tree) : Place → List (List Char) → Except ReadFailure Place
  | place, [] => .ok place
  | place, name :: rest =>
    if t.isDirectory place then t.enter place name >>= fun next => t.walk next rest
    else .error .notDirectory

/-- A path that starts with a slash does not start at the working directory. -/
def start (path : List Char) : Place := if path.head? = some '/' then .above else .below []

def read (t : Tree) (path : String) : Except ReadFailure Bytes := do
  match ← t.walk (start path.toList) (names path.toList) with
  | .above => .error .isDirectory
  | .below found =>
    match t.entry? found with
    | some (.file content) => .ok content
    | some .directory => .error .isDirectory
    | none => .error .absent

end Tree

end LetReturn.FileTree
