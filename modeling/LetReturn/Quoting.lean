import LetReturn.HiddenCharacters

set_option autoImplicit false

namespace LetReturn.Quoting
open HiddenCharacters

def hidden : List (Nat × Nat) := firstPlane ++ laterPlanes

def isHidden (c : Char) : Bool :=
  hidden.any fun range => range.1 ≤ c.toNat && c.toNat ≤ range.2

def codePoint (c : Char) : List Char :=
  '\\' :: 'u' :: '{' :: (Nat.toDigits 16 c.toNat ++ ['}'])

def escape (c : Char) : List Char :=
  match c with
  | '"' => ['\\', '"']
  | '\\' => ['\\', '\\']
  | '\x00' => ['\\', '0']
  | '\t' => ['\\', 't']
  | '\n' => ['\\', 'n']
  | '\r' => ['\\', 'r']
  | c => if isHidden c then codePoint c else [c]

def quote (text : String) : String :=
  String.ofList ('"' :: (text.toList.flatMap escape ++ ['"']))

end LetReturn.Quoting
