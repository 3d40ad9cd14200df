set_option autoImplicit false

namespace LetReturn.Tokens

structure Span where
  start : Nat
  stop : Nat
  deriving DecidableEq, Repr, Inhabited

def Span.shift (n : Nat) (s : Span) : Span := ⟨s.start + n, s.stop + n⟩

inductive Kind where
  | eof | illegal
  | ident | int
  | assign | eq | plus | minus | bang | notEq | asterisk | slash | lt | gt
  | comma | semicolon | lparen | rparen | lbrace | rbrace
  | fnWord | letWord | returnWord
  deriving DecidableEq, Repr, Inhabited

namespace Kind

def ofWord (word : String) : Kind :=
  if word = "fn" then .fnWord
  else if word = "let" then .letWord
  else if word = "return" then .returnWord
  else .ident

def ofSymbol? (b : UInt8) : Option Kind :=
  match Char.ofUInt8 b with
  | '=' => some .assign
  | '+' => some .plus
  | '-' => some .minus
  | '!' => some .bang
  | '*' => some .asterisk
  | '/' => some .slash
  | '<' => some .lt
  | '>' => some .gt
  | ',' => some .comma
  | ';' => some .semicolon
  | '(' => some .lparen
  | ')' => some .rparen
  | '{' => some .lbrace
  | '}' => some .rbrace
  | _ => none

/-- The name of a kind in messages: a symbol goes by its spelling. -/
def name : Kind → String
  | .eof => "EOF"
  | .illegal => "ILLEGAL"
  | .ident => "IDENT"
  | .int => "INT"
  | .assign => "="
  | .eq => "=="
  | .plus => "+"
  | .minus => "-"
  | .bang => "!"
  | .notEq => "!="
  | .asterisk => "*"
  | .slash => "/"
  | .lt => "<"
  | .gt => ">"
  | .comma => ","
  | .semicolon => ";"
  | .lparen => "("
  | .rparen => ")"
  | .lbrace => "\x7b"
  | .rbrace => "\x7d"
  | .fnWord => "FUNCTION"
  | .letWord => "LET"
  | .returnWord => "RETURN"

end Kind

structure Token where
  kind : Kind
  literal : String
  span : Span
  deriving DecidableEq, Repr, Inhabited

namespace Token

def eof (span : Span) : Token := ⟨.eof, "", span⟩

def is (t : Token) (kind : Kind) : Bool := t.kind == kind

def shift (n : Nat) (t : Token) : Token := { t with span := t.span.shift n }

end Token

end LetReturn.Tokens
