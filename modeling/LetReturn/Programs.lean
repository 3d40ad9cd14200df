import LetReturn.Diagnostics
import LetReturn.Integers

set_option autoImplicit false

namespace LetReturn.Programs
open Tokens Diagnostics

structure Identifier where
  token : Token
  value : String
  deriving DecidableEq, Repr

def Identifier.ofToken (t : Token) : Identifier := ⟨t, t.literal⟩

structure IntegerLiteral where
  token : Token
  value : Int64
  deriving DecidableEq, Repr

/-- The literal of the token has to be a 64-bit integer; its kind does not matter. -/
def IntegerLiteral.ofToken (t : Token) : Except Diagnostic IntegerLiteral :=
  match Integers.int64? t.literal with
  | some value => .ok ⟨t, value⟩
  | none => .error (.invalidInteger t.literal t.span)

inductive Expression where
  | ident (name : Identifier)
  | int (number : IntegerLiteral)
  deriving DecidableEq, Repr

namespace Expression

def literal : Expression → String
  | ident name => name.token.literal
  | int number => number.token.literal

/-- An identifier shows its value, an integer the digits it was written with. -/
def text : Expression → String
  | ident name => name.value
  | int number => number.token.literal

end Expression

inductive Statement where
  | binding (token : Token) (name : Identifier) (value : Option Expression)
  | returning (token : Token) (value : Option Expression)
  | bare (token : Token) (value : Expression)
  deriving DecidableEq, Repr

namespace Statement

def token : Statement → Token
  | binding token _ _ => token
  | returning token _ => token
  | bare token _ => token

def literal (s : Statement) : String := s.token.literal

def valueText (value : Option Expression) : String := (value.map Expression.text).getD ""

def text : Statement → String
  | binding token name value => token.literal ++ " " ++ name.value ++ " = " ++ valueText value ++ ";"
  | returning token value => token.literal ++ " " ++ valueText value ++ ";"
  | bare _ value => value.text

end Statement

structure Program where
  statements : List Statement
  deriving DecidableEq, Repr

namespace Program

def empty : Program := ⟨[]⟩

def literal (p : Program) : String := (p.statements.head?.map Statement.literal).getD ""

def text (p : Program) : String := String.join (p.statements.map Statement.text)

end Program

end LetReturn.Programs
