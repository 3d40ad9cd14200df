import LetReturn.Tokens
import LetReturn.Utf8

set_option autoImplicit false

/-!
# Scanning

A scanner is an offset and the bytes not read yet. One step passes over blanks and takes the token
in front: a whole run of letters, a whole run of digits, `==`, `!=`, or a single byte. What a step
does is decided by the unread bytes alone; the offset only places the spans.

Every step that yields a token other than the end of input leaves fewer bytes (`next_unread_lt`).
-/
namespace LetReturn.Scanning
open Tokens

def isBlank (b : UInt8) : Bool :=
  b == 0x20 || b == 0x09 || b == 0x0A || b == 0x0D

def isLetter (b : UInt8) : Bool :=
  let c := Char.ofUInt8 b
  c.isAlpha || c == '_'

def isDigit (b : UInt8) : Bool := (Char.ofUInt8 b).isDigit

/-- Each byte stands for the character with its number. -/
def literal (bytes : List UInt8) : String := String.ofList (bytes.map Char.ofUInt8)

/-- The kind of the token that starts with byte `b`, and how many of the bytes behind it belong
to it. -/
def front (b : UInt8) (rest : List UInt8) : Kind × Nat :=
  if isLetter b then
    let run := rest.takeWhile isLetter
    (Kind.ofWord (literal (b :: run)), run.length)
  else if isDigit b then (.int, (rest.takeWhile isDigit).length)
  else
    match Char.ofUInt8 b, rest.head?.map Char.ofUInt8 with
    | '=', some '=' => (.eq, 1)
    | '!', some '=' => (.notEq, 1)
    | _, _ => ((Kind.ofSymbol? b).getD .illegal, 0)

structure Scanner where
  offset : Nat
  unread : List UInt8
  deriving DecidableEq, Repr, Inhabited

namespace Scanner

def ofBytes (source : List UInt8) : Scanner := ⟨0, source⟩

def ofText (source : String) : Scanner := ofBytes (Utf8.ofString source)

def skip (s : Scanner) (n : Nat) : Scanner := ⟨s.offset + n, s.unread.drop n⟩

def skipBlanks (s : Scanner) : Scanner := s.skip (s.unread.takeWhile isBlank).length

/-- The next token, and the scanner behind it. At the end of the input the token is an empty one
at the last offset, however often it is asked for. -/
def next (s : Scanner) : Token × Scanner :=
  let t := s.skipBlanks
  match t.unread with
  | [] => (Token.eof ⟨t.offset, t.offset⟩, t)
  | b :: rest =>
    let (kind, more) := front b rest
    let last := t.skip (more + 1)
    (⟨kind, literal (t.unread.take (more + 1)), ⟨t.offset, last.offset⟩⟩, last)

theorem skip_unread_length (s : Scanner) (n : Nat) :
    (s.skip n).unread.length = s.unread.length - n := by
  simp [skip]

theorem ofWord_ne_eof (word : String) : Kind.ofWord word ≠ .eof := by
  unfold Kind.ofWord
  repeat' split
  all_goals simp

theorem ofSymbol?_ne_eof (b : UInt8) : Kind.ofSymbol? b ≠ some .eof := by
  unfold Kind.ofSymbol?
  split <;> simp

theorem front_kind_ne_eof (b : UInt8) (rest : List UInt8) : (front b rest).1 ≠ .eof := by
  unfold front
  split
  · exact ofWord_ne_eof _
  · split
    · simp
    · split
      · simp
      · simp
      · have h := ofSymbol?_ne_eof b
        cases hk : Kind.ofSymbol? b with
        | none => simp
        | some kind => simpa [hk] using h

theorem next_unread_le (s : Scanner) : s.next.2.unread.length ≤ s.unread.length := by
  unfold next
  have h := skip_unread_length s (s.unread.takeWhile isBlank).length
  simp only [skipBlanks] at h ⊢
  split
  · simp only [h]
    omega
  · simp only [skip_unread_length]
    omega

theorem next_unread_lt (s : Scanner) (h : s.next.1.kind ≠ .eof) :
    s.next.2.unread.length < s.unread.length := by
  unfold next at h ⊢
  have hs := skip_unread_length s (s.unread.takeWhile isBlank).length
  simp only [skipBlanks] at h hs ⊢
  split
  · rename_i hn
    simp [hn, Token.eof] at h
  · rename_i b rest hn
    have hpos : 0 < (s.skip (s.unread.takeWhile isBlank).length).unread.length := by
      simp [hn]
    simp only [skip_unread_length] at *
    omega

/-- The tokens up to and including the next end of input. -/
def tokens (s : Scanner) : List Token × Scanner :=
  let step := s.next
  if _h : step.1.kind = .eof then ([step.1], step.2)
  else
    let rest := tokens step.2
    (step.1 :: rest.1, rest.2)
termination_by s.unread.length
decreasing_by exact next_unread_lt s _h

end Scanner

end LetReturn.Scanning
