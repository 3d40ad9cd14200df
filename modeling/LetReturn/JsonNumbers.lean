import LetReturn.Integers
import LetReturn.JsonReading

set_option autoImplicit false

namespace LetReturn.JsonNumbers
open JsonReading

structure Numeral where
  negative : Bool
  whole : List Char
  fraction : Option (List Char)
  /-- The sign and the digits behind the `e`. -/
  exponent : Option (Bool × List Char)
  deriving DecidableEq, Repr

/-- At least one digit; `early` is the fault of a text that ends before it. -/
def someDigits (early : Fault) (text : List Char) : Outcome (List Char × List Char) :=
  match text with
  | [] => .error early
  | c :: _ =>
    if c.isDigit then .ok (text.takeWhile Char.isDigit, text.dropWhile Char.isDigit)
    else .error .malformed

/-- The digits before the point: a zero stands alone. -/
def wholePart (early : Fault) (text : List Char) : Outcome (List Char × List Char) := do
  let (digits, rest) ← someDigits early text
  if digits.head? = some '0' ∧ digits.length ≠ 1 then .error .malformed
  else .ok (digits, rest)

def fractionPart (early : Fault) : List Char → Outcome (Option (List Char) × List Char)
  | '.' :: text => (someDigits early text).map fun part => (some part.1, part.2)
  | text => .ok (none, text)

def sign : List Char → Bool × List Char
  | '+' :: text => (false, text)
  | '-' :: text => (true, text)
  | text => (false, text)

def exponentPart (early : Fault) (text : List Char) :
    Outcome (Option (Bool × List Char) × List Char) :=
  match text with
  | [] => .ok (none, text)
  | c :: rest =>
    if c = 'e' ∨ c = 'E' then
      (someDigits early (sign rest).2).map fun part => (some ((sign rest).1, part.1), part.2)
    else .ok (none, text)

def minus : List Char → Bool × List Char
  | '-' :: text => (true, text)
  | text => (false, text)

/-- The numeral in front; `early` is the fault of a text that ends where a digit has to stand. -/
def numeral (early : Fault) (text : List Char) : Outcome (Numeral × List Char) := do
  let (whole, rest) ← wholePart early (minus text).2
  let (fraction, rest) ← fractionPart early rest
  let (exponent, rest) ← exponentPart early rest
  .ok (⟨(minus text).1, whole, fraction, exponent⟩, rest)

def startsNumeral (c : Char) : Bool := c == '-' || c.isDigit

/-- Leading digits gathered into a word of 64 bits, and the power of ten that goes with them. -/
structure Scaled where
  significand : Nat
  exponent : Int
  /-- A digit did not fit any more. -/
  full : Bool

namespace Scaled

def push (s : Scaled) (c : Char) : Nat := Nat.ofDigitChars 10 [c] s.significand

/-- A digit before the point that does not fit counts as a power of ten. -/
def whole (s : Scaled) (c : Char) : Scaled :=
  if s.full then { s with exponent := s.exponent + 1 }
  else if s.push c < UInt64.size then { s with significand := s.push c }
  else { s with exponent := s.exponent + 1, full := true }

/-- A digit behind the point that does not fit is left out, and so are those that follow. -/
def fraction (s : Scaled) (c : Char) : Scaled :=
  if s.full then s
  else if s.push c < UInt64.size then { s with significand := s.push c, exponent := s.exponent - 1 }
  else { s with full := true }

end Scaled

def Numeral.scaled (n : Numeral) : Scaled :=
  let whole := n.whole.foldl Scaled.whole ⟨0, 0, false⟩
  let s := (n.fraction.getD []).foldl Scaled.fraction { whole with full := false }
  match n.exponent with
  | none => s
  | some (negative, digits) =>
    let e := Int.ofNat (Integers.natural digits)
    { s with exponent := if negative then s.exponent - e else s.exponent + e }

/-- The nearest number of 53 significant bits; of two the even one. -/
def nearest53 (n : Nat) : Nat :=
  if n < Nat.pow 2 53 then n
  else
    let unit := Nat.pow 2 (n.log2 - 52)
    let q := n / unit
    let r := n % unit
    if 2 * r < unit ∨ (2 * r = unit ∧ q % 2 = 0) then q * unit else (q + 1) * unit

def doubleLimit : Nat := Nat.pow 2 1024 - Nat.pow 2 970

/-- Significand and power of ten are each rounded to double precision, and so is their product. -/
def Numeral.tooLarge (n : Numeral) : Bool :=
  let s := n.scaled
  if s.significand = 0 ∨ s.exponent < 0 then false
  else if 308 < s.exponent then true
  else doubleLimit ≤ nearest53 s.significand * nearest53 (Nat.pow 10 s.exponent.toNat)

def Numeral.count? (n : Numeral) : Option Nat :=
  let value := Integers.natural n.whole
  if n.negative || n.fraction.isSome || n.exponent.isSome then none
  else if value < UInt64.size then some value
  else none

def Numeral.refusal (n : Numeral) : Fault := if n.tooLarge then .malformed else .mismatch

theorem someDigits_shorter {early : Fault} {text digits rest : List Char}
    (h : someDigits early text = .ok (digits, rest)) : rest.length < text.length := by
  unfold someDigits at h
  split at h
  · cases h
  · rename_i c more
    split at h
    · rename_i hc
      cases h
      have hd := (List.dropWhile_sublist (l := more) Char.isDigit).length_le
      simp only [List.dropWhile_cons, hc, ite_true, List.length_cons]
      omega
    · cases h

theorem wholePart_shorter {early : Fault} {text digits rest : List Char}
    (h : wholePart early text = .ok (digits, rest)) : rest.length < text.length := by
  unfold wholePart at h
  obtain ⟨⟨d, r⟩, hd, h⟩ := bind_eq_ok.1 h
  simp only at h
  split at h
  · cases h
  · cases h
    exact someDigits_shorter hd

theorem fractionPart_length_le {early : Fault} {text rest : List Char}
    {part : Option (List Char)} (h : fractionPart early text = .ok (part, rest)) :
    rest.length ≤ text.length := by
  unfold fractionPart at h
  split at h
  · obtain ⟨⟨d, r⟩, hd, he⟩ := map_eq_ok.1 h
    cases he
    exact Nat.le_succ_of_le (Nat.le_of_lt (someDigits_shorter hd))
  · cases h
    exact Nat.le_refl _

theorem minus_length_le (text : List Char) : (minus text).2.length ≤ text.length := by
  unfold minus
  split <;> simp

theorem sign_length_le (text : List Char) : (sign text).2.length ≤ text.length := by
  unfold sign
  split <;> simp

theorem exponentPart_length_le {early : Fault} {text rest : List Char}
    {part : Option (Bool × List Char)} (h : exponentPart early text = .ok (part, rest)) :
    rest.length ≤ text.length := by
  unfold exponentPart at h
  split at h
  · cases h
    exact Nat.le_refl _
  · rename_i c more
    split at h
    · obtain ⟨⟨d, r⟩, hd, he⟩ := map_eq_ok.1 h
      cases he
      have h1 := someDigits_shorter hd
      have h2 := sign_length_le more
      simp only [List.length_cons]
      omega
    · cases h
      exact Nat.le_refl _

theorem numeral_shorter {early : Fault} {text rest : List Char} {n : Numeral}
    (h : numeral early text = .ok (n, rest)) : rest.length < text.length := by
  unfold numeral at h
  obtain ⟨⟨w, r1⟩, h1, h⟩ := bind_eq_ok.1 h
  obtain ⟨⟨f, r2⟩, h2, h⟩ := bind_eq_ok.1 h
  obtain ⟨⟨e, r3⟩, h3, h⟩ := bind_eq_ok.1 h
  have l0 := minus_length_le text
  have l1 := wholePart_shorter h1
  have l2 := fractionPart_length_le h2
  have l3 := exponentPart_length_le h3
  cases h
  omega

end LetReturn.JsonNumbers
